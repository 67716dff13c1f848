import CephDokan.Client.SnapForest

/-!
# Building and invalidating snap contexts

`get_snap_context` goes up the parents as far as no context is kept and fills the caches on its
way; the walk of an invalidation goes down the children and meets every realm below the first
one once. Between a change of a realm and its invalidation wrong contexts may be kept, but only
at and below that realm.
-/

namespace CephDokan.Client

open Fallible List
open ObjectCacher (SnapContext)
open Inherited

/-! ### Sets of snaps -/

variable {n k : ℕ} {l : List ℕ}

theorem mem_insertSnap : k ∈ insertSnap n l ↔ k = n ∨ k ∈ l := by
  induction l with
  | nil => exact mem_cons
  | cons m l ih =>
    rw [insertSnap]
    by_cases hlt : m < n
    · rw [if_pos hlt, mem_cons]
    by_cases heq : n = m
    · rw [if_neg hlt, if_pos heq, heq, mem_cons, or_self_left]
    · rw [if_neg hlt, if_neg heq, mem_cons, ih, mem_cons, or_left_comm]

theorem insertSnap_desc (h : l.Pairwise (· > ·)) : (insertSnap n l).Pairwise (· > ·) := by
  induction l with
  | nil => exact pairwise_singleton _ _
  | cons m l ih =>
    obtain ⟨hm, hl⟩ := pairwise_cons.mp h
    rw [insertSnap]
    by_cases hlt : m < n
    · rw [if_pos hlt]
      refine pairwise_cons.mpr ⟨fun k hk => ?_, h⟩
      rcases mem_cons.mp hk with rfl | hk
      · exact hlt
      · exact (hm k hk).trans hlt
    by_cases heq : n = m
    · rw [if_neg hlt, if_pos heq]
      exact h
    · rw [if_neg hlt, if_neg heq]
      refine pairwise_cons.mpr ⟨fun k hk => ?_, ih hl⟩
      rcases mem_insertSnap.mp hk with rfl | hk
      · omega
      · exact hm k hk

theorem snapSet_spec (l : List ℕ) : (snapSet l).Pairwise (· > ·) ∧ ∀ n, n ∈ snapSet l ↔ n ∈ l := by
  suffices h : ∀ acc : List ℕ, acc.Pairwise (· > ·) →
      (l.foldl (fun snaps n => insertSnap n snaps) acc).Pairwise (· > ·) ∧
        ∀ n, n ∈ l.foldl (fun snaps n => insertSnap n snaps) acc ↔ n ∈ acc ∨ n ∈ l by
    obtain ⟨hdesc, hmem⟩ := h [] List.Pairwise.nil
    refine ⟨hdesc, fun n => ?_⟩
    rw [snapSet, hmem]
    simp only [not_mem_nil, false_or]
  induction l with
  | nil =>
    intro acc hacc
    refine ⟨hacc, fun n => ?_⟩
    simp only [foldl_nil, not_mem_nil, or_false]
  | cons m l ih =>
    intro acc hacc
    obtain ⟨hdesc, hmem⟩ := ih (insertSnap m acc) (insertSnap_desc hacc)
    refine ⟨hdesc, fun n => ?_⟩
    rw [foldl_cons, hmem, mem_insertSnap, mem_cons, or_assoc, or_left_comm]

namespace SnapState

def tree (s : SnapState) : Forest ℕ RealmSnaps :=
  fun r => (s.realms.find? r).map fun x => (x.snaps, x.pparent)

/-- A context of `seq` 0 is never used. -/
def cache (s : SnapState) (r : ℕ) : Option SnapContext :=
  if (s.cached r).seq = 0 then none else some (s.cached r)

/-- The realms are in order, and contexts that are kept are right except below `stale`. -/
structure Good (s : SnapState) (rank : ℕ → ℕ) (held moving : List ℕ) (stale : Set ℕ) : Prop where
  ok : RealmsOk s.realms.find? s.snaprealm rank held moving
  current : Current RealmSnaps.buildSnapContext s.tree s.cache stale

variable {s s' : SnapState} {rank : ℕ → ℕ} {held moving : List ℕ} {stale stale' : Set ℕ}
  {r p : ℕ} {x y : SnapRealm} {c : SnapContext}

theorem deref_eq (h : s.realms.find? r = some x) : s.deref r = .ok x := by
  rw [deref, h]

theorem tree_eq (h : s.realms.find? r = some x) : s.tree r = some (x.snaps, x.pparent) := by
  rw [tree, h, Option.map_some]

theorem exists_of_tree {d} {up} (h : s.tree r = some (d, up)) :
    ∃ x, s.realms.find? r = some x ∧ x.snaps = d ∧ x.pparent = up := by
  obtain ⟨x, hx, heq⟩ := Option.map_eq_some_iff.mp h
  cases heq
  exact ⟨x, hx, rfl, rfl⟩

theorem cache_of_ne (h : (s.cached r).seq ≠ 0) : s.cache r = some (s.cached r) := if_neg h

theorem cache_keep_of_ne (h : k ≠ r) : (s.keep r c).cache k = s.cache k := by
  simp only [cache, keep, Function.update_of_ne h]

theorem cache_keep_self : (s.keep r c).cache r = if c.seq = 0 then none else some c := by
  simp only [cache, keep, Function.update_self]

theorem closed_tree (h : RealmsOk s.realms.find? s.snaprealm rank held moving) : Closed s.tree := by
  intro i d p hi
  obtain ⟨x, hx, -, hp⟩ := exists_of_tree hi
  obtain ⟨y, hy, -⟩ := h.parent i x p hx hp
  exact ⟨_, tree_eq hy⟩

theorem isContext_of_value (h : Value RealmSnaps.buildSnapContext s.tree r c) :
    IsContext s r c := by
  induction h with
  | @root r d hroot =>
    obtain ⟨x, hx, hd, hp⟩ := exists_of_tree hroot
    subst hd
    obtain ⟨hdesc, hmem⟩ := snapSet_spec (x.snaps.priorParentSnaps ++ x.snaps.mySnaps)
    refine .root hx hp rfl hdesc fun n => ?_
    rw [RealmSnaps.buildSnapContext, hmem, mem_append, or_comm]
    rfl
  | @child r p d pc hchild _ ih =>
    obtain ⟨x, hx, hd, hp⟩ := exists_of_tree hchild
    subst hd
    obtain ⟨hdesc, hmem⟩ := snapSet_spec (x.snaps.priorParentSnaps ++
      pc.snaps.filter (fun n => n ≥ x.snaps.parentSince) ++ x.snaps.mySnaps)
    refine .child hx hp ih ?_ hdesc fun n => ?_
    · show (if pc.seq > x.seq then pc.seq else x.seq) = max x.seq pc.seq
      split <;> omega
    · rw [RealmSnaps.buildSnapContext, hmem, mem_append, mem_append, mem_filter,
        decide_eq_true_eq, or_comm]
      rfl

theorem IsContext.unique {c'} (h : IsContext s r c) (h' : IsContext s r c') : c = c' := by
  induction h generalizing c' with
  | root hx hroot hseq hdesc hsnaps =>
    cases h' with
    | root hx' _ hseq' hdesc' hsnaps' =>
      cases hx.symm.trans hx'
      have heq := hdesc.eq_of_mem_iff hdesc' fun n => (hsnaps n).trans (hsnaps' n).symm
      exact congrArg₂ SnapContext.mk (hseq.trans hseq'.symm) heq
    | child hx' hparent' =>
      cases hx.symm.trans hx'
      cases hroot.symm.trans hparent'
  | child hx hparent _ hseq hdesc hsnaps ih =>
    cases h' with
    | root hx' hroot' =>
      cases hx.symm.trans hx'
      cases hparent.symm.trans hroot'
    | child hx' hparent' hpc' hseq' hdesc' hsnaps' =>
      cases hx.symm.trans hx'
      cases hparent.symm.trans hparent'
      cases ih hpc'
      have heq := hdesc.eq_of_mem_iff hdesc' fun n => (hsnaps n).trans (hsnaps' n).symm
      exact congrArg₂ SnapContext.mk (hseq.trans hseq'.symm) heq

namespace Good

theorem keep (h : Good s rank held moving stale)
    (hc : Value RealmSnaps.buildSnapContext s.tree r c ∨ ∃ j ∈ stale, Below s.tree r j) :
    Good (s.keep r c) rank held moving stale := by
  refine ⟨h.ok, h.current.fill (fun k hk => cache_keep_of_ne hk) fun v hv => ?_⟩
  rw [cache_keep_self] at hv
  split at hv
  · cases hv
  · cases hv
    exact hc

/-- The context of a realm is right, or the realm is below one that has changed. -/
theorem getSnapContext (h : Good s rank held moving stale) (hr : s.realms.find? r = some x) :
    ∃ c s', Returns (fun fuel => s.getSnapContext fuel r) (c, s') ∧ s'.realms = s.realms ∧
      s'.snaprealm = s.snaprealm ∧ Good s' rank held moving stale ∧
      (Value RealmSnaps.buildSnapContext s.tree r c ∨ ∃ j ∈ stale, Below s.tree r j) := by
  -- by induction on the rank, which falls from a realm to its parent
  induction hn : rank r using Nat.strong_induction_on generalizing r x with
  | _ n ih =>
    by_cases hseq : (s.cached r).seq = 0
    · cases hp : x.pparent with
      | none =>
        have hval : Value RealmSnaps.buildSnapContext s.tree r (x.snaps.buildSnapContext none) :=
          .root (by rw [tree_eq hr, hp])
        refine ⟨_, s.keep r _, .of_succ ?_, rfl, rfl, h.keep (.inl hval), .inl hval⟩
        simp only [SnapState.getSnapContext, deref_eq hr, ok_bind, if_pos hseq, hp]
        exact .ok _
      | some p =>
        obtain ⟨y, hy, -⟩ := h.ok.parent r x p hr hp
        have hup : s.tree r = some (x.snaps, some p) := by rw [tree_eq hr, hp]
        obtain ⟨pc, s1, hret, hrealms, hsnaprealm, hgood, hpc⟩ :=
          ih (rank p) (hn ▸ h.ok.ranked r x p hr hp) hy rfl
        have htree : s1.tree = s.tree := by
          unfold tree
          rw [hrealms]
        have hc : Value RealmSnaps.buildSnapContext s.tree r
            (x.snaps.buildSnapContext (some pc)) ∨ ∃ j ∈ stale, Below s.tree r j := by
          rcases hpc with hval | ⟨j, hj, hbelow⟩
          · exact .inl (.child hup hval)
          · exact .inr ⟨j, hj, .up hup hbelow⟩
        refine ⟨_, s1.keep r _, .of_succ ?_, hrealms, hsnaprealm, hgood.keep (htree ▸ hc), hc⟩
        simp only [SnapState.getSnapContext, deref_eq hr, ok_bind, if_pos hseq, hp]
        exact hret.bind (.ok _)
    · refine ⟨_, s, .of_succ ?_, rfl, rfl, h, h.current r _ _ (tree_eq hr) (cache_of_ne hseq)⟩
      simp only [SnapState.getSnapContext, deref_eq hr, ok_bind, if_neg hseq]
      exact .ok _

end Good

/-! ### The walk down -/

/-- What a walk from `start` has done, and the queue of what it has to do. -/
structure Frontier (m : ℕ → Option SnapRealm) (rank : ℕ → ℕ) (start : ℕ) (done queue : List ℕ) :
    Prop where
  nodup : (done ++ queue).Nodup
  known : ∀ r ∈ done ++ queue, ∃ x, m r = some x
  first : start ∈ done ++ queue
  above : ∀ r ∈ done ++ queue, rank start ≤ rank r
  parent : ∀ r ∈ done ++ queue, r ≠ start → ∃ x p, m r = some x ∧ x.pparent = some p ∧ p ∈ done
  children : ∀ r ∈ done, ∀ x, m r = some x → ∀ c ∈ x.pchildren, c ∈ done ++ queue

variable {realms : SortedMap ℕ SnapRealm}

namespace Frontier

variable {m : ℕ → Option SnapRealm} {snaprealm : ℕ → Option ℕ} {start : ℕ} {done queue : List ℕ}

theorem init (h : m r = some x) : Frontier m rank r [] [r] := by
  constructor <;> simp [h]

/-- The first of the queue is visited. Its children are new: they have no other parent. -/
theorem step (h : Frontier m rank start done (r :: queue))
    (hok : RealmsOk m snaprealm rank held moving) (hr : m r = some x) :
    Frontier m rank start (done ++ [r]) (queue ++ x.pchildren) := by
  have hmem : ∀ k, k ∈ done ++ [r] ++ (queue ++ x.pchildren) ↔
      k ∈ done ++ r :: queue ∨ k ∈ x.pchildren := by
    intro k
    simp only [mem_append, mem_cons, not_mem_nil, or_false]
    tauto
  have hr' : r ∈ done ++ r :: queue := mem_append_right _ mem_cons_self
  have hdone : r ∉ done := fun hin => (nodup_append.mp h.nodup).2.2 r hin r mem_cons_self rfl
  have hnew : ∀ k ∈ x.pchildren, k ∉ done ++ r :: queue := by
    intro k hk hin
    obtain ⟨y, hy, hp⟩ := hok.child r x k hr hk
    have hlt := hok.ranked k y r hy hp
    have habove := h.above r hr'
    obtain ⟨y', p, hy', hp', hpdone⟩ := h.parent k hin (by rintro rfl; omega)
    rw [hy] at hy'
    cases hy'
    rw [hp] at hp'
    cases hp'
    exact hdone hpdone
  constructor
  · rw [← append_assoc, append_assoc done]
    apply List.Nodup.append h.nodup (hok.nodup r x hr)
    exact fun k hin hk => hnew k hk hin
  · intro k hk
    rcases (hmem k).mp hk with hk | hk
    · exact h.known k hk
    · obtain ⟨y, hy, -⟩ := hok.child r x k hr hk
      exact ⟨y, hy⟩
  · exact (hmem start).mpr (.inl h.first)
  · intro k hk
    rcases (hmem k).mp hk with hk | hk
    · exact h.above k hk
    · obtain ⟨y, hy, hp⟩ := hok.child r x k hr hk
      exact (h.above r hr').trans (hok.ranked k y r hy hp).le
  · intro k hk hne
    rcases (hmem k).mp hk with hk | hk
    · obtain ⟨y, p, hy, hp, hin⟩ := h.parent k hk hne
      exact ⟨y, p, hy, hp, mem_append_left _ hin⟩
    · obtain ⟨y, hy, hp⟩ := hok.child r x k hr hk
      exact ⟨y, r, hy, hp, mem_append_right _ mem_cons_self⟩
  · intro k hk y hy c hc
    rw [hmem]
    rcases mem_append.mp hk with hk | hk
    · exact .inl (h.children k hk y hy c hc)
    · rw [mem_singleton] at hk
      subst hk
      rw [hr] at hy
      cases hy
      exact .inr hc

theorem visited (h : Frontier s.realms.find? rank start done [])
    (hok : RealmsOk s.realms.find? snaprealm rank held moving) {i}
    (hbelow : Below s.tree i start) : i ∈ done := by
  have hnil : done ++ [] = done := append_nil done
  induction hbelow with
  | refl => exact hnil ▸ h.first
  | up hup _ ih =>
    obtain ⟨x, hx, -, hp⟩ := exists_of_tree hup
    obtain ⟨y, hy, hin⟩ := hok.parent _ x _ hx hp
    exact hnil ▸ h.children _ (ih h) y hy _ hin

theorem length_le (h : Frontier realms.find? rank start done queue) :
    done.length + queue.length ≤ realms.entries.length := by
  have hkeys : (realms.entries.map Prod.fst).length = realms.entries.length := length_map _
  rw [← length_append, ← hkeys]
  refine (h.nodup.subperm fun r hr => ?_).length_le
  obtain ⟨x, hx⟩ := h.known r hr
  exact mem_map.mpr ⟨(r, x), SortedMap.mem_of_find? hx, rfl⟩

end Frontier

/-- A visit of a realm returns, keeps the realms and takes `P` a realm further. -/
def Visits (realms : SortedMap ℕ SnapRealm) (visit : ℕ → SnapState → ℕ → Run SnapState)
    (P : SnapState → List ℕ → Prop) : Prop :=
  ∀ s done r x, s.realms = realms → P s done → realms.find? r = some x →
    ∃ s', Returns (fun fuel => visit fuel s r) s' ∧ s'.realms = realms ∧ P s' (done ++ [r])

section

variable {visit : ℕ → SnapState → ℕ → Run SnapState} {P : SnapState → List ℕ → Prop}

theorem walk_spec {snaprealm} {start} {done queue}
    (hok : RealmsOk realms.find? snaprealm rank held moving) (hvisit : Visits realms visit P)
    (h : Frontier realms.find? rank start done queue) (hs : s.realms = realms) (hP : P s done) :
    ∃ s' done', (∃ bound, ∀ fuel steps, bound ≤ fuel → realms.entries.length ≤ done.length + steps →
        walk (visit fuel) steps s queue = .ok s') ∧
      s'.realms = realms ∧ P s' done' ∧ Frontier realms.find? rank start done' [] := by
  -- by induction on the number of realms that have not been visited
  induction hn : realms.entries.length - done.length using Nat.strong_induction_on
    generalizing s done queue with
  | _ n ih =>
    cases queue with
    | nil =>
      refine ⟨s, done, ⟨0, fun fuel steps _ _ => ?_⟩, hs, hP, h⟩
      unfold walk
      rfl
    | cons r queue =>
      obtain ⟨x, hx⟩ := h.known r (mem_append_right _ mem_cons_self)
      obtain ⟨s1, ⟨b1, hret⟩, hs1, hP1⟩ := hvisit s done r x hs hP hx
      have hle := h.length_le
      have hlen : (done ++ [r]).length = done.length + 1 := length_append
      rw [length_cons] at hle
      obtain ⟨s', done', ⟨b2, hwalk⟩, hend⟩ := ih _ (by omega) (h.step hok hx) hs1 hP1 rfl
      refine ⟨s', done', ⟨max b1 b2, fun fuel steps hfuel hsteps => ?_⟩, hend⟩
      obtain ⟨steps, rfl⟩ : ∃ k, steps = k + 1 := ⟨steps - 1, by omega⟩
      have hone : visit fuel s r = .ok s1 := hret fuel (by omega)
      rw [walk, hone, ok_bind, deref_eq (hs1 ▸ hx), ok_bind]
      exact hwalk fuel steps (by omega) (by omega)

theorem walk_single (hok : RealmsOk s.realms.find? s.snaprealm rank held moving)
    (hr : s.realms.find? r = some x) (hvisit : Visits s.realms visit P) (hP : P s []) :
    ∃ s' done, Returns (fun fuel => walk (visit fuel) fuel s [r]) s' ∧ s'.realms = s.realms ∧
      P s' done ∧ ∀ i, Below s.tree i r → i ∈ done := by
  obtain ⟨s', done, ⟨bound, hwalk⟩, hs', hP', hend⟩ :=
    walk_spec hok hvisit (Frontier.init hr) rfl hP
  refine ⟨s', done, ⟨max bound s.realms.entries.length, fun fuel hfuel => ?_⟩, hs', hP',
    fun i hi => hend.visited hok hi⟩
  apply hwalk fuel fuel (by omega)
  omega

end

namespace Good

section

variable (h : Good s rank held moving stale)

include h

theorem of_realms (hrealms : s'.realms = s.realms) (hsnaprealm : s'.snaprealm = s.snaprealm)
    (hcurrent : Current RealmSnaps.buildSnapContext s.tree s'.cache stale') :
    Good s' rank held moving stale' := by
  obtain ⟨hok, -⟩ := h
  refine ⟨by rw [hrealms, hsnaprealm]; exact hok, ?_⟩
  unfold tree
  rw [hrealms]
  exact hcurrent

section

variable (hr : s.realms.find? r = some x)

include hr

theorem invalidateSnaprealmAndChildren (hstale : ∀ j ∈ stale, j = r) :
    ∃ s', Returns (fun fuel => s.invalidateSnaprealmAndChildren fuel r) s' ∧
      Good s' rank held moving ∅ := by
  let P : SnapState → List ℕ → Prop := fun s' done =>
    s'.snaprealm = s.snaprealm ∧ ∀ i, s'.cache i = if i ∈ done then none else s.cache i
  have hvisit : Visits s.realms (fun _ s' r => .ok (s'.invalidateCache r)) P := by
    intro s' done r x hrealms ⟨hsnaprealm, hcache⟩ _
    refine ⟨_, .ok _, hrealms, hsnaprealm, fun i => ?_⟩
    by_cases hi : i = r
    · subst hi
      rw [if_pos (mem_append_right _ mem_cons_self), invalidateCache, cache_keep_self]
      exact if_pos rfl
    · simp only [invalidateCache, cache_keep_of_ne hi, hcache, mem_append,
        mem_singleton, hi, or_false]
  obtain ⟨s', done, hret, hrealms, ⟨hsnaprealm, hcache⟩, hdone⟩ :=
    walk_single h.ok hr hvisit ⟨rfl, fun i => (if_neg not_mem_nil).symm⟩
  refine ⟨s', hret, h.of_realms hrealms hsnaprealm (h.current.clear ?_ ?_)⟩
  · intro i v hv
    rw [hcache] at hv
    split at hv
    · cases hv
    · exact hv
  · intro i _ j _ hj hbelow
    rw [hstale j hj] at hbelow
    rw [hcache, if_pos (hdone i hbelow)]

theorem flushRealm : ∃ s', Returns (fun fuel => s.flushRealm fuel r) s' ∧ s'.realms = s.realms ∧
      Good s' rank held moving stale := by
  let P : SnapState → Prop := fun s' => s'.realms = s.realms ∧ Good s' rank held moving stale
  obtain ⟨s', hret, hP⟩ : ∃ s', Returns (fun fuel => x.inodesWithCaps.foldlM
      (fun s _ => (s.getSnapContext fuel r).map Prod.snd) s) s' ∧ P s' := by
    refine Returns.foldlM (fun _ _ s1 ⟨hrealms, hgood⟩ => ?_) ⟨rfl, h⟩
    obtain ⟨c, s2, hret, hrealms2, -, hgood2, -⟩ :=
      hgood.getSnapContext (r := r) (x := x) (by rw [hrealms, hr])
    exact ⟨s2, hret.map _, hrealms2.trans hrealms, hgood2⟩
  refine ⟨s', ?_, hP⟩
  simp only [SnapState.flushRealm, deref_eq hr, ok_bind]
  exact hret

theorem flush : ∃ s', Returns (fun fuel => walk (SnapState.flushRealm fuel) fuel s [r]) s' ∧
      s'.realms = s.realms ∧ Good s' rank held moving stale := by
  let P : SnapState → List ℕ → Prop := fun s' _ => Good s' rank held moving stale
  have hvisit : Visits s.realms SnapState.flushRealm P := by
    intro s' done r x hrealms hgood hx
    obtain ⟨s'', hret, hrealms', hgood'⟩ := hgood.flushRealm (r := r) (x := x) (by rw [hrealms, hx])
    exact ⟨s'', hret, hrealms'.trans hrealms, hgood'⟩
  obtain ⟨s', done, hret, hrealms, hgood, -⟩ := walk_single h.ok hr hvisit h
  exact ⟨s', hret, hrealms, hgood⟩

end

end

end Good

end SnapState

end CephDokan.Client
