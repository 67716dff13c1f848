import CephDokan.Client.SnapFuel
import CephDokan.Client.SnapTrace

/-!
# Runs of snap messages

A split takes inodes and realms away from where they are before its trace is read. The realms
that it moves are not invalidated by themselves; they are when the trace has news for the realm
that is split off, which then is invalidated with all that is below. Otherwise a realm that has
moved keeps the context it had below its old parent.
-/

namespace CephDokan.Client

open Fallible List SnapState
open ObjectCacher (SnapContext)
open Inherited

namespace RealmsOk

variable {m : ℕ → Option SnapRealm} {snaprealm : ℕ → Option ℕ} {rank rank' : ℕ → ℕ}
  {held moving moving' : List ℕ}

theorem rerank (h : RealmsOk m snaprealm rank held moving)
    (hrank : ∀ r x p, m r = some x → x.pparent = some p → rank' p < rank' r) :
    RealmsOk m snaprealm rank' held moving :=
  { h with ranked := hrank }

theorem more_moving (h : RealmsOk m snaprealm rank held moving)
    (hsub : ∀ i ∈ moving, i ∈ moving') : RealmsOk m snaprealm rank held moving' :=
  { h with inode := fun i r hi hmoving => h.inode i r hi fun hin => hmoving (hsub i hin) }

end RealmsOk

namespace SnapState

variable {s s' : SnapState} {rank : ℕ → ℕ} {held moving : List ℕ} {stale : Set ℕ}
  {r i : ℕ} {x : SnapRealm} {info : SnapRealmInfo}

namespace Good

variable {l : List ℕ}

section

variable (h : Good s rank held moving stale)

include h

theorem unlist (hr : s.realms.find? r = some x) (hi : i ∈ x.inodesWithCaps) :
    ∃ s1 s', (s.modify r fun x => { x with inodesWithCaps := x.inodesWithCaps.erase i }) = .ok s1 ∧
      Returns (fun fuel => s1.putSnapRealm fuel r) s' ∧ Good s' rank held (i :: moving) stale ∧
      Shrinks s s' := by
  have hsame : Shrinks s (s.store r { x with inodesWithCaps := x.inodesWithCaps.erase i }) :=
    .store hr rfl
  have hgood : Good (s.store r { x with inodesWithCaps := x.inodesWithCaps.erase i }) rank
      (r :: held) (i :: moving) stale := by
    refine h.shrink ?_ hsame rfl
    rw [find?_store]
    exact h.ok.unlist hr hi
  obtain ⟨s', hret, hgood', hshrinks⟩ := hgood.putSnapRealm
  exact ⟨_, s', modify_eq hr _, hret, hgood', hsame.trans hshrinks⟩

theorem moveInode (info : SnapRealmInfo) (hi : i ∉ moving) :
    ∃ s' moving', Returns (fun fuel => moveInode fuel info (s, moving) i) (s', moving') ∧
      Good s' rank held moving' stale ∧ Shrinks s s' ∧ ∀ k ∈ moving', k = i ∨ k ∈ moving := by
  unfold SnapState.moveInode
  have hstay : ∃ s' moving', Returns (fun _ => .ok (s, moving)) (s', moving') ∧
      Good s' rank held moving' stale ∧ Shrinks s s' ∧ ∀ k ∈ moving', k = i ∨ k ∈ moving :=
    ⟨s, moving, .ok _, h, .refl s, fun _ hk => .inr hk⟩
  cases hr : s.snaprealm i with
  | none =>
    exact hstay
  | some r =>
    obtain ⟨x, hx, hin⟩ := h.ok.inode i r hr hi
    by_cases hself : r = info.ino
    · simp only [if_pos hself]
      exact hstay
    by_cases hcreated : x.created > info.created
    · simp only [if_neg hself, deref_eq hx, ok_bind, if_pos hcreated]
      exact hstay
    obtain ⟨c, s1, hret1, hrealms, -, h1, -⟩ := h.getSnapContext hx
    obtain ⟨s2, s3, hs2, hret3, h3, hshrinks⟩ := h1.unlist (hrealms ▸ hx) hin
    have hmem : ∀ k, k ∈ moving ++ [i] ↔ k ∈ i :: moving := by
      intro k
      rw [mem_append, mem_singleton, mem_cons, or_comm]
    refine ⟨s3, moving ++ [i], ?_, ⟨h3.ok.more_moving fun k hk => (hmem k).mpr hk, h3.current⟩,
      ?_, fun k hk => mem_cons.mp ((hmem k).mp hk)⟩
    · simp only [if_neg hself, deref_eq hx, ok_bind, if_neg hcreated]
      refine hret1.bind ?_
      simp only [hs2, ok_bind]
      exact hret3.bind (.ok _)
    · refine .trans (.of_coreAt fun r' => ?_) hshrinks
      rw [coreAt, coreAt, hrealms]

theorem moveInodes (info : SnapRealmInfo) (hl : l.Nodup) (hmoving : ∀ i ∈ l, i ∉ moving) :
    ∃ s' moving', Returns (fun fuel => l.foldlM (SnapState.moveInode fuel info) (s, moving))
        (s', moving') ∧
      Good s' rank held moving' stale ∧ Shrinks s s' := by
  induction l generalizing s moving with
  | nil => exact ⟨s, moving, .ok _, h, .refl s⟩
  | cons i l ih =>
    obtain ⟨hi, hl⟩ := nodup_cons.mp hl
    obtain ⟨s1, moving1, hret1, h1, hshrinks1, hsub⟩ := h.moveInode info (hmoving i mem_cons_self)
    have hmoving1 : ∀ k ∈ l, k ∉ moving1 := by
      intro k hk hin
      rcases hsub k hin with rfl | hin
      · exact hi hk
      · exact hmoving k (mem_cons_of_mem _ hk) hin
    obtain ⟨s', moving', hret, hgood, hshrinks⟩ := ih h1 hl hmoving1
    refine ⟨s', moving', ?_, hgood, hshrinks1.trans hshrinks⟩
    exact hret1.bind hret

end

/-- A realm goes below the one that is split off. If this is not where it has been, what is
below the latter may now be wrong. -/
theorem adoptRealm (h : Good s rank (r :: held) moving stale) {child}
    (hlt : rank r < rank child)
    (hchild : r ∈ stale ∨ ∀ y, s.realms.find? child = some y → y.parent = r) :
    ∃ s', Returns (fun fuel => adoptRealm fuel r s child) s' ∧
      Good s' rank (r :: held) moving stale ∧ s'.coreAt r = s.coreAt r ∧
      (r ∉ stale → Shrinks s s') := by
  unfold SnapState.adoptRealm
  by_cases hcontains : s.realms.contains child
  · obtain ⟨y, hy⟩ := SortedMap.contains_iff.mp hcontains
    replace hy := SortedMap.find?_of_mem hy
    obtain ⟨h1, hcore1, hfind1⟩ := h.getSnapRealm child
    rw [hy, Option.getD_some] at hcore1
    obtain ⟨x1, hx1, hcore1⟩ := exists_of_coreAt hcore1
    have hparent1 : x1.parent = y.parent := congrArg (fun c => c.2.1) hcore1
    have hne : r ≠ child := by
      rintro rfl
      exact lt_irrefl _ hlt
    have hsame1 : ∀ r', (s.getSnapRealm child).coreAt r' = s.coreAt r' := by
      intro r'
      by_cases hr' : r' = child
      · rw [hr', coreAt_eq hx1, coreAt_eq hy, hcore1]
      · rw [coreAt, coreAt, hfind1 r' hr']
    obtain ⟨s2, hret2, h2, hcore2, hother2, hsame2⟩ := h1.adjustRealmParent mem_cons_self hx1 hlt
    -- the child is now below the realm that is split off
    have hgood2 : Good s2 rank (child :: r :: held) moving stale := by
      by_cases hsame : x1.parent = r
      · rw [if_pos hsame] at h2
        exact h2
      · rw [if_neg hsame] at h2 hcore2
        have hstale : r ∈ stale := hchild.resolve_right fun hall => hsame (hparent1 ▸ hall y hy)
        have hup : s2.tree child = some (x1.snaps, some r) := by
          rw [tree_eq_coreAt, hcore2, Option.map_some]
        refine ⟨h2.ok, h2.current.absorb fun j hj => ?_⟩
        rcases Set.mem_insert_iff.mp hj with rfl | hj
        · exact ⟨r, hstale, .up hup (.refl r)⟩
        · exact ⟨j, hj, .refl j⟩
    obtain ⟨s', hret, hgood, hshrinks⟩ := hgood2.putSnapRealm
    obtain ⟨z, hz⟩ := hgood.exists_of_held mem_cons_self
    refine ⟨s', ?_, hgood, ?_, fun hstale => ?_⟩
    · simp only [if_pos hcontains]
      exact hret2.bind hret
    · rw [hshrinks.coreAt hz, hother2 r (mem_cons_of_mem _ mem_cons_self) hne, hsame1]
    · have hs2 := hsame2 (hparent1.trans (hchild.resolve_left hstale y hy))
      exact .trans (.of_coreAt fun r' => by rw [hs2, hsame1]) hshrinks
  · simp only [if_neg hcontains]
    exact ⟨s, .ok s, h, rfl, fun _ => .refl s⟩

theorem adoptRealms (h : Good s rank (r :: held) moving stale)
    (hlt : ∀ child ∈ l, rank r < rank child)
    (hchildren : r ∈ stale ∨ ∀ child ∈ l, ∀ y, s.realms.find? child = some y → y.parent = r) :
    ∃ s', Returns (fun fuel => l.foldlM (SnapState.adoptRealm fuel r) s) s' ∧
      Good s' rank (r :: held) moving stale ∧ s'.coreAt r = s.coreAt r := by
  let P : SnapState → Prop := fun s' =>
    Good s' rank (r :: held) moving stale ∧ s'.coreAt r = s.coreAt r ∧ (r ∉ stale → Shrinks s s')
  obtain ⟨s', hret, hgood, hcore, -⟩ : ∃ s', Returns (fun fuel =>
      l.foldlM (SnapState.adoptRealm fuel r) s) s' ∧ P s' := by
    refine Returns.foldlM (fun child hchild s1 ⟨h1, hcore1, hshrinks1⟩ => ?_)
      ⟨h, rfl, fun _ => .refl s⟩
    have hparent : r ∈ stale ∨ ∀ y, s1.realms.find? child = some y → y.parent = r := by
      by_cases hstale : r ∈ stale
      · exact .inl hstale
      refine .inr fun y hy => ?_
      obtain ⟨y', hy', hcore⟩ := exists_of_coreAt (hshrinks1 hstale child _ (coreAt_eq hy))
      have hsame : y'.parent = y.parent := congrArg (fun c => c.2.1) hcore
      rw [← hsame]
      exact hchildren.resolve_left hstale child hchild y' hy'
    obtain ⟨s2, hret2, h2, hcore2, hshrinks2⟩ := h1.adoptRealm (hlt child hchild) hparent
    exact ⟨s2, hret2, h2, hcore2.trans hcore1,
      fun hstale => (hshrinks1 hstale).trans (hshrinks2 hstale)⟩
  exact ⟨s', hret, hgood, hcore⟩

theorem enlist (h : Good s rank (r :: held) (i :: moving) stale) (hr : s.realms.find? r = some x) :
    Good { s.store r { x with inodesWithCaps := x.inodesWithCaps ++ [i] } with
      snaprealm := Function.update s.snaprealm i (some r) } rank held moving stale := by
  refine h.shrink ?_ (.of_coreAt (coreAt_store hr rfl)) rfl
  rw [find?_store]
  exact h.ok.enlist hr

theorem placeInode (h : Good s rank (r :: held) (i :: moving) stale) :
    ∃ s', placeInode r s i = .ok s' ∧ Good s' rank (r :: held) moving stale := by
  obtain ⟨x, hx⟩ := h.exists_of_held mem_cons_self
  have hgood : Good (s.store r { x with nref := x.nref + 1 }) rank (r :: r :: held) (i :: moving)
      stale := by
    refine h.shrink ?_ (.store hx rfl) rfl
    rw [find?_store]
    exact h.ok.hold hx
  have hplaced := hgood.enlist (by rw [find?_store, Function.update_self])
  rw [store_store] at hplaced
  refine ⟨_, ?_, hplaced⟩
  rw [SnapState.placeInode, modify_eq hx]
  rfl

theorem placeInodes (h : Good s rank (r :: held) moving stale) :
    ∃ s', moving.foldlM (SnapState.placeInode r) s = .ok s' ∧
      Good s' rank (r :: held) [] stale := by
  induction moving generalizing s with
  | nil => exact ⟨s, rfl, h⟩
  | cons i moving ih =>
    obtain ⟨s1, hs1, h1⟩ := h.placeInode
    obtain ⟨s', hs', h'⟩ := ih h1
    refine ⟨s', ?_, h'⟩
    rw [foldlM_cons, hs1, ok_bind, hs']

end Good

/-! ### Messages -/

/-- A split is in order: it names a realm, and no inode twice, and its trace has news for the
realm, unless all realms are where they should be. -/
structure SplitOk (s : SnapState) (rank : ℕ → ℕ) (m : SnapMessage) (info : SnapRealmInfo) :
    Prop where
  split : m.split ≠ 0
  ino : info.ino = m.split
  nodup : m.splitInos.Nodup
  below : ∀ child ∈ m.splitRealms, rank m.split < rank child
  news : s.IsNews info ∨
    ∀ child ∈ m.splitRealms, ∀ y, s.realms.find? child = some y → y.parent = m.split

theorem IsNews.of_core (h : s.IsNews info)
    (hcore : s'.coreAt info.ino = some ((s.realms.find? info.ino).getD {}).core) :
    s'.IsNews info := by
  obtain ⟨x, hx, hcore⟩ := exists_of_coreAt hcore
  have hseq : x.seq = ((s.realms.find? info.ino).getD {}).seq :=
    congrArg (fun c => RealmSnaps.seq c.1) hcore
  have hparent : x.parent = ((s.realms.find? info.ino).getD {}).parent :=
    congrArg (fun c => c.2.1) hcore
  rw [IsNews, hx, Option.getD_some, hseq, hparent]
  exact h

namespace Good

theorem splitRealm (h : Good s rank [] [] stale) {m} (hm : SplitOk s rank m info)
    (hchildren : info.ino ∈ stale ∨
      ∀ child ∈ m.splitRealms, ∀ y, s.realms.find? child = some y → y.parent = info.ino) :
    ∃ s' moved, Returns (fun fuel => s.splitRealm fuel m info) (s', moved) ∧
      Good s' rank [info.ino] moved stale ∧
      s'.coreAt info.ino = some ((s.realms.find? info.ino).getD {}).core := by
  obtain ⟨h1, hcore1, hfind1⟩ := h.getSnapRealm info.ino
  obtain ⟨s2, moved, hret2, h2, hshrinks2⟩ := h1.moveInodes info hm.nodup fun i _ => not_mem_nil
  have hbelow : ∀ child ∈ m.splitRealms, rank info.ino < rank child := hm.ino ▸ hm.below
  have hchildren2 : info.ino ∈ stale ∨
      ∀ child ∈ m.splitRealms, ∀ y, s2.realms.find? child = some y → y.parent = info.ino := by
    refine hchildren.imp_right fun hall child hchild y hy => ?_
    have hne : child ≠ info.ino := by
      intro heq
      exact lt_irrefl _ (heq ▸ hbelow child hchild)
    obtain ⟨y', hy', hcore⟩ := exists_of_coreAt (hshrinks2 child _ (coreAt_eq hy))
    have hsame : y'.parent = y.parent := congrArg (fun c => c.2.1) hcore
    rw [hfind1 child hne] at hy'
    rw [← hsame, hall child hchild y' hy']
  obtain ⟨s3, hret3, h3, hcore3⟩ := h2.adoptRealms hbelow hchildren2
  obtain ⟨x, hx⟩ := h2.exists_of_held mem_cons_self
  refine ⟨s3, moved, ?_, h3, by rw [hcore3, hshrinks2.coreAt hx, hcore1]⟩
  exact hret2.bind (hret3.bind (.ok _))

theorem split (h : Good s rank [] [] ∅) {m} {rest}
    (hop : m.op = .split) (htrace : m.trace = info :: rest)
    (hlt : ∀ info ∈ m.trace, rank info.parent < rank info.ino) (hm : SplitOk s rank m info) :
    ∃ s', Returns (fun fuel => s.handleSnap fuel m) s' ∧ Good s' rank [] [] ∅ := by
  -- wrong contexts are found below the realm that is split off, if there are any at all
  obtain ⟨stale, hstale, hchildren, hnews⟩ : ∃ stale : Set ℕ, (∀ j ∈ stale, j = info.ino) ∧
      (info.ino ∈ stale ∨
        ∀ child ∈ m.splitRealms, ∀ y, s.realms.find? child = some y → y.parent = info.ino) ∧
      (stale.Nonempty → s.IsNews info) := by
    rcases hm.news with hnews | hsame
    · exact ⟨{info.ino}, fun j hj => hj, .inl rfl, fun _ => hnews⟩
    · exact ⟨∅, fun j hj => absurd hj (Set.notMem_empty j), .inr (hm.ino ▸ hsame),
        fun hne => absurd hne Set.not_nonempty_empty⟩
  have h0 : Good s rank [] [] stale :=
    ⟨h.ok, h.current.absorb fun j hj => absurd hj (Set.notMem_empty j)⟩
  obtain ⟨s1, moved, hret1, h1, hcore1⟩ := h0.splitRealm hm hchildren
  rw [htrace, forall_mem_cons] at hlt
  obtain ⟨s2, hret2, h2⟩ := h1.updateRealm hlt.1 hstale (fun hne => (hnews hne).of_core hcore1) true
  obtain ⟨s3, hret3, h3⟩ := h2.updateSnapTrace hlt.2 true
  obtain ⟨s4, hs4, h4⟩ := h3.placeInodes
  obtain ⟨s', hret, hgood, -⟩ := h4.putSnapRealm
  refine ⟨s', ?_, hgood⟩
  simp only [handleSnap, if_pos hop, htrace, assertThat_of hm.split, assertThat_of hm.ino, ok_bind]
  refine hret1.bind (Returns.bind (a := s3) ?_ ?_)
  · exact hret2.bind hret3
  · simp only [hs4, ok_bind]
    exact hret

end Good

/-- The realms can be ranked so that parents are lower, those that an event names included: no
realm comes to be above itself. -/
def Ranked (s : SnapState) (rank : ℕ → ℕ) : Prop :=
  ∀ r x p, s.realms.find? r = some x → x.pparent = some p → rank p < rank r

def Meets (s : SnapState) : SnapEvent → Prop
  | .trace infos => ∃ rank, s.Ranked rank ∧ ∀ info ∈ infos, rank info.parent < rank info.ino
  | .snap m => ∃ rank, s.Ranked rank ∧ (∀ info ∈ m.trace, rank info.parent < rank info.ino) ∧
      (m.op = .split → ∃ info rest, m.trace = info :: rest ∧ SplitOk s rank m info)
  | .openRealm i _ => s.snaprealm i = none
  | .closeRealm i => ∃ r, s.snaprealm i = some r
  | .context i => ∃ r, s.snaprealm i = some r

def Step (e : SnapEvent) (s s' : SnapState) : Prop :=
  s.Meets e ∧ Returns (fun fuel => s.handle fuel e) s'

variable {e : SnapEvent}

theorem Good.handle (h : Good s rank [] [] ∅) (he : s.Meets e) :
    ∃ s', Returns (fun fuel => s.handle fuel e) s' ∧ ∃ rank, Good s' rank [] [] ∅ := by
  cases e with
  | trace infos =>
    obtain ⟨rank', hranked, hlt⟩ := he
    have h' : Good s rank' [] [] ∅ := ⟨h.ok.rerank hranked, h.current⟩
    obtain ⟨s', hret, hgood⟩ := h'.updateSnapTrace hlt true
    exact ⟨s', hret, rank', hgood⟩
  | snap m =>
    obtain ⟨rank', hranked, hlt, hsplit⟩ := he
    have h' : Good s rank' [] [] ∅ := ⟨h.ok.rerank hranked, h.current⟩
    by_cases hop : m.op = .split
    · obtain ⟨info, rest, htrace, hm⟩ := hsplit hop
      obtain ⟨s', hret, hgood⟩ := h'.split hop htrace hlt hm
      exact ⟨s', hret, rank', hgood⟩
    · obtain ⟨s', hret, hgood⟩ := h'.updateSnapTrace hlt (m.op ≠ .destroy)
      refine ⟨s', ?_, rank', hgood⟩
      simp only [SnapState.handle, handleSnap, if_neg hop]
      exact hret
  | openRealm i r =>
    obtain ⟨h1, hcore1, -⟩ := h.getSnapRealm r
    obtain ⟨x, hx, -⟩ := exists_of_coreAt hcore1
    have h2 : Good (s.getSnapRealm r) rank [r] [i] ∅ :=
      ⟨h1.ok.more_moving fun k hk => absurd hk not_mem_nil, h1.current⟩
    have hnone : s.snaprealm i = none := he
    refine ⟨_, .of_eq ?_, rank, h2.enlist hx⟩
    show s.openRealm i r = _
    rw [openRealm, assertThat_of hnone, ok_bind]
    dsimp only
    rw [modify_eq hx]
    rfl
  | closeRealm i =>
    obtain ⟨r, hr⟩ := he
    obtain ⟨x, hx, hin⟩ := h.ok.inode i r hr not_mem_nil
    obtain ⟨s1, s2, hs1, hret2, h2, -⟩ := h.unlist hx hin
    refine ⟨{ s2 with snaprealm := Function.update s2.snaprealm i none }, ?_, rank,
      h2.ok.forget, h2.current⟩
    simp only [SnapState.handle, closeRealm, hr, hs1, ok_bind]
    exact hret2.bind (.ok _)
  | context i =>
    obtain ⟨r, hr⟩ := he
    obtain ⟨x, hx, -⟩ := h.ok.inode i r hr not_mem_nil
    obtain ⟨c, s', hret, -, -, hgood, -⟩ := h.getSnapContext hx
    refine ⟨s', ?_, rank, hgood⟩
    simp only [SnapState.handle, hr]
    exact hret.map Prod.snd

theorem good_of_trace {events : List SnapEvent} (h : Trace Step {} events s) :
    ∃ rank, Good s rank [] [] ∅ := by
  refine h.invariant (P := fun s => ∃ rank, Good s rank [] [] ∅) ?_ ⟨fun _ => 0, ?_, ?_⟩
  · rintro e _ s s' ⟨hmeets, hret⟩ ⟨rank, hgood⟩
    obtain ⟨s'', hret', hgood'⟩ := hgood.handle hmeets
    rw [hret.unique hret']
    exact hgood'
  · constructor <;> intros <;> contradiction
  · intro i n v hi
    cases hi

/-- After every run whose events meet the condition, every realm that is known has one context
that the realms define, and `get_snap_context` returns it. The next event that meets the condition
is handled. -/
theorem getSnapContext_current {events : List SnapEvent} (h : Trace Step {} events s) :
    (∀ r x, s.realms.find? r = some x →
      ∃ c, IsContext s r c ∧ (∀ c', IsContext s r c' → c' = c) ∧
        ∃ s', Returns (fun fuel => s.getSnapContext fuel r) (c, s')) ∧
      ∀ e, s.Meets e → ∃ s', Returns (fun fuel => s.handle fuel e) s' := by
  obtain ⟨rank, hgood⟩ := good_of_trace h
  constructor
  · intro r x hr
    obtain ⟨c, s', hret, -, -, -, hc⟩ := hgood.getSnapContext hr
    rcases hc with hval | ⟨j, hj, -⟩
    · have hcontext := isContext_of_value hval
      exact ⟨c, hcontext, fun c' hc' => hc'.unique hcontext, s', hret⟩
    · exact absurd hj (Set.notMem_empty j)
  · intro e he
    obtain ⟨s', hret, -⟩ := hgood.handle he
    exact ⟨s', hret⟩

/-- After every such run the realms are a forest in which parents and children agree, and a realm
is known as long as it has children or inodes with caps: its references count them. -/
theorem realms_forest {events : List SnapEvent} (h : Trace Step {} events s) :
    ∃ rank, RealmsOk s.realms.find? s.snaprealm rank [] [] := by
  obtain ⟨rank, hgood⟩ := good_of_trace h
  exact ⟨rank, hgood.ok⟩

/-! ### Two realms below a third -/

theorem trace_of_foldlM {fuel} {events} (h : events.foldlM (handle fuel) s = .ok s') :
    Trace (fun e s s' => Returns (fun fuel => s.handle fuel e) s') s events s' := by
  induction events generalizing s with
  | nil =>
    cases h
    exact .nil _
  | cons e events ih =>
    obtain ⟨t, ht, h⟩ := bind_eq_ok.mp h
    exact .cons ((handle_steady s e).returns ht) (ih h)

theorem ranked_of_entries {rank}
    (h : ∀ e ∈ s.realms.entries, ∀ p ∈ e.2.pparent, rank p < rank e.1) : s.Ranked rank :=
  fun r x p hr hp => h (r, x) (SortedMap.mem_of_find? hr) p hp

def siblingInfos : List SnapRealmInfo :=
  [⟨2, 1, 5, 1, 1, [], [5]⟩, ⟨3, 1, 4, 1, 1, [], [4]⟩, ⟨1, 1, 7, 0, 0, [], [3, 7]⟩]

/-- The realms 2 and 3 are below 1, and a file of realm 2 has been written. -/
def siblings : List SnapEvent :=
  [.openRealm 20 2, .openRealm 30 3, .trace siblingInfos, .context 20]

def siblingRank (r : ℕ) : ℕ := if r = 2 then 4 else r

def splitOff (seq : ℕ) : SnapMessage := ⟨.split, 3, [], [2], [⟨3, 1, seq, 1, 1, [], [4]⟩]⟩

/-- The state after an event, with enough fuel for the realms above. -/
def next (s : SnapState) (e : SnapEvent) : SnapState := ((s.handle 9 e).toOption).getD {}

theorem step_next (hmeets : s.Meets e) (hok : (s.handle 9 e).isOk = true) : Step e s (s.next e) :=
  ⟨hmeets, (handle_steady s e).returns (eq_ok_getD {} hok)⟩

theorem returns_of_fst (fuel : ℕ) {c}
    (h : ((s.getSnapContext fuel r).map Prod.fst).toOption = some c) :
    ∃ s', Returns (fun fuel => s.getSnapContext fuel r) (c, s') := by
  obtain ⟨⟨c', s'⟩, hcall, rfl⟩ := map_eq_ok.mp (eq_ok_of_toOption h)
  exact ⟨s', (getSnapContext_steady s r).returns hcall⟩

/-- After the split with news, realm 2 is below realm 3, and realm 3 below 1. -/
def splitState : SnapState := ((siblings.take 4).foldl next {}).next (.snap (splitOff 6))

theorem splitState_trace : Trace Step {} (siblings ++ [.snap (splitOff 6)]) splitState := by
  have hopen : Meets {} (.openRealm 20 2) := rfl
  have hopen' : Meets ((siblings.take 1).foldl next {}) (.openRealm 30 3) := by
    show snaprealm _ 30 = none
    decide +kernel
  have hinfos : Meets ((siblings.take 2).foldl next {}) (.trace siblingInfos) := by
    exact ⟨siblingRank, ranked_of_entries (by decide +kernel), by decide⟩
  have hcontext : Meets ((siblings.take 3).foldl next {}) (.context 20) := by
    exact ⟨2, by decide +kernel⟩
  have hsplit : Meets ((siblings.take 4).foldl next {}) (.snap (splitOff 6)) := by
    refine ⟨siblingRank, ranked_of_entries (by decide +kernel), by decide,
      fun _ => ⟨_, _, rfl, ?_⟩⟩
    exact ⟨by decide, rfl, nodup_nil, by decide, .inl (.inl (by decide +kernel))⟩
  apply Trace.cons (step_next hopen (by decide +kernel))
  apply Trace.cons (step_next hopen' (by decide +kernel))
  apply Trace.cons (step_next hinfos (by decide +kernel))
  apply Trace.cons (step_next hcontext (by decide +kernel))
  exact Trace.single (step_next hsplit (by decide +kernel))

theorem realms_forest_split :
    ∃ rank, RealmsOk splitState.realms.find? splitState.snaprealm rank [] []
      ∧ (splitState.realms.find? 2).bind SnapRealm.pparent = some 3
      ∧ (splitState.realms.find? 3).bind SnapRealm.pparent = some 1 := by
  obtain ⟨rank, hok⟩ := realms_forest splitState_trace
  exact ⟨rank, hok, by decide +kernel, by decide +kernel⟩

/-- A split with news: realm 2 gets the snap of realm 3. -/
theorem getSnapContext_current_split :
    ∃ s, Trace Step {} (siblings ++ [.snap (splitOff 6)]) s ∧
      IsContext s 2 ⟨7, [7, 5, 4, 3]⟩ ∧
      ∃ s', Returns (fun fuel => s.getSnapContext fuel 2) (⟨7, [7, 5, 4, 3]⟩, s') := by
  obtain ⟨s, hs⟩ : ∃ s, s = splitState := ⟨_, rfl⟩
  have hcall : ∃ s', Returns (fun fuel => s.getSnapContext fuel 2) (⟨7, [7, 5, 4, 3]⟩, s') := by
    rw [hs]
    exact returns_of_fst 9 (by decide +kernel)
  have hknown : ∃ x, s.realms.find? 2 = some x := by
    rw [hs]
    exact Option.isSome_iff_exists.mp (by decide +kernel)
  obtain ⟨x, hx⟩ := hknown
  have htrace := splitState_trace
  rw [← hs] at htrace
  obtain ⟨c, hcontext, -, s', hret⟩ := (getSnapContext_current htrace).1 2 x hx
  obtain ⟨s'', hret'⟩ := hcall
  cases hret.unique hret'
  exact ⟨s, htrace, hcontext, s', hret⟩

/-- A split without news: realm 2 keeps the context that it had below realm 1. -/
theorem getSnapContext_stale :
    ∃ s s', Trace (fun e s s' => Returns (fun fuel => s.handle fuel e) s') {}
        (siblings ++ [.snap (splitOff 4)]) s ∧
      Returns (fun fuel => s.getSnapContext fuel 2) (⟨7, [7, 5, 3]⟩, s') ∧
      IsContext s 2 ⟨7, [7, 5, 4, 3]⟩ := by
  obtain ⟨s, hs⟩ : ∃ s, s = (((siblings ++ [SnapEvent.snap (splitOff 4)]).foldlM (handle 9)
      {}).toOption).getD {} := ⟨_, rfl⟩
  have hrun : (siblings ++ [SnapEvent.snap (splitOff 4)]).foldlM (handle 9) {} = .ok s := by
    rw [hs]
    exact eq_ok_getD {} (by decide +kernel)
  obtain ⟨s', hcall⟩ : ∃ s', Returns (fun fuel => s.getSnapContext fuel 2)
      (⟨7, [7, 5, 3]⟩, s') := by
    rw [hs]
    exact returns_of_fst 9 (by decide +kernel)
  have h1 : s.realms.find? 1 = some ⟨1, 1, 7, 0, 0, [], [3, 7], none, [3], []⟩ := by
    rw [hs]
    decide +kernel
  have h3 : s.realms.find? 3 = some ⟨2, 1, 4, 1, 1, [], [4], some 1, [2], [30]⟩ := by
    rw [hs]
    decide +kernel
  have h2 : s.realms.find? 2 = some ⟨1, 1, 5, 3, 1, [], [5], some 3, [], [20]⟩ := by
    rw [hs]
    decide +kernel
  have hc1 : IsContext s 1 ⟨7, [7, 3]⟩ := by
    refine .root h1 rfl rfl (by decide) fun n => ?_
    simp
    omega
  have hc3 : IsContext s 3 ⟨7, [7, 4, 3]⟩ := by
    refine .child h3 rfl hc1 rfl (by decide) fun n => ?_
    simp
    omega
  refine ⟨s, s', trace_of_foldlM hrun, hcall, .child h2 rfl hc3 rfl (by decide) fun n => ?_⟩
  simp
  omega

end SnapState

end CephDokan.Client
