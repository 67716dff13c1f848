import CephDokan.Client.SnapContext
import CephDokan.Lib.Trace

/-!
# Snap messages keep contexts current

References are given back and realms move without touching a context that is kept; what has
changed is invalidated before the message is done. A split is the exception: it moves realms
without invalidating them and leaves this to the trace that comes with it.
-/

namespace CephDokan.Client

open Fallible Function
open ObjectCacher (SnapContext)
open Inherited

def SnapRealm.core (x : SnapRealm) : RealmSnaps × ℕ × Option ℕ := (x.snaps, x.parent, x.pparent)

namespace SnapState

def coreAt (s : SnapState) (r : ℕ) : Option (RealmSnaps × ℕ × Option ℕ) :=
  (s.realms.find? r).map SnapRealm.core

/-- Realms may be gone, and those that are left are as they were. -/
def Shrinks (s s' : SnapState) : Prop := ∀ r c, s'.coreAt r = some c → s.coreAt r = some c

variable {s s' s'' : SnapState} {rank : ℕ → ℕ} {held held' moving moving' : List ℕ}
  {stale stale' : Set ℕ} {r p i : ℕ} {x y : SnapRealm}

theorem find?_store : (s.store r x).realms.find? = update s.realms.find? r (some x) := by
  funext r'
  by_cases h : r' = r
  · subst h
    rw [update_self]
    exact SortedMap.find?_insert_self _ _ _
  · rw [update_of_ne h]
    exact SortedMap.find?_insert_of_ne _ _ h

theorem store_store : (s.store r x).store r y = s.store r y := by
  unfold store
  rw [SortedMap.insert_insert]

theorem find?_erased : (s.realms.erase r).find? = update s.realms.find? r none := by
  funext r'
  rw [SortedMap.find?_erase, update_apply]

theorem coreAt_eq (h : s.realms.find? r = some x) : s.coreAt r = some x.core := by
  rw [coreAt, h, Option.map_some]

theorem exists_of_coreAt {c} (h : s.coreAt r = some c) :
    ∃ x, s.realms.find? r = some x ∧ x.core = c :=
  Option.map_eq_some_iff.mp h

theorem tree_eq_coreAt : s.tree r = (s.coreAt r).map fun c => (c.1, c.2.2) := by
  rw [coreAt, Option.map_map]
  rfl

theorem coreAt_store_self : (s.store r x).coreAt r = some x.core := by
  rw [coreAt, find?_store, update_self, Option.map_some]

theorem coreAt_store_of_ne {r'} (h : r' ≠ r) : (s.store r x).coreAt r' = s.coreAt r' := by
  rw [coreAt, find?_store, update_of_ne h, coreAt]

theorem coreAt_store (hr : s.realms.find? r = some y) (hcore : x.core = y.core) (r' : ℕ) :
    (s.store r x).coreAt r' = s.coreAt r' := by
  by_cases h : r' = r
  · subst h
    rw [coreAt_store_self, coreAt_eq hr, hcore]
  · exact coreAt_store_of_ne h

theorem modify_eq (h : s.realms.find? r = some x) (f : SnapRealm → SnapRealm) :
    s.modify r f = .ok (s.store r (f x)) := by
  rw [modify, deref_eq h]
  rfl

namespace Shrinks

theorem refl (s : SnapState) : Shrinks s s := fun _ _ h => h

theorem trans (h : Shrinks s s') (h' : Shrinks s' s'') : Shrinks s s'' :=
  fun r c hc => h r c (h' r c hc)

theorem of_coreAt (h : ∀ r, s'.coreAt r = s.coreAt r) : Shrinks s s' :=
  fun r _ hc => (h r).symm.trans hc

theorem store (hr : s.realms.find? r = some y) (hcore : x.core = y.core) :
    Shrinks s (s.store r x) :=
  of_coreAt (coreAt_store hr hcore)

theorem erase (r : ℕ) : Shrinks s { s with realms := s.realms.erase r } := by
  intro r' c hc
  rw [coreAt, find?_erased] at hc
  by_cases h : r' = r
  · subst h
    rw [update_self] at hc
    cases hc
  · rw [update_of_ne h] at hc
    exact hc

theorem coreAt (h : Shrinks s s') (hr : s'.realms.find? r = some x) : s'.coreAt r = s.coreAt r := by
  rw [h r _ (coreAt_eq hr), coreAt_eq hr]

end Shrinks

namespace Good

section

variable (h : Good s rank held moving stale)
  (hok : RealmsOk s'.realms.find? s'.snaprealm rank held' moving')

include h hok

theorem shrink (hs : Shrinks s s') (hcached : s'.cached = s.cached) :
    Good s' rank held' moving' stale := by
  have hcache : s'.cache = s.cache := by
    funext r
    rw [cache, hcached, cache]
  refine ⟨hok, hcache ▸ h.current.shrink (fun r n hn => ?_) (closed_tree hok)⟩
  rw [tree_eq_coreAt] at hn ⊢
  obtain ⟨c, hc, rfl⟩ := Option.map_eq_some_iff.mp hn
  rw [hs r c hc, Option.map_some]

theorem change (hs : ∀ r', r' ≠ r → s'.coreAt r' = s.coreAt r') (hcached : s'.cached = s.cached) :
    Good s' rank held' moving' (insert r stale) := by
  have hcache : s'.cache = s.cache := by
    funext r
    rw [cache, hcached, cache]
  refine ⟨hok, hcache ▸ h.current.change fun k hk => ?_⟩
  rw [tree_eq_coreAt, tree_eq_coreAt, hs k hk]

end

theorem getSnapRealm (h : Good s rank held moving stale) (r : ℕ) :
    Good (s.getSnapRealm r) rank (r :: held) moving stale ∧
      (s.getSnapRealm r).coreAt r = some (((s.realms.find? r).getD {}).core) ∧
      ∀ r', r' ≠ r → (s.getSnapRealm r).realms.find? r' = s.realms.find? r' := by
  unfold SnapState.getSnapRealm
  cases hr : s.realms.find? r with
  | some x =>
    refine ⟨h.shrink ?_ (.store hr rfl) rfl, coreAt_store_self, fun r' hr' => ?_⟩
    · rw [find?_store]
      exact h.ok.hold hr
    · rw [find?_store, update_of_ne hr']
  | none =>
    have hok := h.ok.create hr
    rw [← find?_store] at hok
    refine ⟨⟨hok, h.current.grow (closed_tree h.ok) (r := r) ?_ (fun k hk => ⟨?_, ?_⟩) ?_⟩,
      coreAt_store_self, fun r' hr' => ?_⟩
    · rw [tree, hr, Option.map_none]
    · rw [tree_eq_coreAt, tree_eq_coreAt]
      exact congrArg _ (coreAt_store_of_ne hk)
    · exact cache_keep_of_ne hk
    · exact cache_keep_self
    · dsimp only [invalidateCache, SnapState.keep]
      rw [find?_store, update_of_ne hr']

theorem putSnapRealm (h : Good s rank (r :: held) moving stale) :
    ∃ s', Returns (fun fuel => s.putSnapRealm fuel r) s' ∧ Good s' rank held moving stale ∧
      Shrinks s s' := by
  -- by induction on the rank: deleting a realm gives back a reference on its parent
  induction hn : rank r using Nat.strong_induction_on generalizing s r with
  | _ n ih =>
    obtain ⟨x, hr⟩ := h.ok.held r List.mem_cons_self
    by_cases hlast : x.nref - 1 = 0
    · cases hp : x.pparent with
      | none =>
        refine ⟨{ s with realms := s.realms.erase r }, .of_succ ?_,
          h.shrink ?_ (.erase r) rfl, .erase r⟩
        · simp only [SnapState.putSnapRealm, deref_eq hr, ok_bind, if_pos hlast, hp]
          exact .ok _
        · rw [find?_erased]
          exact h.ok.delete hr hlast hp
      | some p =>
        obtain ⟨y, hy, -⟩ := h.ok.parent r x p hr hp
        have hne := h.ok.ne_of_parent hr hp
        have hok := h.ok.delete_child hr hlast hp hy
        obtain ⟨s1, hs1⟩ : ∃ t, t = { s with realms := s.realms.erase r } := ⟨_, rfl⟩
        have hs₁' : s1.realms.find? = update s.realms.find? r none := by
          rw [hs1, find?_erased]
        have hy1 : s1.realms.find? p = some y := by rw [hs₁', update_of_ne hne, hy]
        obtain ⟨s2, hs2⟩ : ∃ t, t = s1.store p { y with pchildren := y.pchildren.erase r } :=
          ⟨_, rfl⟩
        have hshrinks : Shrinks s s2 := by
          rw [hs2]
          exact .trans (hs1 ▸ .erase r) (.store hy1 rfl)
        have hgood : Good s2 rank (p :: held) moving stale := by
          refine h.shrink ?_ hshrinks (by rw [hs2, hs1]; rfl)
          rw [hs2, find?_store, hs₁']
          rw [hs1]
          exact hok
        obtain ⟨s', hret, hgood', hshrinks'⟩ := ih (rank p) (hn ▸ h.ok.ranked r x p hr hp) hgood rfl
        refine ⟨s', .of_succ ?_, hgood', hshrinks.trans hshrinks'⟩
        simp only [SnapState.putSnapRealm, deref_eq hr, ok_bind, if_pos hlast, hp]
        rw [← hs1, modify_eq hy1]
        rw [← hs2]
        exact hret
    · refine ⟨s.store r { x with nref := x.nref - 1 }, .of_succ ?_,
        h.shrink ?_ (.store hr rfl) rfl, .store hr rfl⟩
      · simp only [SnapState.putSnapRealm, deref_eq hr, ok_bind, if_neg hlast]
        exact .ok _
      · rw [find?_store]
        exact h.ok.drop hr hlast

theorem exists_of_held (h : Good s rank held moving stale) (hr : r ∈ held) :
    ∃ x, s.realms.find? r = some x :=
  h.ok.held r hr

theorem leaveParent (h : Good s rank held moving stale) (hr : s.realms.find? r = some x)
    (parent : ℕ) : ∃ s', Returns (fun fuel =>
        (s.store r { x with parent := parent, pparent := none }).leaveParent fuel r x) s' ∧
      Good s' rank held moving (insert r stale) ∧
      Shrinks (s.store r { x with parent := parent, pparent := none }) s' := by
  obtain ⟨s1, hs1⟩ : ∃ t, t = s.store r { x with parent := parent, pparent := none } := ⟨_, rfl⟩
  have hfind1 : s1.realms.find? = update s.realms.find? r
      (some { x with parent := parent, pparent := none }) := by rw [hs1, find?_store]
  have hcore1 : ∀ r', r' ≠ r → s1.coreAt r' = s.coreAt r' := by
    intro r' hr'
    rw [hs1, coreAt_store_of_ne hr']
  rw [← hs1]
  unfold SnapState.leaveParent
  cases hp : x.pparent with
  | none =>
    refine ⟨s1, .ok _, h.change ?_ hcore1 (by rw [hs1]; rfl), .refl _⟩
    rw [hfind1, hs1]
    exact h.ok.renew hr (by rw [SnapRealm.links, SnapRealm.links, hp]) rfl
  | some p =>
    obtain ⟨y, hy, -⟩ := h.ok.parent r x p hr hp
    have hne := h.ok.ne_of_parent hr hp
    have hy1 : s1.realms.find? p = some y := by rw [hfind1, update_of_ne hne, hy]
    obtain ⟨s2, hs2⟩ : ∃ t, t = s1.store p { y with pchildren := y.pchildren.erase r } := ⟨_, rfl⟩
    have hcore2 : ∀ r', s2.coreAt r' = s1.coreAt r' := by
      rw [hs2]
      exact coreAt_store hy1 rfl
    have hgood : Good s2 rank (p :: held) moving (insert r stale) := by
      refine h.change ?_ (fun r' hr' => (hcore2 r').trans (hcore1 r' hr')) (by rw [hs2, hs1]; rfl)
      rw [hs2, find?_store, hfind1, hs1]
      exact h.ok.leave hr hp hy parent
    obtain ⟨s', hret, hgood', hshrinks⟩ := hgood.putSnapRealm
    refine ⟨s', ?_, hgood', .trans (.of_coreAt hcore2) hshrinks⟩
    simp only [modify_eq hy1, ok_bind]
    rw [← hs2]
    exact hret

theorem join (h : Good s rank (p :: held) moving stale) (hr : s.realms.find? r = some x)
    (hnone : x.pparent = none) (hlt : rank p < rank r) : ∃ s', (do
        let s ← s.modify r fun x => { x with pparent := some p }
        s.modify p (SnapRealm.addChild · r)) = .ok s' ∧
      Good s' rank held moving (insert r stale) ∧
      s'.coreAt r = some (x.snaps, x.parent, some p) ∧
      (∀ r', r' ≠ r → s'.coreAt r' = s.coreAt r') := by
  obtain ⟨y, hy⟩ := h.exists_of_held List.mem_cons_self
  have hne : p ≠ r := by
    rintro rfl
    exact lt_irrefl _ hlt
  obtain ⟨s1, hs1⟩ : ∃ t, t = s.store r { x with pparent := some p } := ⟨_, rfl⟩
  have hy1 : s1.realms.find? p = some y := by
    rw [hs1, find?_store, update_of_ne hne, hy]
  have hcore : ∀ r', (s1.store p (y.addChild r)).coreAt r' = s1.coreAt r' := coreAt_store hy1 rfl
  have hother : ∀ r', r' ≠ r → (s1.store p (y.addChild r)).coreAt r' = s.coreAt r' := by
    intro r' hr'
    rw [hcore, hs1, coreAt_store_of_ne hr']
  refine ⟨s1.store p (y.addChild r), ?_, h.change ?_ hother (by rw [hs1]; rfl), ?_, hother⟩
  · rw [modify_eq hr, ok_bind, ← hs1, modify_eq hy1]
  · rw [find?_store, hs1, find?_store]
    exact h.ok.join hr hnone hy hlt
  · rw [hcore, hs1, coreAt_store_self]
    rfl

section

variable (h : Good s rank held moving stale) (hheld : r ∈ held) (hr : s.realms.find? r = some x)
  (hlt : rank p < rank r)

include h hheld hr hlt

theorem moveRealm (hmoved : x.parent ≠ p) :
    ∃ s', Returns (fun fuel => s.adjustRealmParent fuel r p) (s', true) ∧
      Good s' rank held moving (insert r stale) ∧ s'.coreAt r = some (x.snaps, p, some p) ∧
      (∀ r' ∈ held, r' ≠ r → s'.coreAt r' = s.coreAt r') := by
  obtain ⟨s2, hret2, hgood2, hshrinks⟩ := h.leaveParent hr p
  obtain ⟨hgood3, hself, hfind3⟩ := hgood2.getSnapRealm p
  have hne : r ≠ p := by
    rintro rfl
    exact lt_irrefl _ hlt
  obtain ⟨x2, hx2⟩ := hgood2.exists_of_held hheld
  have hcore2 := hshrinks.coreAt hx2
  rw [coreAt_store_self, coreAt_eq hx2] at hcore2
  have hx3 := (hfind3 r hne).trans hx2
  obtain ⟨hsnaps, hparent, hpp⟩ : x2.snaps = x.snaps ∧ x2.parent = p ∧ x2.pparent = none := by
    injection hcore2 with hcore2
    simp only [SnapRealm.core, Prod.mk.injEq] at hcore2
    exact hcore2
  obtain ⟨s5, hret5, hgood5, hcore5, hother5⟩ := hgood3.join hx3 hpp hlt
  rw [Set.insert_eq_of_mem (Set.mem_insert _ _), hsnaps, hparent] at *
  refine ⟨s5, ?_, hgood5, hcore5, ?_⟩
  · simp only [SnapState.adjustRealmParent, deref_eq hr, ok_bind, if_pos hmoved]
    refine hret2.bind (.of_eq ?_)
    obtain ⟨s4, hs4, hret5⟩ := bind_eq_ok.mp hret5
    rw [hs4, ok_bind, hret5]
    rfl
  · intro r' hr' hne'
    obtain ⟨y, hy⟩ := hgood2.exists_of_held hr'
    have hkept := hshrinks.coreAt hy
    rw [coreAt_store_of_ne hne'] at hkept
    rw [hother5 r' hne', ← hkept]
    by_cases hp : r' = p
    · subst hp
      rw [hself, hy, coreAt_eq hy]
      rfl
    · rw [SnapState.coreAt, SnapState.coreAt, hfind3 r' hp]

theorem adjustRealmParent :
    ∃ s', Returns (fun fuel => s.adjustRealmParent fuel r p) (s', decide (x.parent ≠ p)) ∧
      Good s' rank held moving (if x.parent = p then stale else insert r stale) ∧
      s'.coreAt r = some (x.snaps, p, if x.parent = p then x.pparent else some p) ∧
      (∀ r' ∈ held, r' ≠ r → s'.coreAt r' = s.coreAt r') ∧ (x.parent = p → s' = s) := by
  by_cases hsame : x.parent = p
  · have hmoved : ¬ x.parent ≠ p := not_not.mpr hsame
    rw [decide_eq_false hmoved, if_pos hsame, if_pos hsame]
    refine ⟨s, ?_, h, ?_, fun _ _ _ => rfl, fun _ => rfl⟩
    · simp only [SnapState.adjustRealmParent, deref_eq hr, ok_bind, if_neg hmoved]
      exact .ok _
    · rw [coreAt_eq hr, SnapRealm.core, hsame]
  · obtain ⟨s', hret, hgood, hcore, hother⟩ := h.moveRealm hheld hr hlt hsame
    rw [decide_eq_true hsame, if_neg hsame, if_neg hsame]
    exact ⟨s', hret, hgood, hcore, hother, fun heq => absurd heq hsame⟩

end

end Good

/-! ### Traces -/

def IsNews (s : SnapState) (info : SnapRealmInfo) : Prop :=
  ((s.realms.find? info.ino).getD {}).seq < info.seq ∨
    ((s.realms.find? info.ino).getD {}).parent ≠ info.parent

variable {info : SnapRealmInfo}

namespace Good

section

variable (h : Good s rank held moving stale) (hr : s.realms.find? r = some x)

include h hr

theorem flush_if (c : Prop) [Decidable c] : ∃ s', Returns (fun fuel =>
        if c then walk (SnapState.flushRealm fuel) fuel s [r] else .ok s) s' ∧
      s'.realms = s.realms ∧ Good s' rank held moving stale := by
  by_cases hc : c
  · obtain ⟨s', hret, hrealms, hgood⟩ := h.flush hr
    simp only [if_pos hc]
    exact ⟨s', hret, hrealms, hgood⟩
  · simp only [if_neg hc]
    exact ⟨s, .ok s, rfl, h⟩

theorem update_if (info : SnapRealmInfo) (hstale : ∀ j ∈ stale, j = r) :
    ∃ stale', Good (if info.seq > x.seq then s.store r (x.update info) else s) rank held moving
        stale' ∧
      (∀ j ∈ stale', j = r) ∧ (stale'.Nonempty → stale.Nonempty ∨ info.seq > x.seq) := by
  by_cases hnewer : info.seq > x.seq
  · rw [if_pos hnewer]
    refine ⟨insert r stale, h.change ?_ (fun r' hr' => coreAt_store_of_ne hr') rfl, ?_,
      fun _ => .inr hnewer⟩
    · rw [find?_store]
      exact h.ok.renew hr rfl rfl
    · intro j hj
      exact (Set.mem_insert_iff.mp hj).elim id (hstale j)
  · rw [if_neg hnewer]
    exact ⟨stale, h, hstale, .inl⟩

theorem invalidate_if (hstale : ∀ j ∈ stale, j = r) {c} [Decidable c] (hc : stale.Nonempty → c) :
    ∃ s', Returns (fun fuel =>
        if c then s.invalidateSnaprealmAndChildren fuel r else .ok s) s' ∧
      Good s' rank held moving ∅ := by
  by_cases hinval : c
  · obtain ⟨s', hret, hgood⟩ := h.invalidateSnaprealmAndChildren hr hstale
    simp only [if_pos hinval]
    exact ⟨s', hret, hgood⟩
  · simp only [if_neg hinval]
    have hempty : stale = ∅ := Set.not_nonempty_iff_eq_empty.mp fun hne => hinval (hc hne)
    exact ⟨s, .ok s, hempty ▸ h⟩

end

theorem updateRealm (h : Good s rank held moving stale) (hlt : rank info.parent < rank info.ino)
    (hstale : ∀ j ∈ stale, j = info.ino) (hnews : stale.Nonempty → s.IsNews info) (flush : Bool) :
    ∃ s', Returns (fun fuel => s.updateRealm fuel flush info) s' ∧ Good s' rank held moving ∅ := by
  obtain ⟨h1, hcore1, -⟩ := h.getSnapRealm info.ino
  obtain ⟨x1, hx1, hcore1⟩ := exists_of_coreAt hcore1
  have hseq1 : x1.seq = ((s.realms.find? info.ino).getD {}).seq :=
    congrArg (fun c => RealmSnaps.seq c.1) hcore1
  have hparent1 : x1.parent = ((s.realms.find? info.ino).getD {}).parent :=
    congrArg (fun c => c.2.1) hcore1
  obtain ⟨s2, hret2, hrealms2, h2⟩ := h1.flush_if hx1 (info.seq > x1.seq ∧ flush)
  obtain ⟨s3, hret3, h3, hcore3, -, -⟩ :=
    h2.adjustRealmParent List.mem_cons_self (hrealms2 ▸ hx1) hlt
  obtain ⟨x3, hx3, hcore3⟩ := exists_of_coreAt hcore3
  have hseq3 : x3.seq = x1.seq := congrArg (fun c => RealmSnaps.seq c.1) hcore3
  have hstale3 : ∀ j ∈ (if x1.parent = info.parent then stale else insert info.ino stale),
      j = info.ino := by
    intro j hj
    split at hj
    · exact hstale j hj
    · exact (Set.mem_insert_iff.mp hj).elim id (hstale j)
  obtain ⟨stale4, h4, hstale4, hnews4⟩ := h3.update_if hx3 info hstale3
  have hinval : stale4.Nonempty → decide (x1.parent ≠ info.parent) ∨ info.seq > x3.seq := by
    intro hne
    rcases hnews4 hne with hne | hnewer
    · by_cases hsame : x1.parent = info.parent
      · rw [if_pos hsame] at hne
        rcases hnews hne with hnew | hnew
        · exact .inr (by omega)
        · exact absurd (hparent1 ▸ hsame) hnew
      · exact .inl (decide_eq_true hsame)
    · exact .inr hnewer
  obtain ⟨x4, hx4⟩ := h4.exists_of_held List.mem_cons_self
  obtain ⟨s5, hret5, h5⟩ := h4.invalidate_if hx4 hstale4 hinval
  obtain ⟨s', hret, hgood, -⟩ := h5.putSnapRealm
  refine ⟨s', ?_, hgood⟩
  simp only [SnapState.updateRealm, deref_eq hx1, ok_bind]
  refine hret2.bind (hret3.bind ?_)
  simp only [deref_eq hx3, ok_bind]
  exact hret5.bind hret

theorem updateSnapTrace (h : Good s rank held moving ∅) {trace}
    (hlt : ∀ info ∈ trace, rank info.parent < rank info.ino) (flush : Bool) :
    ∃ s', Returns (fun fuel => s.updateSnapTrace fuel flush trace) s' ∧
      Good s' rank held moving ∅ := by
  refine Returns.foldlM (fun info hinfo s h => ?_) h
  exact h.updateRealm (hlt info hinfo) (fun j hj => absurd hj (Set.notMem_empty j))
    (fun hne => absurd hne Set.not_nonempty_empty) flush

end Good

end SnapState

end CephDokan.Client
