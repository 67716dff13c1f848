import CephDokan.Client.SnapRealm

/-!
# The forest of snap realms

Parents and children of realms agree, the counters count the references, and going up to the
parent comes to an end. Every change of the realms is one of a few small ones, each of which
keeps this; what a running call holds is counted with it.
-/

namespace CephDokan.Client

open Function List

def SnapRealm.links (x : SnapRealm) : Option ℕ × List ℕ × List ℕ :=
  (x.pparent, x.pchildren, x.inodesWithCaps)

/-- The realms are in order. `held` are the references of running calls, `moving` the inodes
that are on no list, and the parent of a realm has a lower `rank`. -/
structure RealmsOk (m : ℕ → Option SnapRealm) (snaprealm : ℕ → Option ℕ) (rank : ℕ → ℕ)
    (held moving : List ℕ) : Prop where
  parent : ∀ r x p, m r = some x → x.pparent = some p → ∃ y, m p = some y ∧ r ∈ y.pchildren
  child : ∀ r x c, m r = some x → c ∈ x.pchildren → ∃ y, m c = some y ∧ y.pparent = some r
  nodup : ∀ r x, m r = some x → x.pchildren.Nodup
  counted : ∀ r x, m r = some x →
    x.nref = x.pchildren.length + x.inodesWithCaps.length + held.count r
  used : ∀ r x, m r = some x → 0 < x.nref
  held : ∀ r ∈ held, ∃ x, m r = some x
  inode : ∀ i r, snaprealm i = some r → i ∉ moving → ∃ x, m r = some x ∧ i ∈ x.inodesWithCaps
  ranked : ∀ r x p, m r = some x → x.pparent = some p → rank p < rank r

namespace RealmsOk

variable {m : ℕ → Option SnapRealm} {snaprealm : ℕ → Option ℕ} {rank : ℕ → ℕ}
  {held moving : List ℕ} {r p i : ℕ} {x y : SnapRealm}

theorem exists_update {l : List ℕ} (h : ∀ r' ∈ l, r' ≠ r → ∃ x', m r' = some x') :
    ∀ r' ∈ l, ∃ x', update m r (some x) r' = some x' := by
  intro r' hr'
  by_cases heq : r' = r
  · subst heq
    exact ⟨x, update_self _ _ _⟩
  · rw [update_of_ne heq]
    exact h r' hr' heq

section

variable (h : RealmsOk m snaprealm rank held moving) (hr : m r = some x)

include h hr

theorem recount {x' : SnapRealm} {held'} (hlinks : x'.links = x.links)
    (hcount : x'.nref = x.pchildren.length + x.inodesWithCaps.length + held'.count r)
    (hpos : 0 < x'.nref) (hother : ∀ r', r' ≠ r → held'.count r' = held.count r')
    (hheld : ∀ r' ∈ held', ∃ x, m r' = some x) :
    RealmsOk (update m r (some x')) snaprealm rank held' moving := by
  simp only [SnapRealm.links, Prod.mk.injEq] at hlinks
  obtain ⟨hpp, hch, hin⟩ := hlinks
  cases h
  constructor
  case held => exact exists_update fun r' hr' _ => hheld r' hr'
  all_goals simp only [update_apply]
  all_goals grind

theorem hold : RealmsOk (update m r (some { x with nref := x.nref + 1 })) snaprealm rank (r :: held)
      moving := by
  have hcount := h.counted r x hr
  refine h.recount hr rfl ?_ ?_ (fun r' hr' => count_cons_of_ne (Ne.symm hr')) ?_
  · rw [count_cons_self]
    push_cast
    omega
  · simp only
    omega
  · intro r' hr'
    rcases mem_cons.mp hr' with rfl | hr'
    · exact ⟨x, hr⟩
    · exact h.held r' hr'

end

theorem drop (h : RealmsOk m snaprealm rank (r :: held) moving) (hr : m r = some x)
    (hlast : x.nref - 1 ≠ 0) :
    RealmsOk (update m r (some { x with nref := x.nref - 1 })) snaprealm rank held
      moving := by
  have hcount := h.counted r x hr
  rw [count_cons_self] at hcount
  refine h.recount hr rfl ?_ ?_ (fun r' hr' => (count_cons_of_ne (Ne.symm hr')).symm)
    fun r' hr' => h.held r' (mem_cons_of_mem _ hr')
  all_goals
    simp only
    omega

theorem renew {x' : SnapRealm} (h : RealmsOk m snaprealm rank held moving) (hr : m r = some x)
    (hlinks : x'.links = x.links) (href : x'.nref = x.nref) :
    RealmsOk (update m r (some x')) snaprealm rank held moving :=
  h.recount hr hlinks (href ▸ h.counted r x hr) (href ▸ h.used r x hr) (fun _ _ => rfl) h.held

theorem create (h : RealmsOk m snaprealm rank held moving) (hr : m r = none) :
    RealmsOk (update m r (some { nref := 1 })) snaprealm rank (r :: held) moving := by
  have hfresh : held.count r = 0 := by
    refine count_eq_zero.mpr fun hmem => ?_
    obtain ⟨x, hx⟩ := h.held r hmem
    rw [hr] at hx
    cases hx
  have hheld := h.held
  cases h
  constructor
  case held =>
    exact exists_update fun r' hr' heq => hheld r' ((mem_cons.mp hr').resolve_left heq)
  all_goals simp only [update_apply]
  all_goals grind

section

variable (h : RealmsOk m snaprealm rank (r :: held) moving) (hr : m r = some x)
  (hlast : x.nref - 1 = 0)

include h hr hlast

theorem unused : x.pchildren = [] ∧ x.inodesWithCaps = [] ∧ r ∉ held ∧
      ∀ r' x', m r' = some x' → x'.pparent ≠ some r := by
  have hcount := h.counted r x hr
  rw [count_cons_self] at hcount
  have hchildren : x.pchildren = [] := eq_nil_of_length_eq_zero (by omega)
  refine ⟨hchildren, eq_nil_of_length_eq_zero (by omega), count_eq_zero.mp (by omega), ?_⟩
  intro r' x' hx' hp
  obtain ⟨y, hy, hmem⟩ := h.parent r' x' r hx' hp
  rw [hr] at hy
  cases hy
  rw [hchildren] at hmem
  cases hmem

theorem delete (hp : x.pparent = none) : RealmsOk (update m r none) snaprealm rank held moving := by
  cases h
  constructor <;> simp only [update_apply]
  all_goals grind

end

theorem ne_of_parent (h : RealmsOk m snaprealm rank held moving) (hr : m r = some x)
    (hp : x.pparent = some p) : p ≠ r := by
  have hlt := h.ranked r x p hr hp
  rintro rfl
  exact lt_irrefl _ hlt

/-- The last reference on a realm with a parent is given back, and the reference that it has had
on its parent is left to the caller. -/
theorem delete_child (h : RealmsOk m snaprealm rank (r :: held) moving) (hr : m r = some x)
    (hlast : x.nref - 1 = 0) (hp : x.pparent = some p) (hy : m p = some y) :
    RealmsOk (update (update m r none) p
      (some { y with pchildren := y.pchildren.erase r })) snaprealm rank (p :: held) moving := by
  obtain ⟨hchildren, hinodes, hheld', hup⟩ := h.unused hr hlast
  obtain ⟨y', hy', hmem⟩ := h.parent r x p hr hp
  obtain rfl : y' = y := Option.some.inj (hy'.symm.trans hy)
  have hheld := h.held
  cases h
  constructor
  case held =>
    refine exists_update fun r' hr' heq => ?_
    have hin := (mem_cons.mp hr').resolve_left heq
    have hne' : r' ≠ r := fun heq' => hheld' (heq' ▸ hin)
    rw [update_of_ne hne']
    exact hheld r' (mem_cons_of_mem _ hin)
  all_goals simp only [update_apply]
  all_goals grind

theorem leave (h : RealmsOk m snaprealm rank held moving) (hr : m r = some x)
    (hp : x.pparent = some p) (hy : m p = some y) (parent : ℕ) : RealmsOk (update (update m r
        (some { x with parent := parent, pparent := none })) p
      (some { y with pchildren := y.pchildren.erase r })) snaprealm rank (p :: held) moving := by
  obtain ⟨y', hy', hmem⟩ := h.parent r x p hr hp
  obtain rfl : y' = y := Option.some.inj (hy'.symm.trans hy)
  have hheld := h.held
  cases h
  constructor
  case held =>
    refine exists_update fun r' hr' heq => exists_update (fun r' hr' _ => hheld r' hr') r' ?_
    exact (mem_cons.mp hr').resolve_left heq
  all_goals simp only [update_apply]
  all_goals grind

theorem join (h : RealmsOk m snaprealm rank (p :: held) moving) (hr : m r = some x)
    (hnone : x.pparent = none) (hy : m p = some y) (hlt : rank p < rank r) :
    RealmsOk (update (update m r (some { x with pparent := some p })) p
      (some (y.addChild r))) snaprealm rank held moving := by
  have hnot : r ∉ y.pchildren := by
    intro hmem
    obtain ⟨x', hx', hp⟩ := h.child p y r hy hmem
    rw [hr] at hx'
    cases hx'
    rw [hnone] at hp
    cases hp
  have hadd : y.addChild r = { y with pchildren := y.pchildren ++ [r] } := by
    rw [SnapRealm.addChild, if_neg hnot]
  rw [hadd]
  have hheld := h.held
  cases h
  constructor
  case held =>
    exact exists_update fun r' hr' _ =>
      exists_update (fun r' hr' _ => hheld r' (mem_cons_of_mem _ hr')) r' hr'
  all_goals simp only [update_apply]
  all_goals grind

theorem unlist (h : RealmsOk m snaprealm rank held moving) (hr : m r = some x)
    (hi : i ∈ x.inodesWithCaps) : RealmsOk (update m r
      (some { x with inodesWithCaps := x.inodesWithCaps.erase i })) snaprealm rank (r :: held)
      (i :: moving) := by
  have hheld := h.held
  cases h
  constructor
  case held =>
    exact exists_update fun r' hr' heq => hheld r' ((mem_cons.mp hr').resolve_left heq)
  all_goals simp only [update_apply]
  all_goals grind

theorem enlist (h : RealmsOk m snaprealm rank (r :: held) (i :: moving)) (hr : m r = some x) :
    RealmsOk (update m r (some { x with inodesWithCaps := x.inodesWithCaps ++ [i] }))
      (update snaprealm i (some r)) rank held moving := by
  have hheld := h.held
  cases h
  constructor
  case held =>
    exact exists_update fun r' hr' _ => hheld r' (mem_cons_of_mem _ hr')
  all_goals simp only [update_apply]
  all_goals grind

theorem forget (h : RealmsOk m snaprealm rank held (i :: moving)) :
    RealmsOk m (update snaprealm i none) rank held moving := by
  cases h
  constructor
  case inode =>
    grind
  all_goals assumption

end RealmsOk

end CephDokan.Client
