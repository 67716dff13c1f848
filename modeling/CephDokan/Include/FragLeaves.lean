import CephDokan.Include.FragTree

/-!
# The leaves of a fragment tree

A tree is used through `getSplit` alone. Its nodes are the fragments reached from the root by
splits, and it is well formed when only nodes are split and no node has more than 24 bits
(`WellSplit`). Splitting a leaf, merging the leaves below a node and leaving out a level of
identically split children all keep that, and then the walks through the tree agree on what
its leaves are.
-/

namespace CephDokan

open Function

open Frag

/-- What the splits make of the whole space. -/
inductive Node (s : Frag → ℕ) : Frag → Prop
  | root : Node s .root
  | child {f c : Frag} (hf : Node s f) (hs : s f ≠ 0) (hc : c ∈ f.split (s f)) : Node s c

def Leaf (s : Frag → ℕ) (f : Frag) : Prop := Node s f ∧ s f = 0

/-- Only nodes are split, and only as far as there are bits. -/
structure WellSplit (s : Frag → ℕ) : Prop where
  node : ∀ f, s f ≠ 0 → Node s f
  fits : ∀ f, s f ≠ 0 → f.bits + s f ≤ 24

namespace WellSplit

variable {s : Frag → ℕ} (h : WellSplit s) {f g x : Frag}

include h in
theorem valid (hf : Node s f) : f.Valid := by
  induction hf with
  | root => exact root_valid
  | child _ hs hc ih => exact ((mem_split ih (h.fits _ hs) _).mp hc).1

include h in
theorem mem_children (hf : Node s f) (hs : s f ≠ 0) {c} :
    c ∈ f.split (s f) ↔ c.Valid ∧ c.bits = f.bits + s f ∧ f.contains c.value = true :=
  mem_split (h.valid hf) (h.fits f hs) c

include h in
theorem descends (hf : Node s f) (hg : Node s g) (hbits : f.bits < g.bits)
    (hin : f.contains g.value = true) : s f ≠ 0 ∧ f.bits + s f ≤ g.bits := by
  -- both nodes vary: one between `g` and its branch point would come too early itself
  induction hn : g.bits using Nat.strong_induction_on generalizing f g with
  | _ n ih =>
    subst hn
    cases hg with
    | root => exact absurd hbits (Nat.not_lt_zero _)
    | @child e _ he hs hc =>
      obtain ⟨-, hgbits, hegin⟩ := (h.mem_children he hs).mp hc
      rcases lt_trichotomy f.bits e.bits with hlt | heq | hgt
      · have hein : f.contains e.value = true := (contains_congr hlt.le hegin).mpr hin
        obtain ⟨hsf, hle⟩ := ih e.bits (by omega) hf he hlt hein rfl
        exact ⟨hsf, by omega⟩
      · have hfe : f = e := eq_of_contains heq hin hegin
        rw [hfe]
        exact ⟨hs, hgbits.ge⟩
      · have hfin : e.contains f.value = true := (contains_congr hgt.le hin).mpr hegin
        obtain ⟨-, hle⟩ := ih f.bits hbits he hf hgt hfin rfl
        omega

include h in
theorem leaf_eq_of_contains (hf : Leaf s f) (hg : Node s g)
    (hbits : f.bits ≤ g.bits) (hin : f.contains g.value = true) : f = g := by
  rcases hbits.lt_or_eq with hlt | heq
  · exact absurd hf.2 (h.descends hf.1 hg hlt hin).1
  · exact eq_of_contains heq hin (h.valid hg).contains_value

include h in
theorem leaf_unique (hf : Leaf s f) (hg : Leaf s g) {v : ℕ}
    (hfv : f.contains v = true) (hgv : g.contains v = true) : f = g := by
  rcases le_total f.bits g.bits with hle | hle
  · exact h.leaf_eq_of_contains hf hg.1 hle ((contains_congr hle hgv).mpr hfv)
  · exact (h.leaf_eq_of_contains hg hf.1 hle ((contains_congr hle hfv).mpr hgv)).symm

/-! ### Changes that keep a tree well formed -/

include h in
theorem node_update_of_not_below (b : ℕ) (hf : Node s f)
    (hx : ¬(x.bits < f.bits ∧ x.contains f.value = true)) : Node (update s x b) f := by
  induction hf with
  | root => exact .root
  | @child e c he hs hc ih =>
    obtain ⟨-, hcbits, hcin⟩ := (h.mem_children he hs).mp hc
    have hne : e ≠ x := by
      rintro rfl
      exact hx ⟨by omega, hcin⟩
    have hsame : update s x b e = s e := update_of_ne hne _ _
    have hbelow : ¬(x.bits < e.bits ∧ x.contains e.value = true) := by
      rintro ⟨hlt, hin⟩
      exact hx ⟨by omega, (contains_congr hlt.le hcin).mp hin⟩
    exact .child (ih hbelow) (hsame ▸ hs) (hsame ▸ hc)

include h in
theorem split (hx : Leaf s x) {b : ℕ} (hfits : x.bits + b ≤ 24) : WellSplit (update s x b) := by
  have hkeep {f : Frag} (hf : Node s f) : Node (update s x b) f := by
    apply h.node_update_of_not_below b hf
    rintro ⟨hlt, hin⟩
    exact (h.descends hx.1 hf hlt hin).1 hx.2
  constructor
  · intro f hs
    by_cases hfx : f = x
    · rw [hfx]
      exact hkeep hx.1
    · rw [update_of_ne hfx] at hs
      exact hkeep (h.node f hs)
  · intro f hs
    by_cases hfx : f = x
    · rw [hfx, update_self]
      exact hfits
    · rw [update_of_ne hfx] at hs ⊢
      exact h.fits f hs

include h in
theorem merge (hleaves : ∀ c ∈ x.split (s x), Leaf s c) (hx : s x ≠ 0) :
    WellSplit (update s x 0) := by
  constructor
  · intro f hs
    have hfx : f ≠ x := by
      rintro rfl
      rw [update_self] at hs
      exact hs rfl
    rw [update_of_ne hfx] at hs
    apply h.node_update_of_not_below 0 (h.node f hs)
    rintro ⟨hlt, hin⟩
    -- a split node below `x` would lie in a child of `x`, which is a leaf
    have hxnode := h.node x hx
    have hfnode := h.node f hs
    have hle := (h.descends hxnode hfnode hlt hin).2
    have hleaf := hleaves _ (make_mem_split (h.valid hxnode) (h.fits x hx) hin)
    have heq := h.leaf_eq_of_contains hleaf hfnode hle (make_contains _ _)
    rw [heq] at hleaf
    exact hs hleaf.2
  · intro f hs
    by_cases hfx : f = x
    · rw [hfx, update_self] at hs
      exact absurd rfl hs
    · rw [update_of_ne hfx] at hs ⊢
      exact h.fits f hs

/-- The splits of `x` and of its children taken together. -/
def assimilated (s : Frag → ℕ) (x : Frag) (bits : ℕ) : Frag → ℕ :=
  update (fun f => if f ∈ x.split (s x) then 0 else s f) x (s x + bits)

include h in
theorem assimilate (hx : s x ≠ 0) {bits : ℕ} (hbits : bits ≠ 0)
    (hall : ∀ c ∈ x.split (s x), s c = bits) : WellSplit (assimilated s x bits) := by
  have hxnode := h.node x hx
  have hmem {c : Frag} := h.mem_children hxnode hx (c := c)
  have hchild : ∃ c, c ∈ x.split (s x) :=
    ⟨_, make_mem_split (h.valid hxnode) (h.fits x hx) (h.valid hxnode).contains_value⟩
  have hfits : x.bits + (s x + bits) ≤ 24 := by
    obtain ⟨c, hc⟩ := hchild
    have hcfits := h.fits c (by rw [hall c hc]; exact hbits)
    rw [hall c hc, (hmem.mp hc).2.1] at hcfits
    omega
  have hself : assimilated s x bits x = s x + bits := update_self _ _ _
  have hother {f : Frag} (hfx : f ≠ x) (hfc : f ∉ x.split (s x)) :
      assimilated s x bits f = s f := by
    rw [assimilated, update_of_ne hfx, if_neg hfc]
  -- nodes that are not below `x` are reached as before
  have habove {f : Frag} (hf : Node s f) (hb : ¬(x.bits < f.bits ∧ x.contains f.value = true)) :
      Node (assimilated s x bits) f := by
    induction hf with
    | root => exact .root
    | @child e c he hs hc ih =>
      obtain ⟨-, hcbits, hcin⟩ := (h.mem_children he hs).mp hc
      have hne : e ≠ x := by
        rintro rfl
        exact hb ⟨by omega, hcin⟩
      have hbelow : ¬(x.bits < e.bits ∧ x.contains e.value = true) := by
        rintro ⟨hlt, hin⟩
        exact hb ⟨by omega, (contains_congr hlt.le hcin).mp hin⟩
      have hnc : e ∉ x.split (s x) := by
        intro hec
        obtain ⟨-, hebits, hein⟩ := hmem.mp hec
        exact hbelow ⟨by omega, hein⟩
      exact .child (ih hbelow) (hother hne hnc ▸ hs) (hother hne hnc ▸ hc)
  have hxkeep : Node (assimilated s x bits) x := by
    apply habove hxnode
    rintro ⟨hlt, -⟩
    exact lt_irrefl _ hlt
  have hkeep {f : Frag} (hf : Node s f) (hfc : f ∉ x.split (s x)) :
      Node (assimilated s x bits) f := by
    induction hf with
    | root => exact .root
    | @child e c he hs hc ih =>
      obtain ⟨hcvalid, hcbits, hcin⟩ := (h.mem_children he hs).mp hc
      have hne : e ≠ x := by
        rintro rfl
        exact hfc hc
      by_cases hec : e ∈ x.split (s x)
      · -- a grandchild of `x` is now a child
        obtain ⟨-, hebits, hein⟩ := hmem.mp hec
        rw [hall e hec, hebits] at hcbits
        apply Node.child hxkeep (by rw [hself]; omega)
        rw [hself, mem_split (h.valid hxnode) hfits]
        exact ⟨hcvalid, by omega, (contains_congr (by omega) hcin).mp hein⟩
      · exact .child (ih hec) (hother hne hec ▸ hs) (hother hne hec ▸ hc)
  constructor
  · intro f hs
    by_cases hfx : f = x
    · rw [hfx]
      exact hxkeep
    · rw [assimilated, update_of_ne hfx] at hs
      split_ifs at hs with hfc
      · exact absurd rfl hs
      · exact hkeep (h.node f hs) hfc
  · intro f hs
    by_cases hfx : f = x
    · rw [hfx, hself]
      exact hfits
    · rw [assimilated, update_of_ne hfx] at hs ⊢
      split_ifs at hs ⊢ with hfc
      · exact absurd rfl hs
      · exact h.fits f hs

end WellSplit

end CephDokan
