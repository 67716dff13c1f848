import CephDokan.Include.FragSearch

/-!
# Fragment trees partition the hash space

A tree is reached from the empty one by splits of leaves and by merges of nodes whose children are
leaves, each with or without the simplification that follows. Every such tree is well formed, so its
leaves partition the values and all the walks agree on them.
-/

namespace CephDokan.FragTree

open Fallible Frag WellSplit Function

/-! ### The splits after a change -/

theorem getSplit_insert (t : FragTree) (x : Frag) (b : ℕ) :
    (⟨t.splits.insert x b⟩ : FragTree).getSplit = update t.getSplit x b := by
  funext f
  by_cases hf : f = x
  · rw [hf, update_self, getSplit, SortedMap.find?_insert_self]
    rfl
  · rw [update_of_ne hf, getSplit, SortedMap.find?_insert_of_ne _ _ hf]
    rfl

theorem getSplit_erase (t : FragTree) (x : Frag) :
    (⟨t.splits.erase x⟩ : FragTree).getSplit = update t.getSplit x 0 := by
  funext f
  rw [getSplit, SortedMap.find?_erase]
  by_cases hf : f = x
  · rw [hf, update_self, if_pos rfl]
    rfl
  · rw [update_of_ne hf, if_neg hf]
    rfl

theorem getSplit_eraseAll (ps : List Frag) (m : SortedMap Frag ℕ) (f : Frag) :
    (⟨ps.foldl (fun m p => m.erase p) m⟩ : FragTree).getSplit f
      = if f ∈ ps then 0 else (⟨m⟩ : FragTree).getSplit f := by
  induction ps generalizing m with
  | nil => rfl
  | cons p ps ih =>
    rw [List.foldl_cons, ih, getSplit_erase ⟨m⟩ p, update_apply]
    by_cases hps : f ∈ ps
    · rw [if_pos hps, if_pos (List.mem_cons_of_mem _ hps)]
    · by_cases hp : f = p
      · rw [if_neg hps, if_pos hp, if_pos (hp ▸ List.mem_cons_self)]
      · rw [if_neg hps, if_neg hp, if_neg (List.not_mem_cons_of_ne_of_not_mem hp hps)]

variable {t : FragTree} {x : Frag}

theorem childbits_eq_some {ps} {bits r : ℕ} (h : t.childbits ps bits = some r) :
    (bits ≠ 0 → r = bits) ∧ (ps ≠ [] → r ≠ 0) ∧ ∀ p ∈ ps, t.getSplit p = r := by
  induction ps generalizing bits with
  | nil =>
    rw [childbits, Option.some_inj] at h
    exact ⟨fun _ => h.symm, fun hne => absurd rfl hne, fun p hp => nomatch hp⟩
  | cons p ps ih =>
    rw [childbits] at h
    split_ifs at h with hzero hdiffer
    obtain ⟨hr, -, hps⟩ := ih h
    have hrp : r = t.getSplit p := hr hzero
    refine ⟨fun hbits => ?_, fun _ => hrp ▸ hzero, fun q hq => ?_⟩
    · rw [hrp]
      by_contra hne
      exact hdiffer ⟨hbits, hne⟩
    · rcases List.mem_cons.mp hq with rfl | hq
      · exact hrp.symm
      · exact hps q hq

theorem tryAssimilateChildren_wellSplit (h : WellSplit t.getSplit) (x : Frag) :
    WellSplit (t.tryAssimilateChildren x).getSplit := by
  rw [tryAssimilateChildren]
  by_cases hx : t.getSplit x = 0
  · rwa [if_pos hx]
  rw [if_neg hx]
  cases hbits : t.childbits (x.split (t.getSplit x)) 0 with
  | none => exact h
  | some bits =>
    obtain ⟨-, hpos, hall⟩ := childbits_eq_some hbits
    have hne : x.split (t.getSplit x) ≠ [] := by
      intro hnil
      have hlen := length_split x (t.getSplit x)
      rw [hnil] at hlen
      exact absurd hlen.symm (by positivity)
    have hsplits : (⟨((x.split (t.getSplit x)).foldl (fun m p => m.erase p) t.splits).insert x
        (t.getSplit x + bits)⟩ : FragTree).getSplit = assimilated t.getSplit x bits := by
      rw [getSplit_insert ⟨(x.split (t.getSplit x)).foldl (fun m p => m.erase p) t.splits⟩]
      funext f
      rw [assimilated, update_apply, update_apply, getSplit_eraseAll]
    rw [hsplits]
    exact h.assimilate hx (hpos hne) hall

/-! ### Splits and merges return -/

theorem getBranchAbove_returns (t : FragTree) (hx : x.Valid) : ∃ b, t.getBranchAbove x = .ok b := by
  have hreturns : ∃ b, t.getBranchAbove x = .ok b ∧ True := by
    apply While.loop_returns (I := Valid) (μ := bits) _ _ hx (lt_of_le_of_lt hx.bits_le (by decide))
    intro y hy
    by_cases hroot : y = .root
    · apply While.Round.stop (r := y) _ trivial
      rw [if_pos hroot]
    have hpos : 0 < y.bits := hy.bits_pos hroot
    have hparent := parent_eq hy.bits_le
    by_cases hs : t.getSplit y.parent ≠ 0
    · apply While.Round.stop (r := y.parent) _ trivial
      rw [if_neg hroot, parentOf, assertThat_of hpos]
      simp only [ok_bind, pure_bind, if_pos hs]
      rfl
    · apply While.Round.goOn (t := y.parent)
      · rw [if_neg hroot, parentOf, assertThat_of hpos]
        simp only [ok_bind, pure_bind, if_neg hs]
        rfl
      · rw [hparent]
        exact make_valid ((Nat.sub_le _ _).trans hy.bits_le) _
      · rw [hparent]
        exact Nat.sub_lt hpos Nat.one_pos
  obtain ⟨b, hrun, -⟩ := hreturns
  exact ⟨b, hrun⟩

theorem simplified_returns (h : WellSplit t.getSplit) (hx : x.Valid) (simplify : Bool) :
    ∃ t', t.simplified x simplify = .ok t' ∧ WellSplit t'.getSplit := by
  cases simplify with
  | false => exact ⟨t, rfl, h⟩
  | true =>
    obtain ⟨b, hrun⟩ := t.getBranchAbove_returns hx
    refine ⟨t.tryAssimilateChildren b, ?_, tryAssimilateChildren_wellSplit h b⟩
    rw [simplified, if_pos rfl, hrun]
    rfl

theorem split_returns (h : WellSplit t.getSplit) {b : ℕ}
    (hleaf : Leaf t.getSplit x) (hfits : x.bits + b ≤ 24) (simplify : Bool) :
    ∃ t', t.split x b simplify = .ok t' ∧ WellSplit t'.getSplit := by
  have hx := h.valid hleaf.1
  obtain ⟨r, hrun, hiff⟩ := isLeaf_returns h hx
  have hsplit := h.split hleaf hfits
  rw [← getSplit_insert] at hsplit
  rw [split, hrun, ok_bind, assertThat_of (hiff.mpr hleaf), ok_bind]
  exact simplified_returns hsplit hx simplify

theorem merge_returns (h : WellSplit t.getSplit) (hsplit : t.getSplit x ≠ 0)
    (hleaves : ∀ c ∈ x.split (t.getSplit x), Leaf t.getSplit c) (simplify : Bool) :
    ∃ t', t.merge x (t.getSplit x) simplify = .ok t' ∧ WellSplit t'.getSplit := by
  have hx := h.valid (h.node x hsplit)
  obtain ⟨r, hrun, hiff⟩ := isLeaf_returns h hx
  have hnot : (!r) = true := by
    rw [Bool.not_eq_true', ← Bool.not_eq_true, hiff]
    exact fun hleaf => hsplit hleaf.2
  have hmerge := h.merge hleaves hsplit
  rw [← getSplit_erase] at hmerge
  rw [merge, hrun, ok_bind, assertThat_of hnot, ok_bind, assertThat_of rfl, ok_bind]
  exact simplified_returns hmerge hx simplify

/-! ### Reachable trees -/

inductive Reachable : FragTree → Prop
  | empty : Reachable empty
  | split {t t' : FragTree} {x : Frag} {b : ℕ} {simplify : Bool} (ht : Reachable t)
      (hx : x.Valid) (hb : 0 < b) (hfits : x.bits + b ≤ 24)
      (hrun : t.split x b simplify = .ok t') : Reachable t'
  | merge {t t' : FragTree} {x : Frag} {b : ℕ} {simplify : Bool} (ht : Reachable t)
      (hb : 0 < b) (hleaves : ∀ c ∈ x.split b, t.isLeaf c = .ok true)
      (hrun : t.merge x b simplify = .ok t') : Reachable t'

theorem Reachable.wellSplit (h : Reachable t) : WellSplit t.getSplit := by
  induction h with
  | empty => exact ⟨fun f hs => absurd rfl hs, fun f hs => absurd rfl hs⟩
  | @split t t' x b simplify ht hx hb hfits hrun ih =>
    obtain ⟨r, hleaf, hiff⟩ := isLeaf_returns ih hx
    have hr : r = true := by
      rw [FragTree.split, hleaf, ok_bind] at hrun
      obtain ⟨u, hassert, -⟩ := bind_eq_ok.mp hrun
      exact assertThat_eq_ok.mp hassert
    obtain ⟨t'', hrun', hwell⟩ := split_returns ih (hiff.mp hr) hfits simplify
    rw [hrun', Except.ok.injEq] at hrun
    rwa [← hrun]
  | @merge t t' x b simplify ht hb hleaves hrun ih =>
    have hsplit : t.getSplit x = b := by
      obtain ⟨r, -, hrun⟩ := bind_eq_ok.mp hrun
      obtain ⟨u, -, hrun⟩ := bind_eq_ok.mp hrun
      obtain ⟨u', hassert, -⟩ := bind_eq_ok.mp hrun
      exact assertThat_eq_ok.mp hassert
    subst hsplit
    have hxnode := ih.node x hb.ne'
    have hall : ∀ c ∈ x.split (t.getSplit x), Leaf t.getSplit c := by
      intro c hc
      have hcvalid := ((ih.mem_children hxnode hb.ne').mp hc).1
      obtain ⟨r, hleaf, hiff⟩ := isLeaf_returns ih hcvalid
      rw [hleaves c hc, Except.ok.injEq] at hleaf
      exact hiff.mp hleaf.symm
    obtain ⟨t'', hrun', hwell⟩ := merge_returns ih hb.ne' hall simplify
    rw [hrun', Except.ok.injEq] at hrun
    rwa [← hrun]

theorem containsFrag_of_meets {f} {v : ℕ} (hf : f.contains v = true) (hx : x.contains v = true) :
    x.containsFrag f = true ∨ f.containsFrag x = true ∧ f.bits < x.bits := by
  rcases le_or_gt x.bits f.bits with hle | hlt
  · exact .inl ((x.containsFrag_iff f).mpr ⟨hle, (contains_congr hle hf).mpr hx⟩)
  · exact .inr ⟨(f.containsFrag_iff x).mpr ⟨hlt.le, (contains_congr hlt.le hx).mpr hf⟩, hlt⟩

/-- The leaves of a reachable tree are disjoint and cover every value; looking up a value, asking
for a leaf and listing all leaves agree. The leaves under `x` are those inside `x`, which are the
ones that meet `x` unless `x` is a proper part of a single leaf. -/
theorem leaves_partition {t : FragTree} (ht : Reachable t) :
    ∃ ls, t.getLeaves = .ok ls
      ∧ ls.Pairwise (fun f g => ∀ v, ¬(f.contains v = true ∧ g.contains v = true))
      ∧ (∀ v, ∃ f ∈ ls, t.fragOf v = .ok f ∧ f.contains v = true
        ∧ ∀ g ∈ ls, g.contains v = true → g = f)
      ∧ (∀ x : Frag, x.Valid → ∃ r, t.isLeaf x = .ok r ∧ (r = true ↔ x ∈ ls))
      ∧ ∀ x : Frag, x.Valid → ∃ under, t.getLeavesUnder x = .ok under ∧ under.Nodup
        ∧ (∀ f, f ∈ under ↔ f ∈ ls ∧ x.containsFrag f = true)
        ∧ ((∀ f ∈ ls, f.containsFrag x = true → x.bits ≤ f.bits) →
          ∀ f, f ∈ under ↔ f ∈ ls ∧ ∃ v, x.contains v = true ∧ f.contains v = true) := by
  have h := ht.wellSplit
  obtain ⟨ls, hrun, hnodup, hmem⟩ := getLeaves_returns h
  refine ⟨ls, hrun, ?_, ?_, ?_, ?_⟩
  · apply hnodup.pairwise_of_forall_ne
    rintro f hf g hg hne v ⟨hfv, hgv⟩
    exact hne (h.leaf_unique ((hmem f).mp hf) ((hmem g).mp hg) hfv hgv)
  · intro v
    obtain ⟨f, hfind, hleaf, hv⟩ := fragOf_returns h v
    refine ⟨f, (hmem f).mpr hleaf, hfind, hv, fun g hg hgv => ?_⟩
    exact h.leaf_unique ((hmem g).mp hg) hleaf hgv hv
  · intro x hx
    obtain ⟨r, hleaf, hiff⟩ := isLeaf_returns h hx
    exact ⟨r, hleaf, hiff.trans (hmem x).symm⟩
  · intro x hx
    obtain ⟨under, hunder, hdistinct, hinside⟩ := getLeavesUnder_returns h hx
    have hin (f : Frag) : f ∈ under ↔ f ∈ ls ∧ x.containsFrag f = true := by
      rw [hinside, hmem]
    refine ⟨under, hunder, hdistinct, hin, fun hwhole f => ?_⟩
    rw [hin]
    constructor
    · rintro ⟨hf, hxf⟩
      have hfvalid := h.valid ((hmem f).mp hf).1
      exact ⟨hf, f.value, ((x.containsFrag_iff f).mp hxf).2, hfvalid.contains_value⟩
    · rintro ⟨hf, v, hxv, hfv⟩
      rcases containsFrag_of_meets hfv hxv with hxf | ⟨hfx, hlt⟩
      · exact ⟨hf, hxf⟩
      · exact absurd (hwhole f hf hfx) (not_le.mpr hlt)

/-- The space in quarters, the last of them halved. -/
def quarters : FragTree := ((empty.split .root 2 true).toOption).getD empty

def quartersHalved : FragTree :=
  ((quarters.split (.make 2 0xc00000) 1 true).toOption).getD empty

theorem leaves_partition_quarters :
    Reachable quartersHalved ∧ ∃ ls, quartersHalved.getLeaves = .ok ls
      ∧ ls.Pairwise (fun f g => ∀ v, ¬(f.contains v = true ∧ g.contains v = true)) := by
  have hquarters : Reachable quarters :=
    .split .empty root_valid (b := 2) (by decide) (by decide)
      (eq_ok_getD empty (by decide +kernel))
  have hhalved : Reachable quartersHalved :=
    .split hquarters (make_valid (b := 2) (by decide) 0xc00000) (b := 1) (by decide) (by decide)
      (eq_ok_getD empty (by decide +kernel))
  obtain ⟨ls, hrun, hdisjoint, -⟩ := leaves_partition hhalved
  exact ⟨hhalved, ls, hrun, hdisjoint⟩

/-- Half of the space meets the only leaf of an empty tree, which is not listed under it. -/
theorem getLeavesUnder_misses_larger :
    empty.getLeaves = .ok [.root] ∧ empty.getLeavesUnder (.make 1 0) = .ok []
      ∧ (Frag.make 1 0).contains 0 = true ∧ Frag.root.contains 0 = true := by
  decide +kernel

end CephDokan.FragTree
