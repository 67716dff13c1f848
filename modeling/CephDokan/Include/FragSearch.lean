import CephDokan.Include.FragLeaves

/-!
# Walks through a fragment tree

The two walks over queues share one invariant: every leaf that is wanted and not listed yet lies
in exactly one fragment of the queue. They end because the subtree below a fragment of `b` bits
has fewer than `2 ^ (25 - b)` nodes.
-/

namespace CephDokan

open Fallible Frag List

namespace WellSplit

variable {s : Frag → ℕ} (h : WellSplit s)

/-! ### The queue -/

def holders (v : ℕ) (q : List Frag) : ℕ := q.countP fun f => f.contains v

theorem holders_append (v : ℕ) (q q' : List Frag) :
    holders v (q ++ q') = holders v q + holders v q' := countP_append

theorem holders_cons (v : ℕ) (f : Frag) (q : List Frag) :
    holders v (f :: q) = holders v q + if f.contains v = true then 1 else 0 := countP_cons

variable {f : Frag} {nb : ℕ}

theorem holders_split (hf : f.Valid) (hfits : f.bits + nb ≤ 24) (v : ℕ) :
    holders v (f.split nb) = if f.contains v = true then 1 else 0 := by
  have hchild {c : Frag} (hc : c ∈ f.split nb) (hcv : c.contains v = true) :
      f.contains v = true ∧ c = make (f.bits + nb) v := by
    obtain ⟨-, hbits, hin⟩ := (mem_split hf hfits c).mp hc
    rw [contains_congr (by omega) hcv] at hin
    exact ⟨hin, by rw [← hbits, (c.contains_iff v).mp hcv]⟩
  split_ifs with hv
  · have hcount : (f.split nb).count (make (f.bits + nb) v) = 1 :=
      count_eq_one_of_mem (split_nodup hf hfits) (make_mem_split hf hfits hv)
    rw [← hcount, List.count, holders]
    apply countP_congr
    intro c hc
    rw [beq_iff_eq]
    constructor
    · intro hcv
      exact (hchild hc hcv).2
    · rintro rfl
      exact make_contains _ v
  · rw [holders, countP_eq_zero]
    intro c hc hcv
    exact hv (hchild hc hcv).1

/-- More than the nodes below a fragment. -/
def weight (f : Frag) : ℕ := 2 ^ (25 - f.bits) - 1

def load (q : List Frag) : ℕ := (q.map weight).sum

theorem load_append (q q' : List Frag) : load (q ++ q') = load q + load q' := by
  rw [load, map_append, sum_append, load, load]

theorem load_cons (f : Frag) (q : List Frag) : load (f :: q) = weight f + load q := rfl

theorem weight_pos (hf : f.Valid) : 0 < weight f := by
  have hle := hf.bits_le
  have hpow : 2 ^ 1 ≤ 2 ^ (25 - f.bits) := Nat.pow_le_pow_right (by decide) (by omega)
  rw [weight]
  omega

theorem load_split (hfits : f.bits + nb ≤ 24) (hnb : nb ≠ 0) : load (f.split nb) < weight f := by
  have hconst : (f.split nb).map weight =
      List.replicate (2 ^ nb) (2 ^ (25 - (f.bits + nb)) - 1) := by
    rw [eq_replicate_iff, length_map, length_split]
    refine ⟨rfl, fun w hw => ?_⟩
    rw [Frag.split, map_map, mem_map] at hw
    obtain ⟨i, -, rfl⟩ := hw
    rfl
  have hpow : 2 ^ (25 - f.bits) = 2 ^ nb * 2 ^ (25 - (f.bits + nb)) := by
    rw [← pow_add]
    congr 1
    omega
  have hmany : 2 ^ 1 ≤ 2 ^ nb := Nat.pow_le_pow_right (by decide) (by omega)
  have hroom : 2 ^ nb * 2 ^ 1 ≤ 2 ^ nb * 2 ^ (25 - (f.bits + nb)) :=
    Nat.mul_le_mul_left _ (Nat.pow_le_pow_right (by decide) (by omega))
  rw [load, hconst, sum_replicate, weight, hpow, smul_eq_mul, Nat.mul_sub_one]
  omega

/-- The leaves that are wanted and not in `ls` yet lie each in one fragment of `q`. -/
structure Searching (s : Frag → ℕ) (W : Frag → Prop) (q ls : List Frag) : Prop where
  nodes : ∀ f ∈ q, Node s f
  found : ∀ f ∈ ls, Leaf s f ∧ W f
  held : ∀ f, Leaf s f → W f → holders f.value q + holders f.value ls = 1

variable {W : Frag → Prop} {q ls : List Frag} {f : Frag}

theorem Searching.perm {q' ls'} (hs : Searching s W q ls) (hq : q.Perm q')
    (hls : ls.Perm ls') : Searching s W q' ls' where
  nodes g hg := hs.nodes g (hq.mem_iff.mpr hg)
  found g hg := hs.found g (hls.mem_iff.mpr hg)
  held g hg hw := by
    have hheld := hs.held g hg hw
    rwa [holders, holders, hq.countP_eq, hls.countP_eq] at hheld

include h in
theorem Searching.expand (hs : Searching s W (f :: q) ls) (hf : s f ≠ 0) :
    Searching s W (q ++ f.split (s f)) ls where
  nodes g hg := by
    rcases mem_append.mp hg with hg | hg
    · exact hs.nodes g (mem_cons_of_mem _ hg)
    · exact .child (hs.nodes f mem_cons_self) hf hg
  found := hs.found
  held g hg hw := by
    have hheld := hs.held g hg hw
    rwa [holders_append, holders_split (h.valid (hs.nodes f mem_cons_self)) (h.fits f hf),
      ← holders_cons]

theorem Searching.skip (hs : Searching s W (f :: q) ls)
    (hnone : ∀ g, Leaf s g → W g → f.contains g.value = false) : Searching s W q ls where
  nodes g hg := hs.nodes g (mem_cons_of_mem _ hg)
  found := hs.found
  held g hg hw := by
    have hheld := hs.held g hg hw
    rwa [holders_cons, hnone g hg hw, if_neg Bool.false_ne_true, Nat.add_zero] at hheld

theorem Searching.found_leaf (hs : Searching s W (f :: q) ls) (hf : s f = 0) (hw : W f) :
    Searching s W q (f :: ls) where
  nodes g hg := hs.nodes g (mem_cons_of_mem _ hg)
  found g hg := by
    rcases mem_cons.mp hg with rfl | hg
    · exact ⟨⟨hs.nodes g mem_cons_self, hf⟩, hw⟩
    · exact hs.found g hg
  held g hg hw := by
    have hheld := hs.held g hg hw
    rw [holders_cons] at hheld ⊢
    omega

include h in
theorem Searching.finished (hs : Searching s W [] ls) :
    ls.Nodup ∧ ∀ f, f ∈ ls ↔ Leaf s f ∧ W f := by
  have hone (g : Frag) (hg : Leaf s g) (hw : W g) : holders g.value ls = 1 := by
    have hheld := hs.held g hg hw
    rwa [holders, countP_nil, Nat.zero_add] at hheld
  constructor
  · rw [nodup_iff_count_le_one]
    intro g
    by_cases hmem : g ∈ ls
    · obtain ⟨hleaf, hw⟩ := hs.found g hmem
      rw [← hone g hleaf hw, List.count, holders]
      apply countP_mono_left
      intro e _ he
      rw [beq_iff_eq] at he
      rw [he]
      exact (h.valid hleaf.1).contains_value
    · rw [count_eq_zero_of_not_mem hmem]
      exact Nat.zero_le _
  · intro g
    refine ⟨hs.found g, fun ⟨hleaf, hw⟩ => ?_⟩
    have hpos : 0 < holders g.value ls := by
      rw [hone g hleaf hw]
      exact Nat.one_pos
    obtain ⟨e, he, hin⟩ := countP_pos_iff.mp hpos
    have heq := h.leaf_unique hleaf (hs.found e he).1 (h.valid hleaf.1).contains_value hin
    rw [heq]
    exact he

end WellSplit

namespace FragTree

open WellSplit

variable {t : FragTree} (h : WellSplit t.getSplit)

/-! ### The walks -/

include h in
theorem getLeaves_returns :
    ∃ ls, t.getLeaves = .ok ls ∧ ls.Nodup ∧ ∀ f, f ∈ ls ↔ Leaf t.getSplit f := by
  have hstart : Searching t.getSplit (fun _ => True) [.root] [] := by
    constructor
    · intro f hf
      rw [mem_singleton.mp hf]
      exact .root
    · intro f hf
      cases hf
    · intro f _ _
      rw [holders_cons, if_pos (root_contains _)]
      rfl
  rw [getLeaves, getLeavesUnderSplit]
  apply While.loop_returns (I := fun p => Searching t.getSplit (fun _ => True) p.1 p.2)
    (μ := fun p => load p.1) _ _ hstart (by decide)
  rintro ⟨q, ls⟩ hp
  cases hq : q.getLast? with
  | none =>
    rw [getLast?_eq_none_iff.mp hq] at hp
    obtain ⟨hnodup, hmem⟩ := hp.finished h
    apply While.Round.stop (r := ls)
    · simp only [hq]
    · exact ⟨hnodup, fun f => (hmem f).trans (and_iff_left trivial)⟩
  | some f =>
    have hperm : q.Perm (f :: q.dropLast) := by
      conv_lhs => rw [← dropLast_append_getLast? f hq]
      exact perm_append_singleton _ _
    have hload : load q = weight f + load q.dropLast := by
      rw [← load_cons]
      exact (hperm.map weight).sum_eq
    have hpos := weight_pos (h.valid (hp.nodes f (hperm.mem_iff.mpr mem_cons_self)))
    have hfront := hp.perm hperm (List.Perm.refl ls)
    by_cases hs : t.getSplit f ≠ 0
    · apply While.Round.goOn (t := (q.dropLast ++ f.split (t.getSplit f), ls))
      · simp only [hq, if_pos hs]
      · exact hfront.expand h hs
      · have hless := load_split (h.fits f hs) hs
        dsimp only
        rw [load_append]
        omega
    · apply While.Round.goOn (t := (q.dropLast, f :: ls))
      · simp only [hq, if_neg hs]
      · exact hfront.found_leaf (not_not.mp hs) trivial
      · dsimp only
        omega

variable {x : Frag}

include h in
theorem getBranch_returns (hx : x.Valid) :
    ∃ b, t.getBranch x = .ok b ∧ Node t.getSplit b ∧ b.bits ≤ x.bits
      ∧ b.contains x.value = true := by
  rw [getBranch]
  apply While.loop_returns (I := fun y => y.Valid ∧ y.bits ≤ x.bits ∧ y.contains x.value = true)
    (μ := fun y => y.bits) _ _ ⟨hx, le_rfl, hx.contains_value⟩
    (lt_of_le_of_lt hx.bits_le (by decide))
  rintro y ⟨hy, hbits, hin⟩
  by_cases hroot : y = .root
  · apply While.Round.stop (r := y)
    · rw [if_pos hroot]
    · rw [hroot] at hbits hin ⊢
      exact ⟨.root, hbits, hin⟩
  by_cases hs : t.getSplit y ≠ 0
  · apply While.Round.stop (r := y)
    · rw [if_neg hroot, if_pos hs]
    · exact ⟨h.node y hs, hbits, hin⟩
  · have hpos : 0 < y.bits := hy.bits_pos hroot
    have hparent := parent_eq hy.bits_le
    have hmake := (y.contains_iff _).mp hin
    apply While.Round.goOn (t := y.parent)
    · rw [if_neg hroot, if_neg hs, parentOf, assertThat_of hpos]
      rfl
    · rw [hparent]
      refine ⟨make_valid ((Nat.sub_le _ _).trans hy.bits_le) _, (Nat.sub_le _ _).trans hbits, ?_⟩
      have hfewer := make_make (Nat.sub_le y.bits 1) x.value
      rw [hmake] at hfewer
      exact (contains_iff _ _).mpr hfewer.symm
    · rw [hparent]
      exact Nat.sub_lt hpos Nat.one_pos

include h in
theorem getBranchOrLeaf_returns (hx : x.Valid) :
    ∃ b, t.getBranchOrLeaf x = .ok b ∧ Node t.getSplit b ∧ b.bits ≤ x.bits
      ∧ b.contains x.value = true := by
  obtain ⟨b, hrun, hnode, hbits, hin⟩ := getBranch_returns h hx
  rw [getBranchOrLeaf, hrun, ok_bind]
  refine ⟨_, rfl, ?_⟩
  split_ifs with hchild
  · have hs : t.getSplit b ≠ 0 := hchild.1.ne'
    exact ⟨.child hnode hs (make_mem_split (h.valid hnode) (h.fits b hs) hin), hchild.2,
      make_contains _ _⟩
  · exact ⟨hnode, hbits, hin⟩

include h in
theorem getLeavesUnder_returns (hx : x.Valid) : ∃ ls, t.getLeavesUnder x = .ok ls ∧ ls.Nodup
      ∧ ∀ f, f ∈ ls ↔ Leaf t.getSplit f ∧ x.containsFrag f = true := by
  obtain ⟨b, hrun, hnode, hbits, hin⟩ := getBranchOrLeaf_returns h hx
  have hstart : Searching t.getSplit (fun f => x.containsFrag f = true) [b] [] := by
    constructor
    · intro f hf
      rw [mem_singleton.mp hf]
      exact hnode
    · intro f hf
      cases hf
    · intro f _ hw
      have hxf := ((x.containsFrag_iff f).mp hw).2
      rw [holders_cons, if_pos ((contains_congr hbits hxf).mp hin)]
      rfl
  have hload : load [b] < rounds := by
    have hpow : 2 ^ (25 - b.bits) ≤ 2 ^ 25 := Nat.pow_le_pow_right (by decide) (Nat.sub_le _ _)
    show 2 ^ (25 - b.bits) - 1 + 0 < 2 ^ 25
    omega
  rw [getLeavesUnder, hrun, ok_bind]
  apply While.loop_returns
    (I := fun p => Searching t.getSplit (fun f => x.containsFrag f = true) p.1 p.2)
    (μ := fun p => load p.1) _ _ hstart hload
  rintro ⟨q, ls⟩ hp
  cases q with
  | nil => exact While.Round.stop rfl (hp.finished h)
  | cons f q =>
    have hf := hp.nodes f mem_cons_self
    have hpos := weight_pos (h.valid hf)
    have hless : load q < load (f :: q) := by
      rw [load_cons]
      omega
    by_cases hout : f.bits ≥ x.bits ∧ ¬x.containsFrag f = true
    · apply While.Round.goOn (t := (q, ls)) _ _ hless
      · simp only [if_pos hout]
      · -- a leaf in both would put all of `f` into `x`
        apply hp.skip
        intro g _ hg
        by_contra hfg
        rw [Bool.not_eq_false] at hfg
        have hxg := ((x.containsFrag_iff g).mp hg).2
        exact hout.2 ((x.containsFrag_iff f).mpr ⟨hout.1, (contains_congr hout.1 hfg).mpr hxg⟩)
    by_cases hs : t.getSplit f ≠ 0
    · apply While.Round.goOn (t := (q ++ f.split (t.getSplit f), ls))
      · simp only [if_neg hout, if_pos hs]
      · exact hp.expand h hs
      · have hsplit := load_split (h.fits f hs) hs
        rw [load_append, load_cons]
        omega
    by_cases hw : x.containsFrag f = true
    · apply While.Round.goOn (t := (q, ls ++ [f])) _ _ hless
      · simp only [if_neg hout, if_neg hs, if_pos hw]
      · exact (hp.found_leaf (not_not.mp hs) hw).perm (List.Perm.refl q)
          (perm_append_singleton f ls).symm
    · apply While.Round.goOn (t := (q, ls)) _ _ hless
      · simp only [if_neg hout, if_neg hs, if_neg hw]
      · -- `f` is a leaf that reaches out of `x`
        apply hp.skip
        intro g hg hxg
        by_contra hfg
        rw [Bool.not_eq_false] at hfg
        have hleaf : Leaf t.getSplit f := ⟨hf, not_not.mp hs⟩
        rw [h.leaf_unique hleaf hg hfg (h.valid hg.1).contains_value] at hw
        exact hw hxg

include h in
theorem isLeaf_returns (hx : x.Valid) :
    ∃ r, t.isLeaf x = .ok r ∧ (r = true ↔ Leaf t.getSplit x) := by
  obtain ⟨ls, hrun, hnodup, hmem⟩ := getLeavesUnder_returns h hx
  rw [isLeaf, hrun, ok_bind]
  refine ⟨_, rfl, ?_⟩
  have hself : x.containsFrag x = true := (x.containsFrag_iff x).mpr ⟨le_rfl, hx.contains_value⟩
  rw [decide_eq_true_iff]
  constructor
  · rintro ⟨hhead, -⟩
    exact ((hmem x).mp (mem_of_mem_head? hhead)).1
  · intro hleaf
    -- a leaf contains no other
    have honly : ∀ f ∈ ls, f = x := by
      intro f hf
      obtain ⟨hfleaf, hxf⟩ := (hmem f).mp hf
      obtain ⟨hbits, hin⟩ := (x.containsFrag_iff f).mp hxf
      exact (h.leaf_eq_of_contains hleaf hfleaf.1 hbits hin).symm
    have hlist : ls = [x] := by
      apply perm_singleton.mp
      apply (perm_ext_iff_of_nodup hnodup (nodup_singleton x)).mpr
      intro f
      rw [mem_singleton]
      constructor
      · exact honly f
      · rintro rfl
        exact (hmem f).mpr ⟨hleaf, hself⟩
    rw [hlist]
    exact ⟨rfl, rfl⟩

include h in
theorem fragOf_returns (v : ℕ) :
    ∃ f, t.fragOf v = .ok f ∧ Leaf t.getSplit f ∧ f.contains v = true := by
  rw [fragOf]
  apply While.loop_returns (I := fun f => Node t.getSplit f ∧ f.contains v = true)
    (μ := fun f => 25 - f.bits) _ _ ⟨.root, root_contains v⟩ (by decide)
  rintro f ⟨hf, hv⟩
  by_cases hs : t.getSplit f = 0
  · apply While.Round.stop (r := f)
    · rw [assertThat_of hv, ok_bind, if_pos hs]
      rfl
    · exact ⟨⟨hf, hs⟩, hv⟩
  have hmem := make_mem_split (h.valid hf) (h.fits f hs) hv
  cases hfind : (f.split (t.getSplit f)).find? fun n => n.contains v with
  | none =>
    have hnone := find?_eq_none.mp hfind _ hmem
    exact absurd (make_contains _ v) hnone
  | some n =>
    have hn := mem_of_find?_eq_some hfind
    have hbits := ((h.mem_children hf hs).mp hn).2.1
    have hle := h.fits f hs
    apply While.Round.goOn (t := n)
    · rw [assertThat_of hv, ok_bind, if_neg hs, hfind]
      rfl
    · exact ⟨.child hf hs hn, find?_some (p := fun n : Frag => n.contains v) hfind⟩
    · omega

end FragTree

end CephDokan
