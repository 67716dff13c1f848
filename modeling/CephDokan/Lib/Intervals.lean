import Mathlib.Tactic

/-!
# Canonical lists of intervals

A set of numbers as the list of its maximal runs: pairs of a start and a positive length, in
order, with a gap between one and the next. A run of covered numbers lies in one interval of such
a list, and two lists that cover the same numbers are equal.
-/

namespace Intervals

open List

def Covers (l : List (ℕ × ℕ)) (v : ℕ) : Prop := ∃ e ∈ l, e.1 ≤ v ∧ v < e.1 + e.2

@[simp] theorem covers_nil (v : ℕ) : ¬Covers [] v := by
  rintro ⟨e, he, -⟩
  cases he

@[simp] theorem covers_cons (e : ℕ × ℕ) (l : List (ℕ × ℕ)) (v : ℕ) :
    Covers (e :: l) v ↔ (e.1 ≤ v ∧ v < e.1 + e.2) ∨ Covers l v := by
  constructor
  · rintro ⟨f, hf, hv⟩
    rcases mem_cons.mp hf with rfl | hf
    · exact .inl hv
    · exact .inr ⟨f, hf, hv⟩
  · rintro (hv | ⟨f, hf, hv⟩)
    · exact ⟨e, mem_cons_self, hv⟩
    · exact ⟨f, mem_cons_of_mem _ hf, hv⟩

@[simp] theorem covers_append (l l' : List (ℕ × ℕ)) (v : ℕ) :
    Covers (l ++ l') v ↔ Covers l v ∨ Covers l' v := by
  induction l with
  | nil => rw [nil_append, iff_false_intro (covers_nil v), false_or]
  | cons e l ih => rw [cons_append, covers_cons, covers_cons, ih, or_assoc]

def total (l : List (ℕ × ℕ)) : ℕ := (l.map Prod.snd).sum

@[simp] theorem total_nil : total [] = 0 := rfl

@[simp] theorem total_cons (e : ℕ × ℕ) (l : List (ℕ × ℕ)) : total (e :: l) = e.2 + total l := rfl

/-- Positive lengths, and a gap between each interval and the next. -/
structure Canonical (l : List (ℕ × ℕ)) : Prop where
  apart : l.Pairwise (fun x y => x.1 + x.2 < y.1)
  pos : ∀ e ∈ l, 0 < e.2

theorem canonical_nil : Canonical [] := ⟨List.Pairwise.nil, List.forall_mem_nil _⟩

namespace Canonical

variable {l bs as : List (ℕ × ℕ)} {e : ℕ × ℕ}

theorem left (h : Canonical (bs ++ as)) : Canonical bs :=
  ⟨(pairwise_append.mp h.apart).1, fun e he => h.pos e (mem_append_left _ he)⟩

theorem right (h : Canonical (bs ++ as)) : Canonical as :=
  ⟨(pairwise_append.mp h.apart).2.1, fun e he => h.pos e (mem_append_right _ he)⟩

theorem between (h : Canonical (bs ++ as)) : ∀ b ∈ bs, ∀ a ∈ as, b.1 + b.2 < a.1 :=
  (pairwise_append.mp h.apart).2.2

section

variable (h : Canonical (e :: l))

include h

theorem tail : Canonical l :=
  ⟨(pairwise_cons.mp h.apart).2, fun f hf => h.pos f (mem_cons_of_mem _ hf)⟩

theorem head_lt : ∀ a ∈ l, e.1 + e.2 < a.1 := (pairwise_cons.mp h.apart).1

theorem head_pos : 0 < e.2 := h.pos e mem_cons_self

theorem lt_start {v : ℕ} (hv : v < e.1) : ∀ a ∈ e :: l, v < a.1 := by
  intro a ha
  rcases mem_cons.mp ha with rfl | ha
  · exact hv
  · have := h.head_lt a ha
    omega

end

theorem append (hbs : Canonical bs) (has : Canonical as)
    (h : ∀ b ∈ bs, ∀ a ∈ as, b.1 + b.2 < a.1) : Canonical (bs ++ as) := by
  refine ⟨pairwise_append.mpr ⟨hbs.apart, has.apart, h⟩, fun e he => ?_⟩
  rcases mem_append.mp he with he | he
  · exact hbs.pos e he
  · exact has.pos e he

theorem cons (hpos : 0 < e.2) (h : ∀ a ∈ l, e.1 + e.2 < a.1) (hl : Canonical l) :
    Canonical (e :: l) := by
  refine ⟨pairwise_cons.mpr ⟨h, hl.apart⟩, fun f hf => ?_⟩
  rcases mem_cons.mp hf with rfl | hf
  · exact hpos
  · exact hl.pos f hf

theorem middle (hbs : Canonical bs) (has : Canonical as) (hpos : 0 < e.2)
    (hleft : ∀ b ∈ bs, b.1 + b.2 < e.1) (hright : ∀ a ∈ as, e.1 + e.2 < a.1) :
    Canonical (bs ++ e :: as) := by
  apply hbs.append (cons hpos hright has)
  intro b hb a ha
  have hbe := hleft b hb
  rcases mem_cons.mp ha with rfl | ha
  · exact hbe
  · have hea := hright a ha
    omega

theorem lt_of_covers (h : Canonical (e :: l)) {v : ℕ} (hv : Covers l v) : e.1 + e.2 < v := by
  obtain ⟨f, hf, hle, -⟩ := hv
  exact (h.head_lt f hf).trans_le hle

theorem exists_of_run (h : Canonical l) {start len : ℕ} (hlen : 0 < len)
    (hrun : ∀ v, start ≤ v → v < start + len → Covers l v) :
    ∃ e ∈ l, e.1 ≤ start ∧ start + len ≤ e.1 + e.2 := by
  induction l with
  | nil => exact absurd (hrun start le_rfl (by omega)) (covers_nil start)
  | cons e l ih =>
    rcases (covers_cons e l start).mp (hrun start le_rfl (by omega)) with hin | hin
    · refine ⟨e, mem_cons_self, hin.1, ?_⟩
      -- otherwise the end of the interval is in the run, and it is in a gap
      by_contra hshort
      rcases (covers_cons e l (e.1 + e.2)).mp (hrun _ (by omega) (by omega)) with hend | hend
      · omega
      · exact lt_irrefl _ (h.lt_of_covers hend)
    · have hafter := h.lt_of_covers hin
      have htail : ∀ v, start ≤ v → v < start + len → Covers l v := by
        intro v hle hlt
        rcases (covers_cons e l v).mp (hrun v hle hlt) with hv | hv
        · omega
        · exact hv
      obtain ⟨f, hf, hcover⟩ := ih h.tail htail
      exact ⟨f, mem_cons_of_mem _ hf, hcover⟩

theorem finite_covers (l : List (ℕ × ℕ)) : {v | Covers l v}.Finite := by
  induction l with
  | nil => simp
  | cons e l ih =>
    exact ((Set.finite_Ico e.1 (e.1 + e.2)).union ih).subset fun v => (covers_cons e l v).mp

theorem ncard_Ico_add (a n : ℕ) : (Set.Ico a (a + n)).ncard = n := by
  rw [← Finset.coe_Ico, Set.ncard_coe_finset, Nat.card_Ico, Nat.add_sub_cancel_left]

theorem ncard_covers_union (l : List (ℕ × ℕ)) {l'} (start len : ℕ)
    (hdisjoint : ∀ v, start ≤ v → v < start + len → ¬Covers l v)
    (hcovers : ∀ v, Covers l' v ↔ Covers l v ∨ start ≤ v ∧ v < start + len) :
    {v | Covers l' v}.ncard = {v | Covers l v}.ncard + len := by
  have hunion : {v | Covers l' v} = {v | Covers l v} ∪ Set.Ico start (start + len) :=
    Set.ext hcovers
  have hapart : Disjoint {v | Covers l v} (Set.Ico start (start + len)) :=
    Set.disjoint_left.mpr fun v hv hin => hdisjoint v hin.1 hin.2 hv
  rw [hunion, Set.ncard_union_eq hapart (finite_covers l) (Set.finite_Ico _ _), ncard_Ico_add]

theorem ncard_covers (h : Canonical l) : {v | Covers l v}.ncard = total l := by
  induction l with
  | nil => simp
  | cons e l ih =>
    rw [ncard_covers_union l e.1 e.2, ih h.tail, total_cons, add_comm]
    · intro v _ hlt hv
      exact absurd (h.lt_of_covers hv) (not_lt.mpr hlt.le)
    · exact fun v => (covers_cons e l v).trans or_comm

theorem total_add_le (h : Canonical l) {A : Set ℕ} (hA : A.Finite) {start len : ℕ}
    (hdisjoint : ∀ v, start ≤ v → v < start + len → ¬Covers l v)
    (hin : ∀ v, Covers l v ∨ start ≤ v ∧ v < start + len → v ∈ A) :
    total l + len ≤ A.ncard := by
  have hapart : Disjoint {v | Covers l v} (Set.Ico start (start + len)) :=
    Set.disjoint_left.mpr fun v hv hin => hdisjoint v hin.1 hin.2 hv
  rw [← h.ncard_covers, ← ncard_Ico_add start len,
    ← Set.ncard_union_eq hapart (finite_covers l) (Set.finite_Ico _ _)]
  exact Set.ncard_le_ncard (fun v => hin v) hA

theorem total_le (h : Canonical l) {A : Set ℕ} (hA : A.Finite) (hin : ∀ v, Covers l v → v ∈ A) :
    total l ≤ A.ncard := by
  rw [← h.ncard_covers]
  exact Set.ncard_le_ncard (fun v => hin v) hA

theorem eq_of_overlap (h : Canonical l) {f} (he : e ∈ l) (hf : f ∈ l)
    (hef : e.1 ≤ f.1 + f.2) (hfe : f.1 ≤ e.1 + e.2) : e = f := by
  by_contra hne
  have : Std.Symm fun x y : ℕ × ℕ => x.1 + x.2 < y.1 ∨ y.1 + y.2 < x.1 := ⟨fun _ _ => Or.symm⟩
  have := List.Pairwise.forall (R := fun x y : ℕ × ℕ => x.1 + x.2 < y.1 ∨ y.1 + y.2 < x.1)
    (h.apart.imp Or.inl) he hf hne
  omega

section

variable {l' : List (ℕ × ℕ)} (h : Canonical l) (h' : Canonical l')
  (hsame : ∀ v, Covers l v ↔ Covers l' v)

include h h' hsame

theorem mem_of_covers (he : e ∈ l) : e ∈ l' := by
  obtain ⟨f, hf, hfe⟩ := h'.exists_of_run (h.pos e he) fun v hle hlt =>
    (hsame v).mp ⟨e, he, hle, hlt⟩
  obtain ⟨g, hg, hgf⟩ := h.exists_of_run (h'.pos f hf) fun v hle hlt =>
    (hsame v).mpr ⟨f, hf, hle, hlt⟩
  -- an interval of the first list lies in one of the second, and that in one of the first
  obtain rfl := h.eq_of_overlap he hg (by omega) (by omega)
  rwa [Prod.ext (by omega : e.1 = f.1) (by omega)]

theorem eq_of_covers : l = l' := by
  have : Std.Irrefl fun x y : ℕ × ℕ => x.1 + x.2 < y.1 := ⟨fun x hx => by omega⟩
  have : Std.Antisymm fun x y : ℕ × ℕ => x.1 + x.2 < y.1 := ⟨fun x y hxy hyx => by omega⟩
  exact h.apart.eq_of_mem_iff h'.apart fun e =>
    ⟨h.mem_of_covers h' hsame, h'.mem_of_covers h fun v => (hsame v).symm⟩

end

end Canonical

end Intervals
