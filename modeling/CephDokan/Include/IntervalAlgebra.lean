import CephDokan.Include.IntervalOps
import Mathlib

/-!
# Operations on two interval sets

Intersection walks both maps in lock step; union, subtraction and the subset test go through the
entries of one of them. Each is shown to be the operation on the numbers that are covered.
-/

namespace CephDokan.IntervalSet

open Fallible Intervals List

variable {s a b : IntervalSet}

/-! ### Entry by entry -/

variable {l : List (ℕ × ℕ)}

theorem Ok.erase_list (h : Ok s) (hl : Canonical l)
    (hsub : ∀ v, Covers l v → Covers s.m.entries v) :
    ∃ s', l.foldlM (fun s p => s.erase p.1 p.2) s = .ok s' ∧ Ok s'
      ∧ ∀ v, Covers s'.m.entries v ↔ Covers s.m.entries v ∧ ¬Covers l v := by
  induction l generalizing s with
  | nil => exact ⟨s, rfl, h, fun v => by rw [and_iff_left (covers_nil v)]⟩
  | cons p l ih =>
    obtain ⟨s1, hrun, hok, hcovers⟩ := h.erase_spec hl.head_pos fun v hle hlt =>
      hsub v ((covers_cons p l v).mpr (.inl ⟨hle, hlt⟩))
    have hrest : ∀ v, Covers l v → Covers s1.m.entries v := by
      intro v hv
      have := hl.lt_of_covers hv
      exact (hcovers v).mpr ⟨hsub v ((covers_cons p l v).mpr (.inr hv)), by omega⟩
    obtain ⟨s2, hrun2, hok2, hcovers2⟩ := ih hok hl.tail hrest
    refine ⟨s2, ?_, hok2, fun v => ?_⟩
    · rw [foldlM_cons, hrun, ok_bind, hrun2]
    · rw [hcovers2, hcovers, covers_cons]
      tauto

theorem Ok.insert_list (h : Ok s) (hl : Canonical l) (hbound : ∀ e ∈ l, e.1 + e.2 < 2 ^ 64)
    (hfew : total s.m.entries + total l < 2 ^ 63)
    (hdisjoint : ∀ v, Covers l v → ¬Covers s.m.entries v) :
    ∃ s', l.foldlM (fun s p => s.insert p.1 p.2) s = .ok s' ∧ Ok s'
      ∧ ∀ v, Covers s'.m.entries v ↔ Covers s.m.entries v ∨ Covers l v := by
  induction l generalizing s with
  | nil => exact ⟨s, rfl, h, fun v => by rw [or_iff_left (covers_nil v)]⟩
  | cons p l ih =>
    rw [total_cons] at hfew
    obtain ⟨s1, hrun, hok, hcovers, htotal⟩ := h.insert_spec hl.head_pos
      (hbound p mem_cons_self) (by omega) fun v hle hlt =>
        hdisjoint v ((covers_cons p l v).mpr (.inl ⟨hle, hlt⟩))
    have hrest : ∀ v, Covers l v → ¬Covers s1.m.entries v := by
      intro v hv hin
      have := hl.lt_of_covers hv
      rcases (hcovers v).mp hin with hin | hin
      · exact hdisjoint v ((covers_cons p l v).mpr (.inr hv)) hin
      · omega
    obtain ⟨s2, hrun2, hok2, hcovers2⟩ := ih hok hl.tail
      (fun e he => hbound e (mem_cons_of_mem _ he)) (by omega) hrest
    refine ⟨s2, ?_, hok2, fun v => ?_⟩
    · rw [foldlM_cons, hrun, ok_bind, hrun2]
    · rw [hcovers2, hcovers, covers_cons, or_assoc]

theorem Ok.subtract_spec (h : Ok s) (ha : Ok a) (hsub : a.covered ⊆ s.covered) :
    ∃ s', s.subtract a = .ok s' ∧ Ok s' ∧ s'.covered = s.covered \ a.covered := by
  obtain ⟨s', hrun, hok, hcovers⟩ := h.erase_list ha.canonical fun v hv => hsub hv
  exact ⟨s', hrun, hok, Set.ext hcovers⟩

theorem Ok.ncard_union (h : Ok s) (ha : Ok a) (hdisjoint : Disjoint s.covered a.covered) :
    (s.covered ∪ a.covered).ncard = total s.m.entries + total a.m.entries := by
  rw [Set.ncard_union_eq hdisjoint (Canonical.finite_covers _) (Canonical.finite_covers _)]
  exact congrArg₂ (· + ·) h.canonical.ncard_covers ha.canonical.ncard_covers

theorem Ok.insertAll_spec (h : Ok s) (ha : Ok a) (hdisjoint : Disjoint s.covered a.covered)
    (hfew : (s.covered ∪ a.covered).ncard < 2 ^ 63) :
    ∃ s', s.insertAll a = .ok s' ∧ Ok s' ∧ s'.covered = s.covered ∪ a.covered := by
  rw [h.ncard_union ha hdisjoint] at hfew
  obtain ⟨s', hrun, hok, hcovers⟩ := h.insert_list ha.canonical ha.bounded hfew fun v hv hin =>
    Set.disjoint_left.mp hdisjoint hin hv
  exact ⟨s', hrun, hok, Set.ext hcovers⟩

theorem Ok.allContained_spec (h : Ok b) (hl : Canonical l) (hbound : ∀ e ∈ l, e.1 + e.2 < 2 ^ 64) :
    ∃ r, allContained b l = .ok r ∧ (r = true ↔ ∀ v, Covers l v → Covers b.m.entries v) := by
  induction l with
  | nil => exact ⟨true, rfl, iff_of_true rfl fun v hv => absurd hv (covers_nil v)⟩
  | cons p l ih =>
    obtain ⟨r, hrun, hiff⟩ := h.contains_spec hl.head_pos (hbound p mem_cons_self)
    obtain ⟨r', hrun', hiff'⟩ := ih hl.tail fun e he => hbound e (mem_cons_of_mem _ he)
    rw [allContained, hrun, ok_bind]
    cases r with
    | false =>
      refine ⟨false, rfl, iff_of_false Bool.false_ne_true fun hall => ?_⟩
      apply absurd (hiff.mpr _) Bool.false_ne_true
      intro v hle hlt
      exact hall v ((covers_cons p l v).mpr (.inl ⟨hle, hlt⟩))
    | true =>
      refine ⟨r', hrun', hiff'.trans ?_⟩
      constructor
      · intro hall v hv
        rcases (covers_cons p l v).mp hv with hv | hv
        · exact hiff.mp rfl v hv.1 hv.2
        · exact hall v hv
      · intro hall v hv
        exact hall v ((covers_cons p l v).mpr (.inr hv))

/-! ### Intersection -/

/-- What is left of both maps and what is in the result make up the intersection, once. -/
structure Intersecting (A B : Set ℕ) (p : List (ℕ × ℕ) × List (ℕ × ℕ) × IntervalSet) : Prop where
  left : Canonical p.1 ∧ ∀ e ∈ p.1, e.1 + e.2 < 2 ^ 64
  right : Canonical p.2.1 ∧ ∀ e ∈ p.2.1, e.1 + e.2 < 2 ^ 64
  result : Ok p.2.2
  once : ∀ v, Covers p.2.2.m.entries v → ¬(Covers p.1 v ∧ Covers p.2.1 v)
  all : ∀ v, Covers p.2.2.m.entries v ∨ Covers p.1 v ∧ Covers p.2.1 v ↔ v ∈ A ∧ v ∈ B

theorem rest_ok {e} (h : Canonical (e :: l) ∧ ∀ f ∈ e :: l, f.1 + f.2 < 2 ^ 64) :
    Canonical l ∧ ∀ f ∈ l, f.1 + f.2 < 2 ^ 64 :=
  ⟨h.1.tail, fun f hf => h.2 f (mem_cons_of_mem _ hf)⟩

theorem Intersecting.round {A B} {p} (hA : A.Finite) (hfew : A.ncard < 2 ^ 63)
    (hp : Intersecting A B p) :
    While.Round intersectStep (Intersecting A B) (fun p => p.1.length + p.2.1.length)
      (fun s => Ok s ∧ s.covered = A ∩ B) p := by
  obtain ⟨pa, pb, s⟩ := p
  obtain ⟨hleft, hright, hresult, honce, hall⟩ := hp
  cases pa with
  | nil =>
    refine While.Round.stop (r := s) rfl ⟨hresult, Set.ext fun v => ?_⟩
    rw [Set.mem_inter_iff, ← hall v, iff_false_intro (covers_nil v), false_and, or_false]
    rfl
  | cons x pa =>
    cases pb with
    | nil =>
      refine While.Round.stop (r := s) rfl ⟨hresult, Set.ext fun v => ?_⟩
      rw [Set.mem_inter_iff, ← hall v, iff_false_intro (covers_nil v), and_false, or_false]
      rfl
    | cons y pb =>
      have hx : endOf x = x.1 + x.2 := u64_of_lt (hleft.2 x mem_cons_self)
      have hy : endOf y = y.1 + y.2 := u64_of_lt (hright.2 y mem_cons_self)
      have hxb := hleft.2 x mem_cons_self
      have hpa {v : ℕ} (hv : Covers pa v) := hleft.1.lt_of_covers hv
      have hpb {v : ℕ} (hv : Covers pb v) := hright.1.lt_of_covers hv
      simp only [covers_cons] at honce hall
      by_cases hxy : endOf x ≤ y.1
      · apply While.Round.goOn (t := (pa, y :: pb, s))
        · rw [intersectStep, if_pos hxy]
        · refine ⟨rest_ok hleft, hright, hresult, fun v hv => ?_, fun v => ?_⟩
          · grind [covers_cons]
          · grind [covers_cons]
        · exact Nat.add_lt_add_right (Nat.lt_succ_self _) _
      by_cases hyx : endOf y ≤ x.1
      · apply While.Round.goOn (t := (x :: pa, pb, s))
        · rw [intersectStep, if_neg hxy, if_pos hyx]
        · refine ⟨hleft, rest_ok hright, hresult, fun v hv => ?_, fun v => ?_⟩
          · grind [covers_cons]
          · grind [covers_cons]
        · exact Nat.add_lt_add_left (Nat.lt_succ_self _) _
      have hxpos := hleft.1.head_pos
      have hypos := hright.1.head_pos
      rw [hx] at hxy
      rw [hy] at hyx
      -- the part that the two entries have in common is new
      obtain ⟨start, hstart⟩ : ∃ start, start = max x.1 y.1 := ⟨_, rfl⟩
      obtain ⟨en, hen⟩ : ∃ en, en = min (x.1 + x.2) (y.1 + y.2) := ⟨_, rfl⟩
      have hlt : start < en := by omega
      have hfresh : ∀ v, start ≤ v → v < start + (en - start) → ¬Covers s.m.entries v := by
        intro v hle hlt hin
        exact honce v hin ⟨.inl (by omega), .inl (by omega)⟩
      have hroom : total s.m.entries + (en - start) ≤ A.ncard := by
        apply hresult.canonical.total_add_le hA hfresh
        rintro v (hv | hv)
        · exact ((hall v).mp (.inl hv)).1
        · exact ((hall v).mp (.inr ⟨.inl (by omega), .inl (by omega)⟩)).1
      obtain ⟨s', hrun, hok, hcovers, -⟩ :=
        hresult.insert_spec (by omega) (by omega) (hroom.trans_lt hfew) hfresh
      have hcommon (v : ℕ) : start ≤ v ∧ v < start + (en - start)
          ↔ (x.1 ≤ v ∧ v < x.1 + x.2) ∧ (y.1 ≤ v ∧ v < y.1 + y.2) := by omega
      have hstep : intersectStep (x :: pa, y :: pb, s) = .ok (.inl
          (if endOf x > endOf y then (x :: pa, pb, s') else (pa, y :: pb, s'))) := by
        rw [intersectStep, hx, hy, if_neg hxy, if_neg hyx, ← hstart, ← hen]
        dsimp only
        rw [assertThat_of hlt, ok_bind, sub64_of_le hlt.le (by omega), hrun]
        rfl
      rw [hx, hy] at hstep
      by_cases hlonger : x.1 + x.2 > y.1 + y.2
      · rw [if_pos hlonger] at hstep
        apply While.Round.goOn hstep
        · refine ⟨hleft, rest_ok hright, hok, fun v hv => ?_, fun v => ?_⟩
          · grind [covers_cons]
          · grind [covers_cons]
        · exact Nat.add_lt_add_left (Nat.lt_succ_self _) _
      · rw [if_neg hlonger] at hstep
        apply While.Round.goOn hstep
        · refine ⟨rest_ok hleft, hright, hok, fun v hv => ?_, fun v => ?_⟩
          · grind [covers_cons]
          · grind [covers_cons]
        · exact Nat.add_lt_add_right (Nat.lt_succ_self _) _

theorem Ok.intersection_entries (ha : Ok a) (hb : Canonical b.m.entries)
    (hbound : ∀ e ∈ b.m.entries, e.1 + e.2 < 2 ^ 64) :
    ∃ s, intersectionOf a b = .ok s ∧ Ok s ∧ s.covered = a.covered ∩ b.covered := by
  have hstart : Intersecting a.covered b.covered (a.m.entries, b.m.entries, empty) := by
    refine ⟨⟨ha.canonical, ha.bounded⟩, ⟨hb, hbound⟩, empty_ok, ?_, ?_⟩
    · intro v hv
      exact absurd hv (covers_nil v)
    · intro v
      exact or_iff_right (covers_nil v)
  have hfew : a.covered.ncard < 2 ^ 63 := ha.canonical.ncard_covers.trans_lt ha.few
  exact While.loop_returns (fun _ hp => hp.round (Canonical.finite_covers _) hfew) _ hstart
    (Nat.lt_succ_self _)

theorem Ok.intersectionOf_spec (ha : Ok a) (hb : Ok b) :
    ∃ s, intersectionOf a b = .ok s ∧ Ok s ∧ s.covered = a.covered ∩ b.covered :=
  ha.intersection_entries hb.canonical hb.bounded

theorem Ok.covered_eq_empty_iff (h : Ok s) : s.covered = ∅ ↔ s.m.entries = [] := by
  constructor
  · intro hempty
    apply eq_nil_iff_forall_not_mem.mpr
    intro e he
    have hpos := h.canonical.pos e he
    have hin : e.1 ∈ s.covered := ⟨e, he, le_rfl, by omega⟩
    rw [hempty] at hin
    exact hin
  · intro hnil
    ext v
    rw [mem_covered, hnil]
    exact iff_false_intro (covers_nil v)

variable {start len : ℕ}

theorem Ok.intersects_spec (h : Ok s) (hlen : 0 < len) (hbound : start + len < 2 ^ 64) :
    ∃ r, s.intersects start len = .ok r
      ∧ (r = true ↔ (s.covered ∩ Set.Ico start (start + len)).Nonempty) := by
  obtain ⟨a, hrun, hentries⟩ :
      ∃ a, empty.insert start len = .ok a ∧ a.m.entries = [(start, len)] := by
    rw [insert, assertThat_of hlen]
    exact ⟨_, rfl, rfl⟩
  have hcovered : a.covered = Set.Ico start (start + len) := by
    ext v
    rw [mem_covered, hentries, covers_cons, or_iff_left (covers_nil v)]
    rfl
  have hcanon : Canonical a.m.entries := by
    rw [hentries]
    exact .cons hlen (forall_mem_nil _) canonical_nil
  obtain ⟨i, hirun, hiok, hicovered⟩ :=
    h.intersection_entries hcanon (by simpa [hentries] using hbound)
  rw [intersects, hrun, ok_bind, hirun, ok_bind]
  refine ⟨_, rfl, ?_⟩
  rw [← hcovered, ← hicovered, Set.nonempty_iff_ne_empty, ne_eq, hiok.covered_eq_empty_iff,
    Bool.not_eq_true', isEmpty_eq_false_iff]

theorem Ok.unionOf_spec (ha : Ok a) (hb : Ok b) (hfew : (a.covered ∪ b.covered).ncard < 2 ^ 63) :
    ∃ s, unionOf a b = .ok s ∧ Ok s ∧ s.covered = a.covered ∪ b.covered := by
  obtain ⟨ab, hrun, hok, hcovered⟩ := ha.intersectionOf_spec hb
  obtain ⟨s1, hrun1, hok1, hcovered1⟩ := ha.subtract_spec hok
    (hcovered ▸ Set.inter_subset_left)
  rw [hcovered, Set.sdiff_self_inter] at hcovered1
  have hdisjoint : Disjoint s1.covered b.covered := hcovered1 ▸ Set.disjoint_sdiff_left
  have hsame : s1.covered ∪ b.covered = a.covered ∪ b.covered := by
    rw [hcovered1, Set.sdiff_union_self]
  obtain ⟨s2, hrun2, hok2, hcovered2⟩ := hok1.insertAll_spec hb hdisjoint (hsame ▸ hfew)
  refine ⟨s2, ?_, hok2, hcovered2.trans hsame⟩
  rw [unionOf, hrun, ok_bind, hrun1, ok_bind, hrun2]

end CephDokan.IntervalSet
