import Mathlib.Data.List.Basic

/-!
# Lists of extents

A list of values keyed by their start, each with a size: `Ordered` says that every
extent ends before the next one starts. `look` reads the list byte by byte through a
function of the value that holds the byte, so that cutting an extent in two or joining
two can be compared with what was there before.
-/

namespace Extents

open List

variable {α β : Type*} (size : α → ℕ)

def Ordered (l : List (ℕ × α)) : Prop := l.Pairwise (fun e f => e.1 + size e.2 ≤ f.1)

/-- What `p` reads of the extent that holds position `b`. -/
def look (p : α → ℕ → β) (l : List (ℕ × α)) (b : ℕ) : Option β :=
  (l.find? (fun e => decide (e.1 ≤ b ∧ b < e.1 + size e.2))).map (fun e => p e.2 b)

variable {size} {p : α → ℕ → β}

theorem look_nil (b : ℕ) : look size p [] b = none := rfl

theorem look_cons (e : ℕ × α) (l : List (ℕ × α)) (b : ℕ) : look size p (e :: l) b =
      if e.1 ≤ b ∧ b < e.1 + size e.2 then some (p e.2 b) else look size p l b := by
  unfold look
  rw [find?_cons]
  split_ifs with h
  · simp [h]
  · simp only [decide_eq_false h]

theorem look_append (l l' : List (ℕ × α)) (b : ℕ) :
    look size p (l ++ l') b = (look size p l b).or (look size p l' b) := by
  unfold look
  rw [find?_append]
  cases l.find? (fun e => decide (e.1 ≤ b ∧ b < e.1 + size e.2)) <;> rfl

variable {b : ℕ}

section

variable {l : List (ℕ × α)}

theorem look_eq_none (h : ∀ e ∈ l, b < e.1 ∨ e.1 + size e.2 ≤ b) : look size p l b = none := by
  induction l with
  | nil => rfl
  | cons e l ih =>
    have he := h e mem_cons_self
    rw [look_cons, if_neg (by omega)]
    exact ih (fun f hf => h f (mem_cons_of_mem _ hf))

theorem exists_of_look {v : β} (h : look size p l b = some v) :
    ∃ e ∈ l, e.1 ≤ b ∧ b < e.1 + size e.2 ∧ p e.2 b = v := by
  induction l with
  | nil => simp [look_nil] at h
  | cons e l ih =>
    rw [look_cons] at h
    split_ifs at h with hin
    · exact ⟨e, mem_cons_self, hin.1, hin.2, Option.some.inj h⟩
    · obtain ⟨f, hf, hcover⟩ := ih h
      exact ⟨f, mem_cons_of_mem _ hf, hcover⟩

theorem Ordered.apart (hl : Ordered size l) {e e'} (he : e ∈ l) (he' : e' ∈ l)
    (hne : e ≠ e') : e.1 + size e.2 ≤ e'.1 ∨ e'.1 + size e'.2 ≤ e.1 := by
  obtain ⟨pre, post, rfl⟩ := append_of_mem he
  obtain ⟨-, hrest, hbefore⟩ := pairwise_append.mp hl
  rcases mem_append.mp he' with hmem | hmem
  · exact .inr (hbefore e' hmem e mem_cons_self)
  · rcases mem_cons.mp hmem with rfl | hmem
    · exact absurd rfl hne
    · exact .inl ((pairwise_cons.mp hrest).1 e' hmem)

theorem look_of_mem (hl : Ordered size l) {e} (he : e ∈ l) (h1 : e.1 ≤ b)
    (h2 : b < e.1 + size e.2) : look size p l b = some (p e.2 b) := by
  induction l with
  | nil => simp at he
  | cons f l ih =>
    obtain ⟨hfirst, hrest⟩ := pairwise_cons.mp hl
    rw [look_cons]
    rcases mem_cons.mp he with rfl | he
    · rw [if_pos ⟨h1, h2⟩]
    · have := hfirst e he
      rw [if_neg (by omega)]
      exact ih hrest he

end

theorem look_congr (pre mid mid' post : List (ℕ × α)) (h : look size p mid b = look size p mid' b) :
    look size p (pre ++ (mid ++ post)) b = look size p (pre ++ (mid' ++ post)) b := by
  rw [look_append, look_append, look_append pre, look_append mid', h]

theorem look_map_congr {γ : Type*} (g : β → γ) (pre mid mid' post : List (ℕ × α))
    (h : (look size p mid b).map g = (look size p mid' b).map g) :
    (look size p (pre ++ (mid ++ post)) b).map g =
      (look size p (pre ++ (mid' ++ post)) b).map g := by
  simp only [look_append, Option.map_or, h]

theorem ordered_mid {pre mid post} (lo hi : ℕ) (hpre : Ordered size pre)
    (hmid : Ordered size mid) (hpost : Ordered size post)
    (h1 : ∀ e ∈ pre, e.1 + size e.2 ≤ lo) (h2 : ∀ e ∈ mid, lo ≤ e.1 ∧ e.1 + size e.2 ≤ hi)
    (h3 : ∀ e ∈ post, hi ≤ e.1) (hle : lo ≤ hi) : Ordered size (pre ++ (mid ++ post)) := by
  refine pairwise_append.mpr ⟨hpre, pairwise_append.mpr ⟨hmid, hpost, ?_⟩, ?_⟩
  · intro e he f hf
    exact Nat.le_trans (h2 e he).2 (h3 f hf)
  · intro e he f hf
    rcases mem_append.mp hf with hf | hf
    · exact Nat.le_trans (h1 e he) (h2 f hf).1
    · exact Nat.le_trans (h1 e he) (Nat.le_trans hle (h3 f hf))

theorem exists_split {l} (hl : Ordered size l) (hpos : ∀ e ∈ l, 0 < size e.2)
    (off : ℕ) : ∃ pre post, l = pre ++ post ∧ (∀ e ∈ pre, e.1 + size e.2 ≤ off) ∧
      ∀ e ∈ post, off < e.1 + size e.2 := by
  induction l with
  | nil => exact ⟨[], [], rfl, by simp, by simp⟩
  | cons e l ih =>
    obtain ⟨hfirst, hrest⟩ := pairwise_cons.mp hl
    by_cases hend : e.1 + size e.2 ≤ off
    · obtain ⟨pre, post, rfl, hpre, hpost⟩ := ih hrest (fun f hf => hpos f (mem_cons_of_mem _ hf))
      refine ⟨e :: pre, post, rfl, ?_, hpost⟩
      intro f hf
      rcases mem_cons.mp hf with rfl | hf
      · exact hend
      · exact hpre f hf
    · refine ⟨[], e :: l, rfl, by simp, ?_⟩
      intro f hf
      rcases mem_cons.mp hf with rfl | hf
      · omega
      · have := hfirst f hf
        omega

end Extents
