import Mathlib.Tactic

/-!
# Files as lists

A file is the list of its elements, and its size is the length of the list. A write behind
the end fills the gap with `z`.
-/

variable {α : Type*}

namespace FileBytes

open List

/-- The file cut off or filled up at `n`. -/
def resize (z : α) (file : List α) (n : ℕ) : List α :=
  file.take n ++ List.replicate (n - file.length) z

/-- The file after `piece` has been written at `off`. -/
def writeAt (z : α) (file : List α) (off : ℕ) (piece : List α) : List α :=
  resize z file off ++ piece ++ file.drop (off + piece.length)

/-- What the file has in `[off, off + len)`. -/
def readAt (file : List α) (off len : ℕ) : List α := (file.drop off).take len

section

variable (z : α) (file : List α)

include z file

theorem length_resize (n : ℕ) : (resize z file n).length = n := by
  rw [resize, length_append, length_take, length_replicate]
  omega

theorem resize_length : resize z file file.length = file := by
  simp [resize]

end

/-- The values of `content` at `[off, off + len)`. -/
def slice (content : ℕ → α) (off len : ℕ) : List α := (List.range' off len).map content

@[simp]
theorem length_slice (content : ℕ → α) (off len : ℕ) : (slice content off len).length = len := by
  simp [slice]

theorem slice_append (content : ℕ → α) (off m n : ℕ) :
    slice content off m ++ slice content (off + m) n = slice content off (m + n) := by
  rw [slice, slice, slice, ← map_append, range'_append_1]

variable {off len : ℕ} {content : ℕ → α}

theorem slice_of_const {z : α} (h : ∀ i, off ≤ i → i < off + len → content i = z) :
    slice content off len = List.replicate len z := by
  rw [eq_replicate_iff]
  refine ⟨length_slice content off len, ?_⟩
  intro b hb
  obtain ⟨i, hi, rfl⟩ := mem_map.mp hb
  rw [mem_range'_1] at hi
  exact h i hi.1 hi.2

theorem slice_congr {f g : ℕ → α} {off' : ℕ} (h : ∀ j < len, f (off + j) = g (off' + j)) :
    slice f off len = slice g off' len := by
  apply ext_getElem
  · simp
  · intro j h1 h2
    simpa [slice] using h j (by simpa using h1)

theorem length_readAt (file : List α) (off len : ℕ) :
    (readAt file off len).length = min len (file.length - off) := by
  rw [readAt, length_take, length_drop]

end FileBytes
