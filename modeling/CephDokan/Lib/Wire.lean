import Mathlib.Tactic

/-!
# Readers of byte strings

A reader takes bytes from a cursor. `Reads r bs a` says that `r` takes exactly the bytes `bs`,
whatever follows them, and returns `a`; readers in sequence, in a loop and over a list read the
concatenation of what their parts read.
-/

namespace Wire

open List

/-- A position in a byte string, with the bytes that are left. -/
structure Cursor where
  off : ℕ
  rest : List UInt8
  deriving DecidableEq

inductive Failure
  | endOfBuffer
  | malformed
  deriving DecidableEq, Repr

abbrev Reader (α : Type) := Cursor → Except Failure (α × Cursor)

/-- The next `n` bytes. -/
def copy (n : ℕ) : Reader (List UInt8) := fun p =>
  if p.rest.length < n then .error .endOfBuffer
  else .ok (p.rest.take n, ⟨p.off + n, p.rest.drop n⟩)

def le : ℕ → ℕ → List UInt8
  | 0, _ => []
  | w + 1, n => UInt8.ofNat n :: le w (n / 256)

def leVal : List UInt8 → ℕ
  | [] => 0
  | b :: bs => b.toNat + 256 * leVal bs

@[simp] theorem length_le (w n : ℕ) : (le w n).length = w := by
  induction w generalizing n with
  | zero => rfl
  | succ w ih => rw [le, length_cons, ih]

theorem leVal_le (w n : ℕ) : leVal (le w n) = n % 256 ^ w := by
  induction w generalizing n with
  | zero => rw [pow_zero, Nat.mod_one]; rfl
  | succ w ih =>
    have hbyte : (UInt8.ofNat n).toNat = n % 256 := UInt8.toNat_ofNat'
    rw [le, leVal, ih, hbyte, pow_succ', Nat.mod_mul]

/-- The reader takes exactly these bytes and returns this value. -/
def Reads {α : Type} (r : Reader α) (bs : List UInt8) (a : α) : Prop :=
  ∀ off rest, r ⟨off, bs ++ rest⟩ = .ok (a, ⟨off + bs.length, rest⟩)

/-- Do something `n` times. -/
def loop {σ : Type} (step : σ → Reader σ) : ℕ → σ → Reader σ
  | 0, s, p => .ok (s, p)
  | n + 1, s, p => do
    let (s, p) ← step s p
    loop step n s p

/-- Read into the elements of a list, one after the other. -/
def each {α : Type} (read : α → Reader α) : List α → Reader (List α)
  | [], p => .ok ([], p)
  | t :: ts, p => do
    let (a, p) ← read t p
    let (as, p) ← each read ts p
    return (a :: as, p)

namespace Reads

variable {α β σ γ : Type} {r : Reader α} {bs bs' : List UInt8} {a : α} {b : β}

theorem pure (a : α) : Reads (fun p => .ok (a, p)) [] a := fun _ _ => rfl

theorem bind {k : α → Reader β} (h : Reads r bs a) (h' : Reads (k a) bs' b) :
    Reads (fun p => r p >>= fun q => k q.1 q.2) (bs ++ bs') b := by
  intro off rest
  have hfirst := h off (bs' ++ rest)
  have hsecond := h' (off + bs.length) rest
  dsimp only
  rw [append_assoc, hfirst]
  show k a ⟨off + bs.length, bs' ++ rest⟩ = _
  rw [hsecond, length_append, Nat.add_assoc]

theorem map (h : Reads r bs a) (f : α → β) :
    Reads (fun p => r p >>= fun q => .ok (f q.1, q.2)) bs (f a) := by
  have hbind := h.bind (k := fun a p => .ok (f a, p)) (pure (f a))
  rwa [append_nil] at hbind

theorem copy (bs : List UInt8) : Reads (Wire.copy bs.length) bs bs := by
  intro off rest
  rw [Wire.copy, if_neg (by rw [length_append]; omega), take_left, drop_left]

theorem loop {step} {enc} {next} {xs : List γ}
    (hstep : ∀ s, ∀ x ∈ xs, Reads (step s) (enc x) (next s x)) (s : σ) :
    Reads (Wire.loop step xs.length s) (xs.flatMap enc) (xs.foldl next s) := by
  induction xs generalizing s with
  | nil => exact pure s
  | cons x xs ih =>
    have hrest := ih (fun s x hx => hstep s x (mem_cons_of_mem _ hx)) (next s x)
    exact (hstep s x mem_cons_self).bind (k := Wire.loop step xs.length) hrest

theorem each {read} {enc} {f} {xs ts : List α}
    (hread : ∀ x ∈ xs, ∀ t, Reads (read t) (enc x) (f x t)) (hlen : xs.length = ts.length) :
    Reads (Wire.each read ts) (xs.flatMap enc) (List.zipWith f xs ts) := by
  induction xs generalizing ts with
  | nil =>
    cases ts with
    | nil => exact pure []
    | cons t ts => cases hlen
  | cons x xs ih =>
    cases ts with
    | nil => cases hlen
    | cons t ts =>
      have hrest := ih (fun x hx => hread x (mem_cons_of_mem _ hx))
        (Nat.succ.inj hlen)
      have hmap := hrest.map fun as => f x t :: as
      exact (hread x mem_cons_self t).bind
        (k := fun a p => Wire.each read ts p >>= fun q => .ok (a :: q.1, q.2)) hmap

end Reads

end Wire
