import CephDokan.Include.Encoding

/-!
# Encoded values come back

`image c x` is the bytes that encoding `x` appends. Counts and lengths travel in 32 bits, and a
`bufferlist` counts its bytes in an `unsigned`: a value that `Fits` has no container, string or
frame larger than that. Decoding takes exactly the bytes of such a value and leaves
`overlay c x t` in an object that held `t`.
-/

namespace CephDokan.Encoding

open Fallible Wire List

variable {α β : Type}

theorem copyIn_append (a b c d : Bytes) (h : b.length = d.length) :
    copyIn (a ++ b ++ c) a.length d = a ++ d ++ c := by
  have hdrop : (a ++ b ++ c).drop (a.length + d.length) = c := by
    rw [← h, ← length_append, drop_left]
  rw [copyIn, hdrop, append_assoc a b c, take_left]

theorem foldl_append {γ : Type} {f} {g : γ → Bytes}
    (h : ∀ bl x, f bl x = bl ++ g x) (xs : List γ) (bl : Bytes) :
    xs.foldl f bl = bl ++ xs.flatMap g := by
  induction xs generalizing bl with
  | nil => exact (append_nil bl).symm
  | cons x xs ih => rw [foldl_cons, ih, h, flatMap_cons, append_assoc]

/-- The compat version that a frame ends up with. -/
def frameCompat (compat newStructCompat : UInt8) : UInt8 :=
  if newStructCompat ≠ 0 then newStructCompat else compat

variable {bs : Bytes} {n : ℕ}

theorem encodeFrame_eq {body} (h : ∀ bl, body bl = bl ++ bs)
    (v compat newStructCompat : UInt8) (bl : Bytes) : encodeFrame v compat newStructCompat body bl
      = bl ++ frameImage v (frameCompat compat newStructCompat) bs := by
  have hlen : (bl ++ [v] ++ [compat] ++ le 4 0).length - 4 = (bl ++ [v] ++ [compat]).length := by
    rw [length_append, length_le, Nat.add_sub_cancel]
  have hbody : (body (bl ++ [v] ++ [compat] ++ le 4 0)).length
      - (bl ++ [v] ++ [compat]).length - 4 = bs.length := by
    rw [h, length_append, length_append, length_le]
    omega
  have hcompat : (bl ++ [v] ++ [compat]).length - 1 = (bl ++ [v]).length := by
    rw [length_append, length_singleton, Nat.add_sub_cancel]
  unfold encodeFrame frameCompat frameImage
  dsimp only
  rw [hlen, hbody, hcompat, h, copyIn_append _ _ _ _ (by rw [length_le, length_le])]
  split_ifs with hnew
  · have hpatch := copyIn_append (bl ++ [v]) [compat] (le 4 bs.length ++ bs) [newStructCompat] rfl
    rw [append_assoc _ (le 4 bs.length) bs, hpatch]
    simp only [append_assoc]
  · simp only [append_assoc]

variable (c : Coding α)

theorem encode_eq (x : α) (bl : Bytes) : encode c x bl = bl ++ image c x := by
  induction c generalizing bl with
  | int w hw => rfl
  | string | bufferlist => exact append_assoc _ _ _
  | pair a b iha ihb => rw [encode, iha, ihb, image, append_assoc]
  | optional c ih =>
    cases x with
    | none => rfl
    | some x => rw [encode, ih, image, append_assoc]
  | list c ih =>
    rw [encode, image]
    split_ifs with hne
    · rw [foldl_append (fun bl x => ih x bl), copyIn_append _ _ _ _ (by rw [length_le, length_le]),
        append_assoc]
    · rw [not_not.mp hne, flatMap_nil, append_nil]
  | vector c ih | deque c ih | set c ih =>
    rw [encode, foldl_append (fun bl x => ih x bl), image, append_assoc]
  | map k c ihk ih | multimap k c ihk ih =>
    have hstep (bl : Bytes) (e : _ × _) :
        encode c e.2 (encode k e.1 bl) = bl ++ (image k e.1 ++ image c e.2) := by
      rw [ihk, ih, append_assoc]
    rw [encode, foldl_append hstep, image, append_assoc]
  | struct v compat h c ih =>
    rw [encode, encodeFrame_eq (ih x), image, frameCompat, if_neg (not_not.mpr rfl)]

/-- No count or length in the value is too large for a `__u32`. -/
def Fits : {α : Type} → Coding α → α → Prop
  | _, .int _ _, _ => True
  | _, .string, s => s.length < 2 ^ 32
  | _, .bufferlist, s => s.length < 2 ^ 32
  | _, .pair a b, x => Fits a x.1 ∧ Fits b x.2
  | _, .optional c, x => ∀ y ∈ x, Fits c y
  | _, .list c, xs => xs.length < 2 ^ 32 ∧ ∀ x ∈ xs, Fits c x
  | _, .vector c, xs => xs.length < 2 ^ 32 ∧ ∀ x ∈ xs, Fits c x
  | _, .deque c, xs => xs.length < 2 ^ 32 ∧ ∀ x ∈ xs, Fits c x
  | _, @Coding.set _ _ c, s => s.card < 2 ^ 32 ∧ ∀ x ∈ s, Fits c x
  | _, @Coding.map _ _ _ k c, m =>
    m.entries.length < 2 ^ 32 ∧ ∀ e ∈ m.entries, Fits k e.1 ∧ Fits c e.2
  | _, @Coding.multimap _ _ _ k c, m =>
    m.entries.length < 2 ^ 32 ∧ ∀ e ∈ m.entries, Fits k e.1 ∧ Fits c e.2
  | _, .struct _ _ _ c, x => (image c x).length < 2 ^ 32 ∧ Fits c x

/-! ### What decoding leaves in its target -/

/-- The object that held `t` after a decode of the encoded `x`. -/
def overlay : {α : Type} → Coding α → α → α → α
  | _, .pair a b, x, t => (overlay a x.1 t.1, overlay b x.2 t.2)
  | _, .optional _, none, t => t
  | _, .optional _, some x, _ => some x
  | _, .vector c, xs, ts => zipWith (overlay c) xs (resize (fresh c) xs.length ts)
  | _, .struct _ _ _ c, x, t => overlay c x t
  | _, .int _ _, x, _ => x
  | _, .string, x, _ => x
  | _, .bufferlist, x, _ => x
  | _, .list _, x, _ => x
  | _, .deque _, x, _ => x
  | _, @Coding.set _ _ _, x, _ => x
  | _, @Coding.map _ _ _ _ _, x, _ => x
  | _, @Coding.multimap _ _ _ _ _, x, _ => x

/-- Nothing of the target shows through the value: an optional that is absent in the value is
absent in the target, also inside pairs and structs and at the positions that a vector has
in both. -/
def Resets : {α : Type} → Coding α → α → α → Prop
  | _, .pair a b, x, t => Resets a x.1 t.1 ∧ Resets b x.2 t.2
  | _, .optional _, x, t => x = none → t = none
  | _, .vector c, xs, ts => ∀ (i : ℕ) x t, xs[i]? = some x → ts[i]? = some t → Resets c x t
  | _, .struct _ _ _ c, x, t => Resets c x t
  | _, .int _ _, _, _ => True
  | _, .string, _, _ => True
  | _, .bufferlist, _, _ => True
  | _, .list _, _, _ => True
  | _, .deque _, _, _ => True
  | _, @Coding.set _ _ _, _, _ => True
  | _, @Coding.map _ _ _ _ _, _, _ => True
  | _, @Coding.multimap _ _ _ _ _, _, _ => True

theorem length_resize (d : α) (n : ℕ) (xs : List α) : (resize d n xs).length = n := by
  rw [resize, length_append, length_take, length_replicate]
  omega

theorem getElem?_resize (d : α) {i : ℕ} (h : i < n) (xs : List α) :
    (resize d n xs)[i]? = some (xs[i]?.getD d) := by
  rw [resize]
  by_cases hi : i < xs.length
  · rw [getElem?_append_left (by rw [length_take]; omega), getElem?_take_of_lt h,
      getElem?_eq_getElem hi, Option.getD_some]
  · rw [getElem?_append_right (by rw [length_take]; omega),
      getElem?_replicate_of_lt (by rw [length_take]; omega),
      getElem?_eq_none (by omega), Option.getD_none]

theorem resets_fresh (x : α) : Resets c x (fresh c) := by
  induction c with
  | pair a b iha ihb => exact ⟨iha x.1, ihb x.2⟩
  | optional c ih => exact fun _ => rfl
  | vector c ih =>
    intro i y t _ ht
    cases ht
  | struct v compat h c ih => exact ih x
  | _ => trivial

theorem overlay_eq_iff (x t : α) : overlay c x t = x ↔ Resets c x t := by
  induction c with
  | pair a b iha ihb => rw [overlay, Resets, ← iha, ← ihb, Prod.ext_iff]
  | optional c ih =>
    cases x with
    | none => exact ⟨fun h _ => h, fun h => h rfl⟩
    | some x => exact iff_of_true rfl (fun h => nomatch h)
  | vector c ih =>
    have hat (i : ℕ) (y : _) (hy : x[i]? = some y) :
        (overlay (.vector c) x t)[i]? = some (overlay c y (t[i]?.getD (fresh c))) := by
      obtain ⟨hlt, -⟩ := List.getElem?_eq_some_iff.mp hy
      rw [overlay, List.getElem?_zipWith, hy, getElem?_resize _ hlt]
    constructor
    · intro heq i y u hy hu
      have hov := hat i y hy
      rw [heq, hy, hu, Option.getD_some, Option.some_inj] at hov
      exact (ih y u).mp hov.symm
    · intro hresets
      apply ext_getElem?
      intro i
      cases hy : x[i]? with
      | none =>
        have hlen : x.length ≤ i := getElem?_eq_none_iff.mp hy
        apply getElem?_eq_none
        rw [overlay, length_zipWith, length_resize]
        omega
      | some y =>
        rw [hat i y hy, Option.some_inj, ih]
        cases hu : t[i]? with
        | none => exact resets_fresh c y
        | some u => exact hresets i y u hy hu
  | struct v compat h c ih => exact ih x t
  | _ => exact iff_of_true rfl trivial

theorem overlay_fresh (x : α) : overlay c x (fresh c) = x :=
  (overlay_eq_iff c x _).mpr (resets_fresh c x)

/-! ### Reading a value back -/

variable {w : ℕ}

theorem word_reads (h : n < 256 ^ w) : Reads (word w) (le w n) n := by
  have hcopy := (Reads.copy (le w n)).map leVal
  rw [length_le, leVal_le, Nat.mod_eq_of_lt h] at hcopy
  exact hcopy

theorem byte_reads (b : UInt8) : Reads (word 1) [b] b.toNat := by
  exact ((Reads.copy [b]).map leVal :)

variable {sc : UInt8} {v : ℕ} {a : α}

/-- A frame with more in it than the body reads: the rest of it is skipped. -/
theorem decodeFrame_reads {sv} (body : ℕ → Reader α) (hcompat : sc.toNat ≤ v)
    (hbody : Reads (body sv.toNat) bs a) (extra : Bytes) (hlen : (bs ++ extra).length < 2 ^ 32) :
    Reads (decodeFrame v body) (frameImage sv sc (bs ++ extra)) a := by
  intro off rest
  have hv := byte_reads sv off ([sc] ++ (le 4 (bs ++ extra).length ++ (bs ++ (extra ++ rest))))
  have hc := byte_reads sc (off + 1) (le 4 (bs ++ extra).length ++ (bs ++ (extra ++ rest)))
  have hn := word_reads (w := 4) hlen (off + 1 + 1) (bs ++ (extra ++ rest))
  have hb := hbody (off + 1 + 1 + 4) (extra ++ rest)
  have hskip := (Reads.copy extra).map (fun _ => ()) (off + 1 + 1 + 4 + bs.length) rest
  have hfits : ¬(bs ++ extra).length > (bs ++ (extra ++ rest)).length := by
    simp only [length_append]
    omega
  have himage : frameImage sv sc (bs ++ extra) ++ rest
      = [sv] ++ ([sc] ++ (le 4 (bs ++ extra).length ++ (bs ++ (extra ++ rest)))) := by
    simp only [frameImage, append_assoc]
  have hlength : (frameImage sv sc (bs ++ extra)).length = 6 + bs.length + extra.length := by
    simp only [frameImage, length_append, length_singleton, length_le]
    omega
  rw [himage, hlength, decodeFrame]
  simp only [length_singleton, length_le] at hv hc hn
  simp only [hv, hc, hn, hb, ok_bind, if_neg (Nat.not_lt.mpr hcompat), if_neg hfits]
  -- the body ends inside the frame, at its end exactly when nothing was added
  rw [if_pos (by omega), if_neg (by rw [length_append]; omega)]
  split_ifs with hmore
  · have hleft : off + 1 + 1 + 4 + (bs ++ extra).length - (off + 1 + 1 + 4 + bs.length)
        = extra.length := by
      rw [length_append]
      omega
    have hadv : advance (off + 1 + 1 + 4 + (bs ++ extra).length - (off + 1 + 1 + 4 + bs.length))
        ⟨off + 1 + 1 + 4 + bs.length, extra ++ rest⟩
        = .ok ((), ⟨off + 1 + 1 + 4 + bs.length + extra.length, rest⟩) := by
      rw [hleft]
      exact hskip
    rw [hadv, ok_bind]
    have hend : off + 1 + 1 + 4 + bs.length + extra.length
        = off + (6 + bs.length + extra.length) := by omega
    rw [hend]
    rfl
  · have hnone : extra = [] := by
      rw [length_append] at hmore
      exact eq_nil_of_length_eq_zero (by omega)
    subst hnone
    have hend : off + 1 + 1 + 4 + bs.length = off + (6 + bs.length + ([] : Bytes).length) := by
      rw [length_nil]
      omega
    rw [hend]
    rfl

section

variable {σ γ : Type} {enc : γ → Bytes} {xs : List γ} (hlen : xs.length < 2 ^ 32)

include hlen

theorem counted_reads {step} {next}
    (hstep : ∀ s, ∀ x ∈ xs, Reads (step s) (enc x) (next s x)) (s : σ) :
    Reads (fun p => word 4 p >>= fun q => loop step q.1 s q.2)
      (le 4 xs.length ++ xs.flatMap enc) (xs.foldl next s) :=
  (word_reads (w := 4) hlen).bind (k := fun n => loop step n s) (Reads.loop hstep s)

theorem filled_reads {dec} (hdec : ∀ x ∈ xs, Reads dec (enc x) x) (put : σ → γ → σ)
    (s : σ) : Reads (fun p => word 4 p >>= fun q =>
        loop (fun s p => dec p >>= fun q => .ok (put s q.1, q.2)) q.1 s q.2)
      (le 4 xs.length ++ xs.flatMap enc) (xs.foldl put s) :=
  counted_reads hlen (fun s x hx => (hdec x hx).map (put s)) s

end

theorem foldl_push (xs ys : List α) : xs.foldl (fun ls v => ls ++ [v]) ys = ys ++ xs := by
  induction xs generalizing ys with
  | nil => exact (append_nil ys).symm
  | cons x xs ih => rw [foldl_cons, ih, append_assoc, singleton_append]

theorem foldl_insert_sort [LinearOrder α] (s : Finset α) :
    s.sort.foldl (fun t v => Insert.insert v t) ∅ = s := by
  have hfold (xs : List α) (t : Finset α) :
      xs.foldl (fun t v => Insert.insert v t) t = t ∪ xs.toFinset := by
    induction xs generalizing t with
    | nil => rw [foldl_nil, toFinset_nil, Finset.union_empty]
    | cons x xs ih =>
      rw [foldl_cons, ih, toFinset_cons, Finset.insert_union, Finset.union_insert]
  rw [hfold, Finset.sort_toFinset, Finset.empty_union]

theorem foldl_entries {σ β : Type} {R} {entries : σ → List β} {op}
    (hop : ∀ n e, (∀ x ∈ entries n, R x e) → entries (op n e) = entries n ++ [e])
    (after : List β) (n : σ) (hsorted : (entries n ++ after).Pairwise R) :
    entries (after.foldl op n) = entries n ++ after := by
  induction after generalizing n with
  | nil => exact (append_nil _).symm
  | cons e after ih =>
    have hstep := hop n e fun x hx => (pairwise_append.mp hsorted).2.2 x hx e mem_cons_self
    rw [foldl_cons, ih, hstep, append_assoc, singleton_append]
    rw [hstep, append_assoc]
    exact hsorted

variable {κ : Type}

theorem foldl_insert_entries [LinearOrder κ] (f : α → α → α) (d : α) (hf : ∀ x, f x d = x)
    (m : SortedMap κ α) :
    m.entries.foldl (fun m e => m.insert e.1 (f e.2 ((m.find? e.1).getD d))) ∅ = m := by
  refine SortedMap.ext (foldl_entries (R := fun x y => x.1 < y.1) ?_ m.entries ∅ m.sorted)
  intro n e hbefore
  have hnone : n.find? e.1 = none := SortedMap.find?_eq_none fun x hx => (hbefore x hx).ne
  rw [hnone, Option.getD_none, hf]
  exact SortedMap.insert_split (append_nil n.entries).symm hbefore (forall_mem_nil _)

theorem foldl_insert_multimap [LinearOrder κ] (m : Multimap κ α) :
    m.entries.foldl (fun m e => m.insert e.1 e.2) .empty = m := by
  refine Multimap.ext (foldl_entries (R := fun x y => x.1 ≤ y.1) ?_ m.entries _ m.sorted)
  exact fun n e hbefore => Multimap.insertEntry_last hbefore e.2

theorem decode_reads (x t : α) (hfits : Fits c x) :
    Reads (decode c t) (image c x) (overlay c x t) := by
  induction c with
  | int w hw =>
    have hword := (word_reads (w := w) x.isLt).map fun n =>
      (⟨n % 256 ^ w, Nat.mod_lt _ (by positivity)⟩ : Fin (256 ^ w))
    have hx : (⟨x.val % 256 ^ w, Nat.mod_lt _ (by positivity)⟩ : Fin (256 ^ w)) = x :=
      Fin.ext (Nat.mod_eq_of_lt x.isLt)
    rw [hx] at hword
    exact hword
  | string =>
    have hlen : length x < 2 ^ 32 := hfits
    rw [image, u32_of_lt hlen, take_length]
    exact (word_reads (w := 4) hlen).bind (k := copy) (Reads.copy x)
  | bufferlist =>
    have hlen : length x < 2 ^ 32 := hfits
    exact (word_reads (w := 4) hlen).bind (k := copy) (Reads.copy x)
  | pair a b iha ihb =>
    have hsecond := (ihb x.2 t.2 hfits.2).map fun y => (overlay a x.1 t.1, y)
    exact (iha x.1 t.1 hfits.1).bind
      (k := fun x p => decode b t.2 p >>= fun q => .ok ((x, q.1), q.2)) hsecond
  | @optional α c ih =>
    have hpresent (n : ℕ) (hn : n < 256 ^ 1) {bs : Bytes} {r : Option α}
        (hrest : Reads (fun p => if n ≠ 0 then decode c (fresh c) p >>= fun q => .ok (some q.1, q.2)
          else .ok (t, p)) bs r) : Reads (decode c.optional t) (le 1 n ++ bs) r :=
      (word_reads (w := 1) hn).bind (k := fun n p =>
        if n ≠ 0 then decode c (fresh c) p >>= fun q => .ok (some q.1, q.2) else .ok (t, p)) hrest
    cases x with
    | none =>
      have habsent := hpresent 0 (by decide) (Reads.pure t)
      rwa [append_nil] at habsent
    | some x =>
      have hx := (ih x (fresh c) (hfits x rfl)).map some
      rw [overlay_fresh] at hx
      exact hpresent 1 (by decide) hx
  | vector c ih =>
    have heach := Reads.each (fun x hx t => ih x t (hfits.2 x hx))
      (length_resize (fresh c) (length x) t).symm
    exact (word_reads (w := 4) hfits.1).bind
      (k := fun n => each (decode c) (resize (fresh c) n t)) heach
  | list c ih | deque c ih =>
    have hloop := filled_reads hfits.1
      (fun x hx => overlay_fresh c x ▸ ih x (fresh c) (hfits.2 x hx)) (fun ls v => ls ++ [v]) []
    rw [foldl_push] at hloop
    exact hloop
  | @set α _ c ih =>
    have hcard := Finset.length_sort (s := x) (· ≤ ·)
    have hloop := filled_reads (hcard ▸ hfits.1)
      (fun y hy => overlay_fresh c y ▸ ih y (fresh c) (hfits.2 y ((Finset.mem_sort _).mp hy)))
      (fun (s : Finset α) v => Insert.insert v s) ∅
    rw [foldl_insert_sort, hcard] at hloop
    exact hloop
  | map k c ihk ih =>
    have hstep (m : SortedMap _ _) : ∀ e ∈ x.entries, Reads (fun p =>
        decode k (fresh k) p >>= fun q => decode c ((m.find? q.1).getD (fresh c)) q.2 >>= fun r =>
          .ok (m.insert q.1 r.1, r.2)) (image k e.1 ++ image c e.2)
        (m.insert e.1 (overlay c e.2 ((m.find? e.1).getD (fresh c)))) := by
      intro e he
      have hvalue := (ih e.2 ((m.find? e.1).getD (fresh c)) (hfits.2 e he).2).map (m.insert e.1)
      have hkey := ihk e.1 (fresh k) (hfits.2 e he).1
      rw [overlay_fresh] at hkey
      exact hkey.bind (k := fun key p => decode c ((m.find? key).getD (fresh c)) p >>= fun q =>
        .ok (m.insert key q.1, q.2)) hvalue
    have hloop := counted_reads hfits.1 hstep ∅
    rw [foldl_insert_entries _ _ (overlay_fresh c)] at hloop
    exact hloop
  | multimap k c ihk ih =>
    have hstep (m : Multimap _ _) : ∀ e ∈ x.entries, Reads (fun p =>
        decode k (fresh k) p >>= fun q => decode c (fresh c) q.2 >>= fun r =>
          .ok (m.insert q.1 r.1, r.2)) (image k e.1 ++ image c e.2) (m.insert e.1 e.2) := by
      intro e he
      have hvalue := (ih e.2 (fresh c) (hfits.2 e he).2).map (m.insert e.1)
      have hkey := ihk e.1 (fresh k) (hfits.2 e he).1
      rw [overlay_fresh] at hkey hvalue
      exact hkey.bind (k := fun key p => decode c (fresh c) p >>= fun q =>
        .ok (m.insert key q.1, q.2)) hvalue
    have hloop := counted_reads hfits.1 hstep .empty
    rw [foldl_insert_multimap] at hloop
    exact hloop
  | struct v compat h c ih =>
    have hlen : (image c x ++ []).length < 2 ^ 32 := by
      rw [append_nil]
      exact hfits.1
    have hframe : Reads (decodeFrame v.toNat fun _ => decode c t)
        (frameImage v compat (image c x ++ [])) (overlay c x t) :=
      decodeFrame_reads _ (UInt8.le_iff_toNat_le.mp h) (ih x t hfits.2) [] hlen
    rw [append_nil] at hframe
    exact hframe

/-! ### Frames that are refused -/

theorem word_short {p} (h : p.rest.length < w) : word w p = .error .endOfBuffer := by
  rw [word, copy, if_pos h]
  rfl

theorem decodeFrame_too_new (h : v < sc.toNat) (body : ℕ → Reader α) (sv : UInt8) (off : ℕ)
    (rest : Bytes) : decodeFrame v body ⟨off, [sv] ++ ([sc] ++ rest)⟩ = .error .malformed := by
  have hv := byte_reads sv off ([sc] ++ rest)
  have hc := byte_reads sc (off + [sv].length) rest
  rw [decodeFrame]
  simp only [hv, hc, ok_bind, if_pos h]

/-- A frame that the buffer does not hold to its end is refused, wherever it is cut. -/
theorem decodeFrame_cut (hlen : bs.length < 2 ^ 32) (sv sc : UInt8)
    (hn : n < (frameImage sv sc bs).length) (v : ℕ) (body : ℕ → Reader α) (off : ℕ) :
    ∃ f, decodeFrame v body ⟨off, (frameImage sv sc bs).take n⟩ = .error f := by
  rcases n with _ | _ | n
  · exact ⟨_, rfl⟩
  · have hv := byte_reads sv off []
    have hc := word_short (w := 1) (p := ⟨off + [sv].length, []⟩) Nat.one_pos
    refine ⟨.endOfBuffer, ?_⟩
    show decodeFrame v body ⟨off, [sv] ++ []⟩ = _
    rw [decodeFrame]
    simp only [hv, hc, ok_bind, error_bind]
  · have htake : (frameImage sv sc bs).take (n + 1 + 1)
        = [sv] ++ ([sc] ++ (le 4 bs.length ++ bs).take n) := rfl
    rw [htake]
    by_cases hcompat : v < sc.toNat
    · exact ⟨_, decodeFrame_too_new hcompat body sv off _⟩
    have hv := byte_reads sv off ([sc] ++ (le 4 bs.length ++ bs).take n)
    have hc := byte_reads sc (off + [sv].length) ((le 4 bs.length ++ bs).take n)
    by_cases hheader : n < 4
    · have hn := word_short (w := 4) (p := ⟨off + [sv].length + [sc].length,
        (le 4 bs.length ++ bs).take n⟩) (by rw [length_take]; omega)
      refine ⟨.endOfBuffer, ?_⟩
      rw [decodeFrame]
      simp only [hv, hc, hn, ok_bind, error_bind, if_neg hcompat]
    · have hsplit : (le 4 bs.length ++ bs).take n = le 4 bs.length ++ bs.take (n - 4) := by
        rw [take_append, length_le, take_of_length_le (by rw [length_le]; omega)]
      have hword := word_reads (w := 4) hlen (off + [sv].length + [sc].length) (bs.take (n - 4))
      have hpast : bs.length > (bs.take (n - 4)).length := by
        simp only [frameImage, length_append, length_singleton, length_le] at hn
        rw [length_take]
        omega
      refine ⟨.malformed, ?_⟩
      rw [hsplit] at hv hc ⊢
      rw [decodeFrame]
      simp only [hv, hc, hword, ok_bind, if_neg hcompat, if_pos hpast]

/-! ### Round trips -/

theorem iterator_append (bl rest : Bytes) :
    iterator (bl ++ rest) bl.length = ⟨bl.length, rest⟩ := by
  rw [iterator, drop_left]

theorem reads_at {r} (h : Reads r bs a) (bl rest : Bytes) :
    r (iterator (bl ++ bs ++ rest) bl.length)
      = .ok (a, iterator (bl ++ bs ++ rest) (bl ++ bs).length) := by
  rw [iterator_append, append_assoc, iterator_append, h, length_append]

/-- A value decoded into an object is the value that was encoded exactly when the object holds
nothing where the value has an absent optional; in any case exactly the bytes of the value are
consumed. A struct is read past whatever a newer sender has added at its end, and the value
behind it is found; a struct that needs a newer version or is cut off is refused. -/
theorem decode_encode (x t : α) (d : Coding β) (y u : β) (hx : Fits c x) (hy : Fits d y) :
    (∀ bl rest : Bytes, ∃ x',
      decode c t (iterator (encode c x bl ++ rest) bl.length)
        = .ok (x', iterator (encode c x bl ++ rest) (encode c x bl).length)
      ∧ (x' = x ↔ Resets c x t))
    ∧ ∀ (structV structCompat newStructCompat : UInt8) (v : ℕ) (extra bl rest : Bytes),
      (encode c x extra).length < 2 ^ 32 →
      let framed :=
        encodeFrame structV structCompat newStructCompat (fun bl => encode c x bl ++ extra) bl
      let compat := (frameCompat structCompat newStructCompat).toNat
      (compat ≤ v → ∃ x' y',
        (do
          let (a, p) ← decodeFrame v (fun _ => decode c t)
            (iterator (encode d y framed ++ rest) bl.length)
          let (b, p) ← decode d u p
          return ((a, b), p))
          = .ok ((x', y'), iterator (encode d y framed ++ rest) (encode d y framed).length)
        ∧ (x' = x ↔ Resets c x t) ∧ (y' = y ↔ Resets d y u))
      ∧ (v < compat → ∀ body : ℕ → Reader α,
        decodeFrame v body (iterator (framed ++ rest) bl.length) = .error .malformed)
      ∧ ∀ n < framed.length, ∀ body : ℕ → Reader α, ∃ f,
        decodeFrame v body (iterator (framed.take n) bl.length) = .error f := by
  constructor
  · intro bl rest
    refine ⟨overlay c x t, ?_, overlay_eq_iff c x t⟩
    rw [encode_eq]
    exact reads_at (decode_reads c x t hx) bl rest
  intro structV structCompat newStructCompat v extra bl rest hlen framed compat
  have hframed : framed = bl ++ frameImage structV (frameCompat structCompat newStructCompat)
      (image c x ++ extra) := by
    apply encodeFrame_eq
    intro bl
    rw [encode_eq, append_assoc]
  have hlength : (image c x ++ extra).length < 2 ^ 32 := by
    rw [encode_eq, length_append] at hlen
    rw [length_append]
    omega
  refine ⟨?_, ?_, ?_⟩
  · intro hcompat
    refine ⟨overlay c x t, overlay d y u, ?_, overlay_eq_iff c x t, overlay_eq_iff d y u⟩
    have hframe : Reads (decodeFrame v fun _ => decode c t)
        (frameImage structV (frameCompat structCompat newStructCompat) (image c x ++ extra))
        (overlay c x t) :=
      decodeFrame_reads _ hcompat (decode_reads c x t hx) extra hlength
    have hnext := (decode_reads d y u hy).map fun b => (overlay c x t, b)
    have hboth := hframe.bind (k := fun a p => decode d u p >>= fun q => .ok ((a, q.1), q.2)) hnext
    have hrun := reads_at hboth bl rest
    rw [encode_eq, hframed, append_assoc bl]
    exact hrun
  · intro hcompat body
    rw [hframed, append_assoc, iterator_append]
    exact decodeFrame_too_new hcompat body structV _ _
  · intro n hn body
    by_cases hshort : n ≤ bl.length
    · have hempty : iterator (framed.take n) bl.length = ⟨bl.length, []⟩ := by
        rw [iterator, drop_eq_nil_of_le]
        rw [length_take]
        omega
      rw [hempty]
      exact ⟨_, rfl⟩
    · have hcut : iterator (framed.take n) bl.length = ⟨bl.length, (frameImage structV
          (frameCompat structCompat newStructCompat)
            (image c x ++ extra)).take (n - bl.length)⟩ := by
        rw [hframed, take_append, take_of_length_le (by omega), iterator_append]
      rw [hframed, length_append] at hn
      rw [hcut]
      exact decodeFrame_cut hlength _ _ (by omega) v body _

/-- Values are told apart whatever follows them: no encoding is the beginning of another. -/
theorem encode_append_inj {x y : α} (hx : Fits c x) (hy : Fits c y) (bl rest rest' : Bytes) :
    encode c x bl ++ rest = encode c y bl ++ rest' ↔ x = y ∧ rest = rest' := by
  constructor
  · intro h
    have hread := decode_reads c x (fresh c) hx 0 rest
    simp only [encode_eq, append_assoc, append_cancel_left_eq] at h
    rw [h, decode_reads c y (fresh c) hy, overlay_fresh, overlay_fresh] at hread
    cases hread
    exact ⟨rfl, rfl⟩
  · rintro ⟨rfl, rfl⟩
    rfl

theorem encode_append_inj_string :
    encode .string [97] [] ++ [98, 0] ≠ encode .string [97, 98] [] ++ [0] := by
  intro h
  have heq := (encode_append_inj .string (by simp [Fits]) (by simp [Fits]) ..).mp h
  cases heq.1

/-- The codings of `pair<optional<uint8_t>, string>` and of a vector of optionals. -/
def tagged : Coding (Option (Fin (256 ^ 1)) × Bytes) :=
  .pair (.optional (.int 1 (by decide))) .string

def slots : Coding (List (Option (Fin (256 ^ 1)))) := .vector (.optional (.int 1 (by decide)))

theorem decode_encode_tagged :
    (Fits tagged (none, [65, 66]) ∧ Fits slots [some 3, none])
    ∧ ∃ x', decode tagged (none, [67]) (iterator (encode tagged (none, [65, 66]) [] ++ [9]) 0)
        = .ok (x', iterator (encode tagged (none, [65, 66]) [] ++ [9])
          (encode tagged (none, [65, 66]) []).length)
      ∧ (x' = (none, [65, 66]) ↔ Resets tagged (none, [65, 66]) (none, [67])) := by
  have hx : Fits tagged (none, [65, 66]) := by
    refine ⟨fun y hy => ?_, ?_⟩
    · cases hy
    · show (2 : ℕ) < 2 ^ 32
      decide
  have hy : Fits slots [some 3, none] := ⟨by decide, fun _ _ _ _ => trivial⟩
  exact ⟨⟨hx, hy⟩, (decode_encode tagged _ (none, [67]) slots _ [none] hx hy).1 [] [9]⟩

/-- An optional that was sent as absent keeps its old value, also inside a vector. -/
theorem decode_keeps_absent :
    decode tagged (some 7, [67]) (iterator (encode tagged (none, [65, 66]) []) 0)
      = .ok ((some 7, [65, 66]), iterator (encode tagged (none, [65, 66]) []) 7)
    ∧ decode slots [some 7, some 8] (iterator (encode slots [some 3, none] []) 0)
      = .ok ([some 3, some 8], iterator (encode slots [some 3, none] []) 7) := by
  decide +kernel

end CephDokan.Encoding
