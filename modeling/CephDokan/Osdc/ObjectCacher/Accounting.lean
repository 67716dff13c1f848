import CephDokan.Osdc.ObjectCacher.BufferHead

/-!
# The accounts of the cache follow its buffer heads

`BooksOk b s` says that the accounts `b` are those of the buffer heads `s`. The
functions that change one buffer head are described by what they do to the list of
entries of the object; that the accounts follow is part of each description.
-/

namespace CephDokan.ObjectCacher

open Fallible Function Multiset BufferHead SortedMap

/-- What the accounts know of a buffer head. -/
structure Item where
  id : ℕ
  state : BhState
  length : ℕ
  oset : ℕ

namespace Item

def dirtyOrTx (i : Item) : Bool := i.state = .dirty ∨ i.state = .tx

def lru (i : Item) : Lru := if i.state = .dirty then .dirty else .rest

/-- Its share of the byte count of state `st`. -/
def weight (st : BhState) (i : Item) : ℤ := if i.state = st then i.length else 0

/-- Its share of the dirty bytes of object set `o`. -/
def dirtyWeight (o : ℕ) (i : Item) : ℤ := if i.oset = o ∧ i.dirtyOrTx = true then i.length else 0

end Item

def BufferHead.item (oset : ℕ) (bh : BufferHead) : Item := ⟨bh.id, bh.state, bh.length, oset⟩

namespace BufferHead

variable (bh : BufferHead) (oset : ℕ)

@[simp] theorem item_id : (bh.item oset).id = bh.id := rfl

theorem item_weight (st : BhState) :
    (bh.item oset).weight st = if bh.state = st then (bh.length : ℤ) else 0 := rfl

theorem item_dirtyWeight (o : ℕ) : (bh.item oset).dirtyWeight o =
    if oset = o ∧ bh.isDirtyOrTx = true then (bh.length : ℤ) else 0 := rfl

theorem item_dirtyOrTx : (bh.item oset).dirtyOrTx = bh.isDirtyOrTx := rfl

theorem item_lru : (bh.item oset).lru = bh.lru := rfl

end BufferHead

/-- The accounts of the buffer heads `s`. -/
structure BooksOk (b : Books) (s : Multiset Item) : Prop where
  stat : ∀ st, b.stat st = (s.map (Item.weight st)).sum
  oset : ∀ o, b.osetDirtyOrTx o = (s.map (Item.dirtyWeight o)).sum
  dirtyBh : ∀ id, id ∈ b.dirtyOrTxBh ↔ ∃ i ∈ s, i.id = id ∧ i.dirtyOrTx = true
  lru : ∀ id l, b.bhLru id = some l ↔ ∃ i ∈ s, i.id = id ∧ i.lru = l
  nodup : (s.map Item.id).Nodup
  fresh : ∀ i ∈ s, i.id < b.nextBh

namespace BooksOk

variable {b b' : Books} {s : Multiset Item} {i i' : Item}

theorem id_ne (h : BooksOk b (i ::ₘ s)) : ∀ j ∈ s, j.id ≠ i.id := by
  intro j hj heq
  have hnd := h.nodup
  rw [map_cons, nodup_cons] at hnd
  exact hnd.1 (heq ▸ mem_map_of_mem _ hj)

theorem add (h : BooksOk b s) (hnew : ∀ j ∈ s, j.id ≠ i.id) (hfresh : i.id < b'.nextBh)
    (hstat : ∀ st, b'.stat st = b.stat st + i.weight st)
    (hoset : ∀ o, b'.osetDirtyOrTx o = b.osetDirtyOrTx o + i.dirtyWeight o)
    (hdirty : ∀ id, id ∈ b'.dirtyOrTxBh ↔ (id = i.id ∧ i.dirtyOrTx = true) ∨ id ∈ b.dirtyOrTxBh)
    (hlru : ∀ id, b'.bhLru id = if id = i.id then some i.lru else b.bhLru id)
    (hnext : b.nextBh ≤ b'.nextBh) : BooksOk b' (i ::ₘ s) := by
  constructor
  · intro st
    rw [hstat, h.stat, map_cons, sum_cons, add_comm]
  · intro o
    rw [hoset, h.oset, map_cons, sum_cons, add_comm]
  · intro id
    rw [hdirty, h.dirtyBh]
    simp only [mem_cons, exists_eq_or_imp, eq_comm (a := id)]
  · intro id l
    rw [hlru]
    split_ifs with heq
    · subst heq
      constructor
      · intro hl
        exact ⟨i, mem_cons_self _ _, rfl, Option.some.inj hl⟩
      · intro ⟨j, hj, hji, hl⟩
        rcases mem_cons.mp hj with rfl | hj
        · rw [hl]
        · exact absurd hji (hnew j hj)
    · rw [h.lru]
      simp [Ne.symm heq]
  · rw [map_cons, nodup_cons]
    refine ⟨?_, h.nodup⟩
    intro hmem
    obtain ⟨j, hj, hji⟩ := mem_map.mp hmem
    exact hnew j hj hji
  · intro j hj
    rcases mem_cons.mp hj with rfl | hj
    · exact hfresh
    · exact (h.fresh j hj).trans_le hnext

section

variable (h : BooksOk b (i ::ₘ s))

include h

theorem remove (hstat : ∀ st, b'.stat st = b.stat st - i.weight st)
    (hoset : ∀ o, b'.osetDirtyOrTx o = b.osetDirtyOrTx o - i.dirtyWeight o)
    (hdirty : ∀ id, id ∈ b'.dirtyOrTxBh ↔ id ≠ i.id ∧ id ∈ b.dirtyOrTxBh)
    (hlru : ∀ id, b'.bhLru id = if id = i.id then none else b.bhLru id)
    (hnext : b.nextBh ≤ b'.nextBh) : BooksOk b' s := by
  have hne := h.id_ne
  constructor
  · intro st
    rw [hstat, h.stat, map_cons, sum_cons]
    omega
  · intro o
    rw [hoset, h.oset, map_cons, sum_cons]
    omega
  · intro id
    rw [hdirty, h.dirtyBh]
    simp only [mem_cons, exists_eq_or_imp]
    constructor
    · intro ⟨hid, hor⟩
      rcases hor with ⟨heq, -⟩ | hin
      · exact absurd heq.symm hid
      · exact hin
    · intro ⟨j, hj, hji, hd⟩
      exact ⟨hji ▸ hne j hj, .inr ⟨j, hj, hji, hd⟩⟩
  · intro id l
    rw [hlru]
    split_ifs with heq
    · subst heq
      constructor
      · intro hl
        cases hl
      · intro ⟨j, hj, hji, _⟩
        exact absurd hji (hne j hj)
    · rw [h.lru]
      simp [Ne.symm heq]
  · have hnd := h.nodup
    rw [map_cons, nodup_cons] at hnd
    exact hnd.2
  · intro j hj
    exact (h.fresh j (mem_cons_of_mem hj)).trans_le hnext

theorem replace (hid : i'.id = i.id)
    (hstat : ∀ st, b'.stat st = b.stat st - i.weight st + i'.weight st)
    (hoset : ∀ o, b'.osetDirtyOrTx o = b.osetDirtyOrTx o - i.dirtyWeight o + i'.dirtyWeight o)
    (hdirty : ∀ id, id ∈ b'.dirtyOrTxBh ↔
      if id = i.id then i'.dirtyOrTx = true else id ∈ b.dirtyOrTxBh)
    (hlru : ∀ id, b'.bhLru id = if id = i.id then some i'.lru else b.bhLru id)
    (hnext : b.nextBh ≤ b'.nextBh) : BooksOk b' (i' ::ₘ s) := by
  -- the old one leaves, and the new one enters
  obtain ⟨c, hc⟩ : ∃ c : Books, c = { b with
      stat := fun st => b.stat st - i.weight st
      osetDirtyOrTx := fun o => b.osetDirtyOrTx o - i.dirtyWeight o
      dirtyOrTxBh := b.dirtyOrTxBh.erase i.id
      bhLru := update b.bhLru i.id none } := ⟨_, rfl⟩
  have hrest : BooksOk c s := by
    refine h.remove ?_ ?_ ?_ ?_ ?_ <;> simp [hc, update_apply]
  refine hrest.add (fun j hj => hid ▸ h.id_ne j hj) ?_ ?_ ?_ ?_ ?_ ?_
  · rw [hid]
    exact (h.fresh i (mem_cons_self _ _)).trans_le hnext
  · simp [hc, hstat]
  · simp [hc, hoset]
  · intro id
    rw [hdirty, hid, hc, Finset.mem_erase]
    split_ifs with heq <;> simp [heq]
  · intro id
    rw [hlru, hid, hc]
    split_ifs with heq
    · rfl
    · exact (update_of_ne heq ..).symm
  · simpa [hc] using hnext

theorem lru_eq : b.bhLru i.id = some i.lru :=
  (h.lru _ _).mpr ⟨i, mem_cons_self _ _, rfl, rfl⟩

theorem mem_dirtyBh : i.id ∈ b.dirtyOrTxBh ↔ i.dirtyOrTx = true := by
  rw [h.dirtyBh]
  constructor
  · intro ⟨j, hj, hji, hd⟩
    rcases mem_cons.mp hj with rfl | hj
    · exact hd
    · exact absurd hji (h.id_ne j hj)
  · intro hd
    exact ⟨i, mem_cons_self _ _, rfl, hd⟩

end

end BooksOk

/-- The buffer heads of a list of entries, as items of object set `oset`. -/
def itemsOf (oset : ℕ) (l : List (ℕ × BufferHead)) : Multiset Item :=
  (l.map (fun e => e.2.item oset) : List Item)

theorem itemsOf_append (oset : ℕ) (l l' : List (ℕ × BufferHead)) :
    itemsOf oset (l ++ l') = itemsOf oset l + itemsOf oset l' := by
  simp [itemsOf]

theorem itemsOf_cons (oset : ℕ) (e : ℕ × BufferHead) (l : List (ℕ × BufferHead)) :
    itemsOf oset (e :: l) = e.2.item oset ::ₘ itemsOf oset l := by
  simp [itemsOf]

theorem itemsOf_mid (oset : ℕ) (pre post : List (ℕ × BufferHead)) (e : ℕ × BufferHead) :
    itemsOf oset (pre ++ e :: post) = e.2.item oset ::ₘ itemsOf oset (pre ++ post) := by
  rw [itemsOf_append, itemsOf_cons, itemsOf_append, add_cons]

def dirtyBytes (l : List (ℕ × BufferHead)) : ℤ :=
  (l.map (fun e => if e.2.isDirtyOrTx then (e.2.length : ℤ) else 0)).sum

theorem dirtyBytes_mid (pre post : List (ℕ × BufferHead)) (e : ℕ × BufferHead) :
    dirtyBytes (pre ++ e :: post) =
      (if e.2.isDirtyOrTx then (e.2.length : ℤ) else 0) + dirtyBytes (pre ++ post) := by
  simp only [dirtyBytes, List.map_append, List.map_cons, List.sum_append, List.sum_cons]
  omega

/-- The fields of an object that no change of its buffer heads touches; of the reference
count this is the part that is not held by the data. -/
def Object.frame (ob : Object) : Object :=
  { ob with
    data := ∅
    dirtyOrTx := 0
    ref := ob.ref - if ob.data.entries = [] then 0 else 1 }

namespace Focus

/-- The accounts agree with the buffer heads of the object and the other ones, `rest`. -/
structure Accounts (rest : Multiset Item) (f : Focus) : Prop where
  books : BooksOk f.books (itemsOf f.ob.oset f.ob.data.entries + rest)
  dirty : f.ob.dirtyOrTx = dirtyBytes f.ob.data.entries
  held : f.ob.data.entries ≠ [] → 0 < f.ob.ref

/-- `f'` is `f` with the entries `l`, and the accounts agree with them. -/
structure Becomes (rest : Multiset Item) (f : Focus) (l : List (ℕ × BufferHead)) (f' : Focus) :
    Prop where
  entries : f'.ob.data.entries = l
  accounts : Accounts rest f'
  frame : f'.ob.frame = f.ob.frame

variable {l : List (ℕ × BufferHead)} {f' : Focus}

section

variable {rest : Multiset Item} {f : Focus}

theorem Becomes.trans {f''} {l'} (h : Becomes rest f l f')
    (h' : Becomes rest f' l' f'') : Becomes rest f l' f'' :=
  ⟨h'.entries, h'.accounts, h'.frame.trans h.frame⟩

theorem Accounts.becomes (hf : Accounts rest f) (h : f.ob.data.entries = l) :
    Becomes rest f l f := ⟨h, hf, rfl⟩

theorem Becomes.oset (h : Becomes rest f l f') : f'.ob.oset = f.ob.oset :=
  (congrArg Object.oset h.frame :)

end

theorem statBy_eq (f : Focus) (bh : BufferHead) (n : ℤ) : f.statBy bh n =
    { books := { f.books with
        stat := fun st => f.books.stat st + if bh.state = st then n else 0
        osetDirtyOrTx := fun o => f.books.osetDirtyOrTx o +
          if f.ob.oset = o ∧ bh.isDirtyOrTx = true then n else 0 }
      ob := { f.ob with dirtyOrTx := f.ob.dirtyOrTx + if bh.isDirtyOrTx then n else 0 } } := by
  have hupdate {α : Type} [DecidableEq α] (g : α → ℤ) (a : α) :
      update g a (g a + n) = fun x => g x + if a = x then n else 0 := by
    funext x
    by_cases hx : x = a
    · simp [hx]
    · simp [hx, Ne.symm hx]
  unfold statBy
  split_ifs with hd <;> simp [withBooks, hupdate, hd]

section

variable {f : Focus} {pre post : List (ℕ × BufferHead)} {k : ℕ} {bh : BufferHead}
  (h : f.ob.data.entries = pre ++ (k, bh) :: post)

include h

theorem deref_eq : f.deref k = .ok bh := by
  rw [deref, find?_split h]

theorem assign_entries (bh' : BufferHead) :
    (f.assign k bh').ob.data.entries = pre ++ (k, bh') :: post :=
  insert_replace h bh'

end

variable {rest : Multiset Item} {f : Focus} {pre post : List (ℕ × BufferHead)} {k : ℕ}
  {bh bh' : BufferHead}

section

variable (hf : Accounts rest f) (h : f.ob.data.entries = pre ++ (k, bh) :: post)

include hf h

theorem Accounts.mid :
    BooksOk f.books (bh.item f.ob.oset ::ₘ (itemsOf f.ob.oset (pre ++ post) + rest)) := by
  have hb := hf.books
  rwa [h, itemsOf_mid, cons_add] at hb

theorem Accounts.stat_mid (hf' : Accounts rest f') (he' : f'.ob.data.entries = pre ++ post)
    (hoset : f'.ob.oset = f.ob.oset) (st : BhState) :
    f.books.stat st = (bh.item f.ob.oset).weight st + f'.books.stat st := by
  have hstat := hf'.books.stat st
  rw [he', hoset] at hstat
  rw [(hf.mid h).stat st, map_cons, sum_cons, hstat]

theorem Accounts.replace (hdata : f'.ob.data.entries = pre ++ (k, bh') :: post)
    (hob : f'.ob = { f.ob with data := f'.ob.data, dirtyOrTx := f'.ob.dirtyOrTx })
    (hdirty : f'.ob.dirtyOrTx =
      f.ob.dirtyOrTx - (if bh.isDirtyOrTx then (bh.length : ℤ) else 0) +
        if bh'.isDirtyOrTx then (bh'.length : ℤ) else 0)
    (hbooks : BooksOk f'.books (bh'.item f.ob.oset ::ₘ (itemsOf f.ob.oset (pre ++ post) + rest))) :
    Becomes rest f (pre ++ (k, bh') :: post) f' := by
  refine ⟨hdata, ⟨?_, ?_, ?_⟩, ?_⟩
  · rwa [hdata, congrArg Object.oset hob, itemsOf_mid, cons_add]
  · have hd := hf.dirty
    rw [h, dirtyBytes_mid] at hd
    rw [hdata, dirtyBytes_mid, hdirty, hd]
    ring
  · intro _
    rw [congrArg Object.ref hob]
    exact hf.held (by simp [h])
  · rw [hob]
    simp [Object.frame, hdata, h]

theorem assign_spec (hitem : bh'.item f.ob.oset = bh.item f.ob.oset) :
    Becomes rest f (pre ++ (k, bh') :: post) (f.assign k bh') := by
  have hdata := assign_entries h bh'
  have hdirty : bh'.isDirtyOrTx = bh.isDirtyOrTx ∧ bh'.length = bh.length := by
    simp only [BufferHead.item, Item.mk.injEq] at hitem
    simp [BufferHead.isDirtyOrTx, hitem]
  refine hf.replace h hdata rfl ?_ ?_
  · rw [hdirty.1, hdirty.2]
    simp [assign]
  · rw [hitem]
    exact hf.mid h

end

section

variable (hf : Accounts rest f) (h : f.ob.data.entries = pre ++ (k, bh) :: post)

include hf h

/-- Exchanging a buffer head, once the LRU lists and the dirty set have been brought to
the new state. -/
theorem exchange_spec (hid : bh'.id = bh.id) {b} (hstat : b.stat = f.books.stat)
    (hoset : b.osetDirtyOrTx = f.books.osetDirtyOrTx)
    (hdirty : ∀ id, id ∈ b.dirtyOrTxBh ↔
      if id = bh.id then bh'.isDirtyOrTx = true else id ∈ f.books.dirtyOrTxBh)
    (hlru : ∀ id, b.bhLru id =
      if id = bh.id then some (bh'.item f.ob.oset).lru else f.books.bhLru id)
    (hnext : f.books.nextBh ≤ b.nextBh) :
    Becomes rest f (pre ++ (k, bh') :: post) ((f.withBooks b).exchange k bh bh') := by
  simp only [exchange, bhStatAdd, bhStatSub, statBy_eq, assign, withBooks]
  refine hf.replace h (assign_entries h bh') rfl ?_ ?_
  · split_ifs <;> ring
  · refine (hf.mid h).replace hid ?_ ?_ hdirty hlru hnext
    · intro st
      simp only [item_weight, hstat]
      split_ifs <;> ring
    · intro o
      simp only [item_dirtyWeight, hoset]
      split_ifs <;> ring

theorem setLength_spec (len : ℕ) : ∃ f', f.setLength k len = .ok f' ∧
      Becomes rest f (pre ++ (k, { bh with length := len }) :: post) f' := by
  have hbooks := hf.mid h
  refine ⟨_, by rw [setLength, deref_eq h]; rfl, ?_⟩
  refine exchange_spec (f := f) (b := f.books) hf h ?_ rfl rfl ?_ ?_ le_rfl
  · rfl
  · intro id
    split_ifs with hid
    · subst hid
      exact hbooks.mem_dirtyBh
    · rfl
  · intro id
    split_ifs with hid
    · subst hid
      exact hbooks.lru_eq
    · rfl

end

variable {id : ℕ} {l : Lru}

section

variable {b : Books}

theorem lruRemove_eq (hl : b.bhLru id = some l) :
    b.lruRemove l id = .ok { b with bhLru := update b.bhLru id none } := by
  simp [Books.lruRemove, hl, assertThat, Fallible.check]

theorem lruInsert_eq (hl : b.bhLru id = none) (l : Lru) :
    b.lruInsert l id = .ok { b with bhLru := update b.bhLru id (some l) } := by
  simp [Books.lruInsert, hl, assertThat, Fallible.check]

theorem lruRemove_insert (hl : b.bhLru id = some l) (l' : Lru) : (do
      let b ← b.lruRemove l id
      b.lruInsert l' id) =
      (.ok { b with bhLru := update b.bhLru id (some l') } : Run Books) := by
  rw [lruRemove_eq hl, ok_bind, lruInsert_eq (update_self ..)]
  simp only [update_idem]

theorem lruMove_spec (hlru : b.bhLru bh.id = some bh.lru) (s : BhState) :
    b.lruMove bh s = .ok { b with
      bhLru := update b.bhLru bh.id (some (bh.withState s).lru) } := by
  have hstay : ∀ l, b.bhLru bh.id = some l →
      b = { b with bhLru := update b.bhLru bh.id (some l) } := by
    intro l hl
    rw [← hl, update_eq_self]
  have hnew : (bh.withState s).lru = if s = .dirty then .dirty else .rest := rfl
  unfold BufferHead.lru at hlru
  unfold Books.lruMove
  rw [hnew]
  by_cases hs : s = .dirty
  · by_cases hd : bh.state = .dirty
    · rw [if_pos hd] at hlru
      rw [if_neg (fun h => h.2 hd), if_neg (fun h => h.1 hs), if_pos hs, ← hstay _ hlru]
    · rw [if_neg hd] at hlru
      rw [if_pos ⟨hs, hd⟩, if_pos hs]
      exact lruRemove_insert hlru _
  · by_cases hd : bh.state = .dirty
    · rw [if_pos hd] at hlru
      rw [if_neg (fun h => hs h.1), if_pos ⟨hs, hd⟩, if_neg hs]
      exact lruRemove_insert hlru _
    · rw [if_neg hd] at hlru
      rw [if_neg (fun h => hs h.1), if_neg (fun h => hd h.2), if_neg hs, ← hstay _ hlru]

theorem mem_moveDirtyOrTx (hmem : bh.id ∈ b.dirtyOrTxBh ↔ bh.isDirtyOrTx = true) (s : BhState)
    (id : ℕ) : id ∈ (b.moveDirtyOrTx bh s).dirtyOrTxBh ↔
      if id = bh.id then (bh.withState s).isDirtyOrTx = true else id ∈ b.dirtyOrTxBh := by
  have hnow : (bh.withState s).isDirtyOrTx = true ↔ (s = .tx ∨ s = .dirty) := by
    rw [BufferHead.isDirtyOrTx, decide_eq_true_iff, or_comm]
    rfl
  unfold Books.moveDirtyOrTx
  dsimp only
  by_cases heq : id = bh.id
  · subst heq
    rw [if_pos rfl, hnow]
    split_ifs with h1 h2
    · simp [h1.1]
    · simp [h2.2]
    · tauto
  · rw [if_neg heq]
    split_ifs <;> simp [heq]

end

theorem bhSetState_spec (hf : Accounts rest f) (h : f.ob.data.entries = pre ++ (k, bh) :: post)
    (s : BhState) : ∃ f', f.bhSetState k s = .ok f' ∧
      Becomes rest f (pre ++ (k, bh.withState s) :: post) f' := by
  have hbooks := hf.mid h
  refine ⟨_, by rw [bhSetState, deref_eq h, ok_bind, lruMove_spec hbooks.lru_eq]; rfl, ?_⟩
  refine exchange_spec hf h ?_ ?_ ?_ ?_ ?_ ?_
  · rfl
  · rfl
  · rfl
  · intro id
    exact mem_moveDirtyOrTx hbooks.mem_dirtyBh s id
  · intro id
    simp [Books.moveDirtyOrTx, update_apply, item_lru]
  · rfl

theorem lruTouch_spec {b : Books} (hlru : b.bhLru id = some l) : b.lruTouch l id = .ok b := by
  rw [Books.lruTouch, lruRemove_insert hlru, ← hlru, update_eq_self]

section

variable (hf : Accounts rest f) (h : f.ob.data.entries = pre ++ (k, bh) :: post)

include hf h

theorem markDirty_spec :
    ∃ f', f.markDirty k = .ok f' ∧ Becomes rest f (pre ++ (k, bh.withState .dirty) :: post) f' := by
  obtain ⟨f', hrun, hf'⟩ := bhSetState_spec hf h .dirty
  have hlru : f'.books.bhLru bh.id = some .dirty := (hf'.accounts.mid hf'.entries).lru_eq
  refine ⟨f', ?_, hf'⟩
  simp only [markDirty, hrun, ok_bind, deref_eq hf'.entries]
  exact congrArg (fun r => r >>= fun books => pure (f'.withBooks books)) (lruTouch_spec hlru)

theorem touchBh_spec : ∃ f', f.touchBh k = .ok f' ∧
      Becomes rest f (pre ++ (k, { bh with dontneed := false }) :: post) f' := by
  have hlru : f.books.bhLru bh.id = some bh.lru := (hf.mid h).lru_eq
  refine ⟨_, ?_, assign_spec hf h rfl⟩
  simp only [touchBh, deref_eq h, ok_bind, lruTouch_spec hlru]
  rfl

end

theorem newBh_spec (hf : Accounts rest f) : Accounts rest f.newBh.2 ∧
    f.newBh.1.id < f.newBh.2.books.nextBh ∧
    ∀ i ∈ itemsOf f.ob.oset f.ob.data.entries + rest, i.id ≠ f.newBh.1.id := by
  have hb := hf.books
  refine ⟨⟨?_, hf.dirty, hf.held⟩, Nat.lt_succ_self _, ?_⟩
  · exact ⟨hb.stat, hb.oset, hb.dirtyBh, hb.lru, hb.nodup,
      fun i hi => Nat.lt_succ_of_lt (hb.fresh i hi)⟩
  · intro i hi
    exact (hb.fresh i hi).ne

theorem dirtyInsert_eq (b : Books) (bh : BufferHead) : b.dirtyInsert bh = { b with
    dirtyOrTxBh := if bh.isDirtyOrTx then insert bh.id b.dirtyOrTxBh else b.dirtyOrTxBh } := by
  unfold Books.dirtyInsert
  split_ifs <;> rfl

theorem dirtyErase_eq (b : Books) (bh : BufferHead) : b.dirtyErase bh = { b with
    dirtyOrTxBh := if bh.isDirtyOrTx then b.dirtyOrTxBh.erase bh.id else b.dirtyOrTxBh } := by
  unfold Books.dirtyErase
  split_ifs <;> rfl

section

variable (hf : Accounts rest f) (h : f.ob.data.entries = pre ++ post)

include hf h

theorem bhAdd_spec (hpre : ∀ e ∈ pre, e.1 < bh.start) (hpost : ∀ e ∈ post, bh.start < e.1)
    (hid : bh.id < f.books.nextBh)
    (hnew : ∀ i ∈ itemsOf f.ob.oset f.ob.data.entries + rest, i.id ≠ bh.id) :
    ∃ f', f.bhAdd bh = .ok f' ∧ Becomes rest f (pre ++ (bh.start, bh) :: post) f' := by
  have hnone : f.ob.data.find? bh.start = none := by
    apply find?_eq_none
    intro e he
    rw [h] at he
    rcases List.mem_append.mp he with he | he
    · exact (hpre e he).ne
    · exact (hpost e he).ne'
  have hlru : f.books.bhLru bh.id = none := by
    cases hl : f.books.bhLru bh.id with
    | none => rfl
    | some l =>
      obtain ⟨i, hi, hii, -⟩ := (hf.books.lru _ _).mp hl
      exact absurd hii (hnew i hi)
  have hdata := insert_split (v := bh) h hpre hpost
  rw [bhAdd, addBh, assertThat_of hnone]
  simp only [ok_bind, pure_eq_ok, lruInsert_eq hlru, withBooks, bhStatAdd, statBy_eq,
    dirtyInsert_eq]
  refine ⟨_, rfl, ⟨hdata, ⟨?_, ?_, ?_⟩, ?_⟩⟩
  · rw [hdata, itemsOf_mid, ← h, cons_add]
    refine hf.books.add hnew hid (fun _ => rfl) (fun _ => rfl) ?_
      (fun id => update_apply _ _ _ id) le_rfl
    intro id
    rw [item_id, item_dirtyOrTx]
    split_ifs with hd <;> simp [hd]
  · dsimp only
    rw [hdata, dirtyBytes_mid, ← h, hf.dirty, add_comm]
  · intro _
    dsimp only
    split_ifs with hempty
    · omega
    · exact hf.held hempty
  · dsimp only [Object.frame]
    split_ifs <;> simp_all

theorem addMissing_aux {start : ℕ} (length : ℕ) (hpre : ∀ e ∈ pre, e.1 < start)
    (hpost : ∀ e ∈ post, start < e.1) :
    ∃ f' id, f.newBh.2.bhAdd { f.newBh.1 with start := start, length := length } = .ok f' ∧
      Becomes rest f
        (pre ++ (start, { id := id, start := start, length := length }) :: post) f' := by
  obtain ⟨hacc, hid, hnew⟩ := newBh_spec hf
  have hadd : ∃ f', f.newBh.2.bhAdd { f.newBh.1 with start := start, length := length } = .ok f' ∧
      Becomes rest f.newBh.2 (pre ++ (start, { f.newBh.1 with
        start := start
        length := length }) :: post) f' :=
    bhAdd_spec hacc h hpre hpost hid hnew
  obtain ⟨f', hrun, hf'⟩ := hadd
  exact ⟨f', f.newBh.1.id, hrun, hf'.entries, hf'.accounts, hf'.frame⟩

end

theorem bhRemove_spec (hf : Accounts rest f) (h : f.ob.data.entries = pre ++ (k, bh) :: post)
    (hstart : bh.start = k) :
    ∃ f', f.bhRemove k = .ok f' ∧ Becomes rest f (pre ++ post) f' := by
  have hbooks := hf.mid h
  have hlru : f.books.bhLru bh.id = some bh.lru := hbooks.lru_eq
  have hcontains : f.ob.data.contains bh.start = true := by
    rw [contains_iff, h, hstart]
    exact ⟨bh, by simp⟩
  have hdata : (f.ob.data.erase bh.start).entries = pre ++ post := by
    rw [hstart]
    exact erase_split h
  have href : 0 < f.ob.ref := hf.held (by simp [h])
  rw [bhRemove, deref_eq h, ok_bind, removeBh, assertThat_of hcontains]
  simp only [ok_bind, pure_eq_ok, assertThat_of (fun _ => href), lruRemove_eq hlru, withBooks,
    bhStatSub, statBy_eq, dirtyErase_eq]
  refine ⟨_, rfl, ⟨hdata, ⟨?_, ?_, ?_⟩, ?_⟩⟩
  · rw [hdata]
    refine hbooks.remove ?_ ?_ ?_ (fun id => update_apply _ _ _ id) le_rfl
    · intro st
      dsimp only
      rw [item_weight]
      split_ifs <;> ring
    · intro o
      dsimp only
      rw [item_dirtyWeight]
      split_ifs <;> ring
    · intro id
      split_ifs with hd
      · exact Finset.mem_erase
      · -- a head that is not dirty is not in the set
        refine ⟨fun hin => ⟨?_, hin⟩, And.right⟩
        rintro rfl
        exact hd (hbooks.mem_dirtyBh.mp hin)
  · have hd := hf.dirty
    rw [h, dirtyBytes_mid] at hd
    rw [hdata, hd]
    split_ifs <;> ring
  · intro hne
    rwa [if_neg hne]
  · dsimp only [Object.frame]
    split_ifs <;> simp_all

end Focus

end CephDokan.ObjectCacher
