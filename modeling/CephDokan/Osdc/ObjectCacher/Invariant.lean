import CephDokan.Osdc.ObjectCacher.Cacher
import CephDokan.Osdc.ObjectCacher.Cells

/-!
# The representation invariant

`Focus.Ok` for one object with the accounts, `Cacher.Ok` for the whole cache. Work on one
object changes the cache at this object only, so it keeps the invariant of the cache when
it keeps the one of the object.
-/

namespace CephDokan.ObjectCacher

open Fallible SortedMap

/-- One object is in order, and so are the accounts with the other buffer heads `rest`. -/
structure Focus.Ok (rest : Multiset Item) (f : Focus) : Prop where
  accounts : f.Accounts rest
  shape : Shape f.ob.data.entries
  filled : ∀ e ∈ f.ob.data.entries, e.2.Filled

structure Object.Ok (ob : Object) : Prop where
  dirty : ob.dirtyOrTx = dirtyBytes ob.data.entries
  held : ob.data.entries ≠ [] → 0 < ob.ref
  shape : Shape ob.data.entries
  filled : ∀ e ∈ ob.data.entries, e.2.Filled

def allItems (l : List (Soid × Object)) : Multiset Item :=
  (l.map fun e => itemsOf e.2.oset e.2.data.entries).sum

theorem allItems_mid (pre post : List (Soid × Object)) (key : Soid) (ob : Object) :
    allItems (pre ++ (key, ob) :: post) =
      itemsOf ob.oset ob.data.entries + allItems (pre ++ post) := by
  simp only [allItems, List.map_append, List.map_cons, List.sum_append, List.sum_cons]
  exact add_left_comm _ _ _

def Soid.name (key : Soid) : String := (ofLex (ofLex key).2).1

namespace Cacher

structure Ok (c : Cacher) : Prop where
  books : BooksOk c.books (allItems c.objects.entries)
  object : ∀ e ∈ c.objects.entries, e.2.Ok
  named : ∀ e ∈ c.objects.entries, e.2.oid = Soid.name e.1

/-- What the cache holds of byte `b` of an object. -/
def cell (c : Cacher) (key : Soid) (b : ℕ) : Option Cell :=
  (c.objects.find? key).bind fun ob => cells ob.data.entries b

variable {c c' : Cacher} {key : Soid} {ob : Object} {pre post : List (Soid × Object)}
  {f f' : Focus}

theorem focus_eq (h : c.objects.find? key = some ob) : c.focus key = .ok ⟨c.books, ob⟩ := by
  rw [focus, h]

variable {op : Focus → Run Focus}

theorem atObject_eq (h : c.objects.find? key = some ob) (hop : op ⟨c.books, ob⟩ = .ok f) :
    c.atObject key op = .ok (c.put key f) := by
  rw [atObject, focus_eq h, ok_bind, hop]
  rfl

theorem atObject_cases (h : c.atObject key op = .ok c') :
    ∃ ob f, c.objects.find? key = some ob ∧ op ⟨c.books, ob⟩ = .ok f ∧ c' = c.put key f := by
  obtain ⟨g, hg, h⟩ := bind_eq_ok.mp h
  obtain ⟨f, hf, h⟩ := bind_eq_ok.mp h
  cases h
  unfold focus at hg
  split at hg
  · next ob hob =>
    cases hg
    exact ⟨ob, f, hob, hf, rfl⟩
  · cases hg

theorem put_find?_self (c : Cacher) (key : Soid) (f : Focus) :
    (c.put key f).objects.find? key = some f.ob := find?_insert_self _ _ _

theorem put_find?_of_ne (c : Cacher) (f : Focus) {key key'} (h : key' ≠ key) :
    (c.put key f).objects.find? key' = c.objects.find? key' := find?_insert_of_ne _ _ h

theorem put_put (c : Cacher) (key : Soid) (f f' : Focus) :
    (c.put key f).put key f' = c.put key f' := by
  simp only [put, insert_insert]

theorem cell_of_find? (h : c.objects.find? key = some ob) (b : ℕ) :
    c.cell key b = cells ob.data.entries b := by
  rw [cell, h]
  rfl

theorem cell_put_self (c : Cacher) (key : Soid) (f : Focus) (b : ℕ) :
    (c.put key f).cell key b = cells f.ob.data.entries b :=
  cell_of_find? (put_find?_self c key f) b

theorem cell_put_of_ne (c : Cacher) (f : Focus) {key key'} (h : key' ≠ key) (b : ℕ) :
    (c.put key f).cell key' b = c.cell key' b := by
  rw [cell, put_find?_of_ne c f h, cell]

theorem ok_new (hbooks : c.books = {}) (hobjects : c.objects = ∅) : c.Ok := by
  refine ⟨?_, by simp [hobjects], by simp [hobjects]⟩
  rw [hbooks, hobjects]
  constructor <;> simp [allItems]

section

variable (h : c.Ok) (he : c.objects.entries = pre ++ (key, ob) :: post)

include h he

theorem Ok.focus : Focus.Ok (allItems (pre ++ post)) ⟨c.books, ob⟩ := by
  have hob := h.object (key, ob) (by simp [he])
  have hbooks := h.books
  rw [he, allItems_mid] at hbooks
  exact ⟨⟨hbooks, hob.dirty, hob.held⟩, hob.shape, hob.filled⟩

theorem Ok.put (hf : Focus.Ok (allItems (pre ++ post)) f) (hname : f.ob.oid = ob.oid) :
    (c.put key f).Ok := by
  have hentries : (c.put key f).objects.entries = pre ++ (key, f.ob) :: post :=
    insert_replace he f.ob
  refine ⟨?_, ?_, ?_⟩
  · rw [hentries, allItems_mid]
    exact hf.accounts.books
  · intro e hmem
    rw [hentries] at hmem
    simp only [List.mem_append, List.mem_cons] at hmem
    rcases hmem with hmem | rfl | hmem
    · exact h.object e (by simp [he, hmem])
    · exact ⟨hf.accounts.dirty, hf.accounts.held, hf.shape, hf.filled⟩
    · exact h.object e (by simp [he, hmem])
  · intro e hmem
    rw [hentries] at hmem
    simp only [List.mem_append, List.mem_cons] at hmem
    rcases hmem with hmem | rfl | hmem
    · exact h.named e (by simp [he, hmem])
    · exact hname.trans (h.named (key, ob) (by simp [he]))
    · exact h.named e (by simp [he, hmem])

end

theorem Ok.insert (h : c.Ok) (hfind : c.objects.find? key = none) (hempty : ob.data.entries = [])
    (hdirty : ob.dirtyOrTx = 0) (hname : ob.oid = Soid.name key) :
    (c.put key ⟨c.books, ob⟩).Ok := by
  have hmem : ∀ e ∈ (c.put key ⟨c.books, ob⟩).objects.entries,
      e = (key, ob) ∨ e ∈ c.objects.entries := by
    intro e he
    exact ((mem_insert _ _ _).mp he).imp_right And.left
  obtain ⟨pre, post, he, hpre, hpost⟩ := exists_split_at c.objects key
  have hgt : ∀ e ∈ post, key < e.1 := by
    intro e hpe
    refine lt_of_le_of_ne (hpost e hpe) ?_
    rintro rfl
    have hmem : (e.1, e.2) ∈ c.objects.entries := by simp [he, hpe]
    rw [find?_of_mem hmem] at hfind
    cases hfind
  have hentries : (c.put key ⟨c.books, ob⟩).objects.entries = pre ++ (key, ob) :: post :=
    insert_split he hpre hgt
  refine ⟨?_, ?_, ?_⟩
  · have hbooks := h.books
    rw [hentries, allItems_mid, hempty, ← he]
    simpa [itemsOf, Cacher.put] using hbooks
  · intro e hin
    rcases hmem e hin with rfl | hin
    · exact ⟨by rw [hempty]; exact hdirty, fun hne => absurd hempty hne, by
        rw [hempty]; exact Shape.nil, by simp [hempty]⟩
    · exact h.object e hin
  · intro e hin
    rcases hmem e hin with rfl | hin
    · exact hname
    · exact h.named e hin

theorem Ok.erase (h : c.Ok) (hfind : c.objects.find? key = some ob) (hempty : ob.data.entries = [])
    {reads} : Ok { c with objects := c.objects.erase key, reads := reads } := by
  obtain ⟨pre, post, he⟩ := exists_split_of_find? hfind
  refine ⟨?_, ?_, ?_⟩
  · have hbooks := h.books
    rw [he, allItems_mid, hempty] at hbooks
    rw [erase_split he]
    simpa [itemsOf] using hbooks
  · intro e hmem
    exact h.object e (mem_erase.mp hmem).1
  · intro e hmem
    exact h.named e (mem_erase.mp hmem).1

section GetObject

variable (c) (key) (oid : String) (objectNo : ℕ) (oset : ObjectSet) (truncateSize : ℕ)

theorem getObject_find? : (c.getObject key oid objectNo oset truncateSize).objects.find? key =
    some (c.objectFor key oid objectNo oset truncateSize) := put_find?_self _ _ _

theorem objectFor_cells (b : ℕ) :
    cells (c.objectFor key oid objectNo oset truncateSize).data.entries b = c.cell key b := by
  unfold objectFor cell
  cases c.objects.find? key with
  | none => rfl
  | some ob => rfl

variable {c} {key} {oid}

theorem Ok.objectFor_oid (h : c.Ok) (hname : oid = Soid.name key) :
    (c.objectFor key oid objectNo oset truncateSize).oid = oid := by
  unfold objectFor
  split
  · next ob hob => exact (h.named _ (mem_of_find? hob)).trans hname.symm
  · rfl

theorem Ok.getObject (h : c.Ok) (hname : oid = Soid.name key) :
    (c.getObject key oid objectNo oset truncateSize).Ok := by
  unfold Cacher.getObject objectFor
  cases hfind : c.objects.find? key with
  | none => exact h.insert hfind rfl rfl hname
  | some ob =>
    obtain ⟨pre, post, he⟩ := exists_split_of_find? hfind
    have hf := h.focus he
    exact h.put he ⟨⟨hf.accounts.books, hf.accounts.dirty, hf.accounts.held⟩, hf.shape,
      hf.filled⟩ rfl

end GetObject

end Cacher

end CephDokan.ObjectCacher
