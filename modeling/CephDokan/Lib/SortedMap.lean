import Mathlib.Tactic

/-!
# Finite maps in key order

A map is the list of its entries in strictly increasing key order, as a balanced
search tree enumerates them. An iterator is the key it points at (`none` is the
end); it stays valid while other keys come and go. Every operation is described
by what it does to a list `before ++ (k, v) :: after`, which is how the loops over
such a map are reasoned about.
-/

variable {κ α β : Type*} [LinearOrder κ]

/-- A finite map; the order of the keys is part of the value. -/
structure SortedMap (κ α : Type*) [LinearOrder κ] where
  entries : List (κ × α)
  sorted : entries.Pairwise (fun x y => x.1 < y.1)

namespace SortedMap

open List

@[ext] theorem ext {m m' : SortedMap κ α} (h : m.entries = m'.entries) : m = m' := by
  cases m; cases m'; simp_all

def empty : SortedMap κ α := ⟨[], Pairwise.nil⟩

instance : EmptyCollection (SortedMap κ α) := ⟨empty⟩

variable (m : SortedMap κ α)

@[simp] theorem entries_empty : (∅ : SortedMap κ α).entries = [] := rfl

def find? (k : κ) : Option α :=
  (m.entries.find? (fun e => e.1 = k)).map Prod.snd

def insertEntry (k : κ) (v : α) : List (κ × α) → List (κ × α)
  | [] => [(k, v)]
  | e :: es =>
    if k < e.1 then (k, v) :: e :: es
    else if k = e.1 then (k, v) :: es
    else e :: insertEntry k v es

variable {es : List (κ × α)} {e : κ × α}

theorem mem_insertEntry {k : κ} {v : α} (h : e ∈ insertEntry k v es) : e = (k, v) ∨ e ∈ es := by
  induction es with
  | nil => simpa [insertEntry] using h
  | cons x xs ih =>
    unfold insertEntry at h
    split_ifs at h
    · simpa using h
    · rcases mem_cons.mp h with h | h
      · exact .inl h
      · exact .inr (mem_cons_of_mem _ h)
    · rcases mem_cons.mp h with h | h
      · exact .inr (by simp [h])
      · exact (ih h).imp_right (mem_cons_of_mem _)

theorem insertEntry_sorted (k : κ) (v : α) (h : es.Pairwise (fun x y => x.1 < y.1)) :
    (insertEntry k v es).Pairwise (fun x y => x.1 < y.1) := by
  induction es with
  | nil => simp [insertEntry]
  | cons x xs ih =>
    rw [pairwise_cons] at h
    unfold insertEntry
    split_ifs with hlt heq
    · refine pairwise_cons.mpr ⟨?_, pairwise_cons.mpr h⟩
      intro y hy
      rcases mem_cons.mp hy with rfl | hy
      · exact hlt
      · exact hlt.trans (h.1 y hy)
    · exact pairwise_cons.mpr ⟨fun y hy => heq ▸ h.1 y hy, h.2⟩
    · refine pairwise_cons.mpr ⟨?_, ih h.2⟩
      intro y hy
      rcases mem_insertEntry hy with rfl | hy
      · exact lt_of_le_of_ne (not_lt.mp hlt) (Ne.symm heq)
      · exact h.1 y hy

def insert (k : κ) (v : α) : SortedMap κ α :=
  ⟨insertEntry k v m.entries, insertEntry_sorted k v m.sorted⟩

def erase (k : κ) : SortedMap κ α :=
  ⟨m.entries.filter (fun e => e.1 ≠ k), m.sorted.filter _⟩

def modify (k : κ) (f : α → α) : SortedMap κ α :=
  ⟨m.entries.map (fun e => if e.1 = k then (e.1, f e.2) else e), by
    rw [pairwise_map]
    refine m.sorted.imp ?_
    intro x y h
    split_ifs <;> exact h⟩

/-- Keep the entries whose key satisfies `p`. -/
def filterKeys (p : κ → Bool) : SortedMap κ α :=
  ⟨m.entries.filter (fun e => p e.1), m.sorted.filter _⟩

def keys : List κ := m.entries.map Prod.fst

def contains (k : κ) : Bool := m.entries.any (fun e => e.1 = k)

/-- The first key not below `k`. -/
def lowerBound (k : κ) : Option κ :=
  (m.entries.find? (fun e => k ≤ e.1)).map Prod.fst

def next (k : κ) : Option κ :=
  (m.entries.find? (fun e => k < e.1)).map Prod.fst

def prev (k : κ) : Option κ :=
  (m.entries.reverse.find? (fun e => e.1 < k)).map Prod.fst

def last : Option κ := m.entries.getLast?.map Prod.fst

section Split

variable {m : SortedMap κ α} {before after : List (κ × α)} {k k' : κ} {v : α}

theorem lt_of_mem_before (h : m.entries = before ++ (k, v) :: after) : ∀ e ∈ before, e.1 < k := by
  intro e he
  have hs := m.sorted
  rw [h, pairwise_append] at hs
  exact hs.2.2 e he (k, v) (by simp)

theorem lt_of_mem_after (h : m.entries = before ++ (k, v) :: after) : ∀ e ∈ after, k < e.1 := by
  intro e he
  have hs := m.sorted
  rw [h, pairwise_append, pairwise_cons] at hs
  exact hs.2.1.1 e he

theorem exists_split_of_find? (h : m.find? k = some v) :
    ∃ before after, m.entries = before ++ (k, v) :: after := by
  unfold find? at h
  rw [Option.map_eq_some_iff] at h
  obtain ⟨e, he, rfl⟩ := h
  have hk : e.1 = k := by simpa using find?_some he
  obtain ⟨s, t, hst⟩ := append_of_mem (mem_of_find?_eq_some he)
  exact ⟨s, t, by rw [hst, ← hk]⟩

theorem find?_split (h : m.entries = before ++ (k, v) :: after) : m.find? k = some v := by
  have hb : before.find? (fun e => decide (e.1 = k)) = none := by
    rw [find?_eq_none]
    intro e he
    simpa using (lt_of_mem_before h e he).ne
  simp [find?, h, hb]

theorem find?_eq_none (h : ∀ e ∈ m.entries, e.1 ≠ k) : m.find? k = none := by
  unfold find?
  rw [Option.map_eq_none_iff, List.find?_eq_none]
  intro e he
  simpa using h e he

theorem mem_of_find? (h : m.find? k = some v) : (k, v) ∈ m.entries := by
  obtain ⟨b, a, hs⟩ := exists_split_of_find? h
  simp [hs]

theorem find?_of_mem (h : (k, v) ∈ m.entries) : m.find? k = some v := by
  obtain ⟨s, t, hst⟩ := append_of_mem h
  exact find?_split hst

theorem find?_eq_some_iff : m.find? k = some v ↔ (k, v) ∈ m.entries := ⟨mem_of_find?, find?_of_mem⟩

theorem insertEntry_split (hb : ∀ e ∈ before, e.1 < k) (ha : ∀ e ∈ after, k < e.1) :
    insertEntry k v (before ++ after) = before ++ (k, v) :: after := by
  induction before with
  | nil =>
    cases after with
    | nil => rfl
    | cons x xs => simp [insertEntry, ha x (by simp)]
  | cons x xs ih =>
    have hx := hb x (by simp)
    rw [cons_append, insertEntry, if_neg hx.not_gt, if_neg hx.ne', ih]
    · rfl
    · exact fun e he => hb e (by simp [he])

theorem insert_split (h : m.entries = before ++ after) (hb : ∀ e ∈ before, e.1 < k)
    (ha : ∀ e ∈ after, k < e.1) : (m.insert k v).entries = before ++ (k, v) :: after := by
  simp only [insert, h]
  exact insertEntry_split hb ha

section

variable (h : m.entries = before ++ (k, v) :: after)

include h

theorem insert_replace (v' : α) : (m.insert k v').entries = before ++ (k, v') :: after := by
  have hb := lt_of_mem_before h
  simp only [insert, h]
  clear h
  induction before with
  | nil => simp [insertEntry]
  | cons x xs ih =>
    have hx := hb x (by simp)
    rw [cons_append, insertEntry, if_neg hx.not_gt, if_neg hx.ne',
      ih (fun e he => hb e (by simp [he]))]
    rfl

theorem erase_split : (m.erase k).entries = before ++ after := by
  have hb e he := (lt_of_mem_before h e he).ne
  have ha e he := (lt_of_mem_after h e he).ne'
  simp only [erase, h, filter_append]
  rw [filter_cons_of_neg (by simp), filter_eq_self.mpr (by simpa using hb),
    filter_eq_self.mpr (by simpa using ha)]

theorem modify_split (f : α → α) : (m.modify k f).entries = before ++ (k, f v) :: after := by
  have hb : before.map (fun e => if e.1 = k then (e.1, f e.2) else e) = before := by
    conv_rhs => rw [← map_id before]
    refine map_congr_left ?_
    intro e he
    simp [(lt_of_mem_before h e he).ne]
  have ha : after.map (fun e => if e.1 = k then (e.1, f e.2) else e) = after := by
    conv_rhs => rw [← map_id after]
    refine map_congr_left ?_
    intro e he
    simp [(lt_of_mem_after h e he).ne']
  simp only [modify, h, map_append, map_cons, hb, ha, if_true]

theorem next_split : m.next k = after.head?.map Prod.fst := by
  have hb e he := (lt_of_mem_before h e he).le
  have ha := lt_of_mem_after h
  rw [next, h, ← head?_filter, filter_append, filter_eq_nil_iff.mpr (by simpa using hb),
    filter_cons_of_neg (by simp), filter_eq_self.mpr (by simpa using ha), nil_append]

theorem prev_split : m.prev k = before.getLast?.map Prod.fst := by
  have ha : (after.reverse).find? (fun e => decide (e.1 < k)) = none := by
    rw [List.find?_eq_none]
    intro e he
    simpa using (lt_of_mem_after h e (mem_reverse.mp he)).le
  have hb := lt_of_mem_before h
  unfold prev
  rw [h, reverse_append, reverse_cons, append_assoc, find?_append, ha]
  rcases eq_nil_or_concat before with rfl | ⟨ys, y, rfl⟩
  · simp
  · have hy := hb y (by simp)
    simp [hy]

end

theorem lowerBound_split (h : m.entries = before ++ after) (hb : ∀ e ∈ before, e.1 < k)
    (ha : ∀ e ∈ after, k ≤ e.1) : m.lowerBound k = after.head?.map Prod.fst := by
  rw [lowerBound, h, ← head?_filter, filter_append, filter_eq_nil_iff.mpr (by simpa using hb),
    filter_eq_self.mpr (by simpa using ha), nil_append]

section

variable (m : SortedMap κ α)

theorem exists_split_at (k : κ) :
    ∃ before after, m.entries = before ++ after ∧ (∀ e ∈ before, e.1 < k) ∧
      ∀ e ∈ after, k ≤ e.1 := by
  obtain ⟨es, hs⟩ := m
  induction es with
  | nil => exact ⟨[], [], by simp⟩
  | cons x xs ih =>
    rw [pairwise_cons] at hs
    by_cases hx : x.1 < k
    · obtain ⟨b, a, h, hb, ha⟩ := ih hs.2
      refine ⟨x :: b, a, congrArg (x :: ·) h, ?_, ha⟩
      intro e he
      rcases mem_cons.mp he with rfl | he
      · exact hx
      · exact hb e he
    · refine ⟨[], x :: xs, rfl, by simp, ?_⟩
      intro e he
      rcases mem_cons.mp he with rfl | he
      · exact not_lt.mp hx
      · exact (not_lt.mp hx).trans (hs.1 e he).le

theorem exists_insert_eq (k : κ) :
    ∃ before after, (∀ v, (m.insert k v).entries = before ++ (k, v) :: after) ∧
      ∃ old, m.entries = before ++ (old ++ after) ∧ ∀ e ∈ old, e.1 = k := by
  obtain ⟨b, a, h, hb, ha⟩ := exists_split_at m k
  cases a with
  | nil => exact ⟨b, [], fun v => insert_split h hb (by simp), [], h, by simp⟩
  | cons x xs =>
    obtain ⟨k', w⟩ := x
    have hxs := lt_of_mem_after h
    rcases (ha (k', w) (by simp)).eq_or_lt with rfl | hx
    · exact ⟨b, xs, insert_replace h, [(k, w)], h, by simp⟩
    · refine ⟨b, (k', w) :: xs, fun v => insert_split h hb ?_, [], h, by simp⟩
      exact forall_mem_cons.mpr ⟨hx, fun e he => hx.trans (hxs e he)⟩

theorem mem_insert (k : κ) (v : α) :
    e ∈ (m.insert k v).entries ↔ e = (k, v) ∨ e ∈ m.entries ∧ e.1 ≠ k := by
  obtain ⟨b, a, hins, old, h, hold⟩ := exists_insert_eq m k
  have h1 := fun he : e ∈ b => (lt_of_mem_before (hins v) e he).ne
  have h2 := fun he : e ∈ a => (lt_of_mem_after (hins v) e he).ne'
  rw [hins, h]
  simp only [mem_append, mem_cons]
  tauto

@[simp] theorem find?_insert_self (m : SortedMap κ α) (k : κ) (v : α) :
    (m.insert k v).find? k = some v :=
  find?_of_mem ((mem_insert m k v).mpr (.inl rfl))

theorem find?_insert_of_ne (v : α) (h : k' ≠ k) : (m.insert k v).find? k' = m.find? k' := by
  ext w
  simp only [find?_eq_some_iff, mem_insert, Prod.mk.injEq, ne_eq]
  tauto

theorem insert_insert (k : κ) (v v' : α) : (m.insert k v).insert k v' = m.insert k v' := by
  obtain ⟨b, a, hins, -⟩ := exists_insert_eq m k
  ext1
  rw [insert_replace (hins v), hins]

end

theorem mem_erase : e ∈ (m.erase k).entries ↔ e ∈ m.entries ∧ e.1 ≠ k := by
  simp [erase]

theorem find?_erase (m : SortedMap κ α) (k k' : κ) :
    (m.erase k).find? k' = if k' = k then none else m.find? k' := by
  split_ifs with h
  · apply find?_eq_none
    intro e he
    rw [h]
    exact (mem_erase.mp he).2
  · ext w
    simp only [find?_eq_some_iff, mem_erase]
    tauto

theorem contains_iff : m.contains k = true ↔ ∃ v, (k, v) ∈ m.entries := by
  simp only [contains, any_eq_true, decide_eq_true_eq]
  constructor
  · rintro ⟨e, he, rfl⟩
    exact ⟨e.2, he⟩
  · rintro ⟨v, hv⟩
    exact ⟨_, hv, rfl⟩

end Split

end SortedMap
