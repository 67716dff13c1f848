import CephDokan.Common.Buffer
import CephDokan.Lib.RefCount

/-!
# The nodes of the quota tree

A `QuotaTree` node belongs to an inode until it is invalidated. It leads to the node of the
parent and to that of the nearest ancestor with a quota, and counts the nodes that lead to it;
an invalid node that nobody leads to is deleted. The node of the root leads to itself, and is
not safe to invalidate when no other node leads to it.
-/

namespace CephDokan.Client

open Fallible Function Option

/-! ### Nodes -/

/-- A `QuotaTree`. -/
structure QuotaNode where
  inode : Option ℕ
  ancestorRef : ℤ
  ancestor : Option ℕ
  parentRef : ℤ
  parent : Option ℕ
  deriving DecidableEq

inductive QuotaLink
  | parent
  | ancestor
  deriving DecidableEq

namespace QuotaNode

variable (x : QuotaNode)

def link : QuotaLink → Option ℕ
  | .parent => x.parent
  | .ancestor => x.ancestor

def ref : QuotaLink → ℤ
  | .parent => x.parentRef
  | .ancestor => x.ancestorRef

def setLink (l : QuotaLink) (v : Option ℕ) : QuotaNode :=
  match l with
  | .parent => { x with parent := v }
  | .ancestor => { x with ancestor := v }

def addRef (l : QuotaLink) (d : ℤ) : QuotaNode :=
  match l with
  | .parent => { x with parentRef := x.parentRef + d }
  | .ancestor => { x with ancestorRef := x.ancestorRef + d }

/-- `_put()` deletes the node. -/
def Unused : Prop := x.inode = none ∧ x.ancestorRef = 0 ∧ x.parentRef = 0

instance (x : QuotaNode) : Decidable x.Unused := by
  unfold Unused
  infer_instance

variable (x : QuotaNode) (l l' : QuotaLink) (v : Option ℕ) (d : ℤ)

@[simp] theorem setLink_inode : (x.setLink l v).inode = x.inode := by cases l <;> rfl

@[simp] theorem addRef_inode : (x.addRef l d).inode = x.inode := by cases l <;> rfl

@[simp] theorem addRef_link : (x.addRef l d).link l' = x.link l' := by cases l <;> cases l' <;> rfl

@[simp] theorem setLink_ref : (x.setLink l v).ref l' = x.ref l' := by cases l <;> cases l' <;> rfl

theorem setLink_link : (x.setLink l v).link l' = if l' = l then v else x.link l' := by
  cases l <;> cases l' <;> rfl

theorem addRef_ref : (x.addRef l d).ref l' = if l' = l then x.ref l' + d else x.ref l' := by
  cases l <;> cases l' <;> rfl

variable {x}

theorem addRef_zero : x.addRef l 0 = x := by cases l <;> simp [addRef]

theorem addRef_addRef (e : ℤ) : (x.addRef l d).addRef l e = x.addRef l (d + e) := by
  cases l <;> simp [addRef, add_assoc]

theorem setLink_addRef : (x.addRef l d).setLink l' v = (x.setLink l' v).addRef l d := by
  cases l <;> cases l' <;> rfl

theorem unused_iff : x.Unused ↔ x.inode = none ∧ ∀ l, x.ref l = 0 := by
  constructor
  · rintro ⟨hinode, hancestor, hparent⟩
    refine ⟨hinode, fun l => ?_⟩
    cases l
    · exact hparent
    · exact hancestor
  · rintro ⟨hinode, href⟩
    exact ⟨hinode, href .ancestor, href .parent⟩

end QuotaNode

/-! ### The memory -/

/-- The nodes that are allocated. An address is not used twice. -/
structure QuotaHeap where
  node : ℕ → Option QuotaNode
  next : ℕ

namespace QuotaHeap

variable (h : QuotaHeap)

def deref (n : ℕ) : Run QuotaNode :=
  match h.node n with
  | some x => .ok x
  | none => .error .dangling

def store (n : ℕ) (x : QuotaNode) : QuotaHeap :=
  { h with node := update h.node n (some x) }

def modify (n : ℕ) (f : QuotaNode → QuotaNode) : Run QuotaHeap := do
  let x ← h.deref n
  return h.store n (f x)

def erase (n : ℕ) : QuotaHeap :=
  { h with node := update h.node n none }

/-- `new QuotaTree(in)` -/
def alloc (i : ℕ) : QuotaHeap :=
  { node := update h.node h.next (some ⟨some i, 0, none, 0, none⟩), next := h.next + 1 }

/-- `_put()`, with the two setters. -/
def put (set : QuotaLink → QuotaHeap → ℕ → Option ℕ → Run QuotaHeap) (h : QuotaHeap) (n : ℕ) :
    Run QuotaHeap := do
  let x ← h.deref n
  if x.Unused then
    let h ← set .parent h n none
    let h ← set .ancestor h n none
    return h.erase n
  else return h

/-- What `set_parent` and `set_ancestor` do. -/
def setLink : ℕ → QuotaLink → QuotaHeap → ℕ → Option ℕ → Run QuotaHeap
  | 0, _, _, _, _ => .error .diverged
  | fuel + 1, l, h, n, new => do
    let x ← h.deref n
    if x.link l = new then return h
    else
      let h ← match x.link l with
        | none => .ok h
        | some old => do
          let h ← h.modify old (·.addRef l (-1))
          put (setLink fuel) h old
      -- when `old` is the node itself, it can be gone here
      let h ← h.modify n (·.setLink l new)
      match new with
      | none => return h
      | some a => h.modify a (·.addRef l 1)

/-- `set_parent` -/
def setParent (fuel : ℕ) (h : QuotaHeap) (n : ℕ) (parent : Option ℕ) : Run QuotaHeap :=
  setLink fuel .parent h n parent

/-- `set_ancestor` -/
def setAncestor (fuel : ℕ) (h : QuotaHeap) (n : ℕ) (ancestor : Option ℕ) : Run QuotaHeap :=
  setLink fuel .ancestor h n ancestor

/-- `invalidate()` -/
def invalidate (fuel : ℕ) (h : QuotaHeap) (n : ℕ) : Run QuotaHeap := do
  let x ← h.deref n
  if x.inode = none then return h
  else
    let h ← h.modify n fun x => { x with inode := none }
    let h ← h.setAncestor fuel n none
    let h ← h.setParent fuel n none
    put (setLink fuel) h n

/-! ### What the nodes say -/

/-- `in()`, for a node that is there. -/
def inodeOf (k : ℕ) : Option ℕ := (h.node k).bind QuotaNode.inode

def linkOf (l : QuotaLink) (k : ℕ) : Option ℕ := (h.node k).bind (·.link l)

/-- The pointers lead to nodes, the counters count them, and an invalid node has none. The node
that is being invalidated may still have some. -/
structure Ok (h : QuotaHeap) (busy : Option ℕ) : Prop where
  fresh : ∀ k, h.next ≤ k → h.node k = none
  valid : ∀ l k n, h.linkOf l k = some n → (h.node n).isSome
  counted : ∀ l n x, h.node n = some x → x.ref l = refCount (h.linkOf l) h.next n
  dead : ∀ k, h.inodeOf k = none → some k ≠ busy → ∀ l, h.linkOf l k = none

variable {h : QuotaHeap} {busy : Option ℕ} {n k : ℕ} {x : QuotaNode} {l : QuotaLink}
  {new : Option ℕ} {fuel : ℕ}

theorem deref_of (hn : h.node n = some x) : h.deref n = .ok x := by
  unfold deref
  rw [hn]

theorem modify_of (hn : h.node n = some x) (f : QuotaNode → QuotaNode) :
    h.modify n f = .ok (h.store n (f x)) := by
  unfold modify
  rw [deref_of hn, ok_bind]
  rfl

@[simp] theorem store_node_self : (h.store n x).node n = some x := update_self ..

theorem store_node_of_ne (hk : k ≠ n) : (h.store n x).node k = h.node k := update_of_ne hk ..

@[simp] theorem store_store (y : QuotaNode) : (h.store n x).store n y = h.store n y := by
  simp [store]

theorem linkOf_of (hn : h.node n = some x) : h.linkOf l n = x.link l := by
  unfold linkOf
  rw [hn]
  rfl

theorem inodeOf_of (hn : h.node n = some x) : h.inodeOf n = x.inode := by
  unfold inodeOf
  rw [hn]
  rfl

namespace Ok

theorem lt_next (hok : h.Ok busy) (hn : h.node n = some x) : n < h.next := by
  by_contra hle
  rw [hok.fresh n (not_lt.mp hle)] at hn
  cases hn

theorem lt_of_linkOf (hok : h.Ok busy) (hk : h.linkOf l k = some n) : k < h.next := by
  by_contra hle
  unfold linkOf at hk
  rw [hok.fresh k (not_lt.mp hle)] at hk
  cases hk

theorem ref_pos (hok : h.Ok busy) (hn : h.node n = some x) (hk : h.linkOf l k = some n) :
    0 < x.ref l := by
  rw [hok.counted l n x hn]
  exact refCount_pos (hok.lt_of_linkOf hk) hk

theorem ref_ne_zero_iff (hok : h.Ok busy) (hn : h.node n = some x) :
    x.ref l ≠ 0 ↔ ∃ k, h.linkOf l k = some n := by
  constructor
  · intro hne
    rw [hok.counted l n x hn] at hne
    exact exists_of_refCount_ne_zero hne
  · rintro ⟨k, hk⟩
    exact (hok.ref_pos hn hk).ne'

end Ok

/-! ### Deleting a node -/

theorem linkOf_erase (hlinks : ∀ l, h.linkOf l n = none) : (h.erase n).linkOf = h.linkOf := by
  funext l k
  by_cases hk : k = n
  · subst hk
    rw [hlinks l]
    simp [linkOf, erase]
  · simp [linkOf, erase, update_of_ne hk]

theorem inodeOf_erase (hinode : h.inodeOf n = none) : (h.erase n).inodeOf = h.inodeOf := by
  funext k
  by_cases hk : k = n
  · subst hk
    rw [hinode]
    simp [inodeOf, erase]
  · simp [inodeOf, erase, update_of_ne hk]

theorem Ok.erase (hok : h.Ok busy) (hinode : h.inodeOf n = none) (hlinks : ∀ l, h.linkOf l n = none)
    (hrefs : ∀ l k, h.linkOf l k ≠ some n) : (h.erase n).Ok busy := by
  constructor
  · intro k hk
    by_cases hkn : k = n
    · rw [hkn]
      exact update_self ..
    · exact (update_of_ne hkn ..).trans (hok.fresh k hk)
  · intro l k m hm
    rw [linkOf_erase hlinks] at hm
    have hne : m ≠ n := fun he => hrefs l k (he ▸ hm)
    rw [show (h.erase n).node m = h.node m from update_of_ne hne ..]
    exact hok.valid l k m hm
  · intro l m y hm
    by_cases hmn : m = n
    · rw [hmn] at hm
      simp [QuotaHeap.erase] at hm
    · rw [linkOf_erase hlinks]
      exact hok.counted l m y ((update_of_ne hmn ..).symm.trans hm)
  · intro k hk hbusy l
    rw [inodeOf_erase hinode] at hk
    rw [linkOf_erase hlinks]
    exact hok.dead k hk hbusy l

/-! ### Changing a pointer -/

/-- The pointer of `n` leads to `new`, and the counters say so. -/
def relinked (h : QuotaHeap) (l : QuotaLink) (n : ℕ) (new : Option ℕ) : QuotaHeap :=
  { h with node := fun k => (h.node k).map fun y =>
      let z := y.addRef l
        ((if new = some k then 1 else 0) - if h.linkOf l n = some k then 1 else 0)
      if k = n then z.setLink l new else z }

theorem relinked_isSome : ((h.relinked l n new).node k).isSome = (h.node k).isSome := by
  simp [relinked]

theorem inodeOf_relinked : (h.relinked l n new).inodeOf = h.inodeOf := by
  funext k
  unfold inodeOf relinked
  dsimp only
  cases h.node k with
  | none => rfl
  | some y =>
    split_ifs <;> simp

theorem linkOf_relinked (hn : h.node n = some x) :
    (h.relinked l n new).linkOf = update h.linkOf l (update (h.linkOf l) n new) := by
  funext l' k
  by_cases hk : k = n
  · subst hk
    by_cases hl : l' = l
    · simp [linkOf, relinked, hn, QuotaNode.setLink_link, hl]
    · simp [linkOf, relinked, hn, QuotaNode.setLink_link, hl]
  · have hsame : (h.relinked l n new).linkOf l' k = h.linkOf l' k := by
      cases hnode : h.node k <;> simp [linkOf, relinked, hk, hnode]
    by_cases hl : l' = l
    · rw [hsame, hl, update_self, update_of_ne hk]
    · rw [hsame, update_of_ne hl]

theorem linkOf_relinked_ne {l'} (hn : h.node n = some x) (hk : k ≠ n ∨ l' ≠ l) :
    (h.relinked l n new).linkOf l' k = h.linkOf l' k := by
  rw [linkOf_relinked hn]
  by_cases hl : l' = l
  · subst hl
    rw [update_self, update_of_ne (hk.resolve_right fun h => h rfl)]
  · rw [update_of_ne hl]

variable {y : QuotaNode} {o : ℕ}

theorem relinked_ref {z} (hk : h.node k = some y)
    (hz : (h.relinked l n new).node k = some z) (l' : QuotaLink) : z.ref l' = if l' = l then
      y.ref l - (if h.linkOf l n = some k then 1 else 0) + (if new = some k then 1 else 0)
      else y.ref l' := by
  simp only [relinked, hk, map_some, some.injEq] at hz
  have hsame : z.ref l' = (y.addRef l
      ((if new = some k then 1 else 0) - if h.linkOf l n = some k then 1 else 0)).ref l' := by
    rw [← hz]
    by_cases hkn : k = n
    · rw [if_pos hkn, QuotaNode.setLink_ref]
    · rw [if_neg hkn]
  rw [hsame, QuotaNode.addRef_ref]
  by_cases hl : l' = l
  · subst hl
    rw [if_pos rfl, if_pos rfl]
    ring
  · rw [if_neg hl, if_neg hl]

theorem Ok.relinked (hok : h.Ok busy) (hn : h.node n = some x)
    (hnew : ∀ a, new = some a → (h.node a).isSome) (hlive : x.inode ≠ none ∨ busy = some n) :
    (h.relinked l n new).Ok busy where
  fresh k hk := by
    unfold QuotaHeap.relinked
    dsimp only
    rw [hok.fresh k hk]
    rfl
  valid l' k m hm := by
    rw [relinked_isSome]
    by_cases hkl : k = n ∧ l' = l
    · rw [linkOf_relinked hn, hkl.1, hkl.2, update_self, update_self] at hm
      exact hnew m hm
    · rw [linkOf_relinked_ne hn (not_and_or.mp hkl)] at hm
      exact hok.valid l' k m hm
  counted l' m z hz := by
    obtain ⟨y, hy, -⟩ := map_eq_some_iff.mp hz
    rw [relinked_ref hy hz, linkOf_relinked hn]
    by_cases hl : l' = l
    · subst hl
      rw [if_pos rfl, update_self, hok.counted l' m y hy]
      exact (refCount_update (hok.lt_next hn) new).symm
    · rw [if_neg hl, update_of_ne hl]
      exact hok.counted l' m y hy
  dead k hk hbusy l' := by
    rw [inodeOf_relinked] at hk
    have hkn : k ≠ n := by
      rintro rfl
      rcases hlive with hlive | hlive
      · exact hlive ((inodeOf_of hn).symm.trans hk)
      · exact hbusy hlive.symm
    rw [linkOf_relinked_ne hn (.inl hkn)]
    exact hok.dead k hk hbusy l'

@[ext] theorem ext {h h' : QuotaHeap} (hnode : ∀ k, h.node k = h'.node k)
    (hnext : h.next = h'.next) :
    h = h' := by
  cases h
  cases h'
  congr
  exact funext hnode

def retarget (h : QuotaHeap) (l : QuotaLink) (n : ℕ) (new : Option ℕ) : QuotaHeap :=
  { h with node := fun k => (h.node k).map fun y =>
      let z := y.addRef l (if new = some k then 1 else 0)
      if k = n then z.setLink l new else z }

theorem retarget_run (hn : h.node n = some x) (hnew : ∀ a, new = some a → (h.node a).isSome) : (do
      let h ← h.modify n (·.setLink l new)
      match new with
      | none => return h
      | some a => h.modify a (·.addRef l 1)) = .ok (h.retarget l n new) := by
  rw [modify_of hn, ok_bind]
  cases new with
  | none =>
    refine congrArg Except.ok (ext (fun k => ?_) rfl)
    by_cases hk : k = n
    · subst hk
      simp [retarget, hn, QuotaNode.addRef_zero]
    · rw [store_node_of_ne hk]
      simp [retarget, hk, QuotaNode.addRef_zero]
  | some a =>
    dsimp only
    obtain ⟨y, hy⟩ := isSome_iff_exists.mp (hnew a rfl)
    by_cases ha : a = n
    · subst ha
      rw [modify_of store_node_self, store_store]
      refine congrArg Except.ok (ext (fun k => ?_) rfl)
      by_cases hk : k = a
      · subst hk
        simp [retarget, hn, QuotaNode.setLink_addRef]
      · rw [store_node_of_ne hk]
        simp [retarget, hk, Ne.symm hk, QuotaNode.addRef_zero]
    · rw [modify_of ((store_node_of_ne ha).trans hy)]
      refine congrArg Except.ok (ext (fun k => ?_) rfl)
      by_cases hka : k = a
      · subst hka
        simp [retarget, hy, ha]
      · rw [store_node_of_ne hka]
        by_cases hk : k = n
        · subst hk
          simp [retarget, hn, ha, QuotaNode.addRef_zero]
        · rw [store_node_of_ne hk]
          simp [retarget, hk, Ne.symm hka, QuotaNode.addRef_zero]

theorem retarget_erase : (h.erase o).retarget l n new = (h.retarget l n new).erase o := by
  refine ext (fun k => ?_) rfl
  by_cases hk : k = o
  · subst hk
    simp [retarget, erase]
  · simp [retarget, erase, update_of_ne hk]

section

variable (hn : h.node n = some x)

include hn

theorem retarget_of_none (hlink : x.link l = none) : h.retarget l n new = h.relinked l n new := by
  refine ext (fun k => ?_) rfl
  simp [retarget, relinked, linkOf_of hn, hlink]

theorem retarget_store (hlink : x.link l = some o) (ho : h.node o = some y) :
    (h.store o (y.addRef l (-1))).retarget l n new = h.relinked l n new := by
  refine ext (fun k => ?_) rfl
  by_cases hk : k = o
  · subst hk
    simp only [retarget, store_node_self, relinked, ho, map_some, linkOf_of hn, hlink,
      QuotaNode.addRef_addRef, if_true]
    rw [neg_add_eq_sub]
  · simp [retarget, relinked, store_node_of_ne hk, linkOf_of hn, hlink, Ne.symm hk]

theorem put_of_used {set} (hused : ¬x.Unused) : put set h n = .ok h := by
  unfold put
  rw [deref_of hn, ok_bind, if_neg hused]
  rfl

theorem setLink_same (hlink : x.link l = new) : setLink (fuel + 1) l h n new = .ok h := by
  unfold setLink
  rw [deref_of hn, ok_bind, if_pos hlink]
  rfl

theorem put_of_unused (hunused : x.Unused) (hlinks : ∀ l, x.link l = none) :
    put (setLink (fuel + 1)) h n = .ok (h.erase n) := by
  unfold put
  rw [deref_of hn, ok_bind, if_pos hunused, setLink_same hn (hlinks .parent),
    ok_bind, setLink_same hn (hlinks .ancestor), ok_bind]
  rfl

end

/-- What a setter does: invalid nodes may have gone. -/
structure Relinks (h h' : QuotaHeap) (l : QuotaLink) (n : ℕ) (new : Option ℕ) : Prop where
  inodeOf : h'.inodeOf = h.inodeOf
  linkOf : h'.linkOf = update h.linkOf l (update (h.linkOf l) n new)
  next : h'.next = h.next
  present : (h'.node n).isSome

theorem relinks_relinked (hn : h.node n = some x) : h.Relinks (h.relinked l n new) l n new where
  inodeOf := inodeOf_relinked
  linkOf := linkOf_relinked hn
  next := rfl
  present := by rw [relinked_isSome, hn]; rfl

theorem relinked_unreferenced (hok : (h.relinked l n new).Ok busy)
    (hn : h.node n = some x) (hlink : x.link l = some o) (hne : new ≠ some o)
    (ho : h.node o = some y) (hunused : (y.addRef l (-1)).Unused) (l' : QuotaLink) (k : ℕ) :
    (h.relinked l n new).linkOf l' k ≠ some o := by
  intro hk
  obtain ⟨z, hz⟩ := isSome_iff_exists.mp (hok.valid l' k o hk)
  have hpos := hok.ref_pos hz hk
  have hzero := (QuotaNode.unused_iff.mp hunused).2 l'
  rw [QuotaNode.addRef_ref] at hzero
  rw [relinked_ref ho hz, linkOf_of hn, hlink, if_pos rfl, if_neg hne] at hpos
  by_cases hl : l' = l
  · subst hl
    rw [if_pos rfl] at hzero hpos
    omega
  · rw [if_neg hl] at hzero hpos
    omega

section

variable (hn : h.node n = some x)

include hn

theorem setLink_of_none (hne : x.link l ≠ new) (hold : x.link l = none)
    (hnew : ∀ a, new = some a → (h.node a).isSome) :
    setLink (fuel + 1) l h n new = .ok (h.relinked l n new) := by
  unfold setLink
  rw [deref_of hn, ok_bind, if_neg hne, hold]
  dsimp only
  rw [ok_bind, retarget_run hn hnew, retarget_of_none hn hold]

section

variable (hne : x.link l ≠ new) (hold : x.link l = some o) (ho : h.node o = some y)

include hne hold ho

theorem setLink_of_used (hused : ¬(y.addRef l (-1)).Unused)
    (hnew : ∀ a, new = some a → (h.node a).isSome) :
    setLink (fuel + 1) l h n new = .ok (h.relinked l n new) := by
  unfold setLink
  rw [deref_of hn, ok_bind, if_neg hne, hold]
  dsimp only
  rw [modify_of ho, ok_bind, put_of_used store_node_self hused, ok_bind]
  have hpresent : ∀ k, (h.node k).isSome → ((h.store o (y.addRef l (-1))).node k).isSome := by
    intro k hk
    by_cases hko : k = o
    · rw [hko, store_node_self]
      rfl
    · rw [store_node_of_ne hko]
      exact hk
  obtain ⟨x', hx'⟩ := isSome_iff_exists.mp (hpresent n (by rw [hn]; rfl))
  rw [retarget_run hx' fun a ha => hpresent a (hnew a ha), retarget_store hn hold ho]

theorem setLink_of_unused (hunused : (y.addRef l (-1)).Unused) (hon : o ≠ n)
    (hlinks : ∀ l', h.linkOf l' o = none) (hnew : ∀ a, new = some a → (h.node a).isSome) :
    setLink (fuel + 2) l h n new = .ok ((h.relinked l n new).erase o) := by
  have hput : put (setLink (fuel + 1)) (h.store o (y.addRef l (-1))) o =
      .ok ((h.store o (y.addRef l (-1))).erase o) := by
    refine put_of_unused store_node_self hunused fun l' => ?_
    rw [QuotaNode.addRef_link, ← linkOf_of ho]
    exact hlinks l'
  unfold setLink
  rw [deref_of hn, ok_bind, if_neg hne, hold]
  dsimp only
  rw [modify_of ho, ok_bind, hput, ok_bind]
  have hnode : ∀ k, k ≠ o → ((h.store o (y.addRef l (-1))).erase o).node k = h.node k := fun k hk =>
    (update_of_ne hk ..).trans (store_node_of_ne hk)
  have hnew' : ∀ a, new = some a → (((h.store o (y.addRef l (-1))).erase o).node a).isSome := by
    intro a ha
    rw [hnode a fun he => hne (hold.trans (he ▸ ha.symm))]
    exact hnew a ha
  rw [retarget_run ((hnode n hon.symm).trans hn) hnew', retarget_erase, retarget_store hn hold ho]

end

theorem relinks_erase (hon : o ≠ n) (hinode : (h.relinked l n new).inodeOf o = none)
    (hlinks : ∀ l', (h.relinked l n new).linkOf l' o = none) :
    h.Relinks ((h.relinked l n new).erase o) l n new := by
  have hrel : h.Relinks (h.relinked l n new) l n new := relinks_relinked hn
  refine ⟨?_, ?_, rfl, ?_⟩
  · rw [inodeOf_erase hinode, hrel.inodeOf]
  · rw [linkOf_erase hlinks, hrel.linkOf]
  · rw [show ((h.relinked l n new).erase o).node n = (h.relinked l n new).node n from
      update_of_ne hon.symm ..]
    exact hrel.present

end

/-- A setter on a node that is in use, or on the one that is being invalidated. The node itself
is not deleted on the way, because it is in use or another pointer leads to it. -/
theorem setLink_spec (hok : h.Ok busy) (hn : h.node n = some x)
    (hnew : ∀ a, new = some a → (h.node a).isSome) (hlive : x.inode ≠ none ∨ busy = some n)
    (hbusy : ∀ k, busy = some k → k = n) (hself : h.linkOf l n = some n →
      x.inode ≠ none ∨ ∃ k l', (k ≠ n ∨ l' ≠ l) ∧ h.linkOf l' k = some n) :
    ∃ h', (∀ fuel, setLink (fuel + 2) l h n new = .ok h') ∧ h'.Ok busy ∧ h.Relinks h' l n new := by
  by_cases hne : x.link l = new
  · refine ⟨h, fun _ => setLink_same hn hne, hok, rfl, ?_, rfl, by rw [hn]; rfl⟩
    rw [← hne, ← linkOf_of hn, update_eq_self, update_eq_self]
  have hok' : (h.relinked l n new).Ok busy := hok.relinked hn hnew hlive
  cases hold : x.link l with
  | none => exact ⟨_, fun _ => setLink_of_none hn hne hold hnew, hok', relinks_relinked hn⟩
  | some o =>
    obtain ⟨y, hy⟩ := isSome_iff_exists.mp (hok.valid l n o ((linkOf_of hn).trans hold))
    by_cases hunused : (y.addRef l (-1)).Unused
    · have hzero := relinked_unreferenced hok' hn hold
        (fun he => hne (hold.trans he.symm)) hy hunused
      have hyinode : y.inode = none := (QuotaNode.addRef_inode y l (-1)).symm.trans hunused.1
      have hon : o ≠ n := by
        rintro rfl
        rcases hself ((linkOf_of hn).trans hold) with hin | ⟨k, l', hother, hk⟩
        · exact hin (some.inj (hn.symm.trans hy) ▸ hyinode)
        · exact hzero l' k ((linkOf_relinked_ne hn hother).trans hk)
      have hinode : h.inodeOf o = none := (inodeOf_of hy).trans hyinode
      have hlinks : ∀ l', h.linkOf l' o = none := hok.dead o hinode fun he => hon (hbusy o he.symm)
      have hinode' : (h.relinked l n new).inodeOf o = none := by
        rw [inodeOf_relinked]
        exact hinode
      have hlinks' : ∀ l', (h.relinked l n new).linkOf l' o = none := fun l' =>
        (linkOf_relinked_ne hn (.inl hon)).trans (hlinks l')
      exact ⟨_, fun _ => setLink_of_unused hn hne hold hy hunused hon hlinks hnew,
        hok'.erase hinode' hlinks' hzero, relinks_erase hn hon hinode' hlinks'⟩
    · exact ⟨_, fun _ => setLink_of_used hn hne hold hy hunused hnew, hok', relinks_relinked hn⟩

theorem setLink_live (new : Option ℕ) {i} (hok : h.Ok none)
    (hn : h.inodeOf n = some i) (hnew : ∀ a, new = some a → (h.node a).isSome) :
    ∃ h', (∀ fuel, setLink (fuel + 2) l h n new = .ok h') ∧ h'.Ok none ∧ h.Relinks h' l n new := by
  obtain ⟨x, hx, hinode⟩ := bind_eq_some_iff.mp hn
  have hlive : x.inode ≠ none := by
    rw [hinode]
    exact some_ne_none i
  exact setLink_spec hok hx hnew (.inl hlive) (by simp) fun _ => .inl hlive

/-! ### Invalid nodes -/

theorem of_replaced {h' : QuotaHeap} (hn : h'.node n = some x)
    (hlinks : ∀ l, x.link l = h.linkOf l n)
    (hother : ∀ k, k ≠ n → h'.node k = h.node k) :
    h'.linkOf = h.linkOf ∧ h'.inodeOf = update h.inodeOf n x.inode := by
  constructor
  · funext l k
    by_cases hk : k = n
    · rw [hk, linkOf_of hn, hlinks]
    · unfold linkOf
      rw [hother k hk]
  · funext k
    by_cases hk : k = n
    · rw [hk, update_self, inodeOf_of hn]
    · rw [update_of_ne hk]
      unfold inodeOf
      rw [hother k hk]

theorem Ok.forget (hok : h.Ok none) (hn : h.node n = some x) :
    (h.store n { x with inode := none }).Ok (some n) ∧
      (h.store n { x with inode := none }).linkOf = h.linkOf ∧
      (h.store n { x with inode := none }).inodeOf = update h.inodeOf n none := by
  obtain ⟨hlink, hinode⟩ := of_replaced (h := h) (x := { x with inode := none }) store_node_self
    (fun l => by rw [linkOf_of hn]; cases l <;> rfl) fun k hk => store_node_of_ne hk
  refine ⟨⟨?_, ?_, ?_, ?_⟩, hlink, hinode⟩
  · intro k hk
    have hne : k ≠ n := fun he => absurd (hok.lt_next hn) (not_lt.mpr (he ▸ hk))
    rw [store_node_of_ne hne]
    exact hok.fresh k hk
  · intro l k m hm
    rw [hlink] at hm
    by_cases hmn : m = n
    · rw [hmn, store_node_self]
      rfl
    · rw [store_node_of_ne hmn]
      exact hok.valid l k m hm
  · intro l m y hm
    rw [hlink]
    by_cases hmn : m = n
    · subst hmn
      rw [store_node_self] at hm
      cases hm
      have hcount := hok.counted l m x hn
      cases l <;> exact hcount
    · rw [store_node_of_ne hmn] at hm
      exact hok.counted l m y hm
  · intro k hk hbusy l
    have hkn : k ≠ n := fun he => hbusy (congrArg some he)
    rw [hinode, update_of_ne hkn] at hk
    rw [hlink]
    exact hok.dead k hk (some_ne_none k) l

/-- A node that leads to itself is safe to invalidate if another one leads to it. -/
def Guarded (h : QuotaHeap) (n : ℕ) : Prop :=
  (∃ l, h.linkOf l n = some n) → ∃ k l, k ≠ n ∧ h.linkOf l k = some n

theorem invalidate_spec (fuel : ℕ) {i} (hok : h.Ok none) (hn : h.inodeOf n = some i)
    (hsafe : h.Guarded n) :
    ∃ h', invalidate (fuel + 2) h n = .ok h' ∧ h'.Ok none ∧
      h'.inodeOf = update h.inodeOf n none ∧ ∀ l, h'.linkOf l = update (h.linkOf l) n none := by
  obtain ⟨x, hx, hinode⟩ := bind_eq_some_iff.mp hn
  have hne : x.inode ≠ none := by
    rw [hinode]
    exact some_ne_none i
  obtain ⟨hok1, hlink1, hinode1⟩ := hok.forget hx
  unfold invalidate
  rw [deref_of hx, ok_bind, if_neg hne, modify_of hx, ok_bind]
  obtain ⟨h1, hh1⟩ : ∃ g, g = h.store n { x with inode := none } := ⟨_, rfl⟩
  have hx1 : h1.node n = some { x with inode := none } := by rw [hh1, store_node_self]
  rw [← hh1] at hok1 hlink1 hinode1 ⊢
  have hnone : ∀ (g : QuotaHeap) (a : ℕ), none = some a → (g.node a).isSome := by
    intro g a ha
    cases ha
  -- first the ancestor
  obtain ⟨h2, hrun2, hok2, hrel2⟩ := setLink_spec (l := .ancestor) hok1 hx1
    (hnone h1) (.inr rfl) (fun k hk => (some.inj hk).symm) fun hl => by
      rw [hlink1] at hl ⊢
      obtain ⟨k, l', hkn, hk⟩ := hsafe ⟨_, hl⟩
      exact .inr ⟨k, l', .inl hkn, hk⟩
  unfold setAncestor
  rw [hrun2 fuel, ok_bind]
  obtain ⟨x2, hx2⟩ := isSome_iff_exists.mp hrel2.present
  have hlink2 := hrel2.linkOf
  rw [hlink1] at hlink2
  -- then the parent
  obtain ⟨h3, hrun3, hok3, hrel3⟩ := setLink_spec (l := .parent) hok2 hx2
    (hnone h2) (.inr rfl) (fun k hk => (some.inj hk).symm) fun hl => by
      rw [hlink2, update_of_ne (by simp)] at hl
      obtain ⟨k, l', hkn, hk⟩ := hsafe ⟨_, hl⟩
      refine .inr ⟨k, l', .inl hkn, ?_⟩
      rw [hlink2]
      cases l' <;> simp [hkn, hk]
  unfold setParent
  rw [hrun3 fuel, ok_bind]
  have hlink3 : ∀ l, h3.linkOf l = update (h.linkOf l) n none := by
    intro l
    rw [hrel3.linkOf, hlink2]
    cases l <;> simp
  have hinode3 : h3.inodeOf = update h.inodeOf n none := by
    rw [hrel3.inodeOf, hrel2.inodeOf, hinode1]
  obtain ⟨x3, hx3⟩ := isSome_iff_exists.mp hrel3.present
  have hlinks : ∀ l, h3.linkOf l n = none := by
    intro l
    rw [hlink3, update_self]
  have hok3 : h3.Ok none := ⟨hok3.fresh, hok3.valid, hok3.counted, fun k hk _ l => by
    by_cases hkn : k = n
    · rw [hkn]
      exact hlinks l
    · exact hok3.dead k hk (fun he => hkn (some.inj he)) l⟩
  -- and the node itself goes if nobody leads to it
  by_cases hunused : x3.Unused
  · have hdead : h3.inodeOf n = none := by rw [hinode3, update_self]
    rw [put_of_unused hx3 hunused fun l => (linkOf_of hx3).symm.trans (hlinks l)]
    refine ⟨_, rfl, hok3.erase hdead hlinks ?_, ?_, ?_⟩
    · intro l k hk
      exact absurd ((QuotaNode.unused_iff.mp hunused).2 l) (hok3.ref_pos hx3 hk).ne'
    · rw [inodeOf_erase hdead, hinode3]
    · intro l
      rw [linkOf_erase hlinks, hlink3]
  · rw [put_of_used hx3 hunused]
    exact ⟨_, rfl, hok3, hinode3, hlink3⟩

/-! ### New nodes -/

theorem alloc_spec (hok : h.Ok none) (i : ℕ) :
    (h.alloc i).Ok none ∧ (h.alloc i).inodeOf = update h.inodeOf h.next (some i) ∧
      (h.alloc i).linkOf = h.linkOf := by
  have hfree := hok.fresh h.next le_rfl
  have hnode : (h.alloc i).node h.next = some ⟨some i, 0, none, 0, none⟩ := update_self ..
  have hother : ∀ k, k ≠ h.next → (h.alloc i).node k = h.node k := fun k hk =>
    update_of_ne hk ..
  have hnone : ∀ l, h.linkOf l h.next = none := by
    intro l
    unfold linkOf
    rw [hfree]
    rfl
  obtain ⟨hlink, hinode⟩ :=
    of_replaced (h := h) hnode (fun l => by rw [hnone]; cases l <;> rfl) hother
  refine ⟨⟨?_, ?_, ?_, ?_⟩, hinode, hlink⟩
  · intro k hk
    have hk : h.next + 1 ≤ k := hk
    rw [hother k (by omega)]
    exact hok.fresh k (by omega)
  · intro l k m hm
    rw [hlink] at hm
    by_cases hmn : m = h.next
    · rw [hmn, hnode]
      rfl
    · rw [hother m hmn]
      exact hok.valid l k m hm
  · intro l m y hm
    rw [hlink]
    refine Eq.trans ?_ (refCount_succ (hnone l)).symm
    by_cases hmn : m = h.next
    · subst hmn
      rw [hnode] at hm
      have hzero : refCount (h.linkOf l) h.next h.next = 0 := by
        by_contra hne
        obtain ⟨k, hk⟩ := exists_of_refCount_ne_zero hne
        have hsome := hok.valid l k h.next hk
        rw [hfree] at hsome
        cases hsome
      rw [hzero, ← some.inj hm]
      cases l <;> rfl
    · rw [hother m hmn] at hm
      exact hok.counted l m y hm
  · intro k hk hbusy l
    rw [hlink]
    by_cases hkn : k = h.next
    · rw [hkn]
      exact hnone l
    · rw [hinode, update_of_ne hkn] at hk
      exact hok.dead k hk hbusy l

end QuotaHeap

end CephDokan.Client
