import CephDokan.Include.Frag
import CephDokan.Lib.SortedMap
import CephDokan.Lib.While

/-!
# Fragment trees

A `fragtree_t` records which fragments are split and by how many bits; a fragment without an
entry is not split. All questions about the tree are answered by walking down from a fragment
through a queue of children, or up through parents.
-/

namespace CephDokan

/-- `_splits`: the fragments that are split, with the number of bits. -/
structure FragTree where
  splits : SortedMap Frag ℕ

namespace FragTree

def empty : FragTree := ⟨∅⟩

variable (t : FragTree)

def getSplit (f : Frag) : ℕ := (t.splits.find? f).getD 0

/-- No loop over a tree of 24 bits takes as many rounds. -/
def rounds : ℕ := 2 ^ 25

/-- `get_leaves_under_split`: children go to the back of the queue, which is also where the next
fragment is taken from. -/
def getLeavesUnderSplit (under : Frag) : Run (List Frag) :=
  While.loop (fun (q, ls) =>
    match q.getLast? with
    | none => .ok (.inr ls)
    | some f =>
      let nb := t.getSplit f
      if nb ≠ 0 then .ok (.inl (q.dropLast ++ f.split nb, ls))
      else .ok (.inl (q.dropLast, f :: ls))) .diverged rounds ([under], ([] : List Frag))

def getLeaves : Run (List Frag) := t.getLeavesUnderSplit .root

/-- `frag_t::parent`. -/
def parentOf (x : Frag) : Run Frag := do
  assertThat (0 < x.bits)
  return x.parent

variable (x : Frag)

/-- The branch point at or above `x`. -/
def getBranch : Run Frag :=
  While.loop (fun x =>
    if x = .root then .ok (.inr x)
    else if t.getSplit x ≠ 0 then .ok (.inr x)
    else return .inl (← parentOf x)) .diverged rounds x

/-- The branch point above `x`. -/
def getBranchAbove : Run Frag :=
  While.loop (fun x =>
    if x = .root then .ok (.inr x)
    else do
      let x ← parentOf x
      return if t.getSplit x ≠ 0 then .inr x else .inl x) .diverged rounds x

/-- The branch point or leaf at or above `x`. -/
def getBranchOrLeaf : Run Frag := do
  let branch ← t.getBranch x
  let nb := t.getSplit branch
  return if nb > 0 ∧ branch.bits + nb ≤ x.bits then .make (branch.bits + nb) x.value else branch

/-- `get_leaves_under`: the leaves that `x` contains, breadth first. -/
def getLeavesUnder : Run (List Frag) := do
  let start ← t.getBranchOrLeaf x
  While.loop (fun (q, ls) =>
    match q with
    | [] => .ok (.inr ls)
    | f :: q =>
      if f.bits ≥ x.bits ∧ ¬x.containsFrag f then .ok (.inl (q, ls))
      else
        let nb := t.getSplit f
        if nb ≠ 0 then .ok (.inl (q ++ f.split nb, ls))
        else if x.containsFrag f then .ok (.inl (q, ls ++ [f]))
        else .ok (.inl (q, ls))) .diverged rounds ([start], ([] : List Frag))

def isLeaf : Run Bool := do
  let ls ← t.getLeavesUnder x
  return ls.head? = some x ∧ ls.length = 1

/-- `operator[]`: down from the root to the fragment of a value. -/
def fragOf (v : ℕ) : Run Frag :=
  While.loop (fun f => do
    assertThat (f.contains v)
    let nb := t.getSplit f
    if nb = 0 then return .inr f
    else
      match (f.split nb).find? fun n => n.contains v with
      | some n => return .inl n
      -- `assert(i < nway)`
      | none => .error .assertion) .diverged rounds Frag.root

/-- The number of bits that all of these fragments are split by. -/
def childbits (t : FragTree) : List Frag → ℕ → Option ℕ
  | [], bits => some bits
  | p :: ps, bits =>
    let cb := t.getSplit p
    if cb = 0 then none
    else if bits ≠ 0 ∧ cb ≠ bits then none
    else t.childbits ps cb

/-- Children that are split in one way are left out of the tree. -/
def tryAssimilateChildren : FragTree :=
  let nb := t.getSplit x
  if nb = 0 then t
  else
    match t.childbits (x.split nb) 0 with
    | none => t
    | some bits => ⟨((x.split nb).foldl (fun m p => m.erase p) t.splits).insert x (nb + bits)⟩

def simplified (simplify : Bool) : Run FragTree :=
  if simplify then do
    let above ← t.getBranchAbove x
    return t.tryAssimilateChildren above
  else return t

def split (b : ℕ) (simplify : Bool) : Run FragTree := do
  assertThat (← t.isLeaf x)
  simplified ⟨t.splits.insert x b⟩ x simplify

def merge (b : ℕ) (simplify : Bool) : Run FragTree := do
  assertThat (!(← t.isLeaf x))
  assertThat (t.getSplit x = b)
  simplified ⟨t.splits.erase x⟩ x simplify

end FragTree

end CephDokan
