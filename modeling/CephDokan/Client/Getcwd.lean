import CephDokan.Common.Buffer
import CephDokan.Lib.Ancestors
import CephDokan.Lib.While

/-!
# The path of the current directory

`Client::getcwd` goes up from the current directory and pushes the name of each dentry it passes
to the front of a path. A directory whose dentry is not cached would be looked up and the walk
started again, but `get_first_parent` asserts that there is a dentry before the test for a missing
one is made.
-/

namespace CephDokan

/-- `filepath`: the path and its segments. -/
structure FilePath where
  ino : ℕ
  path : String
  bits : List String

namespace FilePath

def ofIno (ino : ℕ) : FilePath := ⟨ino, "", []⟩

def rebuildPath : List String → String
  | [] => ""
  | bit :: bits => bits.foldl (fun path bit => path ++ "/" ++ bit) bit

def pushFrontDentry (p : FilePath) (s : String) : FilePath :=
  { p with bits := s :: p.bits, path := rebuildPath (s :: p.bits) }

theorem intercalate_append_cons (s a b : String) (l : List String) :
    s.intercalate ((a ++ b) :: l) = a ++ s.intercalate (b :: l) := by
  cases l with
  | nil => simp
  | cons c l => simp [String.intercalate_cons_cons, String.append_assoc]

theorem rebuildPath_eq (bits : List String) : rebuildPath bits = String.intercalate "/" bits := by
  cases bits with
  | nil => rfl
  | cons bit bits =>
    change bits.foldl (fun path bit => path ++ "/" ++ bit) bit = _
    induction bits generalizing bit with
    | nil => simp
    | cons next bits ih =>
      rw [List.foldl_cons, ih, intercalate_append_cons, String.intercalate_cons_cons]

end FilePath

namespace Getcwd

structure Dentry where
  name : String
  dir : ℕ

/-- The directories as the MDS has them: for each but the root, its name and its parent. -/
structure Tree where
  root : ℕ
  entry : ℕ → Option Dentry

/-- `Inode::dn_set` of every inode. -/
abbrev DnSets := ℕ → List Dentry

/-- The inode the walk has come to, the path so far and the dentries in the cache. -/
structure State where
  inode : ℕ
  path : FilePath
  dnSet : DnSets

/-- `Inode::get_first_parent`. -/
def getFirstParent (dnSet : DnSets) (i : ℕ) : Run (Option Dentry) := do
  assertThat (dnSet i ≠ [])
  return (dnSet i).head?

variable (tree : Tree)

/-- The reply to LOOKUPNAME puts the dentry of the inode into the cache. -/
def lookupName (dnSet : DnSets) (i : ℕ) : Option DnSets :=
  (tree.entry i).map fun dn => Function.update dnSet i [dn]

/-- One round of the loop; a result is the path at its end. -/
def step (cwd : ℕ) (s : State) : Run (State ⊕ FilePath) :=
  if s.inode = tree.root then return .inr s.path
  else do
    assertThat ((s.dnSet s.inode).length < 2)
    match ← getFirstParent s.dnSet s.inode with
    | none =>
      match lookupName tree s.dnSet s.inode with
      | none => return .inr s.path
      -- it is the request's own path that is set to the empty one here
      | some dnSet => return .inl { s with inode := cwd, dnSet := dnSet }
    | some dn => return .inl { s with inode := dn.dir, path := s.path.pushFrontDentry dn.name }

/-- `Client::getcwd`, for at most `fuel` rounds. -/
def getcwd (fuel : ℕ) (dnSet : DnSets) (cwd : ℕ) : Run String := do
  let path ← While.loop (step tree cwd) .diverged fuel ⟨cwd, .ofIno 0, dnSet⟩
  return "/" ++ path.path

inductive PathTo (tree : Tree) : ℕ → List String → Prop
  | root : PathTo tree tree.root []
  | step {i : ℕ} {dn : Dentry} {names : List String} (hne : i ≠ tree.root)
      (hentry : tree.entry i = some dn) (h : PathTo tree dn.dir names) :
      PathTo tree i (names ++ [dn.name])

/-- Every directory has its dentry in the cache, or none. -/
def Caches (dnSet : DnSets) : Prop :=
  ∀ i, dnSet i = [] ∨ ∃ dn, tree.entry i = some dn ∧ dnSet i = [dn]

/-- A directory on the way up from `i`, the root not included. -/
def OnWay (i j : ℕ) : Prop :=
  Ancestors.Above (fun k => (tree.entry k).map Dentry.dir) tree.root i j ∧ j ≠ tree.root

variable {tree : Tree} {dnSet : DnSets} {cwd i : ℕ} {names : List String}

theorem OnWay.self (hne : i ≠ tree.root) : OnWay tree i i := ⟨.refl i, hne⟩

variable {dn : Dentry} {j : ℕ}

theorem OnWay.up (hne : i ≠ tree.root) (hentry : tree.entry i = some dn) (h : OnWay tree dn.dir j) :
    OnWay tree i j :=
  ⟨.step hne (by rw [hentry]; rfl) h.1, h.2⟩

theorem OnWay.cases (hentry : tree.entry i = some dn) (h : OnWay tree i j) :
    j = i ∨ OnWay tree dn.dir j := by
  obtain ⟨habove, hroot⟩ := h
  cases habove with
  | refl => exact .inl rfl
  | step _ hup habove =>
    rw [hentry] at hup
    cases hup
    exact .inr ⟨habove, hroot⟩

variable {s : State}

theorem step_cached (hne : s.inode ≠ tree.root) (hdn : s.dnSet s.inode = [dn]) : step tree cwd s =
      .ok (.inl { s with inode := dn.dir, path := s.path.pushFrontDentry dn.name }) := by
  unfold step getFirstParent
  rw [if_neg hne, hdn]
  rfl

theorem step_missing (hne : s.inode ≠ tree.root) (hdn : s.dnSet s.inode = []) :
    step tree cwd s = .error .assertion := by
  unfold step getFirstParent
  rw [if_neg hne, hdn]
  rfl

section

variable (hpath : PathTo tree i names) (hcache : Caches tree dnSet) {fuel : ℕ}

include hpath hcache

theorem loop_cached (hall : ∀ j, OnWay tree i j → dnSet j ≠ []) (hfuel : names.length < fuel)
    (p : FilePath) (hp : p.path = FilePath.rebuildPath p.bits) :
    ∃ q : FilePath, While.loop (step tree cwd) .diverged fuel ⟨i, p, dnSet⟩ = .ok q ∧
      q.path = FilePath.rebuildPath (names ++ p.bits) := by
  induction hpath generalizing fuel p with
  | root =>
    obtain ⟨fuel, rfl⟩ := Nat.exists_eq_succ_of_ne_zero (Nat.ne_of_gt hfuel)
    refine ⟨p, ?_, hp⟩
    simp [While.loop, step]
  | @step i dn names hne hentry hpath ih =>
    rw [List.length_append, List.length_singleton] at hfuel
    obtain ⟨fuel, rfl⟩ := Nat.exists_eq_succ_of_ne_zero (Nat.ne_of_gt (Nat.zero_lt_of_lt hfuel))
    have hdn : dnSet i = [dn] := by
      rcases hcache i with hnone | ⟨dn', hentry', hdn⟩
      · exact absurd hnone (hall i (.self hne))
      · rw [hentry] at hentry'
        cases hentry'
        exact hdn
    obtain ⟨q, hloop, hq⟩ := ih (fun j hj => hall j (hj.up hne hentry))
      (show names.length < fuel by omega) (p.pushFrontDentry dn.name) rfl
    refine ⟨q, ?_, ?_⟩
    · rw [While.loop, step_cached hne hdn]
      exact hloop
    · rw [hq, List.append_assoc]
      rfl

theorem loop_missing (hmiss : ∃ j, OnWay tree i j ∧ dnSet j = []) (hfuel : names.length < fuel)
    (p : FilePath) :
    While.loop (step tree cwd) .diverged fuel ⟨i, p, dnSet⟩ = .error .assertion := by
  induction hpath generalizing fuel p with
  | root =>
    obtain ⟨j, ⟨habove, hroot⟩, -⟩ := hmiss
    exact absurd (Ancestors.above_root habove) hroot
  | @step i dn names hne hentry hpath ih =>
    rw [List.length_append, List.length_singleton] at hfuel
    obtain ⟨fuel, rfl⟩ := Nat.exists_eq_succ_of_ne_zero (Nat.ne_of_gt (Nat.zero_lt_of_lt hfuel))
    rcases hcache i with hnone | ⟨dn', hentry', hdn⟩
    · rw [While.loop, step_missing hne hnone]
    · rw [hentry] at hentry'
      cases hentry'
      rw [While.loop, step_cached hne hdn]
      refine ih ?_ (by omega) _
      obtain ⟨j, hj, hnone⟩ := hmiss
      rcases hj.cases hentry with rfl | hj
      · rw [hdn] at hnone
        cases hnone
      · exact ⟨j, hj, hnone⟩

end

/-- `getcwd` gives the path of the current directory exactly when no dentry on the way is missing
from the cache. -/
theorem getcwd_iff (tree : Tree) (dnSet : DnSets) (cwd : ℕ) (names : List String) (fuel : ℕ)
    (hpath : PathTo tree cwd names) (hcache : Caches tree dnSet) (hfuel : names.length < fuel) :
    getcwd tree fuel dnSet cwd = .ok ("/" ++ String.intercalate "/" names) ↔
      ∀ j, OnWay tree cwd j → dnSet j ≠ [] := by
  unfold getcwd
  constructor
  · intro hrun j hj hnone
    rw [loop_missing hpath hcache ⟨j, hj, hnone⟩ hfuel] at hrun
    cases hrun
  · intro hall
    obtain ⟨q, hloop, hq⟩ := loop_cached hpath hcache hall hfuel (.ofIno 0) rfl
    rw [hloop, Fallible.ok_bind, hq, FilePath.rebuildPath_eq, FilePath.ofIno, List.append_nil]
    rfl

/-- The directories `/a` and `/a/b`. -/
def twoDeep : Tree where
  root := 1
  entry i := if i = 2 then some ⟨"a", 1⟩ else if i = 3 then some ⟨"b", 2⟩ else none

/-- The dentries of the directories whose inodes are given. -/
def twoDeepCache (cached : List ℕ) : DnSets :=
  fun i => if i ∈ cached then (twoDeep.entry i).toList else []

theorem twoDeep_path : PathTo twoDeep 3 ["a", "b"] := by
  have ha : PathTo twoDeep 2 ["a"] :=
    .step (by decide) (show twoDeep.entry 2 = some ⟨"a", 1⟩ from rfl) .root
  exact .step (by decide) (show twoDeep.entry 3 = some ⟨"b", 2⟩ from rfl) ha

theorem twoDeepCache_caches (cached : List ℕ) : Caches twoDeep (twoDeepCache cached) := by
  intro i
  unfold twoDeepCache
  split_ifs with hi
  · cases twoDeep.entry i with
    | none => exact .inl rfl
    | some dn => exact .inr ⟨dn, rfl, rfl⟩
  · exact .inl rfl

theorem getcwd_iff_twoDeep :
    PathTo twoDeep 3 ["a", "b"] ∧ Caches twoDeep (twoDeepCache [2, 3]) ∧
    (getcwd twoDeep 3 (twoDeepCache [2, 3]) 3 = .ok ("/" ++ String.intercalate "/" ["a", "b"]) ↔
      ∀ j, OnWay twoDeep 3 j → twoDeepCache [2, 3] j ≠ []) :=
  ⟨twoDeep_path, twoDeepCache_caches _,
    getcwd_iff _ _ _ _ _ twoDeep_path (twoDeepCache_caches _) (by decide)⟩

/-- The dentry of `/a` is missing: the walk from `/a/b` does not come to the lookup. -/
theorem getcwd_missing_asserts :
    PathTo twoDeep 3 ["a", "b"] ∧ Caches twoDeep (twoDeepCache [3]) ∧
    ∀ fuel, 2 < fuel → getcwd twoDeep fuel (twoDeepCache [3]) 3 = .error .assertion := by
  refine ⟨twoDeep_path, twoDeepCache_caches _, fun fuel hfuel => ?_⟩
  have hself : OnWay twoDeep 2 2 := .self (by decide)
  have hway : OnWay twoDeep 3 2 :=
    .up (by decide) (show twoDeep.entry 3 = some ⟨"b", 2⟩ from rfl) hself
  unfold getcwd
  rw [loop_missing twoDeep_path (twoDeepCache_caches _) ⟨2, hway, rfl⟩ hfuel]
  rfl

end Getcwd

end CephDokan
