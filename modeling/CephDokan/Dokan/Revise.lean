import CephDokan.Common.Buffer

/-!
# The permission service

The checks of `revise.cpp`, which ask a service behind a pipe. Office's temporary files are
let through without a question.
-/

namespace CephDokan.Dokan

open Fallible

/-- A path as the drive sees it, with its separators; an element is one C `char`, a byte of the
UTF-8 string. -/
abbrev Path := List Char

inductive Ret
  | failed
  | allow
  | forbid
  | notFound
  | unknown
  deriving DecidableEq, Repr

/-- What stands behind the last `c`, if there is one: `rfind` and `substr`. -/
def afterLast (c : Char) (s : List Char) : Option (List Char) :=
  if c ∈ s then some (s.reverse.takeWhile (· ≠ c)).reverse else none

variable (path : Path)

/-- `IsOfficeTempFile` -/
def isOfficeTempFile : Bool :=
  let fileName := (afterLast '\\' path).getD path
  if fileName.head? = some '~' then true
  else
    match afterLast '.' fileName with
    | some suffix => suffix = "tmp".toList ∨ suffix = "wbk".toList
    | none => false

/-- `FileCreate`, with the result of `GetUI2ActionResult`. -/
def fileCreate (ret : Ret) : Bool := isOfficeTempFile path || ret ≠ .forbid

/-- `FileDelete`, with the result of `GetUI2ActionResult`. -/
def fileDelete (ret : Ret) : Bool := isOfficeTempFile path || ret ≠ .forbid

/-! ### Moves -/

/-- `str.rfind(c)` -/
def rfind (c : Char) (str : List Char) : Option ℕ :=
  (afterLast c str).map fun rest => str.length - rest.length - 1

def maxPath : ℕ := 260

/-- A `char[MAX_PATH]` with a text in it; one that fills it has no terminator. -/
structure PathField where
  text : Path
  terminated : Bool
  deriving DecidableEq, Repr

/-- `strcpy` into the field, which a longer path overruns. -/
def PathField.strcpy : Run PathField :=
  if path.length < maxPath then .ok ⟨path, true⟩ else .error .dangling

/-- `strncpy` into the field -/
def PathField.strncpy : PathField := ⟨path.take maxPath, path.length < maxPath⟩

/-- What `FileMove` asks: `DDM_RENAME` or `DDM_MOVE`, with `ctx_rename` or `ctx_move`. -/
structure MoveRequest where
  rename : Bool
  pathOld : PathField
  pathNew : PathField
  isDirectory : Bool
  deriving DecidableEq, Repr

variable (path1 path2 : Path)

/-- `FileMove`, with the result of `GetUI2ActionResult`: the request, if there is one, and what
is returned. -/
def fileMove (isDirectory : Bool) (ret : Ret) :
    Run (Option MoveRequest × Bool) := do
  if isOfficeTempFile path1 || isOfficeTempFile path2 then return (none, true)
  let index1 := rfind '\\' path1
  let index2 := rfind '\\' path2
  -- both prefixes are taken of the first path
  let rename := index1.any fun i => index2.any fun j => path1.take i = path1.take j
  if rename then
    let pathOld ← PathField.strcpy path1
    let pathNew ← PathField.strcpy path2
    return (some ⟨true, pathOld, pathNew, isDirectory⟩, ret ≠ .forbid)
  else
    return (some ⟨false, .strncpy path1, .strncpy path2, isDirectory⟩, ret ≠ .forbid)

def SameParent : Prop :=
  ∃ i j, rfind '\\' path1 = some i ∧ rfind '\\' path2 = some j ∧ path1.take i = path2.take j

/-- A move is reported as what it is, and what is returned is the answer. -/
def MoveReported (isDirectory : Bool) (ret : Ret) : Prop :=
  ∃ request, fileMove path1 path2 isDirectory ret = .ok (some request, ret ≠ .forbid) ∧
    (request.rename ↔ SameParent path1 path2) ∧ request.pathOld = ⟨path1, true⟩ ∧
    request.pathNew = ⟨path2, true⟩

namespace PathField

variable {path : Path} {field : PathField}

theorem lt_of_strcpy (h : strcpy path = .ok field) : path.length < maxPath := by
  unfold strcpy at h
  split_ifs at h with hlen
  exact hlen

theorem strncpy_of_lt (h : path.length < maxPath) : strncpy path = ⟨path, true⟩ := by
  rw [strncpy, List.take_of_length_le h.le, decide_eq_true h]

end PathField

theorem rfind_lt {c} {str} {i : ℕ} (h : rfind c str = some i) : i < str.length := by
  obtain ⟨rest, hrest, rfl⟩ := Option.map_eq_some_iff.mp h
  unfold afterLast at hrest
  split_ifs at hrest with hc
  have := List.length_pos_of_mem hc
  omega

theorem sameParent_index {path1 path2 : Path} {i j : ℕ} (hi : rfind '\\' path1 = some i)
    (hj : rfind '\\' path2 = some j) (h : path1.take i = path2.take j) : i = j := by
  have hlen := congrArg List.length h
  have := rfind_lt hi
  have := rfind_lt hj
  simp only [List.length_take] at hlen
  omega

/-- A move of a file that is not Office's is reported as what it is exactly if the paths fit the
request, and parents of the same length are the same. -/
theorem moveReported_iff (isDirectory : Bool) (ret : Ret) (h1 : isOfficeTempFile path1 = false)
    (h2 : isOfficeTempFile path2 = false) :
    MoveReported path1 path2 isDirectory ret ↔
      path1.length < maxPath ∧ path2.length < maxPath ∧
        ∀ i, rfind '\\' path1 = some i → rfind '\\' path2 = some i →
          path1.take i = path2.take i := by
  have hrename : ((rfind '\\' path1).any fun i => (rfind '\\' path2).any fun j =>
      path1.take i = path1.take j) = true ↔
      ∃ i, rfind '\\' path1 = some i ∧ rfind '\\' path2 = some i := by
    cases hi : rfind '\\' path1 with
    | none => simp
    | some i =>
      cases rfind '\\' path2 with
      | none => simp
      | some j =>
        -- prefixes of one path are the same if they are equally long
        have := rfind_lt hi
        simp
        omega
  unfold MoveReported fileMove
  simp only [h1, h2, Bool.or_self, Bool.false_eq_true, if_false]
  by_cases hindex : ∃ i, rfind '\\' path1 = some i ∧ rfind '\\' path2 = some i
  · rw [if_pos (hrename.mpr hindex)]
    obtain ⟨i, hi, hj⟩ := hindex
    constructor
    · rintro ⟨request, hrun, hsame, -⟩
      obtain ⟨pathOld, hold, hrun⟩ := bind_eq_ok.mp hrun
      obtain ⟨pathNew, hnew, hrun⟩ := bind_eq_ok.mp hrun
      cases hrun
      refine ⟨PathField.lt_of_strcpy hold, PathField.lt_of_strcpy hnew, fun k hk hk' => ?_⟩
      obtain ⟨i', j', hi', hj', heq⟩ := hsame.mp rfl
      cases hk.symm.trans hi'
      cases hk'.symm.trans hj'
      exact heq
    · rintro ⟨hlen1, hlen2, hparents⟩
      simp only [PathField.strcpy, if_pos hlen1, if_pos hlen2, ok_bind]
      exact ⟨_, rfl, iff_of_true rfl ⟨i, i, hi, hj, hparents i hi hj⟩, rfl, rfl⟩
  · rw [if_neg (hrename.not.mpr hindex)]
    constructor
    · rintro ⟨request, hrun, -, hold, hnew⟩
      cases hrun
      exact ⟨of_decide_eq_true (congrArg PathField.terminated hold),
        of_decide_eq_true (congrArg PathField.terminated hnew),
        fun i hi hj => absurd ⟨i, hi, hj⟩ hindex⟩
    · rintro ⟨hlen1, hlen2, -⟩
      refine ⟨_, rfl, iff_of_false Bool.false_ne_true ?_, PathField.strncpy_of_lt hlen1,
        PathField.strncpy_of_lt hlen2⟩
      rintro ⟨i, j, hi, hj, heq⟩
      cases sameParent_index hi hj heq
      exact hindex ⟨i, hi, hj⟩

/-- A file is renamed in its directory. -/
theorem moveReported_iff_renamed :
    MoveReported "M:\\a\\x".toList "M:\\a\\y".toList false .allow :=
  (moveReported_iff _ _ false .allow (by decide) (by decide)).mpr
    ⟨by decide, by decide, fun i hi _ => by cases hi; decide⟩

/-- A file that is moved to a directory with a name of the same length is reported as renamed. -/
theorem fileMove_reports_rename :
    fileMove "M:\\a\\x".toList "M:\\b\\x".toList false .forbid =
      .ok (some ⟨true, ⟨"M:\\a\\x".toList, true⟩, ⟨"M:\\b\\x".toList, true⟩, false⟩, false) ∧
    ¬SameParent "M:\\a\\x".toList "M:\\b\\x".toList := by
  refine ⟨by decide, ?_⟩
  rintro ⟨i, j, hi, hj, heq⟩
  have hi' : rfind '\\' "M:\\a\\x".toList = some 4 := by decide
  have hj' : rfind '\\' "M:\\b\\x".toList = some 4 := by decide
  cases hi'.symm.trans hi
  cases hj'.symm.trans hj
  exact absurd heq (by decide)

example : isOfficeTempFile "M:\\a\\~doc".toList := by decide

example : isOfficeTempFile "M:\\a.tmp\\doc".toList = false := by decide

end CephDokan.Dokan
