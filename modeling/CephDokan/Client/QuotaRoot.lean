import CephDokan.Client.Fuel
import CephDokan.Client.QuotaTree
import CephDokan.Lib.Ancestors
import CephDokan.Lib.SortedMap
import CephDokan.Lib.Trace

/-!
# Quota roots

`get_quota_root` walks up to the first inode with a valid node and links the inodes below it.
A node is valid as long as its ancestor belongs to an inode: every change of the tree or of the
quotas takes away the node of the inode and of its ancestor. What a query returns depends on
the cache all the same. The first call for an inode with a quota returns the inode, and a call
that finds its node valid the next one above it.

The functions are those of a client with `client_quota`.
-/

namespace CephDokan.Client

open Fallible Ancestors Function QuotaHeap

/-! ### The client -/

/-- `quota_info_t` -/
structure QuotaInfo where
  maxBytes : ℤ
  maxFiles : ℤ
  deriving DecidableEq

def QuotaInfo.isEnable (q : QuotaInfo) : Bool := q.maxBytes ≠ 0 || q.maxFiles ≠ 0

/-- `nest_info_t` -/
structure NestInfo where
  rbytes : ℤ
  rfiles : ℤ
  rsubdirs : ℤ
  deriving DecidableEq

/-- A sum in `int64_t`. -/
def sum64 (a b : ℤ) : ℤ := (a + b).bmod (2 ^ 64)

def NestInfo.rsize (r : NestInfo) : ℤ := sum64 r.rfiles r.rsubdirs

structure QuotaState where
  /-- `dn_set`: the directory of each dentry, in the order of the addresses. -/
  dnSet : ℕ → SortedMap ℕ ℕ
  rootParents : ℕ → Option ℕ
  rootAncestor : ℕ
  isDir : ℕ → Bool
  quota : ℕ → QuotaInfo
  rstat : ℕ → NestInfo
  heap : QuotaHeap
  qtree : ℕ → Option ℕ

namespace QuotaState

variable (s : QuotaState)

/-- The inode that the walk goes to: the directory of the first dentry, or the parent in
`root_parents`. -/
def parentOf (i : ℕ) : Option ℕ :=
  match (s.dnSet i).entries.head? with
  | some dn => some dn.2
  | none => s.rootParents i

/-! ### Queries -/

/-- `in->qtree && in->qtree->ancestor()->in()`, with the node and its ancestor. -/
def validNode (i : ℕ) : Run (Option (ℕ × ℕ)) :=
  match s.qtree i with
  | none => .ok none
  | some n => do
    let x ← s.heap.deref n
    match x.ancestor with
    | none => .error .dangling
    | some a => do
      let y ← s.heap.deref a
      return if y.inode.isSome then some (n, a) else none

/-- The walk, with the inodes that are to be linked. -/
def walk : ℕ → QuotaState → Option ℕ → List ℕ → Run (Option (ℕ × ℕ) × List ℕ)
  | 0, _, _, _ => .error .diverged
  | _ + 1, _, none, inodeList => .ok (none, inodeList)
  | fuel + 1, s, some i, inodeList => do
    match ← s.validNode i with
    | some hit => return (some hit, inodeList)
    | none => walk fuel s (s.parentOf i) (i :: inodeList)

/-- Where the links start: at the node that was found, or at a new one of the root. -/
def start (fuel : ℕ) (s : QuotaState) (hit : Option (ℕ × ℕ)) : Run (QuotaState × ℕ × ℕ) :=
  match hit with
  | some (n, a) => .ok (s, n, a)
  | none => do
    assertThat (s.qtree s.rootAncestor = none)
    let n := s.heap.next
    let heap ← (s.heap.alloc s.rootAncestor).setAncestor fuel n (some n)
    return ({ s with heap, qtree := update s.qtree s.rootAncestor (some n) }, n, n)

def ensureNode (i : ℕ) : QuotaState × ℕ :=
  match s.qtree i with
  | some n => (s, n)
  | none =>
    ({ s with heap := s.heap.alloc i, qtree := update s.qtree i (some s.heap.next) }, s.heap.next)

/-- A round of the loop of `get_quota_root`. -/
def linkNode (fuel : ℕ) (c : QuotaState × ℕ × ℕ) (cur : ℕ) : Run (QuotaState × ℕ × ℕ) := do
  let (s, parent, ancestor) := c
  let (s, n) := s.ensureNode cur
  let heap ← s.heap.setParent fuel n (some parent)
  let p ← heap.deref parent
  match p.inode with
  | none => .error .dangling
  | some pin => do
    let ancestor := if (s.quota pin).isEnable then parent else ancestor
    let heap ← heap.setAncestor fuel n (some ancestor)
    return ({ s with heap }, n, if (s.quota cur).isEnable then n else ancestor)

/-- `get_quota_root` -/
def getQuotaRoot (fuel : ℕ) (s : QuotaState) (i : ℕ) : Run (ℕ × QuotaState) := do
  let (hit, inodeList) ← walk fuel s (some i) []
  let c ← s.start fuel hit
  let (s, _, ancestor) ← inodeList.foldlM (linkNode fuel) c
  let x ← s.heap.deref ancestor
  match x.inode with
  | none => .error .dangling
  | some r => return (r, s)

/-- The loop of the `is_quota_*_exceeded`. -/
def isQuotaExceeded (fuel : ℕ) (exceeds : ℕ → Bool) : ℕ → QuotaState → ℕ → Run (Bool × QuotaState)
  | 0, _, _ => .error .diverged
  | rounds + 1, s, i =>
    if i = s.rootAncestor then .ok (false, s)
    else if exceeds i then .ok (true, s)
    else do
      let (r, s) ← s.getQuotaRoot fuel i
      isQuotaExceeded fuel exceeds rounds s r

def exceedsFiles (i : ℕ) : Bool :=
  (s.quota i).maxFiles ≠ 0 && (s.rstat i).rsize ≥ (s.quota i).maxFiles

def exceedsBytes (newBytes : ℤ) (i : ℕ) : Bool :=
  (s.quota i).maxBytes ≠ 0 && sum64 (s.rstat i).rbytes newBytes > (s.quota i).maxBytes

/-- `is_quota_files_exceeded` -/
def isQuotaFilesExceeded (fuel : ℕ) (s : QuotaState) (i : ℕ) : Run (Bool × QuotaState) :=
  isQuotaExceeded fuel s.exceedsFiles fuel s i

/-- `is_quota_bytes_exceeded` -/
def isQuotaBytesExceeded (fuel : ℕ) (s : QuotaState) (i : ℕ) (newBytes : ℤ) :
    Run (Bool × QuotaState) :=
  isQuotaExceeded fuel (s.exceedsBytes newBytes) fuel s i

/-! ### Changes -/

/-- `put_qtree` -/
def putQtree (fuel : ℕ) (s : QuotaState) (i : ℕ) : Run QuotaState :=
  match s.qtree i with
  | none => .ok s
  | some n => do
    let heap ← s.heap.invalidate fuel n
    return { s with heap, qtree := update s.qtree i none }

/-- `invalidate_quota_tree` -/
def invalidateQuotaTree (fuel : ℕ) (s : QuotaState) (i : ℕ) : Run QuotaState :=
  match s.qtree i with
  | none => .ok s
  | some n => do
    let x ← s.heap.deref n
    if x.parentRef ≠ 0 then
      assertThat (s.isDir i = true)
      match x.ancestor with
      | none => .error .dangling
      | some a => do
        let y ← s.heap.deref a
        match y.inode with
        | none => s.putQtree fuel i
        | some j => do
          let s ← s.putQtree fuel j
          s.putQtree fuel i
    else s.putQtree fuel i

/-- `unlink`, of a dentry from its inode. -/
def unlink (fuel : ℕ) (s : QuotaState) (i dn : ℕ) : Run QuotaState := do
  let s ← s.invalidateQuotaTree fuel i
  assertThat (((s.dnSet i).find? dn).isSome = true)
  return { s with dnSet := update s.dnSet i ((s.dnSet i).erase dn) }

/-- `link`. A directory has only one parent. -/
def link (fuel : ℕ) (s : QuotaState) (i dn dir : ℕ) : Run QuotaState := do
  assertThat ((s.dnSet i).find? dn = none)
  let s ← (match (s.dnSet i).entries.head? with
    | some old => if s.isDir i then s.unlink fuel i old.1 else .ok s
    | none => .ok s : Run QuotaState)
  return { s with dnSet := update s.dnSet i ((s.dnSet i).insert dn dir) }

/-- `handle_quota`, and the part of `add_update_inode` for quotas. -/
def handleQuota (fuel : ℕ) (s : QuotaState) (i : ℕ) (quota : QuotaInfo) (rstat : NestInfo) :
    Run QuotaState := do
  let s ← (if (s.quota i).isEnable ≠ quota.isEnable then s.invalidateQuotaTree fuel i else .ok s :
    Run QuotaState)
  return { s with
    quota := update s.quota i quota
    rstat := update s.rstat i rstat }

end QuotaState

/-! ### Histories -/

inductive QuotaEvent
  | link (i dn dir : ℕ)
  | unlink (i dn : ℕ)
  | handleQuota (i : ℕ) (quota : QuotaInfo) (rstat : NestInfo)
  | getQuotaRoot (i : ℕ)
  | isQuotaFilesExceeded (i : ℕ)
  | isQuotaBytesExceeded (i : ℕ) (newBytes : ℤ)

namespace QuotaState

def handle (s : QuotaState) (fuel : ℕ) : QuotaEvent → Run QuotaState
  | .link i dn dir => s.link fuel i dn dir
  | .unlink i dn => s.unlink fuel i dn
  | .handleQuota i quota rstat => s.handleQuota fuel i quota rstat
  | .getQuotaRoot i => (s.getQuotaRoot fuel i).map Prod.snd
  | .isQuotaFilesExceeded i => (s.isQuotaFilesExceeded fuel i).map Prod.snd
  | .isQuotaBytesExceeded i newBytes => (s.isQuotaBytesExceeded fuel i newBytes).map Prod.snd

/-- A step of the client. The root of the file system has no dentry. -/
structure Step (e : QuotaEvent) (s s' : QuotaState) : Prop where
  run : Returns (fun fuel => s.handle fuel e) s'
  root : ∀ i dn dir, e = .link i dn dir → i ≠ s.rootAncestor

structure Initial (s : QuotaState) : Prop where
  dnSet : (s.dnSet s.rootAncestor).entries = []
  rootParents : s.rootParents s.rootAncestor = none
  qtree : ∀ i, s.qtree i = none
  node : ∀ k, s.heap.node k = none

def Attached (s : QuotaState) (i : ℕ) : Prop := ∃ d, Depth s.parentOf s.rootAncestor i d

def NearestQuota (s : QuotaState) : ℕ → ℕ → Prop :=
  Nearest s.parentOf s.rootAncestor fun i => (s.quota i).isEnable = true

def Cached (s : QuotaState) (i : ℕ) : Prop :=
  ∃ n a, s.qtree i = some n ∧ s.heap.linkOf .ancestor n = some a ∧ (s.heap.inodeOf a).isSome

def Meets : QuotaEvent → QuotaState → QuotaState → Prop
  /- A file gets no second parent that comes first. -/
  | .link i _ _, s, s' => (s.isDir i = true ∧ (s.dnSet i).entries ≠ []) ∨ s.parentOf i = none ∨
      s'.parentOf i = s.parentOf i
  | .unlink _ _, _, _ => True
  /- The node of the root is not alone when the quota of the root comes or goes. -/
  | .handleQuota i quota _, s, _ => i = s.rootAncestor →
      (s.quota i).isEnable ≠ quota.isEnable → ∀ n, s.qtree i = some n → s.heap.Guarded n
  /- Queries are for inodes that are not unlinked. -/
  | .getQuotaRoot i, s, _ => s.Attached i
  | .isQuotaFilesExceeded i, s, _ => s.Attached i
  | .isQuotaBytesExceeded i _, s, _ => s.Attached i

variable {s s' t : QuotaState} {i j n a : ℕ} {fuel : ℕ}

/-! ### The invariant -/

/-- The node of an inode leads to the valid ancestor `a`. -/
structure Hit (s : QuotaState) (i n a : ℕ) : Prop where
  qtree : s.qtree i = some n
  ancestor : s.heap.linkOf .ancestor n = some a
  live : (s.heap.inodeOf a).isSome

theorem Hit.cached (h : s.Hit i n a) : s.Cached i := ⟨n, a, h.qtree, h.ancestor, h.live⟩

theorem Cached.hit (h : s.Cached i) : ∃ n a, s.Hit i n a := by
  obtain ⟨n, a, hq, ha, hl⟩ := h
  exact ⟨n, a, hq, ha, hl⟩

/-- The node leads to that of the parent, and to the same ancestor as it unless the parent is
the ancestor. -/
structure Chained (s : QuotaState) (i n a p pn : ℕ) : Prop where
  parentOf : s.parentOf i = some p
  qtree : s.qtree p = some pn
  parent : s.heap.linkOf .parent n = some pn
  ancestor : if (s.quota p).isEnable = true ∨ p = s.rootAncestor then a = pn
    else s.heap.linkOf .ancestor pn = some a

structure Inv (s : QuotaState) : Prop where
  heap : s.heap.Ok none
  nodes : ∀ i n, s.qtree i = some n ↔ s.heap.inodeOf n = some i
  ancestor : ∀ i n, s.qtree i = some n → ∃ a, s.heap.linkOf .ancestor n = some a
  root : ∀ n, s.qtree s.rootAncestor = some n → s.heap.linkOf .ancestor n = some n
  top : s.parentOf s.rootAncestor = none
  noself : ∀ i n l, s.qtree i = some n → i ≠ s.rootAncestor → s.heap.linkOf l n ≠ some n
  target : ∀ i n a j, s.Hit i n a → s.heap.inodeOf a = some j →
    (s.quota j).isEnable = true ∨ j = s.rootAncestor
  chain : ∀ i n a, s.Hit i n a → i ≠ s.rootAncestor → ∃ p pn, s.Chained i n a p pn

theorem Initial.inv (h : s.Initial) : s.Inv := by
  have hnone : ∀ i n, s.qtree i ≠ some n := by
    intro i n hn
    rw [h.qtree i] at hn
    cases hn
  have hlink : ∀ l k, s.heap.linkOf l k = none := by simp [QuotaHeap.linkOf, h.node]
  refine ⟨⟨fun k _ => h.node k, ?_, ?_, fun k _ _ l => hlink l k⟩, ?_, ?_, ?_, ?_, ?_, ?_, ?_⟩
  · simp [hlink]
  · simp [h.node]
  · simp [h.qtree, QuotaHeap.inodeOf, h.node]
  · exact fun i n hn => absurd hn (hnone i n)
  · exact fun n hn => absurd hn (hnone _ n)
  · unfold parentOf
    rw [h.dnSet]
    exact h.rootParents
  · exact fun i n _ hn => absurd hn (hnone i n)
  · exact fun i n _ _ hhit => absurd hhit.qtree (hnone i n)
  · exact fun i n _ hhit => absurd hhit.qtree (hnone i n)

namespace Inv

theorem unique (hs : s.Inv) (hi : s.qtree i = some n) (hj : s.qtree j = some n) : i = j := by
  have h := (hs.nodes i n).mp hi
  rw [(hs.nodes j n).mp hj] at h
  exact (Option.some.inj h).symm

theorem hit_root (hs : s.Inv) (hn : s.qtree s.rootAncestor = some n) : s.Hit s.rootAncestor n n :=
  ⟨hn, hs.root n hn, by rw [(hs.nodes _ _).mp hn]; rfl⟩

/-- What a valid node leads to: the nearest ancestor with a quota, the inode not included. -/
theorem nearest (hs : s.Inv) {d} (hd : Depth s.parentOf s.rootAncestor i d)
    (hhit : s.Hit i n a) (hne : i ≠ s.rootAncestor) (ha : s.heap.inodeOf a = some j) :
    ∃ p, s.parentOf i = some p ∧ s.NearestQuota p j := by
  induction hd generalizing n with
  | root => exact absurd rfl hne
  | @step i q d hne hup hd ih =>
    obtain ⟨p, pn, hchain⟩ := hs.chain i n a hhit hne
    cases hchain.parentOf.symm.trans hup
    refine ⟨q, hup, ?_⟩
    have hanc := hchain.ancestor
    by_cases hstop : (s.quota q).isEnable = true ∨ q = s.rootAncestor
    · rw [if_pos hstop] at hanc
      subst hanc
      rw [(hs.nodes q a).mp hchain.qtree] at ha
      cases ha
      rcases hstop with hen | hroot
      · exact .mark hen
      · rw [hroot]
        exact .root
    · rw [if_neg hstop] at hanc
      obtain ⟨hen, hroot⟩ := not_or.mp hstop
      obtain ⟨p, hp, hnear⟩ := ih ⟨hchain.qtree, hanc, hhit.live⟩ hroot
      exact .step hen hroot hp hnear

end Inv

/-! ### Taking nodes away -/

structure SameTree (s s' : QuotaState) : Prop where
  dnSet : s'.dnSet = s.dnSet
  rootParents : s'.rootParents = s.rootParents
  rootAncestor : s'.rootAncestor = s.rootAncestor
  isDir : s'.isDir = s.isDir
  quota : s'.quota = s.quota
  rstat : s'.rstat = s.rstat

theorem SameTree.refl (s : QuotaState) : s.SameTree s := ⟨rfl, rfl, rfl, rfl, rfl, rfl⟩

theorem SameTree.trans (h : s.SameTree s') (h' : s'.SameTree t) : s.SameTree t :=
  ⟨h'.dnSet.trans h.dnSet, h'.rootParents.trans h.rootParents, h'.rootAncestor.trans h.rootAncestor,
    h'.isDir.trans h.isDir, h'.quota.trans h.quota, h'.rstat.trans h.rstat⟩

theorem SameTree.exists_eq (h : s.SameTree s') : ∃ heap qtree, s' = { s with heap, qtree } := by
  refine ⟨s'.heap, s'.qtree, ?_⟩
  cases s'
  cases h
  simp_all

/-- The state behind `put_qtree` on an inode with a node. -/
structure Dropped (s s' : QuotaState) (i n : ℕ) : Prop where
  tree : s.SameTree s'
  qtree : s'.qtree = update s.qtree i none
  inodeOf : s'.heap.inodeOf = update s.heap.inodeOf n none
  linkOf : ∀ l, s'.heap.linkOf l = update (s.heap.linkOf l) n none

theorem update_none_eq_some {f} {x m : ℕ} : update f i none x = some m ↔ x ≠ i ∧ f x = some m := by
  by_cases hx : x = i <;> simp [hx]

namespace Dropped

section

variable (h : s.Dropped s' i n) (hs : s.Inv) (hn : s.qtree i = some n) {x m b : ℕ}

include h

theorem inodeOf_iff : s'.heap.inodeOf m = some x ↔ m ≠ n ∧ s.heap.inodeOf m = some x := by
  rw [h.inodeOf, update_none_eq_some]

theorem linkOf_of_ne (l : QuotaLink) (hm : m ≠ n) : s'.heap.linkOf l m = s.heap.linkOf l m := by
  rw [h.linkOf, update_of_ne hm]

theorem qtree_self : s'.qtree i = none := by
  rw [h.qtree, update_self]

include hs hn

theorem qtree_iff : s'.qtree x = some m ↔ m ≠ n ∧ s.qtree x = some m := by
  rw [h.qtree, update_none_eq_some]
  refine and_congr_left fun hq => not_congr ⟨?_, fun he => hs.unique (he ▸ hq) hn⟩
  rintro rfl
  exact Option.some.inj (hq.symm.trans hn)

theorem hit (hhit : s'.Hit x m b) : m ≠ n ∧ b ≠ n ∧ s.Hit x m b := by
  obtain ⟨hq, ha, hl⟩ := hhit
  obtain ⟨hm, hq⟩ := (h.qtree_iff hs hn).mp hq
  obtain ⟨j, hj⟩ := Option.isSome_iff_exists.mp hl
  obtain ⟨hb, hj⟩ := h.inodeOf_iff.mp hj
  rw [h.linkOf_of_ne _ hm] at ha
  exact ⟨hm, hb, hq, ha, by rw [hj]; rfl⟩

theorem inv (hok : s'.heap.Ok none)
    (hbelow : ∀ x m b, s.Hit x m b → x ≠ s.rootAncestor → s.heap.linkOf .parent m = some n →
      b = n) :
    s'.Inv := by
  obtain ⟨heap, qtree, rfl⟩ := h.tree.exists_eq
  refine ⟨hok, fun x m => by rw [h.qtree_iff hs hn, h.inodeOf_iff, hs.nodes], ?_, ?_, hs.top,
    ?_, ?_, ?_⟩
  · intro x m hq
    obtain ⟨hm, hq⟩ := (h.qtree_iff hs hn).mp hq
    rw [h.linkOf_of_ne _ hm]
    exact hs.ancestor x m hq
  · intro m hq
    obtain ⟨hm, hq⟩ := (h.qtree_iff hs hn).mp hq
    rw [h.linkOf_of_ne _ hm]
    exact hs.root m hq
  · intro x m l hq hx
    obtain ⟨hm, hq⟩ := (h.qtree_iff hs hn).mp hq
    rw [h.linkOf_of_ne _ hm]
    exact hs.noself x m l hq hx
  · intro x m b j hhit hj
    exact hs.target x m b j (h.hit hs hn hhit).2.2 (h.inodeOf_iff.mp hj).2
  · intro x m b hhit hx
    obtain ⟨hm, hb, hhit⟩ := h.hit hs hn hhit
    obtain ⟨p, pn, hchain⟩ := hs.chain x m b hhit hx
    have hpn : pn ≠ n := by
      rintro rfl
      exact hb (hbelow x m b hhit hx hchain.parent)
    refine ⟨p, pn, hchain.parentOf, (h.qtree_iff hs hn).mpr ⟨hpn, hchain.qtree⟩, ?_, ?_⟩
    · rw [h.linkOf_of_ne _ hm]
      exact hchain.parent
    · rw [h.linkOf_of_ne _ hpn]
      exact hchain.ancestor

end

end Dropped

theorem putQtree_spec (fuel : ℕ) (hs : s.Inv) (hn : s.qtree i = some n) (hguard : s.heap.Guarded n)
    (hbelow : ∀ x m b, s.Hit x m b → x ≠ s.rootAncestor → s.heap.linkOf .parent m = some n →
      b = n) :
    ∃ s', s.putQtree (fuel + 2) i = .ok s' ∧ s.Dropped s' i n ∧ s'.Inv := by
  obtain ⟨heap, hrun, hok, hinode, hlink⟩ :=
    invalidate_spec fuel hs.heap ((hs.nodes i n).mp hn) hguard
  unfold putQtree
  rw [hn]
  dsimp only
  rw [hrun, ok_bind]
  have hdrop : s.Dropped { s with heap, qtree := update s.qtree i none } i n :=
    ⟨⟨rfl, rfl, rfl, rfl, rfl, rfl⟩, rfl, hinode, hlink⟩
  exact ⟨_, rfl, hdrop, hdrop.inv hs hn hok hbelow⟩

theorem putQtree_none (hn : s.qtree i = none) : s.putQtree fuel i = .ok s := by
  unfold putQtree
  rw [hn]

theorem putQtree_tree (hrun : s.putQtree fuel i = .ok s') : s.SameTree s' := by
  unfold putQtree at hrun
  cases hn : s.qtree i with
  | none =>
    rw [hn] at hrun
    cases hrun
    exact .refl s
  | some n =>
    rw [hn] at hrun
    obtain ⟨heap, -, hrun⟩ := bind_eq_ok.mp hrun
    cases hrun
    exact ⟨rfl, rfl, rfl, rfl, rfl, rfl⟩

theorem invalidateQuotaTree_tree (hrun : s.invalidateQuotaTree fuel i = .ok s') :
    s.SameTree s' := by
  unfold invalidateQuotaTree at hrun
  split at hrun
  · cases hrun
    exact .refl s
  · obtain ⟨x, -, hrun⟩ := bind_eq_ok.mp hrun
    split at hrun
    · obtain ⟨_, -, hrun⟩ := bind_eq_ok.mp hrun
      split at hrun
      · cases hrun
      · obtain ⟨y, -, hrun⟩ := bind_eq_ok.mp hrun
        split at hrun
        · exact putQtree_tree hrun
        · obtain ⟨t, ht, hrun⟩ := bind_eq_ok.mp hrun
          exact (putQtree_tree ht).trans (putQtree_tree hrun)
    · exact putQtree_tree hrun

/-- The valid nodes below an inode lead to its own node if it is an ancestor, or if its node is
not valid itself. -/
theorem Inv.below (hs : s.Inv) (hn : s.qtree i = some n)
    (hor : (s.quota i).isEnable = true ∨ i = s.rootAncestor ∨
      ∀ a, s.heap.linkOf .ancestor n = some a → s.heap.inodeOf a = none)
    (x m b : ℕ) (hhit : s.Hit x m b) (hx : x ≠ s.rootAncestor)
    (hparent : s.heap.linkOf .parent m = some n) : b = n := by
  obtain ⟨p, pn, hchain⟩ := hs.chain x m b hhit hx
  cases hchain.parent.symm.trans hparent
  cases hs.unique hchain.qtree hn
  have hanc := hchain.ancestor
  by_cases hstop : (s.quota i).isEnable = true ∨ i = s.rootAncestor
  · rw [if_pos hstop] at hanc
    exact hanc
  · rw [if_neg hstop] at hanc
    obtain ⟨hen, hroot⟩ := not_or.mp hstop
    have hdead := (hor.resolve_left hen).resolve_left hroot b hanc
    have hlive := hhit.live
    rw [hdead] at hlive
    cases hlive

theorem Inv.guarded (hs : s.Inv) (hn : s.qtree i = some n)
    (hroot : i = s.rootAncestor → s.heap.Guarded n) : s.heap.Guarded n := by
  by_cases hi : i = s.rootAncestor
  · exact hroot hi
  · rintro ⟨l, hl⟩
    exact absurd hl (hs.noself i n l hn hi)

theorem invalidateQuotaTree_spec (hs : s.Inv)
    (hroot : i = s.rootAncestor → ∀ n, s.qtree i = some n → s.heap.Guarded n)
    (hrun : s.invalidateQuotaTree (fuel + 2) i = .ok s') : s'.Inv ∧ s'.qtree i = none := by
  unfold invalidateQuotaTree at hrun
  cases hn : s.qtree i with
  | none =>
    rw [hn] at hrun
    cases hrun
    exact ⟨hs, hn⟩
  | some n =>
    rw [hn] at hrun
    dsimp only at hrun
    obtain ⟨x, hx, hinode⟩ := Option.bind_eq_some_iff.mp ((hs.nodes i n).mp hn)
    have hguard : s.heap.Guarded n := hs.guarded hn fun hi => hroot hi n hn
    rw [deref_of hx, ok_bind] at hrun
    -- only the node of the inode goes
    have hone : s.putQtree (fuel + 2) i = .ok s' →
        (∀ y m b, s.Hit y m b → y ≠ s.rootAncestor → s.heap.linkOf .parent m = some n → b = n) →
        s'.Inv ∧ s'.qtree i = none := by
      intro hput hbelow
      obtain ⟨t, ht, hdrop, hinv⟩ := putQtree_spec fuel hs hn hguard hbelow
      cases ht.symm.trans hput
      exact ⟨hinv, hdrop.qtree_self⟩
    by_cases href : x.parentRef ≠ 0
    · rw [if_pos href] at hrun
      obtain ⟨_, -, hrun⟩ := bind_eq_ok.mp hrun
      obtain ⟨a, ha⟩ := hs.ancestor i n hn
      have hxa : x.ancestor = some a := (linkOf_of hx).symm.trans ha
      obtain ⟨y, hy⟩ := Option.isSome_iff_exists.mp (hs.heap.valid _ _ _ ha)
      rw [hxa] at hrun
      dsimp only at hrun
      rw [deref_of hy, ok_bind] at hrun
      cases hyin : y.inode with
      | none =>
        rw [hyin] at hrun
        refine hone hrun (hs.below hn (.inr (.inr fun b hb => ?_)))
        cases ha.symm.trans hb
        exact (inodeOf_of hy).trans hyin
      | some j =>
        rw [hyin] at hrun
        dsimp only at hrun
        have hja : s.heap.inodeOf a = some j := (inodeOf_of hy).trans hyin
        have hj : s.qtree j = some a := (hs.nodes j a).mpr hja
        have htarget := hs.target i n a j ⟨hn, ha, by rw [hja]; rfl⟩ hja
        have hbelow := hs.below hj (htarget.imp id .inl)
        by_cases hi : i = s.rootAncestor
        · -- the root is its own ancestor
          have hna : a = n := Option.some.inj (ha.symm.trans (hs.root n (hi ▸ hn)))
          subst hna
          cases hs.unique hj hn
          obtain ⟨t, ht, hdrop, hinv⟩ := putQtree_spec fuel hs hn hguard hbelow
          rw [ht, ok_bind, putQtree_none hdrop.qtree_self] at hrun
          cases hrun
          exact ⟨hinv, hdrop.qtree_self⟩
        · have hne : n ≠ a := fun he => hs.noself i n .ancestor hn hi (he ▸ ha)
          have hguarda : s.heap.Guarded a := fun _ => ⟨n, .ancestor, hne, ha⟩
          obtain ⟨t, ht, hdrop, hinv⟩ := putQtree_spec fuel hs hj hguarda hbelow
          have hnt : t.qtree i = some n := (hdrop.qtree_iff hs hj).mpr ⟨hne, hn⟩
          have hguardt : t.heap.Guarded n := hinv.guarded hnt fun hit =>
            absurd (hit.trans hdrop.tree.rootAncestor) hi
          have hbelowt := hinv.below hnt (.inr (.inr fun b hb => by
            rw [hdrop.linkOf_of_ne _ hne, ha] at hb
            rw [← Option.some.inj hb, hdrop.inodeOf, update_self]))
          obtain ⟨u, hu, hdrop', hinv'⟩ := putQtree_spec fuel hinv hnt hguardt hbelowt
          rw [ht, ok_bind, hu] at hrun
          cases hrun
          exact ⟨hinv', hdrop'.qtree_self⟩
    · rw [if_neg href] at hrun
      refine hone hrun fun y m b _ _ hparent => ?_
      exact absurd ((hs.heap.ref_ne_zero_iff (l := .parent) hx).mpr ⟨m, hparent⟩) href

/-! ### Changes of the tree -/

theorem Inv.setDn (hs : s.Inv) {dns} (hi : i ≠ s.rootAncestor) (hor : (∀ n a, ¬s.Hit i n a) ∨
      QuotaState.parentOf { s with dnSet := update s.dnSet i dns } i = s.parentOf i) :
    Inv { s with dnSet := update s.dnSet i dns } := by
  have hparent : ∀ x, x ≠ i →
      QuotaState.parentOf { s with dnSet := update s.dnSet i dns } x = s.parentOf x := by
    intro x hx
    unfold QuotaState.parentOf
    dsimp only
    rw [update_of_ne hx]
  refine ⟨hs.heap, hs.nodes, hs.ancestor, hs.root, ?_, hs.noself, ?_, ?_⟩
  · exact (hparent _ (Ne.symm hi)).trans hs.top
  · intro x m b j hhit
    exact hs.target x m b j ⟨hhit.qtree, hhit.ancestor, hhit.live⟩
  · intro x m b hhit' hx
    have hhit : s.Hit x m b := ⟨hhit'.qtree, hhit'.ancestor, hhit'.live⟩
    obtain ⟨p, pn, hchain⟩ := hs.chain x m b hhit hx
    refine ⟨p, pn, ?_, hchain.qtree, hchain.parent, hchain.ancestor⟩
    by_cases hxi : x = i
    · subst hxi
      exact (hor.resolve_left fun hnone => hnone m b hhit).trans hchain.parentOf
    · rw [hparent x hxi]
      exact hchain.parentOf

variable {quota : QuotaInfo} {rstat : NestInfo}

theorem Inv.setQuota (hs : s.Inv) (hor : s.qtree i = none ∨ quota.isEnable = (s.quota i).isEnable) :
    Inv { s with
      quota := update s.quota i quota, rstat := update s.rstat i rstat } := by
  have hquota : ∀ j n, s.qtree j = some n →
      (update s.quota i quota j).isEnable = (s.quota j).isEnable := by
    intro j n hj
    by_cases hji : j = i
    · subst hji
      rw [update_self]
      refine hor.resolve_left fun hnone => ?_
      rw [hnone] at hj
      cases hj
    · rw [update_of_ne hji]
  refine ⟨hs.heap, hs.nodes, hs.ancestor, hs.root, hs.top, hs.noself, ?_, ?_⟩
  · intro x m b j hhit hj
    have hhit : s.Hit x m b := ⟨hhit.qtree, hhit.ancestor, hhit.live⟩
    rw [hquota j b ((hs.nodes j b).mpr hj)]
    exact hs.target x m b j hhit hj
  · intro x m b hhit hx
    have hhit : s.Hit x m b := ⟨hhit.qtree, hhit.ancestor, hhit.live⟩
    obtain ⟨p, pn, hchain⟩ := hs.chain x m b hhit hx
    refine ⟨p, pn, hchain.parentOf, hchain.qtree, hchain.parent, ?_⟩
    rw [hquota p pn hchain.qtree]
    exact hchain.ancestor

theorem not_hit_of_none (hn : s.qtree i = none) (n a : ℕ) : ¬s.Hit i n a := by
  intro hhit
  have hq := hhit.qtree
  rw [hn] at hq
  cases hq

theorem Inv.dnSet_root (hs : s.Inv) : (s.dnSet s.rootAncestor).entries = [] := by
  have htop := hs.top
  unfold QuotaState.parentOf at htop
  cases hentries : (s.dnSet s.rootAncestor).entries with
  | nil => rfl
  | cons e es =>
    rw [hentries] at htop
    cases htop

variable {dn : ℕ}

theorem unlink_spec (hs : s.Inv) (hrun : s.unlink (fuel + 2) i dn = .ok s') :
    s'.Inv ∧ s'.qtree i = none ∧ s'.rootAncestor = s.rootAncestor := by
  obtain ⟨t, ht, hrun⟩ := bind_eq_ok.mp hrun
  obtain ⟨_, hassert, hrun⟩ := bind_eq_ok.mp hrun
  cases hrun
  have hdn := assertThat_eq_ok.mp hassert
  have htree := invalidateQuotaTree_tree ht
  -- the root has no dentry, so this is another inode
  have hi : i ≠ s.rootAncestor := by
    rintro rfl
    rw [htree.dnSet, SortedMap.find?_eq_none (by simp [hs.dnSet_root])] at hdn
    cases hdn
  obtain ⟨hinv, hnone⟩ := invalidateQuotaTree_spec hs (fun h => absurd h hi) ht
  exact ⟨hinv.setDn (fun h => hi (h.trans htree.rootAncestor)) (.inl (not_hit_of_none hnone)),
    hnone,
    htree.rootAncestor⟩

theorem link_spec {dir} (hs : s.Inv) (hi : i ≠ s.rootAncestor)
    (hrun : s.link (fuel + 2) i dn dir = .ok s')
    (hmeets : (s.isDir i = true ∧ (s.dnSet i).entries ≠ []) ∨ s.parentOf i = none ∨
      s'.parentOf i = s.parentOf i) :
    s'.Inv := by
  obtain ⟨_, -, hrun⟩ := bind_eq_ok.mp hrun
  obtain ⟨t, ht, hrun⟩ := bind_eq_ok.mp hrun
  cases hrun
  -- nothing was unlinked
  have hkeep : t = s → ¬(s.isDir i = true ∧ (s.dnSet i).entries ≠ []) →
      Inv { t with dnSet := update t.dnSet i ((t.dnSet i).insert dn dir) } := by
    rintro rfl hnot
    refine hs.setDn hi ((hmeets.resolve_left hnot).imp (fun hnone n a hhit => ?_) id)
    obtain ⟨p, pn, hchain⟩ := hs.chain i n a hhit hi
    have hparent := hchain.parentOf
    rw [hnone] at hparent
    cases hparent
  cases hentries : (s.dnSet i).entries with
  | nil =>
    rw [hentries] at ht
    exact hkeep (Except.ok.inj ht).symm fun h => h.2 hentries
  | cons e es =>
    rw [hentries] at ht
    dsimp only [List.head?_cons] at ht
    by_cases hdir : s.isDir i = true
    · rw [if_pos hdir] at ht
      obtain ⟨hinv, hnone, hroot⟩ := unlink_spec hs ht
      exact hinv.setDn (fun h => hi (h.trans hroot)) (.inl (not_hit_of_none hnone))
    · rw [if_neg hdir] at ht
      exact hkeep (Except.ok.inj ht).symm fun h => hdir h.1

theorem handleQuota_spec (hs : s.Inv)
    (hroot : i = s.rootAncestor → (s.quota i).isEnable ≠ quota.isEnable →
      ∀ n, s.qtree i = some n → s.heap.Guarded n)
    (hrun : s.handleQuota (fuel + 2) i quota rstat = .ok s') : s'.Inv := by
  obtain ⟨t, ht, hrun⟩ := bind_eq_ok.mp hrun
  cases hrun
  by_cases htoggle : (s.quota i).isEnable ≠ quota.isEnable
  · rw [if_pos htoggle] at ht
    obtain ⟨hinv, hnone⟩ := invalidateQuotaTree_spec hs (fun hi => hroot hi htoggle) ht
    exact hinv.setQuota (.inl hnone)
  · rw [if_neg htoggle] at ht
    cases ht
    exact hs.setQuota (.inr (not_not.mp htoggle).symm)

/-! ### Linking a node -/

theorem validNode_eq (hs : s.Inv) (hn : s.qtree i = some n)
    (ha : s.heap.linkOf .ancestor n = some a) :
    s.validNode i = .ok (if (s.heap.inodeOf a).isSome then some (n, a) else none) := by
  obtain ⟨x, hx, hxa⟩ := Option.bind_eq_some_iff.mp ha
  obtain ⟨y, hy⟩ := Option.isSome_iff_exists.mp (hs.heap.valid _ _ _ ha)
  unfold validNode
  rw [hn]
  dsimp only
  rw [deref_of hx, ok_bind, show x.ancestor = some a from hxa]
  dsimp only
  rw [deref_of hy, ok_bind, inodeOf_of hy]
  rfl

theorem validNode_of_hit (h : s.Hit i n a) (hs : s.Inv) : s.validNode i = .ok (some (n, a)) := by
  rw [validNode_eq hs h.qtree h.ancestor, if_pos h.live]

theorem validNode_of_not_cached (h : ¬s.Cached i) (hs : s.Inv) : s.validNode i = .ok none := by
  cases hn : s.qtree i with
  | none =>
    unfold validNode
    rw [hn]
  | some n =>
    obtain ⟨a, ha⟩ := hs.ancestor i n hn
    rw [validNode_eq hs hn ha, if_neg fun hlive => h ⟨n, a, hn, ha, hlive⟩]

/-- An inode has got a node with the given parent and ancestor, its old one or a new one. -/
structure Installed (s s' : QuotaState) (i n : ℕ) (parent : Option ℕ) (a : ℕ) : Prop where
  tree : s.SameTree s'
  heap : s'.heap.Ok none
  qtree : s'.qtree = update s.qtree i (some n)
  inodeOf : s'.heap.inodeOf = update s.heap.inodeOf n (some i)
  parent : s'.heap.linkOf .parent = update (s.heap.linkOf .parent) n parent
  ancestor : s'.heap.linkOf .ancestor = update (s.heap.linkOf .ancestor) n (some a)
  next : s.heap.next ≤ s'.heap.next
  node : s.qtree i = some n ∨ (s.qtree i = none ∧ s.heap.next ≤ n)

theorem Inv.update_inodeOf (hs : s.Inv)
    (hnode : s.qtree i = some n ∨ (s.qtree i = none ∧ s.heap.next ≤ n)) {k}
    (hk : s.heap.inodeOf k = some j) : update s.heap.inodeOf n (some i) k = some j := by
  by_cases hkn : k = n
  · subst hkn
    rcases hnode with hold | ⟨-, hnew⟩
    · rw [update_self, ← hk, (hs.nodes i k).mp hold]
    · simp [QuotaHeap.inodeOf, hs.heap.fresh k hnew] at hk
  · rwa [update_of_ne hkn]

namespace Installed

variable {parent : Option ℕ}

theorem qtree_self (h : s.Installed s' i n parent a) : s'.qtree i = some n := by
  rw [h.qtree, update_self]

theorem qtree_keeps (h : s.Installed s' i n parent a) {x m} (hq : s.qtree x = some m) :
    s'.qtree x = some m := by
  by_cases hx : x = i
  · subst hx
    rcases h.node with hnode | ⟨hnone, -⟩
    · rw [h.qtree_self, ← hnode]
      exact hq
    · rw [hnone] at hq
      cases hq
  · rw [h.qtree, update_of_ne hx]
    exact hq

section

variable (h : s.Installed s' i n parent a) (hs : s.Inv)

include h hs

theorem qtree_cases {x m} (hq : s'.qtree x = some m) : x = i ∧ m = n ∨
    x ≠ i ∧ s.qtree x = some m ∧ ∀ l, s'.heap.linkOf l m = s.heap.linkOf l m := by
  by_cases hx : x = i
  · subst hx
    exact .inl ⟨rfl, Option.some.inj (hq.symm.trans h.qtree_self)⟩
  rw [h.qtree, update_of_ne hx] at hq
  have hm : m ≠ n := by
    rintro rfl
    have hin := hs.update_inodeOf h.node ((hs.nodes x m).mp hq)
    rw [update_self] at hin
    exact hx (Option.some.inj hin).symm
  refine .inr ⟨hx, hq, fun l => ?_⟩
  cases l with
  | parent => rw [h.parent, update_of_ne hm]
  | ancestor => rw [h.ancestor, update_of_ne hm]

theorem inodeOf_target {l} {m b}
    (hb : s.heap.linkOf l m = some b) : s'.heap.inodeOf b = s.heap.inodeOf b := by
  rw [h.inodeOf]
  by_cases hbn : b = n
  · subst hbn
    rw [update_self]
    rcases h.node with hold | ⟨-, hnew⟩
    · exact ((hs.nodes i b).mp hold).symm
    · have hsome := hs.heap.valid l m b hb
      rw [hs.heap.fresh b hnew] at hsome
      cases hsome
  · rw [update_of_ne hbn]

theorem hit_cases {x m b} (hhit : s'.Hit x m b) :
    x = i ∧ m = n ∧ b = a ∨ x ≠ i ∧ s.Hit x m b := by
  have ha := hhit.ancestor
  rcases h.qtree_cases hs hhit.qtree with ⟨rfl, rfl⟩ | ⟨hx, hq, hlink⟩
  · rw [h.ancestor, update_self] at ha
    exact .inl ⟨rfl, rfl, (Option.some.inj ha).symm⟩
  · rw [hlink] at ha
    have hlive := hhit.live
    rw [h.inodeOf_target hs ha] at hlive
    exact .inr ⟨hx, hq, ha, hlive⟩

theorem not_cached {x} (hx : x ≠ i) (hnot : ¬s.Cached x) : ¬s'.Cached x := by
  intro hc
  obtain ⟨m, b, hhit⟩ := hc.hit
  rcases h.hit_cases hs hhit with ⟨rfl, -⟩ | ⟨-, hold⟩
  · exact hx rfl
  · exact hnot hold.cached

theorem nodes (x m : ℕ) : s'.qtree x = some m ↔ s'.heap.inodeOf m = some x := by
  have hnode : s.qtree i = some n ∨ s.qtree i = none ∧ s.heap.inodeOf n = none := by
    refine h.node.imp_right (And.imp_right fun hnew => ?_)
    simp [QuotaHeap.inodeOf, hs.heap.fresh n hnew]
  have hnodes := hs.nodes
  rw [h.qtree, h.inodeOf, update_apply, update_apply]
  grind

theorem inv (hnot : i = s.rootAncestor ∨ ¬s.Cached i) (hroot : i = s.rootAncestor → a = n)
    (hlink : i ≠ s.rootAncestor → parent ≠ some n ∧ a ≠ n ∧
      (∀ j, s'.heap.inodeOf a = some j → (s.quota j).isEnable = true ∨ j = s.rootAncestor) ∧
      ∃ p pn, s.parentOf i = some p ∧ s.qtree p = some pn ∧ parent = some pn ∧
        if (s.quota p).isEnable = true ∨ p = s.rootAncestor then a = pn
        else s.heap.linkOf .ancestor pn = some a) : s'.Inv := by
  obtain ⟨heap, qtree, rfl⟩ := h.tree.exists_eq
  have hparent : heap.linkOf .parent n = parent := by rw [h.parent, update_self]
  have hanc : heap.linkOf .ancestor n = some a := by rw [h.ancestor, update_self]
  refine ⟨h.heap, h.nodes hs, ?_, ?_, hs.top, ?_, ?_, ?_⟩
  · intro x m hq
    rcases h.qtree_cases hs hq with ⟨-, rfl⟩ | ⟨-, hq, hsame⟩
    · exact ⟨a, hanc⟩
    · rw [hsame]
      exact hs.ancestor x m hq
  · intro m hq
    rcases h.qtree_cases hs hq with ⟨hx, rfl⟩ | ⟨-, hq, hsame⟩
    · rw [hanc, hroot hx.symm]
    · rw [hsame]
      exact hs.root m hq
  · intro x m l hq hne
    rcases h.qtree_cases hs hq with ⟨rfl, rfl⟩ | ⟨-, hq, hsame⟩
    · obtain ⟨hp, ha, -⟩ := hlink hne
      cases l with
      | parent => rw [hparent]; exact hp
      | ancestor => rw [hanc]; exact fun he => ha (Option.some.inj he)
    · rw [hsame]
      exact hs.noself x m l hq hne
  · intro x m b j hhit hj
    rcases h.hit_cases hs hhit with ⟨rfl, rfl, rfl⟩ | ⟨-, hold⟩
    · by_cases hne : x = s.rootAncestor
      · rw [hroot hne, h.inodeOf, update_self] at hj
        exact .inr ((Option.some.inj hj).symm.trans hne)
      · exact (hlink hne).2.2.1 j hj
    · rw [h.inodeOf_target hs hold.ancestor] at hj
      exact hs.target x m b j hold hj
  · intro x m b hhit hne
    rcases h.hit_cases hs hhit with ⟨rfl, rfl, rfl⟩ | ⟨hx, hold⟩
    · obtain ⟨hpn, -, -, p, pn, hup, hq, hp, hcond⟩ := hlink hne
      have hpnm : pn ≠ m := fun he => hpn (hp.trans (congrArg some he))
      refine ⟨p, pn, hup, h.qtree_keeps hq, hparent.trans hp, ?_⟩
      rw [h.ancestor, update_of_ne hpnm]
      exact hcond
    · have hsame := ((h.qtree_cases hs hhit.qtree).resolve_left fun he => hx he.1).2.2
      obtain ⟨p, pn, hchain⟩ := hs.chain x m b hold hne
      have hcond := hchain.ancestor
      have hq' := h.qtree_keeps hchain.qtree
      refine ⟨p, pn, hchain.parentOf, hq', (hsame _).trans hchain.parent, ?_⟩
      by_cases hstop : (s.quota p).isEnable = true ∨ p = s.rootAncestor
      · rw [if_pos hstop] at hcond ⊢
        exact hcond
      · rw [if_neg hstop] at hcond ⊢
        rcases h.qtree_cases hs hq' with ⟨rfl, -⟩ | ⟨-, -, hpsame⟩
        · -- a valid node below would make this one valid
          exact hnot.elim (fun hr => absurd (.inr hr) hstop)
            fun hn => absurd ⟨pn, b, hchain.qtree, hcond, hold.live⟩ hn
        · exact (hpsame _).trans hcond

end

end Installed

theorem isSome_of_inodeOf {h : QuotaHeap} (hn : (h.inodeOf n).isSome) : (h.node n).isSome := by
  obtain ⟨j, hj⟩ := Option.isSome_iff_exists.mp hn
  obtain ⟨x, hx, -⟩ := Option.bind_eq_some_iff.mp hj
  rw [hx]
  rfl

theorem linkOf_next (hs : s.Inv) (l : QuotaLink) : s.heap.linkOf l s.heap.next = none := by
  unfold QuotaHeap.linkOf
  rw [hs.heap.fresh _ le_rfl]
  rfl

theorem start_none (hs : s.Inv) (hroot : s.qtree s.rootAncestor = none) :
    ∃ s' n, (∀ fuel, s.start (fuel + 2) none = .ok (s', n, n)) ∧
      s.Installed s' s.rootAncestor n none n := by
  obtain ⟨hok, hinode, hlink⟩ := alloc_spec hs.heap s.rootAncestor
  have hlive : (s.heap.alloc s.rootAncestor).inodeOf s.heap.next = some s.rootAncestor := by
    rw [hinode, update_self]
  obtain ⟨heap, hrun, hok', hrel⟩ := setLink_live (l := .ancestor)
    (some s.heap.next) hok hlive fun a ha => by
      rw [← Option.some.inj ha]
      exact isSome_of_inodeOf (by rw [hlive]; rfl)
  refine ⟨{ s with heap, qtree := update s.qtree s.rootAncestor (some s.heap.next) },
    s.heap.next, fun fuel => ?_, ⟨rfl, rfl, rfl, rfl, rfl, rfl⟩, hok', rfl, ?_, ?_, ?_, ?_,
    .inr ⟨hroot, le_rfl⟩⟩
  · unfold start
    dsimp only
    rw [assertThat_of hroot, ok_bind]
    unfold QuotaHeap.setAncestor
    rw [hrun fuel, ok_bind]
    rfl
  · rw [hrel.inodeOf, hinode]
  · rw [hrel.linkOf, update_of_ne (by simp), hlink, ← linkOf_next hs .parent, update_eq_self]
  · rw [hrel.linkOf, update_self, hlink]
  · rw [hrel.next]
    exact Nat.le_succ _

theorem ensureNode_spec (hs : s.Inv) (i : ℕ) : ∃ t n, s.ensureNode i = (t, n) ∧ s.SameTree t ∧
    t.heap.Ok none ∧ t.qtree = update s.qtree i (some n) ∧
    t.heap.inodeOf = update s.heap.inodeOf n (some i) ∧
    t.heap.linkOf = s.heap.linkOf ∧ s.heap.next ≤ t.heap.next ∧
    (s.qtree i = some n ∨ (s.qtree i = none ∧ s.heap.next ≤ n)) := by
  unfold ensureNode
  cases hn : s.qtree i with
  | some n =>
    refine ⟨s, n, rfl, .refl s, hs.heap, ?_, ?_, rfl, le_rfl, .inl rfl⟩
    · rw [← hn, update_eq_self]
    · rw [← (hs.nodes i n).mp hn, update_eq_self]
  | none =>
    obtain ⟨hok, hinode, hlink⟩ := alloc_spec hs.heap i
    exact ⟨_, _, rfl, ⟨rfl, rfl, rfl, rfl, rfl, rfl⟩, hok, rfl, hinode, hlink, Nat.le_succ _,
      .inr ⟨rfl, le_rfl⟩⟩

variable {p pn d : ℕ} {exceeds : ℕ → Bool} {anc : ℕ}

theorem linkNode_run (hs : s.Inv) (hp : s.qtree p = some pn) (hanc : (s.heap.inodeOf anc).isSome)
    (i : ℕ) :
    ∃ s' n, (∀ fuel, linkNode (fuel + 2) (s, pn, anc) i = .ok (s', n, if (s.quota i).isEnable then n
        else if (s.quota p).isEnable then pn else anc)) ∧
      s.Installed s' i n (some pn) (if (s.quota p).isEnable then pn else anc) := by
  obtain ⟨t, n, hensure, htree, hok, hqtree, hinode, hlink, hnext, hnode⟩ := ensureNode_spec hs i
  have hlive : t.heap.inodeOf n = some i := by rw [hinode, update_self]
  have hpin : t.heap.inodeOf pn = some p := by
    rw [hinode]
    exact hs.update_inodeOf hnode ((hs.nodes p pn).mp hp)
  obtain ⟨h1, hrun1, hok1, hrel1⟩ := setLink_live (l := .parent) (some pn) hok
    hlive fun a ha => by
      rw [← Option.some.inj ha]
      exact isSome_of_inodeOf (by rw [hpin]; rfl)
  have hlive1 : h1.inodeOf n = some i := by rw [hrel1.inodeOf, hlive]
  have hpin1 : h1.inodeOf pn = some p := by rw [hrel1.inodeOf, hpin]
  obtain ⟨y, hy, hyin⟩ := Option.bind_eq_some_iff.mp hpin1
  obtain ⟨a, ha⟩ : ∃ a, a = if (s.quota p).isEnable then pn else anc := ⟨_, rfl⟩
  have halive : (h1.inodeOf a).isSome := by
    rw [hrel1.inodeOf, ha]
    split_ifs
    · rw [hpin]
      rfl
    · obtain ⟨j, hj⟩ := Option.isSome_iff_exists.mp hanc
      rw [hinode, hs.update_inodeOf hnode hj]
      rfl
  obtain ⟨h2, hrun2, hok2, hrel2⟩ := setLink_live (l := .ancestor) (some a) hok1
    hlive1 fun b hb => by
      rw [← Option.some.inj hb]
      exact isSome_of_inodeOf halive
  rw [← ha]
  refine ⟨{ t with heap := h2 }, n, fun fuel => ?_, htree.trans ⟨rfl, rfl, rfl, rfl, rfl, rfl⟩,
    hok2, hqtree, ?_, ?_, ?_, ?_, hnode⟩
  · unfold linkNode
    dsimp only
    rw [hensure]
    unfold QuotaHeap.setParent
    rw [hrun1 fuel, ok_bind, deref_of hy, ok_bind, hyin]
    dsimp only
    unfold QuotaHeap.setAncestor
    rw [htree.quota, ← ha, hrun2 fuel, ok_bind]
    rfl
  · rw [hrel2.inodeOf, hrel1.inodeOf, hinode]
  · rw [hrel2.linkOf, update_of_ne (by simp), hrel1.linkOf, update_self, hlink]
  · rw [hrel2.linkOf, update_self, hrel1.linkOf, update_of_ne (by simp), hlink]
  · rw [hrel2.next, hrel1.next]
    exact hnext

/-! ### A query -/

section

variable (hs : s.Inv) (hi : i ≠ s.rootAncestor) (hup : s.parentOf i = some p)
  (hd : Depth s.parentOf s.rootAncestor p d) (hhit : s.Hit p pn a)

include hs hi hup hd hhit

theorem Inv.ancestor_ne (ha : s.heap.inodeOf a = some j) : j ≠ i := by
  rintro rfl
  have hdi : Depth s.parentOf s.rootAncestor j (d + 1) := .step hi hup hd
  by_cases hp : p = s.rootAncestor
  · -- the root leads to itself
    have hself := hs.root pn (hp ▸ hhit.qtree)
    have hpa : pn = a := Option.some.inj (hself.symm.trans hhit.ancestor)
    have hjp : j = p := Option.some.inj (ha.symm.trans (hpa ▸ (hs.nodes p pn).mp hhit.qtree))
    rw [hjp] at hdi
    exact absurd (hdi.unique hd) (Nat.succ_ne_self d)
  · obtain ⟨q, hq, hnear⟩ := hs.nearest hd hhit hp ha
    cases hd with
    | root => exact hp rfl
    | step _ hup' hdq =>
      cases hq.symm.trans hup'
      obtain ⟨e, he, hde⟩ := hnear.depth hdq
      have heq := hdi.unique hde
      omega

theorem linkNode_child (hanc : anc = a ∨ ((s.quota p).isEnable = true ∧ anc = pn))
    (hnot : ¬s.Cached i) : ∃ s' n b, (∀ fuel, linkNode (fuel + 2) (s, pn, anc) i =
        .ok (s', n, if (s.quota i).isEnable then n else b)) ∧ s'.Inv ∧ s.SameTree s' ∧
      s'.Hit i n b ∧ ∀ x, x ≠ i → ¬s.Cached x → ¬s'.Cached x := by
  have hpin : s.heap.inodeOf pn = some p := (hs.nodes p pn).mp hhit.qtree
  have hlive : (s.heap.inodeOf anc).isSome := by
    rcases hanc with rfl | ⟨-, rfl⟩
    · exact hhit.live
    · rw [hpin]
      rfl
  obtain ⟨s', n, hrun, hinst⟩ := linkNode_run hs hhit.qtree hlive i
  obtain ⟨b, hb⟩ : ∃ b, b = if (s.quota p).isEnable then pn else anc := ⟨_, rfl⟩
  rw [← hb] at hrun hinst
  have hpi : p ≠ i := by
    rintro rfl
    exact absurd ((Depth.step hi hup hd).unique hd) (Nat.succ_ne_self d)
  -- the node of the inode is another one than those of its ancestors
  have hother : ∀ k j, s.heap.inodeOf k = some j → j ≠ i → k ≠ n := by
    rintro k j hk hj rfl
    have hin := hs.update_inodeOf hinst.node hk
    rw [update_self] at hin
    exact hj (Option.some.inj hin).symm
  have hbspec : ∃ j, s.heap.inodeOf b = some j ∧ j ≠ i ∧
      ((s.quota j).isEnable = true ∨ j = s.rootAncestor) ∧
      if (s.quota p).isEnable = true ∨ p = s.rootAncestor then b = pn
      else s.heap.linkOf .ancestor pn = some b := by
    by_cases hen : (s.quota p).isEnable = true
    · rw [if_pos hen] at hb
      rw [if_pos (.inl hen), hb]
      exact ⟨p, hpin, hpi, .inl hen, rfl⟩
    · rw [if_neg hen] at hb
      have hba : b = a := hb.trans (hanc.resolve_right fun h => hen h.1)
      subst hba
      obtain ⟨j, hj⟩ := Option.isSome_iff_exists.mp hhit.live
      refine ⟨j, hj, hs.ancestor_ne hi hup hd hhit hj, hs.target p pn b j hhit hj, ?_⟩
      by_cases hp : p = s.rootAncestor
      · rw [if_pos (.inr hp)]
        exact Option.some.inj (hhit.ancestor.symm.trans (hs.root pn (hp ▸ hhit.qtree)))
      · rw [if_neg (not_or.mpr ⟨hen, hp⟩)]
        exact hhit.ancestor
  obtain ⟨j, hj, hji, htarget, hcond⟩ := hbspec
  have hbn : b ≠ n := hother b j hj hji
  have hj' : s'.heap.inodeOf b = some j := by
    rw [hinst.inodeOf, update_of_ne hbn]
    exact hj
  have hinv : s'.Inv := by
    refine hinst.inv hs (.inr hnot) (fun h => absurd h hi) fun _ => ⟨?_, hbn, ?_, ?_⟩
    · exact fun he => hother pn p hpin hpi (Option.some.inj he)
    · intro k hk
      cases hj'.symm.trans hk
      exact htarget
    · exact ⟨p, pn, hup, hhit.qtree, rfl, hcond⟩
  refine ⟨s', n, b, hrun, hinv, hinst.tree, ⟨hinst.qtree_self, ?_, ?_⟩, ?_⟩
  · rw [hinst.ancestor, update_self]
  · rw [hj']
    rfl
  · exact fun x hx hnx => hinst.not_cached hs hx hnx

end

theorem link_root (hs : s.Inv) (hnot : ¬s.Cached s.rootAncestor) :
    ∃ s' n, (∀ fuel, (s.start (fuel + 2) none >>= fun c =>
        [s.rootAncestor].foldlM (linkNode (fuel + 2)) c) = .ok (s', n, n)) ∧ s'.Inv ∧
          s.SameTree s' ∧ s'.Hit s.rootAncestor n n ∧
      ∀ x, x ≠ s.rootAncestor → ¬s.Cached x → ¬s'.Cached x := by
  have hnone : s.qtree s.rootAncestor = none := by
    cases hn : s.qtree s.rootAncestor with
    | none => rfl
    | some n => exact absurd (hs.hit_root hn).cached hnot
  obtain ⟨t, n, hstart, hinst⟩ := start_none hs hnone
  have ht : t.Inv := hinst.inv hs (.inl rfl) (fun _ => rfl) fun h => absurd rfl h
  have hq := hinst.qtree_self
  obtain ⟨heap, qtree, rfl⟩ := hinst.tree.exists_eq
  have hhit := ht.hit_root hq
  obtain ⟨s', m, hrun, hinst'⟩ := linkNode_run ht hq hhit.live s.rootAncestor
  have hm : m = n := by
    rcases hinst'.node with hold | ⟨hnone', -⟩
    · exact Option.some.inj (hold.symm.trans hq)
    · rw [hnone'] at hq
      cases hq
  subst hm
  simp only [ite_self] at hrun hinst'
  have hinv : s'.Inv := hinst'.inv ht (.inl rfl) (fun _ => rfl) fun h => absurd rfl h
  have hhit' := hinst'.qtree_self
  refine ⟨s', m, fun fuel => ?_, hinv, hinst.tree.trans hinst'.tree, ?_, ?_⟩
  · rw [hstart fuel, ok_bind, List.foldlM_cons, hrun fuel]
    rfl
  · obtain ⟨heap', qtree', rfl⟩ := hinst'.tree.exists_eq
    exact hinv.hit_root hhit'
  · exact fun x hx hnx => hinst'.not_cached ht hx (hinst.not_cached hs hx hnx)

/-- What the walk and the loop of a query leave for an inode. -/
structure Linked (s s' : QuotaState) (i n a anc d : ℕ) : Prop where
  inv : s'.Inv
  tree : s.SameTree s'
  hit : s'.Hit i n a
  anc : (s.Cached i ∧ anc = a) ∨ (¬s.Cached i ∧ anc = if (s.quota i).isEnable then n else a)
  deeper : ∀ x e, Depth s.parentOf s.rootAncestor x e → d < e → ¬s.Cached x → ¬s'.Cached x

variable {w : ℕ}

theorem walk_of_hit (hs : s.Inv) (hhit : s.Hit i n a) (l : List ℕ) :
    walk (w + 1) s (some i) l = .ok (some (n, a), l) := by
  unfold walk
  rw [validNode_of_hit hhit hs]
  rfl

theorem walk_of_not_cached (hs : s.Inv) (hnot : ¬s.Cached i) (l : List ℕ) :
    walk (w + 1) s (some i) l = walk w s (s.parentOf i) (i :: l) := by
  conv_lhs => unfold walk
  rw [validNode_of_not_cached hnot hs]
  rfl

/-- A query walks up to a valid node, and links what is below. -/
structure Queried (s s' : QuotaState) (i n a anc d : ℕ) (hit : Option (ℕ × ℕ)) (path : List ℕ) :
    Prop where
  walk : ∀ w, d + 2 ≤ w → ∀ l, walk w s (some i) l = .ok (hit, path ++ l)
  run : ∀ fuel, (s.start (fuel + 2) hit >>= fun c => path.foldlM (linkNode (fuel + 2)) c) =
    .ok (s', n, anc)
  linked : s.Linked s' i n a anc d

theorem queried_of_hit (hs : s.Inv) (hhit : s.Hit i n a) (d : ℕ) :
    s.Queried s i n a a d (some (n, a)) [] := by
  refine ⟨fun w hw l => ?_, fun _ => rfl, hs, .refl s, hhit, .inl ⟨hhit.cached, rfl⟩,
    fun _ _ _ _ h => h⟩
  obtain ⟨w, rfl⟩ : ∃ v, w = v + 1 := ⟨w - 1, by omega⟩
  exact walk_of_hit hs hhit l

theorem exists_queried (hs : s.Inv) (hd : Depth s.parentOf s.rootAncestor i d) :
    ∃ s' n a anc hit path, s.Queried s' i n a anc d hit path := by
  induction hd with
  | root =>
    by_cases hc : s.Cached s.rootAncestor
    · obtain ⟨n, a, hhit⟩ := hc.hit
      exact ⟨_, _, _, _, _, _, queried_of_hit hs hhit 0⟩
    obtain ⟨s', n, hrun, hinv, htree, hhit, hkeep⟩ := link_root hs hc
    refine ⟨s', n, n, n, none, [s.rootAncestor], fun w hw l => ?_, hrun, hinv, htree, hhit,
      .inr ⟨hc, by rw [ite_self]⟩, fun x e hx he => hkeep x ?_⟩
    · obtain ⟨w, rfl⟩ : ∃ v, w = v + 1 + 1 := ⟨w - 2, by omega⟩
      rw [walk_of_not_cached hs hc, hs.top]
      rfl
    · rintro rfl
      exact absurd (hx.unique .root) he.ne'
  | @step i p d hne hup hd ih =>
    by_cases hc : s.Cached i
    · obtain ⟨n, a, hhit⟩ := hc.hit
      exact ⟨_, _, _, _, _, _, queried_of_hit hs hhit (d + 1)⟩
    obtain ⟨t, pn, a, anc, hit, path, hq⟩ := ih
    have hlinked := hq.linked
    have hstep : Depth s.parentOf s.rootAncestor i (d + 1) := .step hne hup hd
    obtain ⟨heap, qtree, rfl⟩ := hlinked.tree.exists_eq
    have hanc : anc = a ∨ ((s.quota p).isEnable = true ∧ anc = pn) := by
      rcases hlinked.anc with ⟨-, h⟩ | ⟨-, h⟩
      · exact .inl h
      · by_cases hen : (s.quota p).isEnable = true
        · rw [if_pos hen] at h
          exact .inr ⟨hen, h⟩
        · rw [if_neg hen] at h
          exact .inl h
    obtain ⟨s', n, b, hrun', hinv, htree', hhit, hkeep⟩ := linkNode_child hlinked.inv hne hup hd
      hlinked.hit hanc (hlinked.deeper i (d + 1) hstep (Nat.lt_succ_self d) hc)
    refine ⟨s', n, b, _, hit, path ++ [i], fun w hw l => ?_, fun fuel => ?_, hinv,
      hlinked.tree.trans htree', hhit, .inr ⟨hc, rfl⟩, fun x e hx he hnx => ?_⟩
    · obtain ⟨w, rfl⟩ : ∃ v, w = v + 1 := ⟨w - 1, by omega⟩
      rw [walk_of_not_cached hs hc, hup, hq.walk w (by omega), List.append_assoc]
      rfl
    · simp only [List.foldlM_append]
      rw [← bind_assoc, hq.run fuel, ok_bind, List.foldlM_cons, hrun' fuel]
      rfl
    · refine hkeep x ?_ (hlinked.deeper x e hx (Nat.lt_of_succ_lt he) hnx)
      rintro rfl
      exact absurd (hx.unique hstep) he.ne'

/-- What `get_quota_root` finds: the nearest ancestor with a quota, the inode included unless
its node is valid. -/
structure Found (s s' : QuotaState) (i r : ℕ) : Prop where
  inv : s'.Inv
  tree : s.SameTree s'
  cached : s'.Cached i
  root : i = s.rootAncestor → r = i
  above : s.Cached i → i ≠ s.rootAncestor → ∃ p, s.parentOf i = some p ∧ s.NearestQuota p r
  nearest : ¬s.Cached i → s.NearestQuota i r

theorem getQuotaRoot_spec (hs : s.Inv) (hd : Depth s.parentOf s.rootAncestor i d) :
    ∃ r s', (∀ fuel, d + 2 ≤ fuel → s.getQuotaRoot fuel i = .ok (r, s')) ∧ s.Found s' i r := by
  obtain ⟨s', n, a, anc, hit, path, hq⟩ := exists_queried hs hd
  obtain ⟨hinv, htree, hhit, hanc, -⟩ := hq.linked
  obtain ⟨heap, qtree, rfl⟩ := htree.exists_eq
  obtain ⟨j, hj⟩ := Option.isSome_iff_exists.mp hhit.live
  have hnear (hi : i ≠ s.rootAncestor) : ∃ p, s.parentOf i = some p ∧ s.NearestQuota p j :=
    hinv.nearest hd hhit hi hj
  have hself : i = s.rootAncestor → a = n := by
    rintro rfl
    exact Option.some.inj (hhit.ancestor.symm.trans (hinv.root n hhit.qtree))
  -- the answer is the inode of the last ancestor
  have hrun : ∀ r, heap.inodeOf anc = some r →
      ∀ fuel, d + 2 ≤ fuel → s.getQuotaRoot fuel i = .ok (r, { s with heap, qtree }) := by
    intro r hr fuel hfuel
    obtain ⟨x, hx, hxin⟩ := Option.bind_eq_some_iff.mp hr
    have hlink := hq.run (fuel - 2)
    rw [Nat.sub_add_cancel (by omega : 2 ≤ fuel)] at hlink
    obtain ⟨c, hc, hfold⟩ := bind_eq_ok.mp hlink
    unfold getQuotaRoot
    rw [hq.walk fuel hfuel, ok_bind]
    dsimp only
    rw [hc, ok_bind, List.append_nil, hfold, ok_bind]
    rw [deref_of hx, ok_bind, hxin]
    rfl
  have hnin := (hinv.nodes i n).mp hhit.qtree
  have hroot : i = s.rootAncestor → j = i := by
    intro hi
    rw [hself hi, hnin] at hj
    exact (Option.some.inj hj).symm
  rcases hanc with ⟨hc, rfl⟩ | ⟨hc, hanc⟩
  · exact ⟨j, _, hrun j hj, hinv, htree, hhit.cached, hroot, fun _ => hnear, fun h => absurd hc h⟩
  · by_cases hen : (s.quota i).isEnable = true
    · rw [if_pos hen] at hanc
      subst hanc
      exact ⟨i, _, hrun i hnin, hinv, htree, hhit.cached, fun _ => rfl, fun h => absurd h hc,
        fun _ => .mark hen⟩
    · rw [if_neg hen] at hanc
      subst hanc
      refine ⟨j, _, hrun j hj, hinv, htree, hhit.cached, hroot, fun h => absurd h hc, fun _ => ?_⟩
      by_cases hi : i = s.rootAncestor
      · rw [hroot hi, hi]
        exact .root
      · obtain ⟨p, hp, hnear⟩ := hnear hi
        exact .step hen hi hp hnear

/-! ### Limits -/

/-- Some ancestor below the root, or the inode, has the property. -/
def SomeAbove (s : QuotaState) (exceeds : ℕ → Bool) (i : ℕ) : Prop :=
  ∃ j, Above s.parentOf s.rootAncestor i j ∧ j ≠ s.rootAncestor ∧ exceeds j = true

def overFiles (s : QuotaState) (i : ℕ) : Bool :=
  (s.quota i).maxFiles ≠ 0 && (s.rstat i).rfiles + (s.rstat i).rsubdirs ≥ (s.quota i).maxFiles

def overBytes (s : QuotaState) (newBytes : ℤ) (i : ℕ) : Bool :=
  (s.quota i).maxBytes ≠ 0 && (s.rstat i).rbytes + newBytes > (s.quota i).maxBytes

/-- The sums that are compared with the limits above an inode are values of `int64_t`. -/
def SumsFit (s : QuotaState) (sum : NestInfo → ℤ) (i : ℕ) : Prop :=
  ∀ j, Above s.parentOf s.rootAncestor i j → -2 ^ 63 ≤ sum (s.rstat j) ∧ sum (s.rstat j) < 2 ^ 63

theorem sum64_of_fits {a b : ℤ} (h : -2 ^ 63 ≤ a + b ∧ a + b < 2 ^ 63) : sum64 a b = a + b := by
  rw [sum64, Int.bmod_def]
  omega

theorem someAbove_congr {above : ℕ → Bool}
    (h : ∀ j, Above s.parentOf s.rootAncestor i j → exceeds j = above j) :
    s.SomeAbove exceeds i ↔ s.SomeAbove above i := by
  refine exists_congr fun j => and_congr_right fun hj => ?_
  rw [h j hj]

/-- A query leads to an inode that sees the same limits above it. -/
theorem Found.someAbove (h : s.Found s' i j)
    (hmark : ∀ j, exceeds j = true → (s.quota j).isEnable = true) (hi : i ≠ s.rootAncestor)
    (hnot : ¬exceeds i = true) : s.SomeAbove exceeds i ↔ s'.SomeAbove exceeds j := by
  obtain ⟨heap, qtree, rfl⟩ := h.tree.exists_eq
  by_cases hc : s.Cached i
  · obtain ⟨p, hp, hnear⟩ := h.above hc hi
    exact (exists_above_iff hi hp fun hj => hnot hj.2).trans
      (hnear.exists_above_iff fun j hj => hmark j hj.2)
  · exact (h.nearest hc).exists_above_iff fun j hj => hmark j hj.2

theorem Found.depth (h : s.Found s' i j) (hd : Depth s.parentOf s.rootAncestor i d)
    (hi : i ≠ s.rootAncestor) :
    (∃ e, e < d ∧ Depth s'.parentOf s'.rootAncestor j e) ∨ (¬s.Cached i ∧ j = i) := by
  obtain ⟨heap, qtree, rfl⟩ := h.tree.exists_eq
  cases hd with
  | root => exact absurd rfl hi
  | @step _ p d _ hup hd =>
    by_cases hc : s.Cached i
    · obtain ⟨q, hq, hnear⟩ := h.above hc hi
      cases hq.symm.trans hup
      obtain ⟨e, he, hde⟩ := hnear.depth hd
      exact .inl ⟨e, Nat.lt_succ_of_le he, hde⟩
    · cases h.nearest hc with
      | mark => exact .inr ⟨hc, rfl⟩
      | root => exact absurd rfl hi
      | step _ _ hup' hnear =>
        cases hup.symm.trans hup'
        obtain ⟨e, he, hde⟩ := hnear.depth hd
        exact .inl ⟨e, Nat.lt_succ_of_le he, hde⟩

theorem isQuotaExceeded_root (exceeds : ℕ → Bool) {rounds} (hrounds : 1 ≤ rounds) :
    isQuotaExceeded fuel exceeds rounds s s.rootAncestor = .ok (false, s) := by
  obtain ⟨r, rfl⟩ := Nat.exists_eq_add_of_le' hrounds
  exact if_pos rfl

theorem not_someAbove_root (exceeds : ℕ → Bool) : ¬s.SomeAbove exceeds s.rootAncestor := by
  rintro ⟨j, habove, hj, -⟩
  exact hj (above_root habove)

/-- The loop over the quota roots sees every limit above the inode. -/
theorem isQuotaExceeded_spec (m : ℕ) (hs : s.Inv)
    (hmark : ∀ j, exceeds j = true → (s.quota j).isEnable = true)
    (hd : Depth s.parentOf s.rootAncestor i d) (hm : 2 * d ≤ m)
    (hnot : ¬s.Cached i → 2 * d + 1 ≤ m) : ∃ b s', (∀ fuel rounds, d + 2 ≤ fuel → m + 1 ≤ rounds →
        isQuotaExceeded fuel exceeds rounds s i = .ok (b, s')) ∧
      s'.Inv ∧ (b = true ↔ s.SomeAbove exceeds i) := by
  induction m generalizing s i d with
  | zero =>
    obtain rfl : d = 0 := by omega
    obtain rfl := hd.eq_root
    exact ⟨false, s, fun _ _ _ hr => isQuotaExceeded_root exceeds hr, hs,
      iff_of_false Bool.false_ne_true (not_someAbove_root exceeds)⟩
  | succ m ih =>
    by_cases hi : i = s.rootAncestor
    · subst hi
      exact ⟨false, s, fun _ _ _ hr => isQuotaExceeded_root exceeds (by omega), hs,
        iff_of_false Bool.false_ne_true (not_someAbove_root exceeds)⟩
    by_cases hover : exceeds i = true
    · refine ⟨true, s, fun fuel rounds _ hrounds => ?_, hs, fun _ => ⟨i, .refl i, hi, hover⟩,
        fun _ => rfl⟩
      obtain ⟨r, rfl⟩ : ∃ r, rounds = r + 1 := ⟨rounds - 1, by omega⟩
      exact (if_neg hi).trans (if_pos hover)
    · obtain ⟨j, t, hrun, hfound⟩ := getQuotaRoot_spec hs hd
      obtain ⟨e, hed, hde, hc, hn⟩ : ∃ e, e ≤ d ∧ Depth t.parentOf t.rootAncestor j e ∧
          2 * e ≤ m ∧ (¬t.Cached j → 2 * e + 1 ≤ m) := by
        rcases hfound.depth hd hi with ⟨e, he, hde⟩ | ⟨hnc, rfl⟩
        · exact ⟨e, he.le, hde, by omega, fun _ => by omega⟩
        · have hm := hnot hnc
          refine ⟨d, le_rfl, ?_, by omega, fun h => absurd hfound.cached h⟩
          obtain ⟨heap, qtree, rfl⟩ := hfound.tree.exists_eq
          exact hd
      obtain ⟨b, s', hloop, hinv, hiff⟩ := ih hfound.inv (hfound.tree.quota ▸ hmark) hde hc hn
      refine ⟨b, s', fun fuel rounds hfuel hrounds => ?_, hinv,
        hiff.trans (hfound.someAbove hmark hi hover).symm⟩
      obtain ⟨r, rfl⟩ : ∃ r, rounds = r + 1 := ⟨rounds - 1, by omega⟩
      unfold isQuotaExceeded
      rw [if_neg hi, if_neg hover, hrun fuel hfuel, ok_bind]
      exact hloop fuel r (by omega) (by omega)

theorem exists_isQuotaExceeded (hs : s.Inv)
    (hmark : ∀ j, exceeds j = true → (s.quota j).isEnable = true) (hi : s.Attached i) :
    ∃ b s', Returns (fun fuel => isQuotaExceeded fuel exceeds fuel s i) (b, s') ∧ s'.Inv ∧
      (b = true ↔ s.SomeAbove exceeds i) := by
  obtain ⟨d, hd⟩ := hi
  obtain ⟨b, s', hrun, hinv, hiff⟩ := isQuotaExceeded_spec (2 * d + 1) hs hmark hd
    (Nat.le_succ _) fun _ => le_rfl
  exact ⟨b, s', ⟨2 * d + 2, fun fuel hfuel => hrun fuel fuel (by omega) hfuel⟩, hinv, hiff⟩

theorem exceedsFiles_enabled (s : QuotaState) (j : ℕ) (h : s.exceedsFiles j = true) :
    (s.quota j).isEnable = true := by
  unfold exceedsFiles at h
  unfold QuotaInfo.isEnable
  simp only [Bool.and_eq_true] at h
  rw [h.1, Bool.or_true]

theorem exceedsBytes_enabled (s : QuotaState) (newBytes : ℤ) (j : ℕ)
    (h : s.exceedsBytes newBytes j = true) : (s.quota j).isEnable = true := by
  unfold exceedsBytes at h
  unfold QuotaInfo.isEnable
  simp only [Bool.and_eq_true] at h
  rw [h.1, Bool.true_or]

/-! ### Every history -/

theorem Step.inv {e} (h : s.Step e s') (hmeets : Meets e s s') (hs : s.Inv) : s'.Inv := by
  have hrun := h.run
  cases e with
  | link i dn dir =>
    obtain ⟨m, hm⟩ := hrun
    exact link_spec hs (h.root i dn dir rfl) (hm (m + 2) (Nat.le_add_right _ _)) hmeets
  | unlink i dn =>
    obtain ⟨m, hm⟩ := hrun
    exact (unlink_spec hs (hm (m + 2) (Nat.le_add_right _ _))).1
  | handleQuota i quota rstat =>
    obtain ⟨m, hm⟩ := hrun
    exact handleQuota_spec hs hmeets (hm (m + 2) (Nat.le_add_right _ _))
  | getQuotaRoot i =>
    obtain ⟨d, hd⟩ := hmeets
    obtain ⟨r, t, hcall, hfound⟩ := getQuotaRoot_spec hs hd
    have hret : Returns (fun fuel => s.getQuotaRoot fuel i) (r, t) := ⟨d + 2, hcall⟩
    cases hrun.unique (hret.map Prod.snd)
    exact hfound.inv
  | isQuotaFilesExceeded i =>
    obtain ⟨b, t, hret, hinv, -⟩ := exists_isQuotaExceeded hs s.exceedsFiles_enabled hmeets
    cases hrun.unique (hret.map Prod.snd)
    exact hinv
  | isQuotaBytesExceeded i newBytes =>
    obtain ⟨b, t, hret, hinv, -⟩ := exists_isQuotaExceeded hs (s.exceedsBytes_enabled newBytes)
      hmeets
    cases hrun.unique (hret.map Prod.snd)
    exact hinv

/-- The answer is the nearest ancestor with a quota, the inode included, unless the inode has a
quota and a valid node. -/
theorem Found.nearest_iff (h : s.Found s' i j) (hd : Depth s.parentOf s.rootAncestor i d) :
    s.NearestQuota i j ↔ ¬(s.Cached i ∧ (s.quota i).isEnable = true ∧ i ≠ s.rootAncestor) := by
  constructor
  · rintro hnear ⟨hc, hen, hi⟩
    -- the answer is above the inode
    have hji : j = i := hnear.unique (.mark hen)
    rcases h.depth hd hi with ⟨e, he, hde⟩ | ⟨hnc, -⟩
    · obtain ⟨heap, qtree, rfl⟩ := h.tree.exists_eq
      exact absurd ((hji ▸ hde).unique hd) he.ne
    · exact hnc hc
  · intro hnot
    by_cases hi : i = s.rootAncestor
    · rw [h.root hi, hi]
      exact .root
    by_cases hc : s.Cached i
    · have hen : ¬(s.quota i).isEnable = true := fun hen => hnot ⟨hc, hen, hi⟩
      obtain ⟨p, hp, hnear⟩ := h.above hc hi
      exact .step hen hi hp hnear
    · exact h.nearest hc

/-- After every history in which no file gets another first parent, unlinked inodes are not
queried, and the node of the root is not alone when its quota is switched: a query of an inode
below the root returns, with the nearest quota root unless the inode has a quota and a valid node
itself, and the limits are checked as the tree says when the sums do not overflow. -/
theorem quotaRoot_nearest {evs : List QuotaEvent} (hinit : s.Initial)
    (htrace : Trace (fun e s s' => s.Step e s' ∧ Meets e s s') s evs s') (hi : s'.Attached i) :
    (∃ r t, Returns (fun fuel => s'.getQuotaRoot fuel i) (r, t) ∧
      (s'.NearestQuota i r ↔
        ¬(s'.Cached i ∧ (s'.quota i).isEnable = true ∧ i ≠ s'.rootAncestor))) ∧
    (∃ b t, Returns (fun fuel => s'.isQuotaFilesExceeded fuel i) (b, t) ∧
      (s'.SumsFit (fun x => x.rfiles + x.rsubdirs) i → (b = true ↔ s'.SomeAbove s'.overFiles i))) ∧
    ∀ newBytes, ∃ b t, Returns (fun fuel => s'.isQuotaBytesExceeded fuel i newBytes) (b, t) ∧
      (s'.SumsFit (fun x => x.rbytes + newBytes) i →
        (b = true ↔ s'.SomeAbove (s'.overBytes newBytes) i)) := by
  have hinv : s'.Inv := htrace.invariant (P := Inv) (fun _ _ _ _ h hs => h.1.inv h.2 hs) hinit.inv
  refine ⟨?_, ?_, ?_⟩
  · obtain ⟨d, hd⟩ := hi
    obtain ⟨r, t, hrun, hfound⟩ := getQuotaRoot_spec hinv hd
    exact ⟨r, t, ⟨d + 2, hrun⟩, hfound.nearest_iff hd⟩
  · obtain ⟨b, t, hret, -, hiff⟩ := exists_isQuotaExceeded hinv s'.exceedsFiles_enabled hi
    refine ⟨b, t, hret, fun hfits => hiff.trans (someAbove_congr fun j hj => ?_)⟩
    rw [exceedsFiles, overFiles, NestInfo.rsize, sum64_of_fits (hfits j hj)]
  · intro newBytes
    obtain ⟨b, t, hret, -, hiff⟩ :=
      exists_isQuotaExceeded hinv (s'.exceedsBytes_enabled newBytes) hi
    refine ⟨b, t, hret, fun hfits => hiff.trans (someAbove_congr fun j hj => ?_)⟩
    rw [exceedsBytes, overBytes, sum64_of_fits (hfits j hj)]

/-! ### A tree -/

/-- Inode 2 is in the directory 1, which is in the root and has a quota; inode 3 is unlinked. -/
def sample : QuotaState where
  dnSet i :=
    if i = 1 then ⟨[(10, 0)], by simp⟩
    else if i = 2 then ⟨[(20, 1)], by simp⟩
    else ∅
  rootParents _ := none
  rootAncestor := 0
  isDir i := i < 2
  quota i := if i = 1 then ⟨0, 5⟩ else ⟨0, 0⟩
  rstat _ := ⟨0, 0, 0⟩
  heap := ⟨fun _ => none, 0⟩
  qtree _ := none

theorem sample_initial : sample.Initial := ⟨rfl, rfl, fun _ => rfl, fun _ => rfl⟩

theorem sample_depth : Depth sample.parentOf sample.rootAncestor 1 1 := .step (by decide) rfl .root

theorem not_cached_sample (i : ℕ) : ¬sample.Cached i := by
  rintro ⟨n, a, hq, -⟩
  cases hq

/-- A query of the file. -/
theorem quotaRoot_nearest_file : ∃ s, Trace (fun e s s' => s.Step e s' ∧ Meets e s s') sample
    [.getQuotaRoot 2] s ∧ s.Attached 2 ∧
      ∃ t, Returns (fun fuel => s.getQuotaRoot fuel 2) (1, t) ∧ s.NearestQuota 2 1 := by
  have hd : Depth sample.parentOf sample.rootAncestor 2 2 := .step (by decide) rfl sample_depth
  obtain ⟨r, s, hrun, hfound⟩ := getQuotaRoot_spec sample_initial.inv hd
  have hret : Returns (fun fuel => sample.getQuotaRoot fuel 2) (r, s) := ⟨4, hrun⟩
  have htrace : Trace (fun e s s' => s.Step e s' ∧ Meets e s s') sample [.getQuotaRoot 2] s :=
    .single ⟨⟨hret.map Prod.snd, by simp⟩, ⟨2, hd⟩⟩
  obtain ⟨heap, qtree, rfl⟩ := hfound.tree.exists_eq
  have hatt : Attached { sample with heap, qtree } 2 := ⟨2, hd⟩
  obtain ⟨⟨r', t, hret', hiff⟩, -, -⟩ := quotaRoot_nearest sample_initial htrace hatt
  have hnear := hiff.mpr fun h => Bool.false_ne_true h.2.1
  have hone : NearestQuota { sample with heap, qtree } 2 1 :=
    .step Bool.false_ne_true (Nat.succ_ne_zero 1) rfl (.mark rfl)
  cases hnear.unique hone
  exact ⟨_, htrace, hatt, t, hret', hone⟩

/-- The second query of the directory with the quota returns the root, a query of the unlinked
inode fails an assertion once the root has a node, and switching the quota of the root on goes
through a deleted node. One byte and `2 ^ 63 - 1` more are not above a limit of 5. -/
theorem quotaRoot_depends_on_cache :
    sample.Initial ∧
    (∃ s t, Returns (fun fuel => sample.getQuotaRoot fuel 1) (1, s) ∧
      Returns (fun fuel => s.getQuotaRoot fuel 1) (0, t) ∧ s.NearestQuota 1 1 ∧
      ∀ fuel, s.getQuotaRoot (fuel + 2) 3 = .error .assertion) ∧
    ((sample.getQuotaRoot 5 0 >>= fun c => c.2.handleQuota 5 0 ⟨1, 0⟩ ⟨0, 0, 0⟩).map fun _ => ()) =
      .error .dangling ∧
    (isQuotaBytesExceeded 5 { sample with quota := fun _ => ⟨5, 0⟩, rstat := fun _ => ⟨1, 0, 0⟩ } 1
      (2 ^ 63 - 1)).toOption.map Prod.fst = some false := by
  obtain ⟨r, s, hrun, hfound⟩ := getQuotaRoot_spec sample_initial.inv sample_depth
  obtain ⟨heap, qtree, rfl⟩ := hfound.tree.exists_eq
  obtain ⟨r', t, hrun', hfound'⟩ := getQuotaRoot_spec hfound.inv sample_depth
  have hr : r = 1 := (hfound.nearest (not_cached_sample 1)).unique (.mark rfl)
  have hr' : r' = 0 := by
    obtain ⟨p, hp, hnear⟩ := hfound'.above hfound.cached Nat.one_ne_zero
    cases hp
    exact hnear.unique .root
  subst hr hr'
  refine ⟨sample_initial, ⟨_, t, ⟨3, hrun⟩, ⟨3, hrun'⟩, .mark rfl, fun fuel => ?_⟩,
    by decide +kernel, by decide +kernel⟩
  -- the root has a node since the first query, and inode 3 has no parent
  have hroot : qtree 0 ≠ none := by
    obtain ⟨n, a, hhit⟩ := hfound.cached.hit
    obtain ⟨p, pn, hchain⟩ := hfound.inv.chain 1 n a hhit Nat.one_ne_zero
    cases hchain.parentOf
    exact Option.ne_none_iff_exists'.mpr ⟨pn, hchain.qtree⟩
  have hnot : ¬Cached { sample with heap, qtree } 3 := by
    intro hc
    obtain ⟨n, a, hhit⟩ := hc.hit
    obtain ⟨p, pn, hchain⟩ := hfound.inv.chain 3 n a hhit (Nat.succ_ne_zero 2)
    cases hchain.parentOf
  unfold getQuotaRoot
  rw [walk_of_not_cached hfound.inv hnot]
  change assertThat (qtree 0 = none) >>= _ >>= _ = _
  rw [assertThat, Fallible.check, if_neg hroot]
  rfl

end QuotaState

end CephDokan.Client
