import CephDokan.Lib.Trace
import CephDokan.Osdc.ObjectCacher.Traffic
import CephDokan.Osdc.ObjectCacher.MapRead

/-!
# The cache byte by byte

The abstract model of the cache: for each byte of each object one cell, for each object
what is known about it, and the reads and writes in flight. Buffer heads, LRU lists and
accounts are gone. `Does l v v'` says what each kind of step may do; the functions of the
cache are shown to take only such steps.
-/

namespace CephDokan.ObjectCacher

open Function List

structure View where
  cell : Soid → ℕ → Option Cell
  complete : Soid → Bool
  objExists : Soid → Bool
  held : Soid → ℕ
  reads : List ReadFinish
  writes : List WriteCommit
  lastReadTid : ℕ
  lastTid : ℕ
  calls : List Call

inductive Label
  /-- Heads for bytes that a read wants and the object does not hold. -/
  | fill (key : Soid)
  /-- Heads that a read has to wait for are dropped again. -/
  | abandon (key : Soid)
  | request (key : Soid) (start length : ℕ)
  | send (key : Soid) (start : ℕ) (bl : Bytes) (snapc : SnapContext)
  | write (key : Soid) (offset : ℕ) (data : Bytes) (snapc : SnapContext)
  /-- The reply to a read; `absent` if the object turns out not to exist. -/
  | reply (rd : ReadFinish) (r : ℤ) (absent : Bool)
  /-- The commit of a write; `copied` if the object may have been copied for it. -/
  | commit (w : WriteCommit) (r : ℤ) (copied : Bool)
  | trim (key : Soid)
  | release (key : Soid)
  | purge (key : Soid)
  | discard (key : Soid)
  | close (key : Soid)
  | clear (key : Soid)

def Label.key : Label → Soid
  | fill key | abandon key | request key _ _ | send key _ _ _ | write key _ _ _ | trim key
  | release key | purge key | discard key | close key | clear key => key
  | reply rd _ _ => rd.key
  | commit w _ _ => w.key

def Label.Sends : Label → Prop
  | send _ _ _ _ => True
  | _ => False

def Label.Reads : Label → Prop
  | fill _ | abandon _ | request _ _ _ | send _ _ _ _ => True
  | _ => False

theorem Label.Sends.reads {l : Label} (h : l.Sends) : l.Reads := by
  cases l <;> trivial

namespace View

variable (v : View)

/-- The write of `[off, stop)` meets no dirty byte of another snapshot context at its ends. -/
def Seamless (key : Soid) (off stop : ℕ) (snapc : SnapContext) : Prop :=
  (∀ b x s, b + 1 = off → v.cell key b = some (.dirty x s) → s = snapc) ∧
    ∀ x s, v.cell key stop = some (.dirty x s) → s = snapc

/-- What a step may do to byte `b` of its object. -/
def Local (b : ℕ) : Label → CellRel
  | .fill key => Fills (v.complete key)
  | .abandon _ => Drops Cell.Waiting
  | .request _ start length => fun a a' =>
    if start ≤ b ∧ b < start + length
    then (∃ x, a = some x ∧ x.Waiting) ∧ a' = some (.rx (v.lastReadTid + 1)) else a' = a
  | .send _ start bl snapc => fun a a' =>
    if start ≤ b ∧ b < start + bl.length
    then a = some (.dirty bl[b - start]? snapc) ∧
      a' = some (.tx (v.lastTid + 1) bl[b - start]? snapc)
    else a' = a
  | .write key offset data snapc => fun a a' =>
    (offset ≤ b ∧ b < offset + data.length → ∃ s, a' = some (.dirty data[b - offset]? s)) ∧
    (¬(offset ≤ b ∧ b < offset + data.length) → a'.map Cell.forget = a.map Cell.forget) ∧
    (v.Seamless key offset (offset + data.length) snapc →
      a' =
        if offset ≤ b ∧ b < offset + data.length then some (.dirty data[b - offset]? snapc) else a)
  | .reply rd r absent => Focus.Replied rd r (absent = true)
  | .commit w r _ => Focus.Committed w.tid r
  | .trim _ | .release _ => Drops Cell.Clean
  | .purge _ | .discard _ => Drops fun _ => True
  | .close _ | .clear _ => fun a a' => a' = a

def Ready : Label → Prop
  | .reply rd r absent => rd ∈ v.reads ∧
    (absent = true → r = enoent ∧ rd.trustEnoent = true ∧ v.complete rd.key = false)
  | .commit w _ _ => w ∈ v.writes
  | _ => True

def newRead (key : Soid) (start length : ℕ) : ReadFinish :=
  { tid := v.lastReadTid + 1, key := key, start := start, length := length }

/-- The write that is sent with the data `bl`. -/
def newWrite (key : Soid) (start : ℕ) (bl : Bytes) (snapc : SnapContext) : WriteCommit :=
  { tid := v.lastTid + 1, key := key, start := start, length := bl.length, bl := bl,
    snapc := snapc }

/-- What a step does to everything but the cells. -/
def moved : Label → View
  | .request key start length => { v with
      lastReadTid := v.lastReadTid + 1
      reads := v.reads ++ [v.newRead key start length]
      calls := v.calls ++ [.read (v.newRead key start length)] }
  | .send key start bl snapc => { v with
      lastTid := v.lastTid + 1
      held := update v.held key (v.held key + 1)
      writes := v.writes ++ [v.newWrite key start bl snapc]
      calls := v.calls ++ [.write (v.newWrite key start bl snapc)] }
  | .reply rd _ absent => { v with
      complete := if absent then update v.complete rd.key true else v.complete
      objExists := if absent then update v.objExists rd.key false else v.objExists
      reads := v.reads.filter fun rd' => rd'.tid ≠ rd.tid }
  | .commit w _ copied => { v with
      complete := update v.complete w.key
        (v.complete w.key && (v.objExists w.key || !copied))
      objExists := update v.objExists w.key true
      held := update v.held w.key (v.held w.key - 1)
      writes := v.writes.filter fun w' => w'.tid ≠ w.tid }
  | .trim key => { v with complete := update v.complete key false }
  | .release key | .discard key => { v with
      complete := update v.complete key false
      objExists := update v.objExists key true }
  | .close key => { v with
      complete := update v.complete key false
      objExists := update v.objExists key true
      reads := v.reads.map fun rd => if rd.key = key then { rd with onList := false } else rd }
  | .clear key => { v with
      complete := update v.complete key (v.complete key && v.objExists key)
      objExists := update v.objExists key true
      reads := v.reads.map fun rd =>
        if rd.key = key ∧ rd.onList then { rd with trustEnoent := false } else rd }
  | .fill _ | .abandon _ | .write _ _ _ _ | .purge _ => v

structure Does (l : Label) (v v' : View) : Prop where
  ready : v.Ready l
  here : ∀ b, v.Local b l (v.cell l.key b) (v'.cell l.key b)
  elsewhere : ∀ key, key ≠ l.key → v'.cell key = v.cell key
  frame : v' = { v.moved l with cell := v'.cell }

/-- The reads and writes in flight have numbers of their own; an object is held by each of its
writes; a byte that waits for a read in flight is one the read asks for. -/
structure Sound (v : View) : Prop where
  held : ∀ key, v.held key = v.writes.countP fun w => w.key = key
  writes : v.writes.Pairwise fun w w' => w.tid < w'.tid
  lastTid : ∀ w ∈ v.writes, w.tid ≤ v.lastTid
  reads : v.reads.Pairwise fun rd rd' => rd.tid < rd'.tid
  lastReadTid : ∀ rd ∈ v.reads, rd.tid ≤ v.lastReadTid
  asked : ∀ key b tid, v.cell key b = some (.rx tid) → tid ≤ v.lastReadTid
  inside : ∀ rd ∈ v.reads, ∀ key b, v.cell key b = some (.rx rd.tid) →
    key = rd.key ∧ rd.start ≤ b ∧ b < rd.start + rd.length

section Frame

variable {l : Label} {v v' : View} (h : Does l v v')

include h

theorem Does.reads_eq : v'.reads = (v.moved l).reads := (congrArg View.reads h.frame :)

theorem Does.writes_eq : v'.writes = (v.moved l).writes := (congrArg View.writes h.frame :)

theorem Does.held_eq : v'.held = (v.moved l).held := (congrArg View.held h.frame :)

theorem Does.lastReadTid_eq : v'.lastReadTid = (v.moved l).lastReadTid :=
  (congrArg View.lastReadTid h.frame :)

theorem Does.lastTid_eq : v'.lastTid = (v.moved l).lastTid := (congrArg View.lastTid h.frame :)

theorem Does.calls_eq : v'.calls = (v.moved l).calls := (congrArg View.calls h.frame :)

theorem Does.complete_eq : v'.complete = (v.moved l).complete := (congrArg View.complete h.frame :)

end Frame

def MayDrop : Label → Cell → Prop
  | .abandon _, x => x.Waiting
  | .trim _, x | .release _, x => x.Clean
  | .purge _, _ | .discard _, _ => True
  | .reply _ _ _, x => x.Useless
  | _, _ => False

/-- What a step does to a byte, kind by kind. -/
inductive Turns (v : View) (key : Soid) (b : ℕ) : Label → CellRel
  | keep (l : Label) (a : Option Cell) : Turns v key b l a a
  | zero (hc : v.complete key = true) : Turns v key b (.fill key) none (some .zero)
  | missing : Turns v key b (.fill key) none (some .missing)
  | drop {l : Label} {x : Cell} (h : MayDrop l x) : Turns v key b l (some x) none
  | request {start length : ℕ} {x : Cell} (hx : x.Waiting)
      (hin : start ≤ b ∧ b < start + length) :
      Turns v key b (.request key start length) (some x) (some (.rx (v.lastReadTid + 1)))
  | send {start : ℕ} {bl : Bytes} {x : Option UInt8} {s : SnapContext} :
      Turns v key b (.send key start bl s) (some (.dirty x s)) (some (.tx (v.lastTid + 1) x s))
  | write {offset : ℕ} {data : Bytes} {snapc : SnapContext} (a : Option Cell)
      (x : Option UInt8) (s : SnapContext) :
      Turns v key b (.write key offset data snapc) a (some (.dirty x s))
  | beside {offset : ℕ} {data : Bytes} {snapc : SnapContext} {x y : Cell}
      (h : y.forget = x.forget) :
      Turns v key b (.write key offset data snapc) (some x) (some y)
  | data {rd : ReadFinish} {r : ℤ} {absent : Bool} (x : Option UInt8) :
      Turns v key b (.reply rd r absent) (some (.rx rd.tid)) (some (.clean x))
  | error {rd : ReadFinish} {r : ℤ} {absent : Bool} :
      Turns v key b (.reply rd r absent) (some (.rx rd.tid)) (some .error)
  | clean {w : WriteCommit} {r : ℤ} {copied : Bool} (x : Option UInt8) (s : SnapContext) :
      Turns v key b (.commit w r copied) (some (.tx w.tid x s)) (some (.clean x))
  | again {w : WriteCommit} {r : ℤ} {copied : Bool} (x : Option UInt8) (s : SnapContext) :
      Turns v key b (.commit w r copied) (some (.tx w.tid x s)) (some (.dirty x s))

section

variable {l : Label} {v v' : View} (h : Does l v v')

include h

theorem Does.turns (key : Soid) (b : ℕ) : Turns v key b l (v.cell key b) (v'.cell key b) := by
  by_cases hkey : key = l.key
  swap
  · rw [h.elsewhere key hkey]
    exact .keep l _
  subst hkey
  have hhere := h.here b
  generalize v.cell l.key b = a at hhere ⊢
  generalize v'.cell l.key b = a' at hhere ⊢
  cases l with
  | fill key =>
    rcases hhere with rfl | ⟨rfl, rfl⟩
    · exact .keep _ _
    · cases hc : v.complete key with
      | false => exact .missing
      | true => exact .zero hc
  | abandon key | trim key | release key | purge key | discard key =>
    rcases hhere with rfl | ⟨rfl, x, rfl, hx⟩
    · exact .keep _ _
    · exact .drop hx
  | request key start length =>
    simp only [Local] at hhere
    split_ifs at hhere with hin
    · obtain ⟨⟨x, rfl, hx⟩, rfl⟩ := hhere
      exact .request hx hin
    · exact hhere ▸ .keep _ _
  | send key start bl snapc =>
    simp only [Local] at hhere
    split_ifs at hhere
    · obtain ⟨rfl, rfl⟩ := hhere
      exact .send
    · exact hhere ▸ .keep _ _
  | write key offset data snapc =>
    obtain ⟨hin, hout, -⟩ := hhere
    by_cases hb : offset ≤ b ∧ b < offset + data.length
    · obtain ⟨s, rfl⟩ := hin hb
      exact .write a _ s
    · cases a with
      | none => exact Option.map_eq_none_iff.mp (hout hb) ▸ .keep _ _
      | some x =>
        obtain ⟨y, rfl, hy⟩ := Option.map_eq_some_iff.mp (hout hb)
        exact .beside hy
  | reply rd r absent =>
    cases hhere with
    | keep => exact .keep _ a
    | data x => exact .data x
    | error => exact .error
    | gone => exact .drop (.inr ⟨rd.tid, rfl⟩)
    | useless x _ hx => exact .drop hx
  | commit w r copied =>
    cases hhere with
    | keep => exact .keep _ a
    | clean x s => exact .clean x s
    | again x s => exact .again x s
  | close key | clear key => exact (show a' = a from hhere) ▸ .keep _ _

theorem Does.rx {key} {b tid : ℕ} (hrx : v'.cell key b = some (.rx tid)) :
    v.cell key b = some (.rx tid) ∨ ∃ start length, l = .request key start length ∧
      start ≤ b ∧ b < start + length ∧ tid = v.lastReadTid + 1 := by
  have hturn := h.turns key b
  rw [hrx] at hturn
  generalize v.cell key b = a at hturn ⊢
  cases hturn with
  | keep => exact .inl rfl
  | request hx hin => exact .inr ⟨_, _, rfl, hin.1, hin.2, rfl⟩
  | @beside _ _ _ x _ hforget =>
    cases x <;> cases hforget
    exact .inl rfl

theorem Does.mem_reads {rd} (hrd : rd ∈ v'.reads) :
    (∃ rd0 ∈ v.reads, rd0.tid = rd.tid ∧ rd0.key = rd.key ∧ rd0.start = rd.start ∧
      rd0.length = rd.length) ∨
    (l = .request rd.key rd.start rd.length ∧ rd.tid = v.lastReadTid + 1) := by
  rw [h.reads_eq] at hrd
  cases l with
  | request key start length =>
    rcases mem_append.mp hrd with hrd | hrd
    · exact .inl ⟨rd, hrd, rfl, rfl, rfl, rfl⟩
    · obtain rfl := mem_singleton.mp hrd
      exact .inr ⟨rfl, rfl⟩
  | reply rd' r absent => exact .inl ⟨rd, mem_of_mem_filter hrd, rfl, rfl, rfl, rfl⟩
  | close key | clear key =>
    obtain ⟨rd0, hmem, rfl⟩ := mem_map.mp hrd
    refine .inl ⟨rd0, hmem, ?_⟩
    split_ifs <;> exact ⟨rfl, rfl, rfl, rfl⟩
  | _ => exact .inl ⟨rd, hrd, rfl, rfl, rfl, rfl⟩

theorem Does.lastReadTid_le : v.lastReadTid ≤ v'.lastReadTid := by
  rw [h.lastReadTid_eq]
  cases l <;> simp [moved]

theorem Does.pairwise_reads (hs : v.Sound) : v'.reads.Pairwise fun rd rd' => rd.tid < rd'.tid := by
  rw [h.reads_eq]
  cases l with
  | request key start length =>
    refine pairwise_append.mpr ⟨hs.reads, pairwise_singleton _ _, ?_⟩
    intro rd hrd rd' hrd'
    obtain rfl := mem_singleton.mp hrd'
    have hle := hs.lastReadTid rd hrd
    simp only [newRead]
    omega
  | reply rd r absent => exact hs.reads.filter _
  | close key | clear key =>
    refine pairwise_map.mpr (hs.reads.imp ?_)
    intro a b hab
    split_ifs <;> exact hab
  | _ => exact hs.reads

end

theorem filter_ne_split {α : Type*} {f : α → ℕ} {l} (h : l.Pairwise fun a b => f a < f b)
    {a : α} (ha : a ∈ l) : ∃ pre post, l = pre ++ a :: post ∧
      l.filter (fun x => f x ≠ f a) = pre ++ post := by
  obtain ⟨pre, post, rfl⟩ := append_of_mem ha
  obtain ⟨-, hpost, hpre⟩ := pairwise_append.mp h
  refine ⟨pre, post, rfl, ?_⟩
  rw [filter_append, filter_cons_of_neg (by simp), filter_eq_self.mpr, filter_eq_self.mpr]
  · intro x hx
    have hlt := (pairwise_cons.mp hpost).1 x hx
    simpa using hlt.ne'
  · intro x hx
    have hlt := hpre x hx a mem_cons_self
    simpa using hlt.ne

theorem Does.sound_writes {l} {v v' : View} (h : Does l v v') (hs : v.Sound) :
    (∀ key, v'.held key = v'.writes.countP fun w => w.key = key) ∧
    (v'.writes.Pairwise fun w w' => w.tid < w'.tid) ∧ ∀ w ∈ v'.writes, w.tid ≤ v'.lastTid := by
  rw [h.writes_eq, h.held_eq, h.lastTid_eq]
  cases l with
  | send key start bl snapc =>
    refine ⟨?_, ?_, ?_⟩
    · intro key'
      simp only [moved, countP_append, countP_singleton, ← hs.held]
      by_cases hkey : key' = key
      · simp [hkey, newWrite]
      · simp [hkey, Ne.symm hkey, newWrite]
    · refine pairwise_append.mpr ⟨hs.writes, pairwise_singleton _ _, ?_⟩
      intro w hw w' hw'
      obtain rfl := mem_singleton.mp hw'
      have hle := hs.lastTid w hw
      simp only [newWrite]
      omega
    · intro w hw
      simp only [moved] at hw ⊢
      rcases mem_append.mp hw with hw | hw
      · have hle := hs.lastTid w hw
        omega
      · obtain rfl := mem_singleton.mp hw
        exact le_rfl
  | commit w r copied =>
    obtain ⟨pre, post, heq, hfilter⟩ := filter_ne_split hs.writes h.ready
    refine ⟨?_, hs.writes.filter _, fun w' hw' => hs.lastTid w' (mem_of_mem_filter hw')⟩
    intro key'
    have hheld := hs.held
    simp only [heq, countP_append, countP_cons] at hheld
    simp only [moved, hfilter, countP_append]
    by_cases hkey : key' = w.key
    · subst hkey
      rw [update_self, hheld w.key]
      simp
    · rw [update_of_ne hkey, hheld key']
      simp [Ne.symm hkey]
  | _ => exact ⟨hs.held, hs.writes, hs.lastTid⟩

theorem Does.sound {l} {v v'} (h : Does l v v') (hs : v.Sound) : v'.Sound := by
  obtain ⟨hheld, hwrites, hlast⟩ := h.sound_writes hs
  refine ⟨hheld, hwrites, hlast, h.pairwise_reads hs, ?_, ?_, ?_⟩
  · intro rd hrd
    rcases h.mem_reads hrd with ⟨rd0, hmem, htid, -⟩ | ⟨rfl, htid⟩
    · exact htid ▸ (hs.lastReadTid rd0 hmem).trans h.lastReadTid_le
    · rw [h.lastReadTid_eq, htid]
      exact le_rfl
  · intro key b tid hrx
    rcases h.rx hrx with hrx | ⟨start, length, rfl, -, -, rfl⟩
    · exact (hs.asked key b tid hrx).trans h.lastReadTid_le
    · rw [h.lastReadTid_eq]
      exact le_rfl
  · intro rd hrd key b hrx
    -- the number of a new read is greater than all others, so both sides are old or new
    rcases h.mem_reads hrd with ⟨rd0, hmem, htid, hkey, hstart, hlength⟩ | ⟨rfl, htid⟩
    · rcases h.rx hrx with hrx | ⟨start, length, -, -, -, hnew⟩
      · rw [← hkey, ← hstart, ← hlength]
        exact hs.inside rd0 hmem key b (htid ▸ hrx)
      · have hle := hs.lastReadTid rd0 hmem
        omega
    · rcases h.rx hrx with hrx | ⟨start, length, heq, h1, h2, -⟩
      · have hle := hs.asked key b rd.tid hrx
        omega
      · cases heq
        exact ⟨rfl, h1, h2⟩

end View

end CephDokan.ObjectCacher
