import CephDokan.Osdc.ObjectCacher.FlushWait
import CephDokan.Osdc.ObjectCacher.ReadSteps

/-!
# Cached reads of a striped range

When `_readx` returns for the extents of a range of the file, and what it returns. A range
without bytes to wait for is read exactly, but a byte in the error state makes the call
throw, and so do an object that is known not to exist, a range of 2 GiB or more, and a
`trim` at the end that comes to a head it must not drop.
-/

namespace CephDokan.ObjectCacher

open Fallible FileBytes Striper

namespace Object

variable (ob : Object) (ex : ObjectExtent)

def Torn : Prop :=
  ∃ b, ex.offset ≤ b ∧ b < ex.offset + ex.length ∧ cells ob.data.entries b = some .missing

def Failed : Prop :=
  ∃ b, ex.offset ≤ b ∧ b < ex.offset + ex.length ∧ cells ob.data.entries b = some .error

/-- A byte of the extent has to be waited for: it is not there, it has been asked for, or it is
asked for again by a new read. -/
def Waits (external : Bool) : Prop :=
  ∃ b, ex.offset ≤ b ∧ b < ex.offset + ex.length ∧
    (cells ob.data.entries b = none ∧ ob.complete = false ∨
      (∃ tid, cells ob.data.entries b = some (.rx tid)) ∨
      external = true ∧ cells ob.data.entries b = some .error)

/-- What a read gives for byte `b`. -/
def byte (b : ℕ) : UInt8 := ((cells ob.data.entries b).map Cell.byte).getD 0

def Absent (oset : ObjectSet) : Prop := oset.returnEnoent = true ∧ ob.objExists = false

end Object

section OneObject

open Cacher Reading

variable {rest : Multiset Item} {f f' : Focus} {m' : Focus.ReadMap} {pre mid : List Entry}
  {ex : ObjectExtent} {external : Bool}

section Charted

variable (h : Focus.Charted rest f {} pre ex.offset (ex.offset + ex.length) mid f' m')

include h

theorem exists_state_cell (P : BhState → Prop) : (∃ x ∈ mid, P x.2.state) ↔ ∃ b, ex.offset ≤ b ∧
      b < ex.offset + ex.length ∧ ∃ c, cells f'.ob.data.entries b = some c ∧ P c.state := by
  obtain ⟨post, hent⟩ := h.entries
  exact h.runs.exists_state_iff (fun x hx => by simp [hent, hx]) h.evolves.ok.shape P

theorem covered_of_charted {b : ℕ} (h1 : ex.offset ≤ b) (h2 : b < ex.offset + ex.length) :
    cells f'.ob.data.entries b ≠ none := by
  obtain ⟨post, hent⟩ := h.entries
  obtain ⟨x, hx, hin⟩ := h.runs.exists_mem h1 h2
  have hcell : cells f'.ob.data.entries b = some (x.2.cell b) :=
    Extents.look_of_mem h.evolves.ok.shape.ordered (by simp [hent, hx]) hin.1 hin.2
  simp [hcell]

theorem exists_error_iff : (∃ x ∈ mid, x.2.state = .error) ↔ f.ob.Failed ex := by
  rw [exists_state_cell h (· = .error)]
  refine exists_congr fun b => and_congr_right fun _ => and_congr_right fun _ => ?_
  rcases h.evolves.cells b with heq | ⟨hnone, heq⟩
  · rw [heq]
    cases cells f.ob.data.entries b with
    | none => simp
    | some x => cases x <;> simp [Cell.state]
  · rw [heq, hnone]
    cases f.ob.complete <;> simp [Cell.state]

omit h in
theorem stalls_iff (external : Bool) (st : BhState) :
    Stalls external st ↔ st = .missing ∨ st = .rx ∨ external = true ∧ st = .error := by
  cases st <;> simp [Stalls, BhState.found]

theorem exists_stalls_iff (hwhole : ¬f.ob.Torn ex) :
    (∃ x ∈ mid, Stalls external x.2.state) ↔ f.ob.Waits ex external := by
  rw [exists_state_cell h (Stalls external)]
  refine exists_congr fun b => and_congr_right fun h1 => and_congr_right fun h2 => ?_
  have hcovered := covered_of_charted h h1 h2
  have hmissing : cells f.ob.data.entries b ≠ some .missing := fun hb => hwhole ⟨b, h1, h2, hb⟩
  simp only [stalls_iff]
  rcases h.evolves.cells b with heq | ⟨hnone, heq⟩
  · rw [heq] at hcovered ⊢
    cases hc : cells f.ob.data.entries b with
    | none => exact absurd hc hcovered
    | some x => cases x <;> simp_all [Cell.state]
  · rw [heq, hnone]
    cases f.ob.complete <;> simp [Cell.state]

theorem Focus.Charted.byte {x} (hx : x ∈ mid) {b : ℕ} (h1 : x.1 ≤ b)
    (h2 : b < x.1 + x.2.length) : (x.2.cell b).byte = f.ob.byte b := by
  obtain ⟨post, hent⟩ := h.entries
  have hcell : cells f'.ob.data.entries b = some (x.2.cell b) :=
    Extents.look_of_mem h.evolves.ok.shape.ordered (by simp [hent, hx]) h1 h2
  unfold Object.byte
  rcases h.evolves.cells b with heq | ⟨hnone, heq⟩
  · rw [← heq, hcell]
    rfl
  · rw [hnone]
    rw [hcell] at heq
    rw [Option.some.inj heq]
    cases f.ob.complete <;> rfl

end Charted

variable {rs : Reading} {key : Soid} {rd : OSDRead} {onfinish : Bool} {ob : Object}

structure Placed (rs : Reading) (key : Soid) (rd : OSDRead) (ex : ObjectExtent) (ob : Object) :
    Prop where
  ok : rs.c.Ok
  find : rs.c.objects.find? key = some ob
  oid : ex.oid = ob.oid
  distinct : rd.extents.Pairwise fun e e' => e.oid ≠ e'.oid
  mem : ex ∈ rd.extents
  pos : 0 < ex.length

theorem Placed.mapAt (h : Placed rs key rd ex ob) (hwhole : ¬ob.Torn ex) :
    ∃ rest f' m' pre mid, Reading.mapAt key rd rs = .ok ({ rs with c := rs.c.put key f' }, m') ∧
      Focus.Charted rest ⟨rs.c.books, ob⟩ {} pre ex.offset (ex.offset + ex.length) mid f' m' ∧
      Laying (rs.c.put key f') key ex m' f'.ob mid := by
  obtain ⟨rest, hf, hput⟩ := h.ok.at h.find
  obtain ⟨f', m', pre, mid, hrun, hmap⟩ := Focus.mapRead_spec hf h.distinct h.mem h.oid h.pos
    (fun b h1 h2 hb => hwhole ⟨b, h1, h2, hb⟩)
  obtain ⟨post, hent⟩ := hmap.entries
  refine ⟨rest, f', m', pre, mid, ?_, hmap, hput f' hmap.evolves.ok hmap.evolves.oid,
    put_find?_self rs.c key f', ⟨pre, post, hent⟩, hmap.runs, hmap.records⟩
  rw [Reading.mapAt, focus_eq h.find, ok_bind, hrun]
  rfl

theorem readObject_torn (h : Placed rs key rd ex ob) (htorn : ob.Torn ex) :
    readObject key rd onfinish external rs ex = .error .assertion := by
  obtain ⟨rest, hf, -⟩ := h.ok.at h.find
  obtain ⟨b, h1, h2, hb⟩ := htorn
  have hrun := Focus.mapRead_missing hf h.distinct h.mem h.oid h1 h2 hb
  rw [readObject, Reading.mapAt, focus_eq h.find, ok_bind, hrun]
  rfl

theorem frags_of_fillable {D} {frags} {len : ℕ}
    (hfill : StripedReadResult.Fillable D frags) (hsum : (frags.map Prod.snd).sum = len) :
    Focus.Frags frags len := by
  refine ⟨fun b hb => (hfill.size b hb).1, hsum, ?_⟩
  refine hfill.order.imp_of_mem ?_
  intro a b ha _ hle
  have := (hfill.size a ha).1
  omega

variable (onfinish external) in
/-- The read waits for a byte of the extent, or the bytes of its heads are copied. -/
theorem readObject_spec (h : Placed rs key rd ex ob) (hwhole : ¬ob.Torn ex)
    (hfrags : Focus.Frags ex.bufferExtents ex.length)
    (hfree : ∀ b ∈ ex.bufferExtents, rs.stripeMap.find? b.1 = none) :
    (¬ob.Waits ex external ∧ ob.Failed ex) ∧
      (∃ err, readObject key rd onfinish external rs ex = .error err) ∨
    ¬(¬ob.Waits ex external ∧ ob.Failed ex) ∧
      ∃ rs', readObject key rd onfinish external rs ex = .ok rs' ∧ rs'.c.Ok ∧
        Only key rs.c rs'.c ∧ rs'.error = rs.error ∧
        (ob.Waits ex external ∧ rs'.success = false ∧ rs'.stripeMap = rs.stripeMap ∨
          ¬ob.Waits ex external ∧ rs'.success = rs.success ∧ Kept rs.c rs'.c ∧
            rs'.stripeMap = Focus.placed ob.byte ex.bufferExtents ex.offset rs.stripeMap) := by
  obtain ⟨rest, f', m', pre, mid, hmapAt, hmap, hlay⟩ := h.mapAt hwhole
  rw [readObject, hmapAt, ok_bind]
  dsimp only
  rw [← exists_error_iff hmap, ← exists_stalls_iff hmap hwhole]
  rcases readMapped_spec { rs with c := rs.c.put key f' } rd onfinish external hlay h.pos with
    ⟨hst, rs', hrun, hok, honly, hsuccess, herror, hmap'⟩ |
    ⟨hno, hits, rs1, f1, hrun, hhits, hlaid, herror⟩
  · exact .inr ⟨fun hf => hf.1 hst, rs', hrun, hok, (only_put rs.c key f').trans honly, herror,
      .inl ⟨hst, hsuccess, hmap'⟩⟩
  have hwaits : ¬∃ x ∈ mid, Stalls external x.2.state := by simpa using hno
  have hstate : ∀ x ∈ mid, x.2.state.found = .hit ∨ x.2.state = .error := by
    intro x hx
    have hst := hno x hx
    rw [stalls_iff] at hst
    cases hx' : x.2.state <;> simp_all [BhState.found]
  have hkept : Kept rs.c (rs.c.put key f') :=
    kept_put h.find hmap.evolves.frame (hmap.stat fun x hx hmiss =>
      hno x hx (.inl (by simp [hmiss, BhState.found])))
  rw [hrun]
  rcases Focus.rmap_spec hlaid h.pos hfrags hstate (fun x hx b h1 h2 => hmap.byte hx h1 h2) hfree
    with ⟨hrmap, hsound⟩ | ⟨⟨err, hrmap⟩, hbad⟩
  · rw [hrmap]
    exact .inr ⟨fun hf => hf.2.elim fun x hx => hsound x hx.1 hx.2, _, rfl, hhits.ok,
      (only_put rs.c key f').trans hhits.only, herror hsound,
      .inr ⟨hwaits, hhits.success, hkept.trans hhits.kept, rfl⟩⟩
  · exact .inl ⟨⟨hwaits, hbad⟩, err, by rw [hrmap]; rfl⟩

end OneObject

/-! ### The loop over the extents -/

namespace Cacher

/-- The object that `get_object` returns for an extent of a read. -/
def readOb (c : Cacher) (oset : ObjectSet) (rd : OSDRead) (ex : ObjectExtent) : Object :=
  c.objectFor (soid ex.pool ex.oid rd.snap) ex.oid ex.objectno oset ex.truncateSize

/-- For an object that does not exist the call returns at once: what is dirty is sent first if the
handler may copy on write, and there is nothing but zeros otherwise. -/
def Answered (c : Cacher) (rd : OSDRead) (ex : ObjectExtent) (ob : Object) : Prop :=
  c.mayCopyOnWrite ex.oid ex.offset ex.length rd.snap = true ∧
      ob.data.entries.any (fun e => e.2.isDirtyOrTx) = true ∨
    ob.data.entries.all (fun e => e.2.state = .zero ∨ e.2.state = .rx) = true

def Stops (c : Cacher) (oset : ObjectSet) (rd : OSDRead) (ex : ObjectExtent) : Prop :=
  (c.readOb oset rd ex).Absent oset ∧ rd.extents.length = 1 ∧ c.Answered rd ex (c.readOb oset rd ex)

/-- The call does not get past this extent: its object does not exist and there are others, a head
is missing, or a head is in the error state and none is to be waited for. -/
def Breaks (c : Cacher) (oset : ObjectSet) (rd : OSDRead) (external : Bool) (ex : ObjectExtent) :
    Prop :=
  (c.readOb oset rd ex).Absent oset ∧ rd.extents.length ≠ 1 ∨ (c.readOb oset rd ex).Torn ex ∨
    ¬(c.readOb oset rd ex).Waits ex external ∧ (c.readOb oset rd ex).Failed ex

variable {c c' : Cacher} {oset : ObjectSet} {rd : OSDRead} {ex : ObjectExtent} {key : Soid}
  {ob : Object}

variable (oset) in
theorem readOb_congr (h : c'.objects.find? (soid ex.pool ex.oid rd.snap) =
    c.objects.find? (soid ex.pool ex.oid rd.snap)) :
    c'.readOb oset rd ex = c.readOb oset rd ex := by
  unfold readOb objectFor
  rw [h]

theorem checkExists_present (hfind : c.objects.find? key = some ob) (h : ¬ob.Absent oset) :
    c.checkExists oset key rd ex = .ok (c, none) := by
  rw [checkExists, focus_eq hfind, ok_bind, if_neg]
  · rfl
  · rintro ⟨h1, h2⟩
    exact h ⟨h1, by simpa using h2⟩

variable (rd ex) in
theorem checkExists_absent (hfind : c.objects.find? key = some ob) (h : ob.Absent oset) :
    c.checkExists oset key rd ex = c.readNonexistent key rd ex := by
  rw [checkExists, focus_eq hfind, ok_bind, if_pos]
  exact ⟨h.1, by simp [h.2]⟩

theorem readNonexistent_several (hfind : c.objects.find? key = some ob)
    (h : rd.extents.length ≠ 1) : c.readNonexistent key rd ex = .error .assertion := by
  rw [readNonexistent, focus_eq hfind, ok_bind]
  rw [assertThat, Fallible.check, if_neg h]
  rfl

variable (ex) in
theorem readNonexistent_single (hc : c.Ok) (hfind : c.objects.find? key = some ob)
    (h : rd.extents.length = 1) :
    (¬c.Answered rd ex ob → c.readNonexistent key rd ex = .ok (c, none)) ∧
      (c.Answered rd ex ob →
        ∃ c' ret, c.readNonexistent key rd ex = .ok (c', some ret) ∧ ret ≤ 0) := by
  rw [readNonexistent, focus_eq hfind, ok_bind]
  rw [assertThat_of h, ok_bind]
  unfold Answered Focus.allZero
  by_cases hcopy : c.mayCopyOnWrite ex.oid ex.offset ex.length rd.snap = true ∧
      ob.data.entries.any (fun e => e.2.isDirtyOrTx) = true
  · refine ⟨fun hno => absurd (.inl hcopy) hno, fun _ => ?_⟩
    obtain ⟨c1, ob1, hwrite, -, hfind1, -⟩ :=
      writeDirty_spec [] ob.data.entries hc hfind rfl (by simp)
    have hwait : c1.atObject key (fun f => .ok (f.waitCommit rd.id)) =
        .ok (c1.put key (Focus.waitCommit ⟨c1.books, ob1⟩ rd.id)) := atObject_eq hfind1 rfl
    rw [if_pos hcopy, hwrite, ok_bind, hwait]
    exact ⟨_, 0, rfl, le_rfl⟩
  · rw [if_neg hcopy]
    constructor
    · intro hno
      rw [if_neg (fun hzero => hno (.inr hzero))]
      rfl
    · intro hans
      rw [if_pos (hans.resolve_left hcopy)]
      exact ⟨c, enoent, rfl, by decide⟩

end Cacher

namespace Reading

open Cacher

variable {c0 : Cacher} {oset : ObjectSet} {rd : OSDRead} {onfinish external : Bool} {rs : Reading}
  {ex : ObjectExtent} {exs : List ObjectExtent} {g : ℕ → UInt8} {D D' : Set ℕ}

/-- The extents `exs` that are still to be read, apart from the positions `D`; `g` is what the cache
`c0` has for each position. -/
structure Plan (c0 : Cacher) (oset : ObjectSet) (rd : OSDRead) (g : ℕ → UInt8) (D : Set ℕ)
    (exs : List ObjectExtent) : Prop where
  distinct : rd.extents.Pairwise fun e e' => e.oid ≠ e'.oid
  mem : ∀ ex ∈ exs, ex ∈ rd.extents
  pos : ∀ ex ∈ exs, 0 < ex.length
  sum : ∀ ex ∈ exs, (ex.bufferExtents.map Prod.snd).sum = ex.length
  fill : ∀ ex ∈ exs, StripedReadResult.Fillable D ex.bufferExtents
  along : ∀ ex ∈ exs, Along (fun i => some (g i))
    (fun j => some ((c0.readOb oset rd ex).byte (ex.offset + j))) ex.bufferExtents
  oids : exs.Pairwise fun e e' => e.oid ≠ e'.oid
  apart : exs.Pairwise fun e e' => ∀ i ∈ span e.bufferExtents, i ∉ span e'.bufferExtents

theorem Plan.tail (h : Plan c0 oset rd g D (ex :: exs)) :
    Plan c0 oset rd g (D ∪ span ex.bufferExtents) exs := by
  obtain ⟨hfirst, hrest⟩ := List.pairwise_cons.mp h.apart
  refine ⟨h.distinct, fun e he => h.mem e (List.mem_cons_of_mem _ he),
    fun e he => h.pos e (List.mem_cons_of_mem _ he),
    fun e he => h.sum e (List.mem_cons_of_mem _ he), ?_,
    fun e he => h.along e (List.mem_cons_of_mem _ he), (List.pairwise_cons.mp h.oids).2, hrest⟩
  intro e he
  have hfill := h.fill e (List.mem_cons_of_mem _ he)
  refine ⟨hfill.size, ?_, hfill.order⟩
  intro i hi hmem
  rcases hmem with hD | hspan
  · exact hfill.free i hi hD
  · exact hfirst e he i hspan hi

/-- Where the loop stands: the objects of `exs` are as in `c0`, and the pieces that were found are
those of `D`, unless the read has to wait. -/
structure Stands (c0 : Cacher) (rd : OSDRead) (g : ℕ → UInt8) (D : Set ℕ) (exs : List ObjectExtent)
    (rs : Reading) : Prop where
  ok : rs.c.Ok
  find : ∀ ex ∈ exs, rs.c.objects.find? (soid ex.pool ex.oid rd.snap) =
    c0.objects.find? (soid ex.pool ex.oid rd.snap)
  copy : rs.c.mayCopyOnWrite = c0.mayCopyOnWrite
  kept : rs.success = true → Kept c0 rs.c
  pieces : ∃ D', D' ⊆ D ∧ Striped g D' rs.stripeMap ∧ (rs.success = true → D' = D)

/-- The state in which the loop comes to an extent, with its object. -/
def opened (oset : ObjectSet) (rd : OSDRead) (rs : Reading) (ex : ObjectExtent) : Reading :=
  { rs with
    c := rs.c.getObject (soid ex.pool ex.oid rd.snap) ex.oid ex.objectno oset ex.truncateSize }

theorem opened_placed (h : Plan c0 oset rd g D (ex :: exs)) (hs : Stands c0 rd g D (ex :: exs) rs) :
    Placed (opened oset rd rs ex) (soid ex.pool ex.oid rd.snap) rd ex (c0.readOb oset rd ex) := by
  have hob := readOb_congr oset (hs.find ex List.mem_cons_self)
  refine ⟨hs.ok.getObject ex.objectno oset ex.truncateSize rfl, ?_, ?_, h.distinct,
    h.mem ex List.mem_cons_self, h.pos ex List.mem_cons_self⟩
  · rw [← hob]
    exact getObject_find? ..
  · have hname : ex.oid = Soid.name (soid ex.pool ex.oid rd.snap) := rfl
    rw [← hob]
    exact (hs.ok.objectFor_oid ex.objectno oset ex.truncateSize hname).symm

theorem opened_only : Only (soid ex.pool ex.oid rd.snap) rs.c (opened oset rd rs ex).c :=
  only_put ..

theorem Stands.next {rs'} (h : Plan c0 oset rd g D (ex :: exs))
    (hs : Stands c0 rd g D (ex :: exs) rs) (hok : rs'.c.Ok)
    (honly : Only (soid ex.pool ex.oid rd.snap) rs.c rs'.c)
    (hkept : rs'.success = true → Kept c0 rs'.c)
    (hpieces : ∃ D', D' ⊆ D ∪ span ex.bufferExtents ∧ Striped g D' rs'.stripeMap ∧
      (rs'.success = true → D' = D ∪ span ex.bufferExtents)) :
    Stands c0 rd g (D ∪ span ex.bufferExtents) exs rs' := by
  refine ⟨hok, ?_, honly.copy.trans hs.copy, hkept, hpieces⟩
  intro e he
  rw [honly.find _ ?_, hs.find e (List.mem_cons_of_mem _ he)]
  intro heq
  have hne := (List.pairwise_cons.mp h.oids).1 e he
  exact hne (congrArg Soid.name heq).symm

section Round

variable (onfinish external) (h : Plan c0 oset rd g D (ex :: exs))
  (hs : Stands c0 rd g D (ex :: exs) rs) (hstop : ¬c0.Stops oset rd ex)

include h hs

theorem readExtent_absent (habs : (c0.readOb oset rd ex).Absent oset)
    (hne : rd.extents.length ≠ 1) :
    readExtent oset rd onfinish external rs ex = .error .assertion := by
  have hplaced := opened_placed h hs
  have hcheck := (checkExists_absent rd ex hplaced.find habs).trans
    (readNonexistent_several hplaced.find hne)
  unfold opened at hcheck
  unfold readExtent
  dsimp only
  rw [hcheck]
  rfl

include hstop

theorem readExtent_eq (habs : ¬((c0.readOb oset rd ex).Absent oset ∧ rd.extents.length ≠ 1)) :
    readExtent oset rd onfinish external rs ex = (do
      let rs ← readObject (soid ex.pool ex.oid rd.snap) rd onfinish external
        (opened oset rd rs ex) ex return .more rs) := by
  have hplaced := opened_placed h hs
  have hcheck : (opened oset rd rs ex).c.checkExists oset (soid ex.pool ex.oid rd.snap) rd ex =
      .ok ((opened oset rd rs ex).c, none) := by
    by_cases hob : (c0.readOb oset rd ex).Absent oset
    · have hone : rd.extents.length = 1 := by
        by_contra hne
        exact habs ⟨hob, hne⟩
      rw [checkExists_absent rd ex hplaced.find hob]
      refine (readNonexistent_single ex hplaced.ok hplaced.find hone).1 ?_
      intro hans
      refine hstop ⟨hob, hone, ?_⟩
      unfold Answered at hans ⊢
      rwa [opened_only.copy, hs.copy] at hans
    · exact checkExists_present hplaced.find hob
  unfold readExtent
  dsimp only
  unfold opened at hcheck ⊢
  rw [hcheck]
  rfl

theorem readExtent_spec : c0.Breaks oset rd external ex ∧
      (∃ err, readExtent oset rd onfinish external rs ex = .error err) ∨
    ¬c0.Breaks oset rd external ex ∧
      ∃ rs', readExtent oset rd onfinish external rs ex = .ok (.more rs') ∧
        Stands c0 rd g (D ∪ span ex.bufferExtents) exs rs' ∧ rs'.error = rs.error ∧
        (rs'.success = true ↔ rs.success = true ∧ ¬(c0.readOb oset rd ex).Waits ex external) := by
  have hplaced := opened_placed h hs
  by_cases habs : (c0.readOb oset rd ex).Absent oset ∧ rd.extents.length ≠ 1
  · exact .inl ⟨.inl habs, _, readExtent_absent onfinish external h hs habs.1 habs.2⟩
  rw [readExtent_eq onfinish external h hs hstop habs]
  unfold Breaks
  simp only [habs, false_or]
  by_cases htorn : (c0.readOb oset rd ex).Torn ex
  · exact .inl ⟨.inl htorn, .assertion, by rw [readObject_torn hplaced htorn]; rfl⟩
  simp only [htorn, false_or]
  obtain ⟨D', hsub, hstriped, hwhen⟩ := hs.pieces
  have hfill := h.fill ex List.mem_cons_self
  have hfill' : StripedReadResult.Fillable D' ex.bufferExtents :=
    ⟨hfill.size, fun i hi hD => hfill.free i hi (hsub hD), hfill.order⟩
  have hfree : ∀ b ∈ ex.bufferExtents, (opened oset rd rs ex).stripeMap.find? b.1 = none := by
    intro b hb
    refine hstriped.find?_eq_none (hfill'.free _ ⟨b, hb, le_rfl, ?_⟩)
    exact Nat.lt_add_of_pos_right (hfill.size b hb).1
  rcases readObject_spec external onfinish hplaced htorn
    (frags_of_fillable hfill (h.sum ex List.mem_cons_self)) hfree with
    ⟨hbreaks, err, hobj⟩ | ⟨hgoes, rs', hobj, hok, honly, herror, hcase⟩
  · exact .inl ⟨hbreaks, err, by rw [hobj]; rfl⟩
  refine .inr ⟨hgoes, rs', by rw [hobj]; rfl, hs.next h hok (opened_only.trans honly) ?_ ?_, herror,
    ?_⟩
  · rcases hcase with ⟨-, hsuccess, -⟩ | ⟨-, hsuccess, hkept, -⟩
    · simp [hsuccess]
    · rw [hsuccess]
      exact fun hc => ((hs.kept hc).trans (kept_getObject ..)).trans hkept
  · rcases hcase with ⟨-, hsuccess, hmap⟩ | ⟨-, hsuccess, -, hmap⟩
    · rw [hmap, hsuccess]
      exact ⟨D', hsub.trans Set.subset_union_left, hstriped, by simp⟩
    · rw [hmap, hsuccess]
      exact ⟨_, Set.union_subset_union_left _ hsub,
        hstriped.placed hfill' (h.along ex List.mem_cons_self), fun hc => by rw [hwhen hc]⟩
  · rcases hcase with ⟨hwaits, hsuccess, -⟩ | ⟨hwaits, hsuccess, -⟩ <;>
      simp [hsuccess, hwaits, opened]

end Round

variable (onfinish external) in
theorem readLoop_spec (h : Plan c0 oset rd g D exs) (hs : Stands c0 rd g D exs rs)
    (hstop : ∀ ex ∈ exs, ¬c0.Stops oset rd ex) : ((∃ ex ∈ exs, c0.Breaks oset rd external ex) →
      ∃ err, readLoop oset rd onfinish external rs exs = .error err) ∧
    ((∀ ex ∈ exs, ¬c0.Breaks oset rd external ex) →
      ∃ rs', readLoop oset rd onfinish external rs exs = .ok (.more rs') ∧ rs'.c.Ok ∧
        (rs'.success = true → Kept c0 rs'.c) ∧ rs'.error = rs.error ∧
        (rs'.success = true ↔ rs.success = true ∧
          ∀ ex ∈ exs, ¬(c0.readOb oset rd ex).Waits ex external) ∧
        (rs'.success = true →
          Striped g (D ∪ {i | ∃ ex ∈ exs, i ∈ span ex.bufferExtents}) rs'.stripeMap)) := by
  induction exs generalizing rs D with
  | nil =>
    refine ⟨by simp, fun _ => ⟨rs, rfl, hs.ok, hs.kept, rfl, by simp, fun hc => ?_⟩⟩
    obtain ⟨D', -, hstriped, hwhen⟩ := hs.pieces
    simpa [hwhen hc] using hstriped
  | cons ex exs ih =>
    rcases readExtent_spec onfinish external h hs (hstop ex List.mem_cons_self) with
      ⟨hbreak, err, hrun⟩ | ⟨hbreak, rs1, hrun, hs1, herror, hsuccess⟩
    · refine ⟨fun _ => ⟨err, ?_⟩, fun hall => absurd hbreak (hall ex List.mem_cons_self)⟩
      rw [readLoop, hrun]
      rfl
    · obtain ⟨hbad, hgood⟩ := ih h.tail hs1 (fun e he => hstop e (List.mem_cons_of_mem _ he))
      have hstep : readLoop oset rd onfinish external rs (ex :: exs) =
          readLoop oset rd onfinish external rs1 exs := by
        rw [readLoop, hrun]
        rfl
      rw [hstep]
      constructor
      · rintro ⟨e, he, hb⟩
        rcases List.mem_cons.mp he with rfl | he
        · exact absurd hb hbreak
        · exact hbad ⟨e, he, hb⟩
      · intro hall
        obtain ⟨rs', hrest, hok, hkept, herror', hsuccess', hstriped⟩ :=
          hgood fun e he => hall e (List.mem_cons_of_mem _ he)
        refine ⟨rs', hrest, hok, hkept, herror'.trans herror, ?_, ?_⟩
        · rw [hsuccess', hsuccess, and_assoc, List.forall_mem_cons]
        · intro hc
          have hset : D ∪ {i | ∃ e ∈ ex :: exs, i ∈ span e.bufferExtents} =
              D ∪ span ex.bufferExtents ∪ {i | ∃ e ∈ exs, i ∈ span e.bufferExtents} := by
            ext i
            simp [or_assoc]
          rw [hset]
          exact hstriped hc

section Readx

variable {len : ℕ} (onfinish external) (hc : c0.Ok) (h : Plan c0 oset rd g ∅ rd.extents)
  (hall : {i | ∃ ex ∈ rd.extents, i ∈ span ex.bufferExtents} = Set.Iio len) (hlen : 0 < len)
  (hheld : c0.Held)

include hc h hall hlen hheld

theorem readx_cases : (∃ ex ∈ rd.extents, c0.Stops oset rd ex) ∧
      (∃ c' ret, (∀ lru, c0.readxTrim lru oset rd onfinish external = .ok (c', ret, none)) ∧
        ret ≤ 0) ∨
    (∀ ex ∈ rd.extents, ¬c0.Stops oset rd ex) ∧
      ((∃ ex ∈ rd.extents, c0.Breaks oset rd external ex) ∧
        (∃ err, ∀ lru, c0.readxTrim lru oset rd onfinish external = .error err) ∨
      (∀ ex ∈ rd.extents, ¬c0.Breaks oset rd external ex) ∧
        ((∃ ex ∈ rd.extents, (c0.readOb oset rd ex).Waits ex external) ∧
          (∃ c', ∀ lru, c0.readxTrim lru oset rd onfinish external = .ok (c', 0, none)) ∨
        (∀ ex ∈ rd.extents, ¬(c0.readOb oset rd ex).Waits ex external) ∧
          ((len < 2 ^ 31 ∧ c0.Fit) ∧ (∀ lru, ∃ c', c0.readxTrim lru oset rd onfinish external =
            .ok (c', len, if rd.wantBl then some (slice g 0 len) else none)) ∨
          ¬(len < 2 ^ 31 ∧ c0.Fit) ∧
            ∃ lru err, c0.readxTrim lru oset rd onfinish external = .error err))) := by
  have hstands : Stands c0 rd g ∅ rd.extents { c := c0 } :=
    ⟨hc, fun _ _ => rfl, rfl, fun _ => Kept.refl c0, ∅, le_rfl, striped_empty g, fun _ => rfl⟩
  by_cases hstop : ∃ ex ∈ rd.extents, c0.Stops oset rd ex
  · refine .inl ⟨hstop, ?_⟩
    obtain ⟨ex, hex, habs, hone, hans⟩ := hstop
    obtain ⟨e, hexs⟩ := List.length_eq_one_iff.mp hone
    rw [hexs] at hex
    obtain rfl := List.mem_singleton.mp hex
    have hs : Stands c0 rd g ∅ [ex] { c := c0 } := hexs ▸ hstands
    have hplan : Plan c0 oset rd g ∅ [ex] := by
      have hplan := h
      rw [hexs] at hplan
      exact hplan
    have hplaced := opened_placed hplan hs
    obtain ⟨c', ret, hrun, hret⟩ :=
      (readNonexistent_single ex hplaced.ok hplaced.find hone).2 (by
        unfold Answered at hans ⊢
        rwa [opened_only.copy])
    have hcheck := checkExists_absent rd ex hplaced.find habs
    rw [hrun] at hcheck
    unfold opened at hcheck
    refine ⟨c', ret, fun lru => ?_, hret⟩
    rw [readxTrim, hexs, readLoop, readExtent]
    rw [hcheck]
    rfl
  push Not at hstop
  refine .inr ⟨hstop, ?_⟩
  obtain ⟨hbad, hgood⟩ := readLoop_spec onfinish external h hstands hstop
  by_cases hbreak : ∃ ex ∈ rd.extents, c0.Breaks oset rd external ex
  · obtain ⟨err, hrun⟩ := hbad hbreak
    exact .inl ⟨hbreak, err, fun lru => by rw [readxTrim, hrun]; rfl⟩
  push Not at hbreak
  obtain ⟨rs', hrun, hok, hkept, herror, hsuccess, hstriped⟩ := hgood hbreak
  rw [Set.empty_union, hall] at hstriped
  refine .inr ⟨hbreak, ?_⟩
  by_cases hwaits : ∃ ex ∈ rd.extents, (c0.readOb oset rd ex).Waits ex external
  · refine .inl ⟨hwaits, rs'.c, fun lru => ?_⟩
    have hfalse : rs'.success = false := by
      rw [← Bool.not_eq_true, hsuccess]
      obtain ⟨ex, hex, hw⟩ := hwaits
      exact fun hc => hc.2 ex hex hw
    rw [readxTrim, hrun, ok_bind]
    dsimp only
    rw [readResult, if_pos (by simp [hfalse]), ok_bind, if_neg (by simp [hfalse])]
    rfl
  · push Not at hwaits
    have htrue : rs'.success = true := hsuccess.mpr ⟨rfl, hwaits⟩
    have htrim : (∀ lru, ∃ c', rs'.c.trim lru = .ok c') ↔ c0.Fit :=
      (trim_returns_iff hok ((hkept htrue).held hheld)).trans (hkept htrue).fit_iff
    refine .inr ⟨hwaits, ?_⟩
    simp only [readxTrim, hrun, ok_bind, readResult_striped (hstriped htrue) hlen htrue herror]
    by_cases hsmall : len < 2 ^ 31
    · simp only [hsmall, true_and, if_pos htrue]
      by_cases hfit : c0.Fit
      · refine .inl ⟨hfit, fun lru => ?_⟩
        obtain ⟨c', htrims⟩ := htrim.mpr hfit lru
        exact ⟨c', by rw [htrims]; rfl⟩
      · obtain ⟨lru, hfails⟩ := not_forall.mp (mt htrim.mp hfit)
        cases hx : rs'.c.trim lru with
        | ok c' => exact absurd ⟨c', hx⟩ hfails
        | error err => exact .inr ⟨hfit, lru, err, by rw [hx]; rfl⟩
    · refine .inr ⟨fun h => hsmall h.1, default, .assertion, ?_⟩
      rw [if_neg hsmall]
      rfl

theorem readx_returns_iff : (∀ lru, ∃ r, c0.readxTrim lru oset rd onfinish external = .ok r) ↔
      (∃ ex ∈ rd.extents, c0.Stops oset rd ex) ∨
        (∀ ex ∈ rd.extents, ¬c0.Breaks oset rd external ex) ∧
          ((∃ ex ∈ rd.extents, (c0.readOb oset rd ex).Waits ex external) ∨
            len < 2 ^ 31 ∧ c0.Fit) := by
  rcases readx_cases onfinish external hc h hall hlen hheld with ⟨hstop, c', ret, hrun, -⟩ |
    ⟨hstop, ⟨⟨ex, hex, hb⟩, err, hrun⟩ | ⟨hno, ⟨hwaits, c', hrun⟩ |
      ⟨hserved, ⟨hfit, hrun⟩ | ⟨hfit, lru, err, hrun⟩⟩⟩⟩
  · exact iff_of_true (fun lru => ⟨_, hrun lru⟩) (.inl hstop)
  · refine iff_of_false (fun hret => by simpa [hrun] using hret default) ?_
    rintro (⟨e, he, hs⟩ | ⟨hno, -⟩)
    · exact hstop e he hs
    · exact hno ex hex hb
  · exact iff_of_true (fun lru => ⟨_, hrun lru⟩) (.inr ⟨hno, .inl hwaits⟩)
  · exact iff_of_true (fun lru => ⟨_, (hrun lru).choose_spec⟩) (.inr ⟨hno, .inr hfit⟩)
  · refine iff_of_false (fun hret => by simpa [hrun] using hret lru) ?_
    rintro (⟨e, he, hs⟩ | ⟨-, ⟨e, he, hw⟩ | hfit'⟩)
    · exact hstop e he hs
    · exact hserved e he hw
    · exact hfit hfit'

theorem readx_breaks_stops {lru : LruOrder} {r}
    (hbreaks : ∃ ex ∈ rd.extents, c0.Breaks oset rd external ex)
    (hr : c0.readxTrim lru oset rd onfinish external = .ok r) :
    ∃ ex ∈ rd.extents, c0.Stops oset rd ex := by
  rcases readx_cases onfinish external hc h hall hlen hheld with ⟨hstop, -⟩ |
    ⟨-, ⟨-, err, hrun⟩ | ⟨hno, -⟩⟩
  · exact hstop
  · cases hr.symm.trans (hrun lru)
  · obtain ⟨ex, hex, hb⟩ := hbreaks
    exact absurd hb (hno ex hex)

omit hc h hall hlen hheld in
theorem readable_extent {ob : Object} (h : ∀ b, ex.offset ≤ b → b < ex.offset + ex.length →
    ∃ x, cells ob.data.entries b = some x ∧ x.state.found = .hit) :
    ¬ob.Torn ex ∧ ¬ob.Waits ex external ∧ ¬ob.Failed ex := by
  refine ⟨?_, ?_, ?_⟩
  all_goals
    rintro ⟨b, h1, h2, hb⟩
    obtain ⟨x, hx, hhit⟩ := h b h1 h2
    rw [hx] at hb
    cases x <;> simp [Cell.state, BhState.found] at hhit hb

theorem readx_exact_iff (hread : ∀ ex ∈ rd.extents, ∀ b, ex.offset ≤ b → b < ex.offset + ex.length →
      ∃ x, cells (c0.readOb oset rd ex).data.entries b = some x ∧ x.state.found = .hit) :
    (∀ lru, ∃ c', c0.readxTrim lru oset rd onfinish external =
        .ok (c', len, if rd.wantBl then some (slice g 0 len) else none)) ↔
      (∀ ex ∈ rd.extents, (c0.readOb oset rd ex).Absent oset →
        rd.extents.length = 1 ∧ ¬c0.Answered rd ex (c0.readOb oset rd ex)) ∧
          len < 2 ^ 31 ∧ c0.Fit := by
  have hsound ex (hex : ex ∈ rd.extents) := readable_extent external (hread ex hex)
  rcases readx_cases onfinish external hc h hall hlen hheld with
    ⟨⟨ex, hex, hs⟩, c', ret, hrun, hret⟩ | ⟨hstop, ⟨⟨ex, hex, hb⟩, err, hrun⟩ |
      ⟨hno, ⟨⟨ex, hex, hw⟩, -⟩ | ⟨-, ⟨hfit, hrun⟩ | ⟨hfit, lru, err, hrun⟩⟩⟩⟩
  · refine iff_of_false (fun hexact => ?_) fun habs => (habs.1 ex hex hs.1).2 hs.2.2
    obtain ⟨c1, hrun1⟩ := hexact default
    have heq := Except.ok.inj (hrun1.symm.trans (hrun default))
    simp only [Prod.mk.injEq] at heq
    omega
  · refine iff_of_false (fun hexact => by simpa [hrun] using hexact default) ?_
    rintro ⟨habs, -⟩
    rcases hb with ⟨ha, hne⟩ | htorn | ⟨-, hfailed⟩
    · exact hne (habs ex hex ha).1
    · exact (hsound ex hex).1 htorn
    · exact (hsound ex hex).2.2 hfailed
  · exact absurd hw (hsound ex hex).2.1
  · refine iff_of_true hrun ⟨fun ex hex habs => ?_, hfit⟩
    have hone : rd.extents.length = 1 := by
      by_contra hne
      exact hno ex hex (.inl ⟨habs, hne⟩)
    exact ⟨hone, fun hans => hstop ex hex ⟨habs, hone, hans⟩⟩
  · exact iff_of_false (fun hexact => by simpa [hrun] using hexact lru) fun hcond => hfit hcond.2

end Readx

end Reading

/-! ### Ranges of a file -/

namespace Cacher

/-- What the cache has for byte `p` of a file. -/
def cellAt (c : Cacher) (layout : FileLayout) (ino snap p : ℕ) : Option Cell :=
  c.cell (soid layout.pgPool (objectFormat ino (layout.objectAt p)) snap) (layout.offsetAt p)

/-- What a read gives for byte `p` of a file. -/
def cachedByte (c : Cacher) (layout : FileLayout) (ino snap p : ℕ) : UInt8 :=
  ((c.cellAt layout ino snap p).map Cell.byte).getD 0

end Cacher

section Range

open Cacher Reading

variable {layout : FileLayout} (hv : cephFileLayoutIsValid layout = true) (ino truncSize : ℕ)
  {offset len : ℕ}

variable {c : Cacher} {oset : ObjectSet} {rd : OSDRead}

theorem readOb_cells (o b : ℕ) :
    cells (c.readOb oset rd (rangeExtent hv ino offset len truncSize o)).data.entries b =
      c.cell (soid layout.pgPool (objectFormat ino o) rd.snap) b := objectFor_cells ..

variable {exs : List ObjectExtent}

theorem plan_range (hrd : rd.extents = exs) (hexs : RangeExtents hv ino offset len truncSize exs) :
    Plan c oset rd (fun i => c.cachedByte layout ino rd.snap (offset + i)) ∅ rd.extents ∧
      {i | ∃ ex ∈ rd.extents, i ∈ span ex.bufferExtents} = Set.Iio len := by
  subst hrd
  refine ⟨⟨hexs.oids, fun _ h => h, ?_, ?_, fun ex hex => hexs.fillable hex, ?_, hexs.oids,
    hexs.disjoint⟩, hexs.span_eq⟩
  · intro ex hex
    obtain ⟨o, ho, rfl⟩ := (hexs.mem ex).mp hex
    exact (rangeExtent_inside hv ino truncSize ho).1
  · intro ex hex
    obtain ⟨o, -, rfl⟩ := (hexs.mem ex).mp hex
    exact rangeExtent_bufferExtents_sum hv ino truncSize o
  · intro ex hex
    obtain ⟨o, -, rfl⟩ := (hexs.mem ex).mp hex
    refine Along.congr ?_ (along_rangeExtent hv
      (fun b => some ((c.readOb oset rd (rangeExtent hv ino offset len truncSize o)).byte b))
      ino offset len truncSize o)
    intro i hi
    have ho := objectAt_of_mem_span hv hi
    simp only [Object.byte, readOb_cells, cachedByte, cellAt, ho]

variable (c oset rd) in
theorem forall_cell_iff (hexs : RangeExtents hv ino offset len truncSize exs)
    (P : Option Cell → Prop) :
    (∀ i < len, P (c.cellAt layout ino rd.snap (offset + i))) ↔ ∀ ex ∈ exs, ∀ b, ex.offset ≤ b →
      b < ex.offset + ex.length → P (cells (c.readOb oset rd ex).data.entries b) := by
  constructor
  · intro h ex hex b h1 h2
    obtain ⟨o, -, rfl⟩ := (hexs.mem ex).mp hex
    obtain ⟨i, hi, ho, hb⟩ := exists_position hv ino truncSize h1 h2
    rw [readOb_cells, ← ho, ← hb]
    exact h i hi
  · intro h i hi
    have hin := offsetAt_mem_rangeExtent hv ino offset truncSize hi
    have hcell := h _ (hexs.mem_objectAt hi) _ hin.1 hin.2
    rw [readOb_cells] at hcell
    exact hcell

end Range

namespace Cacher

def Readable (o : Option Cell) : Prop := ∃ x, o = some x ∧ x.state.found = .hit

/-- When `_readx` returns for a striped range, and what it returns if all bytes are cached.
A byte in the error state is never answered with its error. -/
theorem readx_striped_iff (layout : FileLayout) (hv : cephFileLayoutIsValid layout = true)
    (ino offset len truncSize : ℕ) (hpos : 0 < len) (hrange : offset + len < 2 ^ 64) (c : Cacher)
    (hc : c.Ok) (hheld : c.Held) (oset : ObjectSet) (id snap : ℕ)
    (wantBl dontneed onfinish external : Bool) :
    ∃ exs, fileToExtents ino layout offset len truncSize = .ok exs ∧
      let rd : OSDRead := ⟨id, exs, snap, wantBl, dontneed⟩
      ((∀ lru, ∃ r, c.readxTrim lru oset rd onfinish external = .ok r) ↔
        (∃ ex ∈ exs, c.Stops oset rd ex) ∨
          (∀ ex ∈ exs, ¬c.Breaks oset rd external ex) ∧
            ((∃ ex ∈ exs, (c.readOb oset rd ex).Waits ex external) ∨ len < 2 ^ 31 ∧ c.Fit)) ∧
      ((∀ i < len, Readable (c.cellAt layout ino snap (offset + i))) →
        ((∀ lru, ∃ c', c.readxTrim lru oset rd onfinish external = .ok (c', len, if wantBl then
            some (slice (fun i => c.cachedByte layout ino snap (offset + i)) 0 len) else none)) ↔
          (∀ ex ∈ exs, (c.readOb oset rd ex).Absent oset →
            exs.length = 1 ∧ ¬c.Answered rd ex (c.readOb oset rd ex)) ∧ len < 2 ^ 31 ∧ c.Fit)) ∧
      (external = false →
        (∀ i < len, Readable (c.cellAt layout ino snap (offset + i)) ∨
          c.cellAt layout ino snap (offset + i) = some .error) →
        (∃ i < len, c.cellAt layout ino snap (offset + i) = some .error) →
        ∀ lru r, c.readxTrim lru oset rd onfinish external = .ok r →
          ∃ ex ∈ exs, c.Stops oset rd ex) := by
  obtain ⟨exs, hrun, hexs⟩ := fileToExtents_spec hv ino truncSize hpos hrange
  refine ⟨exs, hrun, ?_⟩
  intro rd
  have hplan : Reading.Plan c oset rd (fun i => c.cachedByte layout ino snap (offset + i)) ∅
      rd.extents ∧ {i | ∃ ex ∈ rd.extents, i ∈ span ex.bufferExtents} = Set.Iio len :=
    plan_range hv ino truncSize rfl hexs
  refine ⟨Reading.readx_returns_iff onfinish external hc hplan.1 hplan.2 hpos hheld, ?_, ?_⟩
  · intro hread
    exact Reading.readx_exact_iff onfinish external hc hplan.1 hplan.2 hpos hheld
      ((forall_cell_iff hv ino truncSize c oset rd hexs Readable).mp hread)
  · intro hretry hcover herror lru r hr
    -- the extent of the byte in the error state has nothing to wait for
    have hbreaks : ∃ ex ∈ exs, c.Breaks oset rd external ex := by
      have hcells := (forall_cell_iff hv ino truncSize c oset rd hexs
        (fun o => Readable o ∨ o = some .error)).mp hcover
      have hsome : ¬∀ ex ∈ exs, ∀ b, ex.offset ≤ b → b < ex.offset + ex.length →
          cells (c.readOb oset rd ex).data.entries b ≠ some .error := by
        intro hall
        obtain ⟨i, hi, herr⟩ := herror
        exact (forall_cell_iff hv ino truncSize c oset rd hexs
          (fun o => o ≠ some .error)).mpr hall i hi herr
      push Not at hsome
      obtain ⟨ex, hex, b, h1, h2, hb⟩ := hsome
      refine ⟨ex, hex, .inr (.inr ⟨?_, b, h1, h2, hb⟩)⟩
      rintro ⟨b', h1', h2', hwait⟩
      have hcell := hcells ex hex b' h1' h2'
      rcases hwait with ⟨hwait, -⟩ | ⟨tid, hwait⟩ | ⟨hext, -⟩
      · rw [hwait] at hcell
        rcases hcell with ⟨x, hx, -⟩ | hx <;> cases hx
      · rw [hwait] at hcell
        rcases hcell with ⟨x, hx, hhit⟩ | hx
        · cases hx
          cases hhit
        · cases hx
      · cases hretry.symm.trans hext
    exact Reading.readx_breaks_stops onfinish external hc hplan.1 hplan.2 hpos hheld hbreaks hr

/-- Two bytes that a read has fetched over the border of two objects are read again. -/
theorem readx_striped_iff_twoObjects :
    let layout : FileLayout :=
      { stripeUnit := 65536, stripeCount := 2, objectSize := 131072, pgPool := 0 }
    let oset : ObjectSet := ⟨0, 0, 0, true⟩
    let exs : List ObjectExtent := [⟨"1.00000000", 0, 65535, 1, 0, 0, [(0, 1)]⟩,
      ⟨"1.00000001", 1, 0, 1, 0, 0, [(1, 1)]⟩]
    let rd : OSDRead := ⟨1, exs, cephNosnap, true, false⟩
    let c : Cacher := { maxSize := 16, maxObjects := 16 }
    fileToExtents 1 layout 65535 2 0 = .ok exs ∧ ∃ c' c'',
      c.run [.readx oset rd true true, .readFinish 1 [5] 1, .readFinish 2 [7] 1] = .ok c' ∧
      c'.readxTrim default oset rd true false = .ok (c'', 2, some [5, 7]) := by
  intro layout oset exs rd c
  obtain ⟨ops, hops⟩ : ∃ ops : List Op, ops =
      [.readx oset rd true true, .readFinish 1 [5] 1, .readFinish 2 [7] 1] := ⟨_, rfl⟩
  obtain ⟨c', hc', hrun⟩ := exists_eq_getD c (c.run ops) (by rw [hops]; decide +kernel)
  have hnew : c.New := ⟨rfl, rfl, rfl, rfl, rfl⟩
  have hall : ∀ op ∈ ops, op.Ok := by
    rw [hops]
    simp [Op.Ok]
  obtain ⟨⟨ls, href⟩, -⟩ := run_refines hnew.ok hnew.sound hall hrun
  have hheld : c'.Held := by
    have hnone : ∀ e ∈ c'.objects.entries, e.2.waitforCommit.entries = [] := by
      rw [hc', hops]
      decide +kernel
    exact fun key ob hfind hne => absurd (hnone _ (SortedMap.mem_of_find? hfind)) hne
  have hfit : c'.Fit := by
    rw [hc', hops]
    decide +kernel
  obtain ⟨exs', hexs', hthm⟩ := readx_striped_iff layout (by decide) 1 65535 2 0 (by decide)
    (by decide) c' href.ok hheld oset 1 cephNosnap true false true false
  have hexs : fileToExtents 1 layout 65535 2 0 = .ok exs := by decide
  cases hexs'.symm.trans hexs
  have hcell : c'.cellAt layout 1 cephNosnap 65535 = some (.clean (some 5)) ∧
      c'.cellAt layout 1 cephNosnap 65536 = some (.clean (some 7)) := by
    rw [hc', hops]
    decide +kernel
  have hthere : ∀ ex ∈ exs, (c'.readOb oset rd ex).objExists = true := by
    rw [hc', hops]
    decide +kernel
  have hreadable : ∀ i < 2, Readable (c'.cellAt layout 1 cephNosnap (65535 + i)) := by
    intro i hi
    interval_cases i
    · exact ⟨_, hcell.1, rfl⟩
    · exact ⟨_, hcell.2, rfl⟩
  have hpresent : ∀ ex ∈ exs, (c'.readOb oset rd ex).Absent oset →
      exs.length = 1 ∧ ¬c'.Answered rd ex (c'.readOb oset rd ex) := by
    intro ex hex habs
    cases (hthere ex hex).symm.trans habs.2
  obtain ⟨c'', hread⟩ := (hthm.2.1 hreadable).mpr ⟨hpresent, by decide, hfit⟩ default
  refine ⟨hexs, c', c'', hops ▸ hrun, ?_⟩
  have hbytes : slice (fun i => c'.cachedByte layout 1 cephNosnap (65535 + i)) 0 2 = [5, 7] := by
    simp only [slice, List.range', List.map_cons, List.map_nil, cachedByte, Nat.add_zero,
      Nat.reduceAdd, hcell]
    rfl
  rw [hread]
  exact congrArg (fun bl => Except.ok (c'', (2 : ℤ), some bl)) hbytes

/-- The backing read fails; the retried read then throws instead of returning the error. A read of
clean bytes of another object, of which the cache holds too many, fails when it trims the cache. -/
theorem readx_error_throws :
    let layout : FileLayout :=
      { stripeUnit := 65536, stripeCount := 1, objectSize := 65536, pgPool := 0 }
    let oset : ObjectSet := ⟨0, 0, 0, false⟩
    let exs : List ObjectExtent := [⟨"1.00000000", 0, 0, 2, 0, 0, [(0, 2)]⟩]
    let exs' : List ObjectExtent := [⟨"1.00000001", 1, 0, 2, 0, 0, [(0, 2)]⟩]
    let rd : OSDRead := ⟨1, exs, cephNosnap, true, false⟩
    let rd' : OSDRead := ⟨2, exs', cephNosnap, true, false⟩
    let next : OSDRead :=
      ⟨3, [⟨"1.00000001", 1, 2, 1, 0, 0, [(0, 1)]⟩], cephNosnap, true, false⟩
    let c : Cacher := { maxSize := 2, maxObjects := 16 }
    let ops : List Op := [.readx oset rd true true, .readFinish 1 [] (-5),
      .readx oset rd' true true, .readFinish 2 [5, 7] 2,
      .readx oset next true true, .readFinish 3 [9] 1]
    cephFileLayoutIsValid layout = true ∧ fileToExtents 1 layout 0 2 0 = .ok exs ∧
      fileToExtents 1 layout 65536 2 0 = .ok exs' ∧
      ∃ c', c.run ops = .ok c' ∧ c'.Ok ∧
        (∀ i < 2, c'.cellAt layout 1 cephNosnap i = some .error) ∧
        (∀ i < 2, Readable (c'.cellAt layout 1 cephNosnap (65536 + i))) ∧
        c'.readxTrim default oset rd true false = .error .endOfBuffer ∧
        c'.readxTrim default oset rd' true false = .error .assertion := by
  intro layout oset exs exs' rd rd' next c ops
  have hrun : (c.run ops).isOk = true := by decide +kernel
  have hnew : c.New := ⟨rfl, rfl, rfl, rfl, rfl⟩
  have hall : ∀ op ∈ ops, op.Ok := by simp [ops, Op.Ok]
  have hok := eq_ok_getD c hrun
  obtain ⟨⟨ls, href⟩, -⟩ := run_refines hnew.ok hnew.sound hall hok
  refine ⟨by decide, by decide, by decide, _, hok, href.ok, by decide +kernel, fun i hi => ?_,
    eq_error_of_fault? (by decide +kernel), eq_error_of_fault? (by decide +kernel)⟩
  interval_cases i
  · exact ⟨.clean (some 5), by decide +kernel, rfl⟩
  · exact ⟨.clean (some 7), by decide +kernel, rfl⟩

end Cacher

end CephDokan.ObjectCacher
