import CephDokan.Osdc.ObjectCacher.Evolution

/-!
# The buffer heads of a read

`map_read` adds buffer heads for the bytes of the read that the object does not hold, and
leaves all others alone. What it records as missing, asked for or failed leads to heads
without data that hold the byte it is recorded for.
-/

namespace CephDokan.ObjectCacher

open Fallible List

/-- A byte that is not there becomes a zero if the object is complete, and missing if not. -/
def Fills (complete : Bool) : CellRel :=
  fun a a' => a' = a ∨ a = none ∧ a' = some (if complete then .zero else .missing)

variable {complete : Bool}

theorem Fills.refl (c : Option Cell) : Fills complete c c := .inl rfl

theorem Fills.trans {a b c} (h : Fills complete a b) (h' : Fills complete b c) :
    Fills complete a c := by
  rcases h' with rfl | ⟨rfl, h'⟩
  · exact h
  · rcases h with rfl | ⟨-, h⟩
    · exact .inr ⟨rfl, h'⟩
    · cases h

def Cell.Waiting (c : Cell) : Prop := c = .missing ∨ c = .error ∨ ∃ tid, c = .rx tid

namespace BufferHead

def Waiting (bh : BufferHead) : Prop := bh.state = .missing ∨ bh.state = .rx ∨ bh.state = .error

variable {bh : BufferHead}

theorem Waiting.bl_eq_nil (h : bh.Waiting) (hfill : bh.Filled) : bh.bl = [] := by
  unfold Filled at hfill
  rcases h with h | h | h <;> simpa [h] using hfill

theorem Waiting.cell (h : bh.Waiting) (b : ℕ) : (bh.cell b).Waiting := by
  unfold BufferHead.cell Cell.Waiting
  rcases h with h | h | h <;> simp [h]

end BufferHead

/-- The four maps of `map_read`. -/
inductive Found
  | hit
  | missing
  | rx
  | error
  deriving DecidableEq

/-- Where `map_read` records a head. -/
def BhState.found : BhState → Found
  | .clean | .dirty | .tx | .zero => .hit
  | .rx => .rx
  | .error => .error
  | .missing => .missing

def Focus.ReadMap.list (m : Focus.ReadMap) : Found → SortedMap ℕ ℕ
  | .hit => m.hits
  | .missing => m.missing
  | .rx => m.rx
  | .error => m.errors

namespace Focus

variable {rest : Multiset Item} {f f' : Focus} {pre post : List Entry} {k cur len : ℕ}
  {m m' : ReadMap}

/-- The pointer `p.2`, recorded for byte `p.1`, leads to a head to wait for with this byte. -/
def Waits (f : Focus) (p : ℕ × ℕ) : Prop :=
  ∃ bh, (p.2, bh) ∈ f.ob.data.entries ∧ p.2 ≤ p.1 ∧ p.1 < p.2 + bh.length ∧ bh.Waiting

structure ReadMap.Ok (f : Focus) (m : ReadMap) : Prop where
  missing : ∀ p ∈ m.missing.entries, f.Waits p
  rx : ∀ p ∈ m.rx.entries, f.Waits p
  errors : ∀ p ∈ m.errors.entries, f.Waits p

theorem ReadMap.Ok.mono (hm : m.Ok f) (h : ∀ e ∈ f.ob.data.entries, e ∈ f'.ob.data.entries) :
    m.Ok f' := by
  have hw : ∀ p, f.Waits p → f'.Waits p := by
    intro p ⟨bh, hmem, hp⟩
    exact ⟨bh, h _ hmem, hp⟩
  exact ⟨fun p hp => hw p (hm.missing p hp), fun p hp => hw p (hm.rx p hp),
    fun p hp => hw p (hm.errors p hp)⟩

theorem mem_insert_cases {m : SortedMap ℕ ℕ} {P : ℕ × ℕ → Prop} {a v : ℕ}
    (hm : ∀ p ∈ m.entries, P p) (hnew : P (a, v)) : ∀ p ∈ (m.insert a v).entries, P p := by
  intro p hp
  rcases (SortedMap.mem_insert _ _ _).mp hp with rfl | ⟨hp, -⟩
  · exact hnew
  · exact hm p hp

/-- `m'` is `m` with the head `k` of state `s` at `cur`. -/
def Recorded (m : ReadMap) (s : BhState) (cur k : ℕ) (m' : ReadMap) : Prop :=
  ∀ q, m'.list q = if q = s.found then (m.list q).insert cur k else m.list q

theorem record_spec {s} (h : s ≠ .missing) (m : ReadMap) (cur k : ℕ) :
    ∃ m', m.record s cur k = .ok m' ∧ Recorded m s cur k m' := by
  cases s with
  | missing => exact absurd rfl h
  | clean | zero | dirty | rx | tx | error =>
    refine ⟨_, rfl, ?_⟩
    intro q
    cases q <;> rfl

variable {bh : BufferHead} {p : Option ℕ}

theorem ReadMap.Ok.recorded (hm : m.Ok f) (hmem : (k, bh) ∈ f.ob.data.entries)
    (hk : k ≤ cur) (hcur : cur < k + bh.length) (h : Recorded m bh.state cur k m') : m'.Ok f := by
  have hlist : ∀ q, q ≠ .hit → (∀ p ∈ (m.list q).entries, f.Waits p) →
      ∀ p ∈ (m'.list q).entries, f.Waits p := by
    intro q hq hold
    rw [h q]
    split_ifs with hfound
    · have hwait : bh.Waiting := by
        unfold BufferHead.Waiting
        cases hstate : bh.state <;> simp_all [BhState.found]
      exact mem_insert_cases hold ⟨bh, hmem, hk, hcur, hwait⟩
    · exact hold
  exact ⟨hlist .missing (by simp) hm.missing, hlist .rx (by simp) hm.rx,
    hlist .error (by simp) hm.errors⟩

theorem mapGap_spec (hf : f.Ok rest) (he : f.ob.data.entries = pre ++ post)
    (hpre : ∀ e ∈ pre, e.1 + e.2.length ≤ cur) (hpost : ∀ e ∈ post, cur + len ≤ e.1)
    (hlen : 0 < len) (m : ReadMap) : ∃ f' m' bh, f.mapGap m cur len = .ok (f', m') ∧
      Evolves rest (Fills f.ob.complete) f f' ∧ bh.length = len ∧
      f'.ob.data.entries = pre ++ (cur, bh) :: post ∧ Recorded m bh.state cur cur m' ∧
      (bh.state = .zero ∨ bh.state = .missing) := by
  have hlt : ∀ e ∈ pre, e.1 < cur := by
    intro e hmem
    have hpos := (hf.shape.entry e (by simp [he, hmem])).pos
    have := hpre e hmem
    omega
  obtain ⟨f1, id, hrun1, hb⟩ := addMissing_aux hf.accounts he len hlt
    (fun e hmem => by have := hpost e hmem; omega)
  have hadd : f.addMissing cur len = .ok f1 := hrun1
  have hcomplete : f1.ob.complete = f.ob.complete := (congrArg Object.complete hb.frame :)
  unfold mapGap
  rw [hadd, ok_bind, hcomplete]
  by_cases hc : f.ob.complete = true
  · obtain ⟨f2, hrun2, hb2⟩ := bhSetState_spec hb.accounts hb.entries .zero
    refine ⟨f2, { m with hits := m.hits.insert cur cur }, _, ?_, ?_, ?_, hb2.entries, ?_, .inl rfl⟩
    · rw [if_pos hc, hrun2]
      rfl
    · refine hf.add he (hb.trans hb2) ⟨rfl, hlen, by simp [BufferHead.withState]⟩ rfl hpre hpost
        Fills.refl ?_
      intro b
      exact .inr ⟨rfl, by rw [hc]; rfl⟩
    · rfl
    · intro q
      cases q <;> rfl
  · refine ⟨f1, { m with missing := m.missing.insert cur cur }, _, if_neg hc, ?_, ?_, hb.entries,
      ?_, .inr rfl⟩
    · refine hf.add he hb ⟨rfl, hlen, by simp⟩ rfl hpre hpost Fills.refl ?_
      intro b
      exact .inr ⟨rfl, by rw [if_neg hc]; rfl⟩
    · rfl
    · intro q
      cases q <;> rfl

/-- Where the loop of `map_read` stands: `pre` is done, `post` still to come. -/
structure At (pre post : List Entry) (p : Option ℕ) (cur : ℕ) : Prop where
  before : ∀ e ∈ pre, e.1 + e.2.length ≤ cur
  behind : ∀ e ∈ post, cur < e.1 + e.2.length
  next : p = post.head?.map Prod.fst

theorem At.skip (hat : At pre ((k, bh) :: post) p cur)
    (he : f.ob.data.entries = pre ++ (k, bh) :: post) (hshape : Shape (pre ++ (k, bh) :: post)) :
    At (pre ++ [(k, bh)]) post (f.ob.data.next k) (k + bh.length) := by
  have hend := hat.behind (k, bh) mem_cons_self
  refine ⟨?_, ?_, SortedMap.next_split he⟩
  · intro e hmem
    rcases mem_append.mp hmem with hmem | hmem
    · have := hat.before e hmem
      simp only at hend
      omega
    · obtain rfl := mem_singleton.mp hmem
      exact le_rfl
  · intro e hmem
    have hle : k + bh.length ≤ e.1 := hshape.le_post e hmem
    have hpos := (hshape.entry e (by simp [hmem])).pos
    omega

theorem At.fill {new} (hat : At pre post p cur)
    (hshape : Shape (pre ++ post)) (hroom : ∀ e ∈ post, cur + new.length ≤ e.1) :
    At (pre ++ [(cur, new)]) post p (cur + new.length) := by
  refine ⟨?_, ?_, hat.next⟩
  · intro e hmem
    rcases mem_append.mp hmem with hmem | hmem
    · have := hat.before e hmem
      omega
    · obtain rfl := mem_singleton.mp hmem
      exact le_rfl
  · intro e hmem
    have hpos := (hshape.entry e (mem_append_right pre hmem)).pos
    have := hroom e hmem
    omega

/-- The part of an object before `cur` is done, and `p` is the first head that is not. -/
def ReadPos (f : Focus) (p : Option ℕ) (cur : ℕ) : Prop :=
  ∃ pre post, f.ob.data.entries = pre ++ post ∧ (∀ e ∈ pre, e.1 + e.2.length ≤ cur) ∧
    (∀ e ∈ post, cur < e.1 + e.2.length) ∧ p = post.head?.map Prod.fst

theorem exists_at (hf : f.Ok rest) (off : ℕ) : ∃ pre post,
    f.ob.data.entries = pre ++ post ∧ At pre post (f.dataLowerBound off) off := by
  obtain ⟨pre, post, he, hpre, hpost⟩ :=
    Extents.exists_split hf.shape.ordered (fun e he => (hf.shape.entry e he).pos) off
  exact ⟨pre, post, he, hpre, hpost, dataLowerBound_spec he (he ▸ hf.shape) hpre hpost⟩

/-- One round of the loop: the head `(k, bh)` with the byte at `cur`, which may be new, is recorded,
and the loop goes on behind it with the heads `post'`. -/
structure Round (rest : Multiset Item) (f : Focus) (m : ReadMap) (pre post : List Entry)
    (cur left k : ℕ) (bh : BufferHead) (post' : List Entry) (f' : Focus) (m' : ReadMap)
    (p' : Option ℕ) : Prop where
  evolves : Evolves rest (Fills f.ob.complete) f f'
  entries : f'.ob.data.entries = pre ++ (k, bh) :: post'
  le : k ≤ cur
  lt : cur < k + bh.length
  recorded : Recorded m bh.state cur k m'
  split : post' = post ∨ post = (k, bh) :: post' ∧ bh.state ≠ .missing
  stat : bh.state ≠ .missing → ∀ st, st ≠ .zero → f'.books.stat st = f.books.stat st
  next : left - min (k + bh.length - cur) left ≠ 0 →
    At (pre ++ [(k, bh)]) post' p' (cur + min (k + bh.length - cur) left)

variable {left : ℕ}

theorem mapReadLoop_round (fuel : ℕ) (hf : f.Ok rest) (he : f.ob.data.entries = pre ++ post)
    (hat : At pre post p cur) (hleft : left ≠ 0) (m : ReadMap) :
    (∃ k bh, (k, bh) ∈ post ∧ k ≤ cur ∧ bh.state = .missing ∧
      mapReadLoop (fuel + 1) f m p cur left = .error .assertion) ∨
    ∃ k bh post' f' m' p', Round rest f m pre post cur left k bh post' f' m' p' ∧
      mapReadLoop (fuel + 1) f m p cur left = mapReadLoop fuel f' m' p'
        (cur + min (k + bh.length - cur) left) (left - min (k + bh.length - cur) left) := by
  have hfill {n : ℕ} (hn : 0 < n) (hle : n ≤ left) (hroom : ∀ e ∈ post, cur + n ≤ e.1) :
      ∃ bh f' m', f.mapGap m cur n = .ok (f', m') ∧ min (cur + bh.length - cur) left = n ∧
        Round rest f m pre post cur left cur bh post f' m' p := by
    obtain ⟨f', m', bh, hgap, hev, rfl, hent, hrec, hnew⟩ := mapGap_spec hf he hat.before hroom hn m
    have hmin : min (cur + bh.length - cur) left = bh.length := by omega
    refine ⟨bh, f', m', hgap, hmin, hev, hent, le_rfl, by omega, hrec, .inl rfl, ?_, fun _ => ?_⟩
    · intro hwhole st hst
      have hstat := hev.ok.accounts.stat_mid hent hf.accounts he hev.oset.symm st
      rwa [BufferHead.item_weight, hnew.resolve_right hwhole, if_neg hst.symm, zero_add] at hstat
    · rw [hmin]
      exact hat.fill (he ▸ hf.shape) hroom
  obtain rfl := hat.next
  rw [show mapReadLoop (fuel + 1) f m _ cur left = _ from if_neg hleft]
  cases post with
  | nil =>
    obtain ⟨bh, f', m', hgap, hmin, hround⟩ := hfill (Nat.pos_of_ne_zero hleft) le_rfl (by simp)
    refine .inr ⟨cur, bh, [], f', m', _, hround, ?_⟩
    rw [hmin, Nat.sub_self]
    cases fuel <;> exact hgap
  | cons e post =>
    obtain ⟨k, bh⟩ := e
    have hend : cur < k + bh.length := hat.behind (k, bh) mem_cons_self
    have hshape : Shape (pre ++ (k, bh) :: post) := he ▸ hf.shape
    simp only [head?_cons, Option.map_some] at hat hfill ⊢
    by_cases hk : k ≤ cur
    · have hstop : bh.stop = k + bh.length := hshape.mid_ok.stop
      rw [if_pos hk, deref_eq he, ok_bind, hstop]
      by_cases hhead : bh.state = .missing
      · exact .inl ⟨k, bh, mem_cons_self, hk, hhead, by rw [hhead]; rfl⟩
      · obtain ⟨m1, hrec, hrecd⟩ := record_spec hhead m cur k
        refine .inr ⟨k, bh, post, f, m1, f.ob.data.next k,
          ⟨Evolves.refl hf Fills.refl, he, hk, hend,
          hrecd, .inr ⟨rfl, hhead⟩, fun _ _ _ => rfl, fun hmore => ?_⟩, by rw [hrec, ok_bind]⟩
        rw [show cur + min (k + bh.length - cur) left = k + bh.length by omega]
        exact hat.skip he hshape
    · obtain ⟨new, f', m', hgap, hmin, hround⟩ := hfill (n := min (k - cur) left) (by omega)
        (by omega) (room_of_gap hshape (by omega))
      refine .inr ⟨cur, new, (k, bh) :: post, f', m', some k, hround, ?_⟩
      rw [if_neg hk, hgap, hmin, ok_bind]

theorem mapReadLoop_evolves (fuel : ℕ) (hf : f.Ok rest) (hm : m.Ok f)
    (hp : left ≠ 0 → ReadPos f p cur) (hrun : mapReadLoop fuel f m p cur left = .ok (f', m')) :
    Evolves rest (Fills f.ob.complete) f f' ∧ m'.Ok f' := by
  induction fuel generalizing f m p cur left with
  | zero =>
    unfold mapReadLoop at hrun
    split_ifs at hrun
    cases hrun
    exact ⟨Evolves.refl hf Fills.refl, hm⟩
  | succ fuel ih =>
    by_cases hleft : left = 0
    · subst hleft
      cases hrun
      exact ⟨Evolves.refl hf Fills.refl, hm⟩
    obtain ⟨pre, post, he, hpre, hpost, hnext⟩ := hp hleft
    rcases mapReadLoop_round fuel hf he ⟨hpre, hpost, hnext⟩ hleft m with
      ⟨k, bh, -, -, -, hfail⟩ | ⟨k, bh, post', f1, m1, p1, h, hgo⟩
    · cases hfail.symm.trans hrun
    · have hkept : ∀ e ∈ f.ob.data.entries, e ∈ f1.ob.data.entries := by
        rw [he, h.entries]
        rcases h.split with rfl | ⟨rfl, -⟩ <;> simp +contextual [or_imp]
      have hrest := ih h.evolves.ok
        ((hm.mono hkept).recorded (by simp [h.entries]) h.le h.lt h.recorded)
        (fun hmore => by
          obtain ⟨hpre, hpost, hnext⟩ := h.next hmore
          exact ⟨_, post', by simp [h.entries], hpre, hpost, hnext⟩)
        (hgo.symm.trans hrun)
      rw [h.evolves.complete] at hrest
      exact ⟨h.evolves.trans hrest.1 (fun _ _ _ => Fills.trans), hrest.2⟩

theorem mapRead_evolves (extents : List ObjectExtent) (hf : f.Ok rest) (hm : m.Ok f)
    (hrun : f.mapRead extents m = .ok (f', m')) :
    Evolves rest (Fills f.ob.complete) f f' ∧ m'.Ok f' := by
  induction extents generalizing f m with
  | nil =>
    cases hrun
    exact ⟨Evolves.refl hf Fills.refl, hm⟩
  | cons ex extents ih =>
    unfold mapRead at hrun
    split_ifs at hrun with hoid
    · exact ih hf hm hrun
    · obtain ⟨⟨g, m1⟩, hloop, hrun⟩ := bind_eq_ok.mp hrun
      obtain ⟨pre, post, he, hat⟩ := exists_at hf ex.offset
      obtain ⟨hev, hm1⟩ := mapReadLoop_evolves _ hf hm
        (fun _ => ⟨pre, post, he, hat.before, hat.behind, hat.next⟩) hloop
      have hrec := ih hev.ok hm1 hrun
      rw [hev.complete] at hrec
      exact ⟨hev.trans hrec.1 (fun _ _ _ => Fills.trans), hrec.2⟩

end Focus

end CephDokan.ObjectCacher
