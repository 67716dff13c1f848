import CephDokan.Osdc.ObjectCacher.MapRead

/-!
# All heads of a read

After `map_read` the heads of an extent lie one after the other from its first to its last
byte (`Runs`), and each of them is recorded once, by its state and at the first byte that is
wanted of it. Only a missing head that is there beforehand makes it fail.
-/

namespace CephDokan.ObjectCacher

open Fallible List

def Cell.state : Cell → BhState
  | .missing => .missing
  | .clean _ => .clean
  | .zero => .zero
  | .dirty _ _ => .dirty
  | .rx _ => .rx
  | .tx _ _ _ => .tx
  | .error => .error

theorem BufferHead.cell_state (bh : BufferHead) (b : ℕ) : (bh.cell b).state = bh.state := by
  unfold BufferHead.cell
  cases bh.state <;> rfl

/-- The heads of `l` lie one after the other from the byte `lo` to the last one before `hi`. -/
def Runs : List Entry → ℕ → ℕ → Prop
  | [], lo, hi => hi ≤ lo
  | e :: l, lo, hi => e.1 ≤ lo ∧ lo < e.1 + e.2.length ∧ lo < hi ∧ Runs l (e.1 + e.2.length) hi

variable {e : Entry} {b : ℕ}

namespace Runs

variable {l : List Entry} {lo hi : ℕ}

section

variable (h : Runs l lo hi)

include h

theorem eq_nil (hle : hi ≤ lo) : l = [] := by
  cases l with
  | nil => rfl
  | cons e l => exact absurd h.2.2.1 (by omega)

theorem meets (he : e ∈ l) : max lo e.1 < e.1 + e.2.length ∧ max lo e.1 < hi := by
  induction l generalizing lo with
  | nil => cases he
  | cons x l ih =>
    obtain ⟨h1, h2, h3, hrest⟩ := h
    rcases mem_cons.mp he with rfl | he
    · omega
    · have := ih hrest he
      omega

theorem exists_mem (h1 : lo ≤ b) (h2 : b < hi) : ∃ e ∈ l, e.1 ≤ b ∧ b < e.1 + e.2.length := by
  induction l generalizing lo with
  | nil =>
    simp only [Runs] at h
    omega
  | cons x l ih =>
    obtain ⟨hx1, hx2, -, hrest⟩ := h
    by_cases hb : b < x.1 + x.2.length
    · exact ⟨x, mem_cons_self, by omega, hb⟩
    · obtain ⟨e, he, hin⟩ := ih hrest (by omega)
      exact ⟨e, mem_cons_of_mem _ he, hin⟩

theorem exists_state_iff {all} (hsub : ∀ e ∈ l, e ∈ all) (hall : Shape all)
    (P : BhState → Prop) : (∃ e ∈ l, P e.2.state) ↔
      ∃ b, lo ≤ b ∧ b < hi ∧ ∃ c, cells all b = some c ∧ P c.state := by
  constructor
  · rintro ⟨e, he, hP⟩
    have hin := h.meets he
    exact ⟨max lo e.1, le_max_left _ _, hin.2, _,
      Extents.look_of_mem hall.ordered (hsub e he) (le_max_right _ _) hin.1,
      by rwa [BufferHead.cell_state]⟩
  · rintro ⟨b, h1, h2, c, hb, hP⟩
    obtain ⟨e, he, hin⟩ := h.exists_mem h1 h2
    have hcell : cells all b = some (e.2.cell b) :=
      Extents.look_of_mem hall.ordered (hsub e he) hin.1 hin.2
    obtain rfl := Option.some.inj (hcell.symm.trans hb)
    exact ⟨e, he, by rwa [BufferHead.cell_state] at hP⟩

end

end Runs

namespace Focus

variable {rest : Multiset Item} {f f' : Focus} {pre post mid : List Entry} {k cur len left : ℕ}
  {m m' : ReadMap}

/-- `m'` has in addition to `m` the heads of `mid`, each at the first byte from `cur` on. -/
def Records (m : ReadMap) (mid : List Entry) (cur : ℕ) (m' : ReadMap) : Prop :=
  ∀ q p, p ∈ (m'.list q).entries ↔
    p ∈ (m.list q).entries ∨ ∃ e ∈ mid, e.2.state.found = q ∧ p = (max cur e.1, e.1)

/-- Nothing is recorded from `cur` on. -/
def Below (m : ReadMap) (cur : ℕ) : Prop := ∀ q, ∀ p ∈ (m.list q).entries, p.1 < cur

variable {cur' : ℕ}

section

variable {s : BhState} (h : Recorded m s cur k m') (hm : Below m cur)

include h hm

theorem Recorded.mem {q} {p} : p ∈ (m'.list q).entries ↔
      p ∈ (m.list q).entries ∨ s.found = q ∧ p = (cur, k) := by
  rw [h q]
  split_ifs with hq
  · subst hq
    rw [SortedMap.mem_insert]
    constructor
    · rintro (rfl | ⟨hp, -⟩)
      · exact .inr ⟨rfl, rfl⟩
      · exact .inl hp
    · rintro (hp | ⟨-, rfl⟩)
      · exact .inr ⟨hp, (hm _ p hp).ne⟩
      · exact .inl rfl
  · constructor
    · exact .inl
    · rintro (hp | ⟨rfl, -⟩)
      · exact hp
      · exact absurd rfl hq

theorem Recorded.below (hlt : cur < cur') : Below m' cur' := by
  intro q p hp
  rcases (h.mem hm).mp hp with hp | ⟨-, rfl⟩
  · exact (hm q p hp).trans hlt
  · exact hlt

end

variable {bh : BufferHead}

theorem Recorded.cons {m''} (h : Recorded m bh.state cur k m') (hm : Below m cur)
    (hk : k ≤ cur) (hmid : ∀ e ∈ mid, cur' ≤ e.1) (hcur : cur ≤ cur')
    (hrest : Records m' mid cur' m'') : Records m ((k, bh) :: mid) cur m'' := by
  intro q p
  have hfirst : max cur k = cur := max_eq_left hk
  have hothers : ∀ e ∈ mid, max cur' e.1 = max cur e.1 := by
    intro e he
    have := hmid e he
    omega
  rw [hrest q p, h.mem hm, or_assoc]
  apply or_congr Iff.rfl
  constructor
  · rintro (⟨hq, rfl⟩ | ⟨e, he, hq, rfl⟩)
    · exact ⟨(k, bh), mem_cons_self, hq, by rw [hfirst]⟩
    · exact ⟨e, mem_cons_of_mem _ he, hq, by rw [hothers e he]⟩
  · rintro ⟨e, he, hq, rfl⟩
    rcases mem_cons.mp he with rfl | he
    · exact .inl ⟨hq, by rw [hfirst]⟩
    · exact .inr ⟨e, he, hq, by rw [hothers e he]⟩

/-- The heads from `cur` on, behind those of `pre`, and the map that records them. -/
structure Charted (rest : Multiset Item) (f : Focus) (m : ReadMap) (pre : List Entry) (cur hi : ℕ)
    (mid : List Entry) (f' : Focus) (m' : ReadMap) : Prop where
  evolves : Evolves rest (Fills f.ob.complete) f f'
  entries : ∃ post, f'.ob.data.entries = pre ++ (mid ++ post)
  runs : Runs mid cur hi
  records : Records m mid cur m'
  stat : (∀ x ∈ mid, x.2.state ≠ .missing) → ∀ st, st ≠ .zero → f'.books.stat st = f.books.stat st

theorem Charted.le_of_mem {hi : ℕ} (h : Charted rest f m (pre ++ [(k, bh)]) cur hi mid f' m')
    {x} (hx : x ∈ mid) : k + bh.length ≤ x.1 := by
  obtain ⟨post, hent⟩ := h.entries
  have hshape : Shape (pre ++ (k, bh) :: (mid ++ post)) := by
    have := h.evolves.ok.shape
    rw [hent] at this
    simpa using this
  exact hshape.le_post x (by simp [hx])

section

variable (fuel : ℕ) {p : Option ℕ} (hf : f.Ok rest) (he : f.ob.data.entries = pre ++ post)

include fuel hf he

theorem mapReadLoop_spec (hat : left ≠ 0 → At pre post p cur) (hfuel : left ≤ fuel)
    (hm : Below m cur) (hwhole : ∀ e ∈ post, e.1 < cur + left → e.2.state ≠ .missing) :
    ∃ f' m' mid, mapReadLoop fuel f m p cur left = .ok (f', m') ∧
      Charted rest f m pre cur (cur + left) mid f' m' := by
  induction fuel generalizing f m p cur left pre post with
  | zero =>
    obtain rfl : left = 0 := Nat.le_zero.mp hfuel
    refine ⟨f, m, [], rfl, Evolves.refl hf Fills.refl, ⟨post, he⟩, le_rfl, ?_, fun _ _ _ => rfl⟩
    simp [Records]
  | succ fuel ih =>
    by_cases hleft : left = 0
    · subst hleft
      refine ⟨f, m, [], if_pos rfl, Evolves.refl hf Fills.refl, ⟨post, he⟩, le_rfl, ?_,
        fun _ _ _ => rfl⟩
      simp [Records]
    rcases mapReadLoop_round fuel hf he (hat hleft) hleft m with
      ⟨k, bh, hmem, hk, hmissing, -⟩ | ⟨k, bh, post', f1, m1, p1, h, hgo⟩
    · exact absurd hmissing (hwhole (k, bh) hmem (by dsimp only; omega))
    have hk := h.le
    have hend := h.lt
    obtain ⟨n, hn⟩ : ∃ n, n = min (k + bh.length - cur) left := ⟨_, rfl⟩
    have hnext := h.next
    rw [← hn] at hgo hnext
    have hsub : ∀ e ∈ post', e ∈ post := by
      rcases h.split with rfl | ⟨rfl, -⟩ <;> simp +contextual
    obtain ⟨f', m', mid, hrun, hmap⟩ := ih h.evolves.ok (by simp [h.entries]) hnext (by omega)
      (h.recorded.below hm (by omega : cur < cur + n))
      (fun e hmem hlt => hwhole e (hsub e hmem) (by omega))
    refine ⟨f', m', (k, bh) :: mid, hgo.trans hrun, ?_, ?_, ⟨hk, hend, by omega, ?_⟩, ?_, ?_⟩
    · have hrest := hmap.evolves
      rw [h.evolves.complete] at hrest
      exact h.evolves.trans hrest (fun _ _ _ => Fills.trans)
    · obtain ⟨post', hent⟩ := hmap.entries
      exact ⟨post', by simp [hent]⟩
    · have hruns := hmap.runs
      by_cases hmore : left - n = 0
      · rw [hmore] at hruns
        rw [hruns.eq_nil le_rfl]
        simp only [Runs]
        omega
      · rwa [show cur + n = k + bh.length by omega,
          show k + bh.length + (left - n) = cur + left by omega] at hruns
    · refine h.recorded.cons hm hk ?_ (Nat.le_add_right cur n) hmap.records
      intro e hmem
      have := hmap.le_of_mem hmem
      omega
    · intro hno st hst
      obtain ⟨hhead, hrest⟩ := forall_mem_cons.mp hno
      rw [hmap.stat hrest st hst, h.stat hhead st hst]

theorem mapReadLoop_missing (hat : At pre post p cur) (hfuel : left ≤ fuel) (hleft : left ≠ 0)
    (hmem : e ∈ post) (hlt : e.1 < cur + left) (hmissing : e.2.state = .missing) (m : ReadMap) :
    mapReadLoop fuel f m p cur left = .error .assertion := by
  induction fuel generalizing f m p cur left pre post with
  | zero => exact absurd (Nat.le_zero.mp hfuel) hleft
  | succ fuel ih =>
    rcases mapReadLoop_round fuel hf he hat hleft m with
      ⟨k, bh, -, -, -, hfail⟩ | ⟨k, bh, post', f1, m1, p1, h, hgo⟩
    · exact hfail
    have hshape : Shape (pre ++ (k, bh) :: post') := h.entries ▸ h.evolves.ok.shape
    have hlt' := h.lt
    have hin : e ∈ post' := by
      rcases h.split with rfl | ⟨rfl, hhead⟩
      · exact hmem
      · rcases mem_cons.mp hmem with rfl | hmem
        · exact absurd hmissing hhead
        · exact hmem
    have hle : k + bh.length ≤ e.1 := hshape.le_post e hin
    rw [hgo]
    exact ih h.evolves.ok (by simp [h.entries]) (h.next (by omega)) (by omega) (by omega) hin
      (by omega) m1

end

/-! ### The extents of other objects -/

variable {extents : List ObjectExtent} {ex : ObjectExtent}

theorem mapRead_others (h : ∀ e ∈ extents, e.oid ≠ f.ob.oid)
    (m : ReadMap) : f.mapRead extents m = .ok (f, m) := by
  induction extents with
  | nil => rfl
  | cons e extents ih =>
    rw [mapRead, if_pos (h e mem_cons_self)]
    exact ih fun e he => h e (mem_cons_of_mem _ he)

theorem mapRead_eq (hdistinct : extents.Pairwise fun e e' => e.oid ≠ e'.oid) (hex : ex ∈ extents)
    (hoid : ex.oid = f.ob.oid) (hsame : ∀ r,
      mapReadLoop ex.length f m (f.dataLowerBound ex.offset) ex.offset ex.length = .ok r →
        r.1.ob.oid = f.ob.oid) : f.mapRead extents m =
      mapReadLoop ex.length f m (f.dataLowerBound ex.offset) ex.offset ex.length := by
  induction extents with
  | nil => cases hex
  | cons e extents ih =>
    obtain ⟨hfirst, hrest⟩ := pairwise_cons.mp hdistinct
    rw [mapRead]
    rcases mem_cons.mp hex with rfl | hex
    · rw [if_neg (not_not.mpr hoid)]
      cases hloop : mapReadLoop ex.length f m (f.dataLowerBound ex.offset) ex.offset ex.length with
      | error err => rfl
      | ok r =>
        apply mapRead_others
        intro e he
        rw [hsame r hloop, ← hoid]
        exact (hfirst e he).symm
    · rw [if_pos (hoid ▸ hfirst ex hex)]
      exact ih hrest hex

section

variable (hf : f.Ok rest) (hdistinct : extents.Pairwise fun e e' => e.oid ≠ e'.oid)
  (hex : ex ∈ extents) (hoid : ex.oid = f.ob.oid)

include hf hdistinct hex hoid

theorem mapRead_spec (hlen : 0 < ex.length)
    (hwhole : ∀ b, ex.offset ≤ b → b < ex.offset + ex.length →
      cells f.ob.data.entries b ≠ some .missing) :
    ∃ f' m' pre mid, f.mapRead extents {} = .ok (f', m') ∧
      Charted rest f {} pre ex.offset (ex.offset + ex.length) mid f' m' := by
  obtain ⟨pre, post, he, hat⟩ := exists_at hf ex.offset
  obtain ⟨f', m', mid, hrun, hmap⟩ := mapReadLoop_spec (m := {}) ex.length hf he
    (fun _ => hat) le_rfl
    (by intro q p hp; cases q <;> cases hp) (by
      intro e hmem hlt hstate
      have hin : e ∈ f.ob.data.entries := he ▸ mem_append_right pre hmem
      have hpos := (hf.shape.entry e hin).pos
      have hend := hat.behind e hmem
      refine hwhole (max ex.offset e.1) (le_max_left _ _) (by omega) ?_
      have hcell : cells f.ob.data.entries (max ex.offset e.1) = some (e.2.cell _) :=
        Extents.look_of_mem hf.shape.ordered hin (le_max_right _ _) (by omega)
      rw [hcell]
      unfold BufferHead.cell
      rw [hstate])
  refine ⟨f', m', pre, mid, ?_, hmap⟩
  rw [mapRead_eq hdistinct hex hoid, hrun]
  intro r hr
  cases hrun.symm.trans hr
  exact hmap.evolves.oid

theorem mapRead_missing (hlo : ex.offset ≤ b) (hhi : b < ex.offset + ex.length)
    (hb : cells f.ob.data.entries b = some .missing) :
    f.mapRead extents {} = .error .assertion := by
  obtain ⟨pre, post, he, hat⟩ := exists_at hf ex.offset
  obtain ⟨e, hmem, h1, h2, hcell⟩ := Extents.exists_of_look hb
  have hstate : e.2.state = .missing := by
    rw [← BufferHead.cell_state e.2 b, hcell]
    rfl
  have hpost : e ∈ post := by
    rw [he] at hmem
    rcases mem_append.mp hmem with hmem | hmem
    · have := hat.before e hmem
      omega
    · exact hmem
  have hrun := mapReadLoop_missing ex.length hf he hat le_rfl (by omega) hpost (by omega) hstate {}
  rw [mapRead_eq hdistinct hex hoid, hrun]
  intro r hr
  cases hrun.symm.trans hr

end

end Focus

end CephDokan.ObjectCacher
