import CephDokan.Osdc.ObjectCacher.ReadPieces
import CephDokan.Osdc.ObjectCacher.Trim

/-!
# The rounds of a cached read

The loops over the heads that `map_read` has found always come to their end. A loop over
heads to wait for may take some of them out of the object, but never one that is still to
come, as every head is recorded once.
-/

namespace CephDokan.ObjectCacher

open Fallible List SortedMap Focus

variable {f : Focus}

namespace Cacher

variable {c c' c'' : Cacher} {key : Soid} {k : ℕ}

/-- The pointer `k` leads to a head of the object. -/
def Has (c : Cacher) (key : Soid) (k : ℕ) : Prop :=
  ∃ ob bh, c.objects.find? key = some ob ∧ (k, bh) ∈ ob.data.entries

theorem Has.split (h : c.Has key k) : ∃ ob bh pre post, c.objects.find? key = some ob ∧
    ob.data.entries = pre ++ (k, bh) :: post := by
  obtain ⟨ob, bh, hfind, hmem⟩ := h
  obtain ⟨pre, post, he⟩ := append_of_mem hmem
  exact ⟨ob, bh, pre, post, hfind, he⟩

theorem Has.mem_keys {ob} (h : c.Has key k) (hfind : c.objects.find? key = some ob) :
    k ∈ ob.data.entries.map Prod.fst := by
  obtain ⟨ob', bh, hfind', hmem⟩ := h
  cases hfind.symm.trans hfind'
  exact mem_map.mpr ⟨_, hmem, rfl⟩

theorem has_put (h : k ∈ f.ob.data.entries.map Prod.fst) : (c.put key f).Has key k := by
  obtain ⟨x, hmem, rfl⟩ := mem_map.mp h
  exact ⟨f.ob, x.2, put_find?_self c key f, hmem⟩

/-- Only the object behind `key` is worked on. -/
structure Only (key : Soid) (c c' : Cacher) : Prop where
  find : ∀ key', key' ≠ key → c'.objects.find? key' = c.objects.find? key'
  copy : c'.mayCopyOnWrite = c.mayCopyOnWrite

theorem Only.refl (key : Soid) (c : Cacher) : Only key c c := ⟨fun _ _ => rfl, rfl⟩

theorem Only.trans (h : Only key c c') (h' : Only key c' c'') : Only key c c'' :=
  ⟨fun key' hne => (h'.find key' hne).trans (h.find key' hne), h'.copy.trans h.copy⟩

theorem only_put (c : Cacher) (key : Soid) (f : Focus) : Only key c (c.put key f) :=
  ⟨fun _ hne => put_find?_of_ne c f hne, rfl⟩

end Cacher

namespace Reading

open Cacher

variable {rs rs' rs'' : Reading} {key : Soid} {rd : OSDRead} {onfinish external : Bool} {e : ℕ × ℕ}
  {k : ℕ}

/-- What a round of a loop does whose pointers are in `ks`. -/
structure Does (key : Soid) (ks : List ℕ) (rs rs' : Reading) : Prop where
  ok : rs'.c.Ok
  calm : Calm key rs.c rs'.c
  only : Only key rs.c rs'.c
  has : ∀ j, j ∉ ks → rs.c.Has key j → rs'.c.Has key j
  stripeMap : rs'.stripeMap = rs.stripeMap
  error : rs'.error = rs.error
  success : rs.success = false → rs'.success = false

theorem Does.refl (h : rs.c.Ok) (key : Soid) (ks : List ℕ) : Does key ks rs rs :=
  ⟨h, Calm.refl key rs.c, Only.refl key rs.c, fun _ _ h => h, rfl, rfl, fun h => h⟩

theorem Does.trans {ks ks'} (h : Does key ks rs rs') (h' : Does key ks' rs' rs'') :
    Does key (ks ++ ks') rs rs'' := by
  refine ⟨h'.ok, h.calm.trans h'.calm, h.only.trans h'.only, ?_, h'.stripeMap.trans h.stripeMap,
    h'.error.trans h.error, fun hs => h'.success (h.success hs)⟩
  intro j hj hhas
  rw [mem_append, not_or] at hj
  exact h'.has j hj.2 (h.has j hj.1 hhas)

section Rounds

variable {pre post : List Entry} {bh : BufferHead}

theorem exists_addWaiter (he : f.ob.data.entries = pre ++ (k, bh) :: post) (first ctx : ℕ)
    (wait : Prop) [Decidable wait] :
    ∃ f' bh', (if wait then f.addWaiter k first ctx else .ok f) = .ok f' ∧
      f'.ob.data.entries = pre ++ (k, bh') :: post := by
  by_cases hw : wait
  · rw [if_pos hw, Focus.addWaiter, deref_eq he, ok_bind]
    exact ⟨_, _, rfl, assign_entries he _⟩
  · exact ⟨f, bh, if_neg hw, he⟩

theorem has_replace {c c' : Cacher} {ob} {bh'}
    (hfind : c.objects.find? key = some ob) (he : ob.data.entries = pre ++ (k, bh) :: post)
    (he' : f.ob.data.entries = pre ++ (k, bh') :: post) {j : ℕ} (h : c.Has key j) :
    (c'.put key f).Has key j := by
  have hkeys := h.mem_keys hfind
  rw [he, map_append, map_cons] at hkeys
  apply has_put
  rwa [he', map_append, map_cons]

/-- A round for a head that is there. Where it `waits`, for a head to wait for. -/
def Rounds (key : Soid) (waits : Prop) (op : Reading → ℕ × ℕ → Run Reading) : Prop :=
  ∀ rs e, rs.c.Ok → (waits → rs.c.Wanted key e) → rs.c.Has key e.2 →
    ∃ rs', op rs e = .ok rs' ∧ Does key [e.2] rs rs' ∧ (waits → rs'.success = false)

theorem readMissing_does : Rounds key True (readMissing key rd onfinish) := by
  intro rs e hc hw hhas
  replace hw := hw trivial
  obtain ⟨ob, bh, pre, post, hfind, he⟩ := hhas.split
  obtain ⟨rest, hf, hput⟩ := hc.at hfind
  have hok := hf.entry he
  have hrun : ∃ rs', readMissing key rd onfinish rs e = .ok rs' ∧ rs'.success = false ∧
      Only key rs.c rs'.c ∧ (∀ j, j ∉ [e.2] → rs.c.Has key j → rs'.c.Has key j) ∧
      rs'.stripeMap = rs.stripeMap ∧ rs'.error = rs.error := by
    unfold readMissing
    rw [focus_eq hfind, ok_bind, deref_eq he, ok_bind]
    split
    · -- too much has been asked for: the head goes away again
      obtain ⟨f', hrem, hb⟩ := bhRemove_spec hf.accounts he hok.start
      rw [atObject_eq hfind hrem]
      refine ⟨_, rfl, rfl, ⟨fun key' hne => put_find?_of_ne rs.c f' hne, rfl⟩, ?_, rfl, rfl⟩
      intro j hj hhas
      have hkeys := hhas.mem_keys hfind
      rw [he, map_append, map_cons, mem_append, mem_cons] at hkeys
      apply has_put
      rw [hb.entries, map_append, mem_append]
      exact hkeys.imp_right (Or.resolve_left · (by simpa using hj))
    · obtain ⟨c1, ob1, hread, -, hfind1, he1, hothers, hcopy⟩ := bhRead_spec hc hfind he
        (hw ob bh hfind (by simp [he])).2.2
      obtain ⟨f', bh', hadd, hent⟩ := exists_addWaiter (f := ⟨c1.books, ob1⟩) he1 e.1 rd.id
        (rs.success = true ∧ onfinish = true)
      rw [hread, ok_bind, atObject_eq hfind1 hadd]
      refine ⟨_, rfl, rfl, .trans ⟨hothers, hcopy⟩ (only_put c1 key f'), ?_, rfl, rfl⟩
      exact fun j _ hhas => has_replace hfind he hent hhas
  obtain ⟨rs', hrun, hsuccess, honly, hkeep, hmap, herror⟩ := hrun
  have hgo := readMissing_goes hc hw hrun
  obtain ⟨ls, href, -⟩ := hgo.refines
  exact ⟨rs', hrun, ⟨href.ok, hgo.calm, honly, hkeep, hmap, herror, fun _ => hsuccess⟩,
    fun _ => hsuccess⟩

theorem readRx_does : Rounds key True (readRx key rd onfinish) := by
  intro rs e hc hw hhas
  obtain ⟨ob, bh, pre, post, hfind, he⟩ := hhas.split
  obtain ⟨rest, hf, hput⟩ := hc.at hfind
  obtain ⟨f', htouch, hb⟩ := touchBh_spec hf.accounts he
  obtain ⟨f'', bh', hadd, hent⟩ := exists_addWaiter hb.entries e.1 rd.id
    (rs.success = true ∧ onfinish = true)
  have hrun : readRx key rd onfinish rs e =
      .ok { rs with c := rs.c.put key f'', success := false } := by
    rw [readRx, atObject_eq hfind (by rw [htouch, ok_bind, hadd])]
    rfl
  have hgo := readRx_goes hc (hw trivial) hrun
  obtain ⟨ls, href, -⟩ := hgo.refines
  exact ⟨_, hrun, ⟨href.ok, hgo.calm, only_put rs.c key f'',
    fun j _ hhas => has_replace hfind he hent hhas, rfl, rfl, fun _ => rfl⟩, fun _ => rfl⟩

theorem readTouch_does : Rounds key False (readTouch key) := by
  intro rs e hc _ hhas
  obtain ⟨ob, bh, pre, post, hfind, he⟩ := hhas.split
  obtain ⟨rest, hf, hput⟩ := hc.at hfind
  obtain ⟨f', htouch, hb⟩ := touchBh_spec hf.accounts he
  have hrun : readTouch key rs e = .ok { rs with c := rs.c.put key f' } := by
    rw [readTouch, atObject_eq hfind htouch]
    rfl
  refine ⟨_, hrun, ⟨(readTouch_refines hc hrun).ok, ?_, only_put rs.c key f',
    fun j _ hhas => has_replace hfind he hb.entries hhas, rfl, rfl, fun h => h⟩, False.elim⟩
  exact calm_put hfind (touchBh_calm hf htouch) rfl

end Rounds

variable {es : List (ℕ × ℕ)}

/-- A loop over heads that are there, each of them once. If its rounds wait for a head, the read
has to wait when there is one. -/
theorem foldlM_does {op} {waits} (hop : Rounds key waits op)
    (hc : rs.c.Ok) (hes : ∀ e ∈ es, (waits → rs.c.Wanted key e) ∧ rs.c.Has key e.2)
    (hnodup : (es.map Prod.snd).Nodup) :
    ∃ rs', es.foldlM op rs = .ok rs' ∧ Does key (es.map Prod.snd) rs rs' ∧
      (waits → es ≠ [] → rs'.success = false) := by
  induction es generalizing rs with
  | nil => exact ⟨rs, rfl, Does.refl hc key [], fun _ h => absurd rfl h⟩
  | cons e es ih =>
    obtain ⟨hnot, hnodup⟩ := nodup_cons.mp hnodup
    obtain ⟨hw, hhas⟩ := hes e mem_cons_self
    obtain ⟨rs1, hrun, hdoes, hwaits⟩ := hop rs e hc hw hhas
    obtain ⟨rs', hrest, hdoes', -⟩ := ih hdoes.ok (fun e' he' => by
      obtain ⟨hw', hhas'⟩ := hes e' (mem_cons_of_mem _ he')
      refine ⟨fun h => (hw' h).calm hdoes.calm, hdoes.has _ ?_ hhas'⟩
      intro heq
      rw [mem_singleton] at heq
      exact hnot (heq ▸ mem_map_of_mem he')) hnodup
    refine ⟨rs', ?_, hdoes.trans hdoes', fun hw _ => hdoes'.success (hwaits hw)⟩
    rw [foldlM_cons, hrun]
    exact hrest

/-! ### Heads that have the data -/

/-- The heads of the object are the same but for `dontneed`. -/
def Alike (key : Soid) (c c' : Cacher) : Prop :=
  ∀ ob, c.objects.find? key = some ob → ∃ ob', c'.objects.find? key = some ob' ∧
    ∀ k bh, (k, bh) ∈ ob.data.entries → ∃ d, (k, { bh with dontneed := d }) ∈ ob'.data.entries

theorem Alike.refl (key : Soid) (c : Cacher) : Alike key c c :=
  fun ob hob => ⟨ob, hob, fun _ bh hmem => ⟨bh.dontneed, hmem⟩⟩

theorem Alike.trans {c c' c''} (h : Alike key c c') (h' : Alike key c' c'') : Alike key c c'' := by
  intro ob hob
  obtain ⟨ob', hob', hsame⟩ := h ob hob
  obtain ⟨ob'', hob'', hsame'⟩ := h' ob' hob'
  refine ⟨ob'', hob'', ?_⟩
  intro k bh hmem
  obtain ⟨d, hmem'⟩ := hsame k bh hmem
  obtain ⟨d', hmem''⟩ := hsame' k { bh with dontneed := d } hmem'
  exact ⟨d', hmem''⟩

theorem Alike.has {c c'} (h : Alike key c c') (hhas : c.Has key k) : c'.Has key k := by
  obtain ⟨ob, bh, hfind, hmem⟩ := hhas
  obtain ⟨ob', hfind', hsame⟩ := h ob hfind
  obtain ⟨d, hmem'⟩ := hsame k bh hmem
  exact ⟨ob', _, hfind', hmem'⟩

/-- The head behind `k` is not in the error state. -/
def Sound (c : Cacher) (key : Soid) (k : ℕ) : Prop :=
  ∀ ob bh, c.objects.find? key = some ob → (k, bh) ∈ ob.data.entries → bh.state ≠ .error

structure Hits (key : Soid) (rs rs' : Reading) : Prop where
  ok : rs'.c.Ok
  only : Only key rs.c rs'.c
  alike : Alike key rs.c rs'.c
  kept : Kept rs.c rs'.c
  stripeMap : rs'.stripeMap = rs.stripeMap
  success : rs'.success = rs.success

theorem touchHit_spec {rest} {pre post : List Entry} {bh}
    (hf : f.Accounts rest) (he : f.ob.data.entries = pre ++ (k, bh) :: post) (ex : ObjectExtent)
    (dontneed : Bool) : ∃ f' d, f.touchHit k ex dontneed = .ok f' ∧
      Becomes rest f (pre ++ (k, { bh with dontneed := d }) :: post) f' := by
  obtain ⟨f1, htouch, hb⟩ := touchBh_spec hf he
  unfold Focus.touchHit
  rw [htouch, ok_bind, deref_eq hb.entries, ok_bind]
  split_ifs
  · exact ⟨_, true, rfl, hb.trans (assign_spec hb.accounts hb.entries rfl)⟩
  · exact ⟨f1, false, rfl, hb⟩

variable (rd) in
theorem readHit_hits (ex : ObjectExtent) (hc : rs.c.Ok) (hhas : rs.c.Has key e.2) :
    ∃ rs', readHit key rd ex rs e = .ok rs' ∧ Hits key rs rs' ∧
      (Sound rs.c key e.2 → rs'.error = rs.error) := by
  obtain ⟨ob, bh, pre, post, hfind, he⟩ := hhas.split
  obtain ⟨rest, hf, hput⟩ := hc.at hfind
  obtain ⟨f', d, htouch, hb⟩ := touchHit_spec hf.accounts he ex rd.dontneed
  have hstat : f'.books.stat = rs.c.books.stat := by
    funext st
    have hnew := (hb.accounts.mid hb.entries).stat st
    rw [hb.oset] at hnew
    exact hnew.trans ((hf.accounts.mid he).stat st).symm
  have hrun : readHit key rd ex rs e = .ok { rs with
      c := rs.c.put key f'
      error := if bh.state = .error ∧ bh.error ≠ 0 then bh.error else rs.error } := by
    rw [readHit, focus_eq hfind, ok_bind, deref_eq he, ok_bind, atObject_eq hfind htouch]
    rfl
  refine ⟨_, hrun, ⟨(readHit_refines hc hrun).ok, only_put rs.c key f', ?_,
    kept_put hfind hb.frame fun st _ => congrFun hstat st, rfl, rfl⟩, ?_⟩
  · intro ob' hfind'
    cases hfind.symm.trans hfind'
    refine ⟨f'.ob, put_find?_self rs.c key f', ?_⟩
    intro j x hmem
    rw [he] at hmem
    rw [hb.entries]
    simp only [mem_append, mem_cons, Prod.mk.injEq] at hmem ⊢
    rcases hmem with hmem | ⟨rfl, rfl⟩ | hmem
    · exact ⟨x.dontneed, .inl hmem⟩
    · exact ⟨d, .inr (.inl ⟨rfl, rfl⟩)⟩
    · exact ⟨x.dontneed, .inr (.inr hmem)⟩
  · intro hsound
    exact if_neg fun h => hsound ob bh hfind (by simp [he]) h.1

variable (rd) in
theorem foldlM_hits (ex : ObjectExtent) (hc : rs.c.Ok) (hes : ∀ e ∈ es, rs.c.Has key e.2) :
    ∃ rs', es.foldlM (readHit key rd ex) rs = .ok rs' ∧ Hits key rs rs' ∧
      ((∀ e ∈ es, Sound rs.c key e.2) → rs'.error = rs.error) := by
  induction es generalizing rs with
  | nil =>
    exact ⟨rs, rfl, ⟨hc, Only.refl key rs.c, Alike.refl key rs.c, Kept.refl rs.c, rfl, rfl⟩,
      fun _ => rfl⟩
  | cons e es ih =>
    obtain ⟨rs1, hrun, hhit, herror⟩ := readHit_hits rd ex hc (hes e mem_cons_self)
    obtain ⟨rs', hrest, hhit', herror'⟩ :=
      ih hhit.ok fun e' he' => hhit.alike.has (hes e' (mem_cons_of_mem _ he'))
    refine ⟨rs', ?_, ⟨hhit'.ok, hhit.only.trans hhit'.only, hhit.alike.trans hhit'.alike,
      hhit.kept.trans hhit'.kept, hhit'.stripeMap.trans hhit.stripeMap,
      hhit'.success.trans hhit.success⟩, ?_⟩
    · rw [foldlM_cons, hrun]
      exact hrest
    · intro hsound
      refine (herror' ?_).trans (herror (hsound e mem_cons_self))
      intro e' he' ob' bh' hfind' hmem'
      -- the head was there before, in the same state
      obtain ⟨ob, bh, hfind, hmem⟩ := hes e' (mem_cons_of_mem _ he')
      obtain ⟨ob'', hfind'', hsame⟩ := hhit.alike ob hfind
      cases hfind'.symm.trans hfind''
      obtain ⟨d, hmem''⟩ := hsame e'.2 bh hmem
      have heq := (find?_of_mem hmem').symm.trans (find?_of_mem hmem'')
      cases heq
      exact hsound e' (mem_cons_of_mem _ he') ob bh hfind hmem

/-! ### The maps of `map_read` -/

/-- `s` has the heads of `mid` whose state is in `P`, each at its first byte from `off` on. -/
def Lists (s : SortedMap ℕ ℕ) (P : BhState → Prop) (mid : List Entry) (off : ℕ) : Prop :=
  ∀ p, p ∈ s.entries ↔ ∃ x ∈ mid, P x.2.state ∧ p = (max off x.1, x.1)

section Lists

variable {s s' : SortedMap ℕ ℕ} {P P' : BhState → Prop} {mid : List Entry} {off hi : ℕ}

theorem Lists.ne_nil_iff (h : Lists s P mid off) : s.entries ≠ [] ↔ ∃ x ∈ mid, P x.2.state := by
  constructor
  · intro hne
    obtain ⟨p, hp⟩ := exists_mem_of_ne_nil _ hne
    obtain ⟨x, hx, hP, -⟩ := (h p).mp hp
    exact ⟨x, hx, hP⟩
  · rintro ⟨x, hx, hP⟩
    exact ne_nil_of_mem ((h _).mpr ⟨x, hx, hP, rfl⟩)

theorem Lists.nodup (h : Lists s P mid off) : (s.entries.map Prod.snd).Nodup := by
  rw [nodup_iff_pairwise_ne, pairwise_map]
  refine s.sorted.imp_of_mem ?_
  intro p p' hp hp' hlt heq
  obtain ⟨x, -, -, rfl⟩ := (h p).mp hp
  obtain ⟨x', -, -, rfl⟩ := (h p').mp hp'
  simp only at heq hlt
  rw [heq] at hlt
  exact lt_irrefl _ hlt

theorem mem_insertAll_iff {m m'} (h : ∀ p ∈ m.entries, ∀ p' ∈ m'.entries, p.1 ≠ p'.1) (p : ℕ × ℕ) :
    p ∈ (insertAll m m').entries ↔ p ∈ m.entries ∨ p ∈ m'.entries := by
  unfold insertAll
  have hsorted := m'.sorted
  revert h hsorted
  generalize m'.entries = es
  induction es generalizing m with
  | nil => simp
  | cons x es ih =>
    intro h hsorted
    obtain ⟨hfirst, hrest⟩ := pairwise_cons.mp hsorted
    have hnot : m.contains x.1 ≠ true := by
      intro hc
      obtain ⟨v, hv⟩ := contains_iff.mp hc
      exact h _ hv x mem_cons_self rfl
    have hmem : ∀ p, p ∈ (m.insert x.1 x.2).entries ↔ p = x ∨ p ∈ m.entries := by
      intro p
      rw [mem_insert]
      constructor
      · exact Or.imp_right And.left
      · rintro (rfl | hp)
        · exact .inl rfl
        · exact .inr ⟨hp, h p hp x mem_cons_self⟩
    have hstep : ∀ p ∈ (m.insert x.1 x.2).entries, ∀ p' ∈ es, p.1 ≠ p'.1 := by
      intro p hp p' hp'
      rcases (hmem p).mp hp with rfl | hp
      · exact (hfirst p' hp').ne
      · exact h p hp p' (mem_cons_of_mem _ hp')
    rw [foldl_cons, if_neg hnot]
    refine (ih hstep hrest).trans ?_
    rw [hmem, mem_cons]
    tauto

section

variable (h : Lists s P mid off) (h' : Lists s' P' mid off)
  (hmid : Extents.Ordered BufferHead.length mid) (hruns : Runs mid off hi)
  (hPP : ∀ st, P st → ¬P' st)

include h h' hmid hruns hPP

theorem Lists.disjoint : ∀ p ∈ s.entries, ∀ p' ∈ s'.entries, p.1 ≠ p'.1 ∧ p.2 ≠ p'.2 := by
  intro p hp p' hp'
  obtain ⟨x, hx, hP, rfl⟩ := (h p).mp hp
  obtain ⟨x', hx', hP', rfl⟩ := (h' p').mp hp'
  have hne : x ≠ x' := fun heq => hPP _ hP (heq ▸ hP')
  have h1 := hruns.meets hx
  have h2 := hruns.meets hx'
  have hsep := hmid.apart hx hx' hne
  constructor <;> simp only <;> omega

theorem Lists.snd_notMem {q} (hq : q ∈ s'.entries) : q.2 ∉ s.entries.map Prod.snd := by
  intro hmem
  obtain ⟨p, hp, heq⟩ := mem_map.mp hmem
  exact (h.disjoint h' hmid hruns hPP p hp q hq).2 heq

theorem Lists.insertAll : Lists (insertAll s s') (fun st => P st ∨ P' st) mid off := by
  intro p
  rw [mem_insertAll_iff fun p hp p' hp' => (h.disjoint h' hmid hruns hPP p hp p' hp').1, h p, h' p]
  constructor
  · rintro (⟨x, hx, hP, rfl⟩ | ⟨x, hx, hP, rfl⟩)
    · exact ⟨x, hx, .inl hP, rfl⟩
    · exact ⟨x, hx, .inr hP, rfl⟩
  · rintro ⟨x, hx, hP | hP, rfl⟩
    · exact .inl ⟨x, hx, hP, rfl⟩
    · exact .inr ⟨x, hx, hP, rfl⟩

end

theorem Lists.marks (h : Lists s P mid off) (hmid : Extents.Ordered BufferHead.length mid)
    (hruns : Runs mid off hi) (hall : ∀ x ∈ mid, P x.2.state) :
    s.entries.map Prod.snd = mid.map Prod.fst := by
  apply List.Pairwise.eq_of_mem_iff (r := fun a b : ℕ => a < b)
  · rw [pairwise_map]
    refine s.sorted.imp_of_mem ?_
    intro p p' hp hp' hlt
    obtain ⟨x, -, -, rfl⟩ := (h p).mp hp
    obtain ⟨x', -, -, rfl⟩ := (h p').mp hp'
    omega
  · rw [pairwise_map]
    refine hmid.imp_of_mem ?_
    intro x x' hx _ hle
    have := hruns.meets hx
    omega
  · intro k
    simp only [mem_map]
    constructor
    · rintro ⟨p, hp, rfl⟩
      obtain ⟨x, hx, -, rfl⟩ := (h p).mp hp
      exact ⟨x, hx, rfl⟩
    · rintro ⟨x, hx, rfl⟩
      exact ⟨_, (h _).mpr ⟨x, hx, hall x hx, rfl⟩, rfl⟩

end Lists

/-! ### One object -/

/-- What `map_read` has left behind for the extent `ex`: the heads `mid` of the object. -/
structure Laying (c : Cacher) (key : Soid) (ex : ObjectExtent) (m : Focus.ReadMap) (ob : Object)
    (mid : List Entry) : Prop where
  ok : c.Ok
  find : c.objects.find? key = some ob
  part : ∃ pre post, ob.data.entries = pre ++ (mid ++ post)
  runs : Runs mid ex.offset (ex.offset + ex.length)
  records : Focus.Records {} mid ex.offset m

namespace Laying

variable {c : Cacher} {ex : ObjectExtent} {m : Focus.ReadMap} {ob : Object} {mid : List Entry}

section

variable (h : Laying c key ex m ob mid)

include h

theorem mem {x} (hx : x ∈ mid) : x ∈ ob.data.entries := by
  obtain ⟨pre, post, he⟩ := h.part
  simp [he, hx]

theorem shape : Shape ob.data.entries := (h.ok.object (key, ob) (mem_of_find? h.find)).shape

theorem ordered : Extents.Ordered BufferHead.length mid := by
  obtain ⟨pre, post, he⟩ := h.part
  have hshape := h.shape
  rw [he] at hshape
  exact hshape.of_append_right.of_append_left.ordered

theorem lists (q : Found) : Lists (m.list q) (fun st => st.found = q) mid ex.offset := by
  intro p
  rw [h.records q p]
  have hempty : p ∉ (Focus.ReadMap.list {} q).entries := by cases q <;> simp [Focus.ReadMap.list]
  simp only [hempty, false_or]

theorem lists_with_errors {q} (hq : q ≠ .error) (b : Prop) [Decidable b] :
    Lists (if b then insertAll (m.list q) (m.list .error) else m.list q)
      (fun st => st.found = q ∨ b ∧ st.found = .error) mid ex.offset := by
  by_cases hb : b
  · simpa [hb] using (h.lists q).insertAll (h.lists .error) h.ordered h.runs
      fun st h1 h2 => hq (h1.symm.trans h2)
  · simpa [hb] using h.lists q

end

variable (external) in
theorem lists_missing (h : Laying c key ex m ob mid) :
    Lists (if external = true then insertAll m.missing m.errors else m.missing)
      (fun st => st.found = .missing ∨ external = true ∧ st.found = .error) mid ex.offset :=
  h.lists_with_errors (q := .missing) (by decide) (external = true)

variable (external) in
theorem lists_hits (h : Laying c key ex m ob mid) :
    Lists (if external = true then m.hits else insertAll m.hits m.errors)
      (fun st => st.found = .hit ∨ external = false ∧ st.found = .error) mid ex.offset := by
  have hlists := h.lists_with_errors (q := .hit) (by decide) (¬external = true)
  rwa [ite_not, Bool.not_eq_true] at hlists

section

variable (h : Laying c key ex m ob mid) {s : SortedMap ℕ ℕ} {P : BhState → Prop}
  (hs : Lists s P mid ex.offset)

include h hs

theorem has : ∀ p ∈ s.entries, c.Has key p.2 := by
  intro p hp
  obtain ⟨x, hx, -, rfl⟩ := (hs p).mp hp
  exact ⟨ob, x.2, h.find, h.mem hx⟩

theorem wanted (hP : ∀ st, P st → st = .missing ∨ st = .rx ∨ st = .error) :
    ∀ p ∈ s.entries, c.Wanted key p := by
  intro p hp
  obtain ⟨x, hx, hst, rfl⟩ := (hs p).mp hp
  have hmeets := h.runs.meets hx
  refine wanted_of_waits h.find ⟨x.2, h.mem hx, le_max_right _ _, hmeets.1, hP _ hst⟩

end

end Laying

def Stalls (external : Bool) (st : BhState) : Prop :=
  st.found = .missing ∨ st.found = .rx ∨ external = true ∧ st.found = .error

section Mapped

variable {ex : ObjectExtent} {m : Focus.ReadMap} {ob : Object} {mid : List Entry}

variable (rs rd onfinish external) in
theorem readMapped_spec (h : Laying rs.c key ex m ob mid) (hlen : 0 < ex.length) :
    (∃ x ∈ mid, Stalls external x.2.state) ∧
      (∃ rs', readMapped key rd onfinish external ex m rs = .ok rs' ∧ rs'.c.Ok ∧
        Only key rs.c rs'.c ∧ rs'.success = false ∧ rs'.error = rs.error ∧
        rs'.stripeMap = rs.stripeMap) ∨
    (∀ x ∈ mid, ¬Stalls external x.2.state) ∧
      ∃ hits rs1 f, readMapped key rd onfinish external ex m rs = (do
          let stripeMap ← f.rmap hits ex rs.stripeMap
          return { rs1 with stripeMap := stripeMap }) ∧
        Hits key rs rs1 ∧ Focus.Laid f ex.offset (ex.offset + ex.length) mid hits ∧
        ((∀ x ∈ mid, x.2.state ≠ .error) → rs1.error = rs.error) := by
  have hmissing := h.lists_missing external
  have hrx : Lists m.rx (fun st => st.found = .rx) mid ex.offset := h.lists .rx
  have hhits := h.lists_hits external
  unfold readMapped
  generalize (if external = true then insertAll m.missing m.errors else m.missing) = missing
    at hmissing ⊢
  generalize (if external = true then m.hits else insertAll m.hits m.errors) = hits at hhits ⊢
  have hiff : (missing.entries ≠ [] ∨ m.rx.entries ≠ []) ↔
      ∃ x ∈ mid, Stalls external x.2.state := by
    rw [hmissing.ne_nil_iff, hrx.ne_nil_iff, ← exists_or]
    refine exists_congr fun x => ?_
    unfold Stalls
    tauto
  by_cases hsome : missing.entries ≠ [] ∨ m.rx.entries ≠ []
  · refine .inl ⟨hiff.mp hsome, ?_⟩
    rw [if_pos hsome]
    have hmr {p} := hmissing.snd_notMem hrx h.ordered h.runs (q := p) (by
      rintro st (h1 | ⟨-, h1⟩) h2 <;> cases h1.symm.trans h2)
    have hmh {p} := hmissing.snd_notMem hhits h.ordered h.runs (q := p) (by
      rintro st (h1 | ⟨he, h1⟩) (h2 | ⟨he', h2⟩)
      · cases h1.symm.trans h2
      · cases h1.symm.trans h2
      · cases h1.symm.trans h2
      · cases he.symm.trans he')
    have hrh {p} := hrx.snd_notMem hhits h.ordered h.runs (q := p) (by
      rintro st h1 (h2 | ⟨-, h2⟩) <;> cases h1.symm.trans h2)
    obtain ⟨rs1, hrun1, hdoes1, hsuccess1⟩ := foldlM_does readMissing_does h.ok
      (fun p hp => ⟨fun _ => h.wanted hmissing (by
        intro st hst
        cases st <;> simp [BhState.found] at hst ⊢) p hp, h.has hmissing p hp⟩) hmissing.nodup
    obtain ⟨rs2, hrun2, hdoes2, hsuccess2⟩ := foldlM_does readRx_does hdoes1.ok
      (fun p hp => ⟨fun _ => (h.wanted hrx (by
        intro st hst
        cases st <;> simp [BhState.found] at hst ⊢) p hp).calm hdoes1.calm,
        hdoes1.has _ (hmr hp) (h.has hrx p hp)⟩) hrx.nodup
    obtain ⟨rs3, hrun3, hdoes3, -⟩ := foldlM_does readTouch_does hdoes2.ok
      (fun p hp => ⟨False.elim, hdoes2.has _ (hrh hp)
        (hdoes1.has _ (hmh hp) (h.has hhits p hp))⟩) hhits.nodup
    have hdoes := (hdoes1.trans hdoes2).trans hdoes3
    refine ⟨rs3, ?_, hdoes.ok, hdoes.only, ?_, hdoes.error, hdoes.stripeMap⟩
    · rw [hrun1, ok_bind, hrun2, ok_bind, hrun3]
    · apply hdoes3.success
      rcases hsome with hne | hne
      · exact hdoes2.success (hsuccess1 trivial hne)
      · exact hsuccess2 trivial hne
  · have hno : ∀ x ∈ mid, ¬Stalls external x.2.state :=
      fun x hx hst => hsome (hiff.mpr ⟨x, hx, hst⟩)
    refine .inr ⟨hno, ?_⟩
    rw [if_neg hsome]
    have hall : ∀ x ∈ mid, x.2.state.found = .hit ∨ external = false ∧
        x.2.state.found = .error := by
      intro x hx
      have hst := hno x hx
      unfold Stalls at hst
      cases hfound : x.2.state.found <;> cases external <;> simp [hfound] at hst ⊢
    have hmarks := hhits.marks h.ordered h.runs hall
    have hthere : hits.entries ≠ [] := by
      obtain ⟨x, hx, -⟩ := h.runs.exists_mem le_rfl (by omega)
      exact hhits.ne_nil_iff.mpr ⟨x, hx, hall x hx⟩
    obtain ⟨rs1, hrun, hhit, herror⟩ := foldlM_hits rd ex h.ok (h.has hhits)
    obtain ⟨ob1, hfind1, hsame⟩ := hhit.alike ob h.find
    refine ⟨hits.entries, rs1, ⟨rs1.c.books, ob1⟩, ?_, hhit,
      ⟨h.runs, h.ordered, hmarks, ?_, ?_⟩, ?_⟩
    · rw [assertThat_of hthere, ok_bind, hrun, ok_bind, focus_eq hfind1, ok_bind, hhit.stripeMap]
    · intro x hx
      have hob := h.ok.object (key, ob) (mem_of_find? h.find)
      exact ⟨hob.shape.entry x (h.mem hx), hob.filled x (h.mem hx)⟩
    · intro x hx
      obtain ⟨d, hmem⟩ := hsame x.1 x.2 (h.mem hx)
      refine ⟨d, ?_⟩
      rw [Focus.deref, find?_of_mem hmem]
    · intro hsound
      apply herror
      intro p hp ob' bh' hfind' hmem'
      obtain ⟨x, hx, -, rfl⟩ := (hhits p).mp hp
      cases h.find.symm.trans hfind'
      have heq := (find?_of_mem hmem').symm.trans (find?_of_mem (h.mem hx))
      cases heq
      exact hsound x hx

end Mapped

end Reading

end CephDokan.ObjectCacher
