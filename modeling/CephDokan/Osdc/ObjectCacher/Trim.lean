import CephDokan.Osdc.ObjectCacher.Runs

/-!
# Trimming the cache

`trim` drops heads while there are more clean bytes than the cache may hold, and asserts that the
heads it is given are clean or zero. In the list it takes them from there are also those in the
error state, so it comes to its end in every order of the list exactly if there is nothing to drop
or no such head.
-/

namespace CephDokan.ObjectCacher

open Fallible List SortedMap

/-- Somebody waits for a commit of the object only while a write in flight holds it. -/
def Object.Held (ob : Object) : Prop := ob.waitforCommit.entries ≠ [] → 0 < ob.frame.ref

theorem Object.Held.of_frame {ob ob' : Object} (h : ob.Held) (hframe : ob'.frame = ob.frame) :
    ob'.Held := by
  have hwait : ob'.waitforCommit = ob.waitforCommit := (congrArg Object.waitforCommit hframe :)
  unfold Held
  rw [hframe, hwait]
  exact h

namespace Focus

variable {rest : Multiset Item} {f f' : Focus} {pre post : List Entry} {k maxSize : ℕ}
  {bh : BufferHead}

/-- One round of `trim` that does not fail: the head is gone, or nothing is to be dropped. -/
structure Trims (rest : Multiset Item) (k : ℕ) (f f' : Focus) : Prop where
  ok : f'.Ok rest
  oid : f'.ob.oid = f.ob.oid
  held : f.ob.Held → f'.ob.Held
  clean : f'.books.stat .clean ≤ f.books.stat .clean
  stat : ∀ st, st = .error ∨ st = .missing → f'.books.stat st = f.books.stat st
  entries : ∀ x ∈ f.ob.data.entries, x.1 ≠ k → x ∈ f'.ob.data.entries

section

variable (hf : f.Ok rest) (he : f.ob.data.entries = pre ++ (k, bh) :: post) (hlru : bh.lru = .rest)
  (hpin : bh.pinned = false)

include hf he hlru hpin

variable (maxSize) in
theorem trimBh_trims (hfit : f.books.stat .clean ≤ maxSize ∨ bh.state = .clean ∨ bh.state = .zero) :
    ∃ f', f.trimBh maxSize k = .ok f' ∧ Trims rest k f f' := by
  unfold trimBh
  rw [deref_eq he, ok_bind]
  by_cases hmany : f.books.stat .clean > maxSize
  · have hclean := hfit.resolve_left (not_le.mpr hmany)
    have hbooks : f.books.bhLru bh.id = some .rest := hlru ▸ (hf.accounts.mid he).lru_eq
    obtain ⟨g, hrun, hb⟩ := bhRemove_spec hf.accounts he (hf.entry he).start
    have hstat := hf.accounts.stat_mid he hb.accounts hb.entries hb.oset
    have hsub : ∀ x ∈ pre ++ post, x ∈ f.ob.data.entries := by simp +contextual [he, or_imp]
    refine ⟨g.withFlags false g.ob.objExists, ?_, ?_⟩
    · rw [if_pos ⟨hmany, hlru, by simp [hpin]⟩, lruRemove_eq hbooks, ok_bind, assertThat_of hclean,
        ok_bind, bhRemove_withBooks (deref_eq he) hbooks hlru (lruRemove_eq hbooks), hrun]
      rfl
    · have hok : g.Ok rest := by
        refine ⟨hb.accounts, hb.entries ▸ (he ▸ hf.shape).remove, fun x hx => ?_⟩
        exact hf.filled x (hsub x (hb.entries ▸ hx))
      refine ⟨hok.flags false g.ob.objExists, (congrArg Object.oid hb.frame :),
        fun h => show g.ob.Held from h.of_frame hb.frame, ?_, ?_, ?_⟩
      · rw [hstat .clean, BufferHead.item_weight]
        split_ifs
        · exact le_add_of_nonneg_left (Int.natCast_nonneg _)
        · exact (zero_add _).ge
      · intro st hst
        rw [hstat st, BufferHead.item_weight, if_neg, zero_add]
        · rfl
        · rintro rfl
          rcases hst with hst | hst <;> simp [hst] at hclean
      · intro x hx hne
        change x ∈ g.ob.data.entries
        rw [he] at hx
        rw [hb.entries]
        grind
  · rw [if_neg fun h => hmany h.1]
    exact ⟨f, rfl, hf, rfl, id, le_rfl, fun _ _ => rfl, fun _ hx _ => hx⟩

theorem trimBh_fails (hmany : maxSize < f.books.stat .clean)
    (hbad : ¬(bh.state = .clean ∨ bh.state = .zero)) :
    f.trimBh maxSize k = .error .assertion := by
  have hbooks : f.books.bhLru bh.id = some .rest := hlru ▸ (hf.accounts.mid he).lru_eq
  unfold trimBh
  rw [deref_eq he, ok_bind, if_pos ⟨hmany, hlru, by simp [hpin]⟩, lruRemove_eq hbooks, ok_bind,
    show assertThat (bh.state = .clean ∨ bh.state = .zero) = .error .assertion from if_neg hbad]
  rfl

end

end Focus

namespace Cacher

variable {c c' : Cacher} {key : Soid} {k : ℕ}

def Held (c : Cacher) : Prop := ∀ key ob, c.objects.find? key = some ob → ob.Held

/-- There is nothing to drop, or no head that is not to be dropped. -/
def Fit (c : Cacher) : Prop :=
  c.books.stat .clean ≤ c.maxSize ∨ c.books.stat .error = 0 ∧ c.books.stat .missing = 0

instance (c : Cacher) : Decidable c.Fit := inferInstanceAs (Decidable (_ ∨ _))

theorem Held.put {f : Focus} (h : c.Held)
    (hob : (∀ ob, c.objects.find? key = some ob → ob.Held) → f.ob.Held) : (c.put key f).Held := by
  intro key' ob hfind
  by_cases hkey : key' = key
  · subst hkey
    rw [put_find?_self] at hfind
    cases hfind
    exact hob (h key')
  · rw [put_find?_of_ne c f hkey] at hfind
    exact h key' ob hfind

theorem mem_expirable {v : Soid × ℕ} : v ∈ c.expirable ↔ ∃ ob bh, c.objects.find? v.1 = some ob ∧
    (v.2, bh) ∈ ob.data.entries ∧ bh.lru = .rest ∧ bh.pinned = false := by
  obtain ⟨key, k⟩ := v
  simp only [expirable, mem_flatMap, mem_map, mem_filter, decide_eq_true_eq, find?_eq_some_iff]
  constructor
  · rintro ⟨e, he, h, ⟨hh, hfree⟩, hv⟩
    cases hv
    exact ⟨e.2, h.2, he, hh, hfree⟩
  · rintro ⟨ob, bh, he, hh, hfree⟩
    exact ⟨(key, ob), he, (k, bh), ⟨hh, hfree⟩, rfl⟩

theorem mem_idle : key ∈ c.idle ↔ ∃ ob, c.objects.find? key = some ob ∧ ob.ref = 0 := by
  simp [idle, find?_eq_some_iff]

theorem Ok.stat_pos (hc : c.Ok) {ob} {bh} (hfind : c.objects.find? key = some ob)
    (hmem : (k, bh) ∈ ob.data.entries) : 0 < c.books.stat bh.state := by
  have hin : (ob, bh) ∈ c.heads := mem_heads.mpr ⟨key, k, mem_of_find? hfind, hmem⟩
  rw [hc.represented.stat]
  refine lt_of_lt_of_le ?_ (single_le_sum ?_ _ (mem_map.mpr ⟨(ob, bh), hin, rfl⟩))
  · have := hc.represented.pos _ hin
    simpa using this
  · simp only [mem_map, forall_exists_index, and_imp, forall_apply_eq_imp_iff₂]
    intro h _
    split_ifs <;> simp

theorem foldlM_all {β : Type} {step : Cacher → β → Run Cacher} {P : Cacher → Prop}
    (L : Cacher → List β) (hstep : ∀ c v, P c → v ∈ L c → ∃ c', step c v = .ok c' ∧ P c' ∧
      ∀ u ∈ L c, u ≠ v → u ∈ L c') {vs : List β} (hvs : vs.Nodup) (hP : P c)
    (hmem : ∀ v ∈ vs, v ∈ L c) : ∃ c', vs.foldlM step c = .ok c' ∧ P c' := by
  induction vs generalizing c with
  | nil => exact ⟨c, rfl, hP⟩
  | cons v vs ih =>
    obtain ⟨hv, hvs⟩ := nodup_cons.mp hvs
    obtain ⟨c1, hrun, hP1, hkeep⟩ := hstep c v hP (hmem v mem_cons_self)
    obtain ⟨c', hrest, hP'⟩ := ih hvs hP1 fun u hu =>
      hkeep u (hmem u (mem_cons_of_mem v hu)) fun heq => hv (heq ▸ hu)
    exact ⟨c', by rw [foldlM_cons, hrun]; exact hrest, hP'⟩

theorem nodup_idle (c : Cacher) : c.idle.Nodup := by
  have hkeys : c.objects.entries.Pairwise fun e e' => e.1 ≠ e'.1 :=
    c.objects.sorted.imp fun h => h.ne
  exact (pairwise_map.mpr hkeys).sublist (filter_sublist.map Prod.fst)

theorem nodup_expirable (c : Cacher) : c.expirable.Nodup := by
  refine nodup_flatMap.mpr ⟨fun e _ => ?_, c.objects.sorted.imp fun hlt => ?_⟩
  · have hkeys : e.2.data.entries.Pairwise fun x y => (e.1, x.1) ≠ (e.1, y.1) :=
      e.2.data.sorted.imp fun hlt heq => hlt.ne (congrArg Prod.snd heq)
    exact pairwise_map.mpr (hkeys.sublist filter_sublist)
  · intro v hv hv'
    obtain ⟨x, -, rfl⟩ := mem_map.mp hv
    obtain ⟨y, -, heq⟩ := mem_map.mp hv'
    exact hlt.ne (congrArg Prod.fst heq).symm

theorem trimBh_fits {v : Soid × ℕ} (h : c.Ok ∧ c.Held ∧ c.Fit) (hv : v ∈ c.expirable) :
    ∃ c', c.trimBh v.1 v.2 = .ok c' ∧ (c'.Ok ∧ c'.Held ∧ c'.Fit) ∧
      ∀ u ∈ c.expirable, u ≠ v → u ∈ c'.expirable := by
  obtain ⟨hc, hheld, hfit⟩ := h
  obtain ⟨key, k⟩ := v
  obtain ⟨ob, bh, hfind, hmem, hlru, hpin⟩ := mem_expirable.mp hv
  obtain ⟨rest, hf, hput⟩ := hc.at hfind
  obtain ⟨pre, post, he⟩ := append_of_mem hmem
  have hgood : c.books.stat .clean ≤ c.maxSize ∨ bh.state = .clean ∨ bh.state = .zero := by
    refine hfit.imp_right fun hnone => ?_
    have hpos := hc.stat_pos hfind hmem
    unfold BufferHead.lru at hlru
    unfold BufferHead.pinned at hpin
    cases hst : bh.state <;> simp_all
  obtain ⟨f', hrun, h⟩ := Focus.trimBh_trims c.maxSize hf he hlru hpin hgood
  refine ⟨c.put key f', atObject_eq hfind hrun, ⟨hput f' h.ok h.oid,
    hheld.put fun hob => h.held (hob ob hfind), ?_⟩, ?_⟩
  · refine hfit.imp (fun hle => h.clean.trans hle) fun hnone => ?_
    exact ⟨(h.stat _ (.inl rfl)).trans hnone.1, (h.stat _ (.inr rfl)).trans hnone.2⟩
  · rintro ⟨key', k'⟩ hu hne
    obtain ⟨ob', bh', hfind', hmem', hfree⟩ := mem_expirable.mp hu
    rw [mem_expirable]
    by_cases hkey : key' = key
    · subst hkey
      cases hfind.symm.trans hfind'
      exact ⟨f'.ob, bh', put_find?_self c key' f',
        h.entries _ hmem' fun heq => hne (Prod.ext rfl heq), hfree⟩
    · exact ⟨ob', bh', (put_find?_of_ne c f' hkey).trans hfind', hmem', hfree⟩

theorem trimObject_held (h : c.Ok ∧ c.Held) (hkey : key ∈ c.idle) :
    ∃ c', c.trimObject key = .ok c' ∧ (c'.Ok ∧ c'.Held) ∧ ∀ u ∈ c.idle, u ≠ key → u ∈ c'.idle := by
  obtain ⟨hc, hheld⟩ := h
  obtain ⟨ob, hfind, href⟩ := mem_idle.mp hkey
  have hob := hc.object _ (mem_of_find? hfind)
  have hempty : ob.data.entries = [] := by
    by_contra hne
    exact absurd href (hob.held hne).ne'
  have hwait : ob.waitforCommit.entries = [] := by
    by_contra hne
    have := hheld key ob hfind hne
    simp [Object.frame, href] at this
  unfold trimObject
  rw [focus_eq hfind, ok_bind]
  split_ifs
  · have hdirty : ob.dirtyOrTx = 0 := by rw [hob.dirty, hempty]; rfl
    rw [closeObject, assertThat_of href, ok_bind, assertThat_of hempty, ok_bind,
      assertThat_of hwait, ok_bind, assertThat_of hdirty, ok_bind]
    refine ⟨_, rfl, ⟨hc.erase hfind hempty, ?_⟩, ?_⟩
    · intro key' ob' hfind'
      rw [find?_erase] at hfind'
      split_ifs at hfind'
      exact hheld key' ob' hfind'
    · intro u hu hne
      obtain ⟨ob', hfind', href'⟩ := mem_idle.mp hu
      rw [mem_idle]
      exact ⟨ob', by rw [find?_erase, if_neg hne, hfind'], href'⟩
  · exact ⟨c, rfl, ⟨hc, hheld⟩, fun u hu _ => hu⟩

theorem exists_bad (hc : c.Ok) (h : ¬(c.books.stat .error = 0 ∧ c.books.stat .missing = 0)) :
    ∃ v ∈ c.expirable, ∃ ob bh, c.objects.find? v.1 = some ob ∧ (v.2, bh) ∈ ob.data.entries ∧
      ¬(bh.state = .clean ∨ bh.state = .zero) ∧ bh.lru = .rest ∧ bh.pinned = false := by
  obtain ⟨st, hst, hne⟩ : ∃ st, (st = .error ∨ st = .missing) ∧ c.books.stat st ≠ 0 := by
    by_contra hno
    push Not at hno
    exact h ⟨hno _ (.inl rfl), hno _ (.inr rfl)⟩
  rw [hc.represented.stat] at hne
  obtain ⟨n, hn, hpos⟩ := exists_mem_ne_zero_of_sum_ne_zero hne
  obtain ⟨⟨ob, bh⟩, hin, rfl⟩ := mem_map.mp hn
  obtain ⟨key, k, hob, hmem⟩ := mem_heads.mp hin
  obtain rfl : bh.state = st := by
    by_contra hother
    exact hpos (if_neg hother)
  have hfree : ¬(bh.state = .clean ∨ bh.state = .zero) ∧ bh.lru = .rest ∧ bh.pinned = false := by
    unfold BufferHead.lru BufferHead.pinned
    rcases hst with hst | hst <;> simp [hst]
  exact ⟨(key, k), mem_expirable.mpr ⟨ob, bh, find?_of_mem hob, hmem, hfree.2⟩, ob, bh,
    find?_of_mem hob, hmem, hfree⟩

theorem trim_returns_iff (hc : c.Ok) (hheld : c.Held) :
    (∀ lru, ∃ c', c.trim lru = .ok c') ↔ c.Fit := by
  constructor
  · intro h
    by_contra hfit
    obtain ⟨hmany, hbad⟩ := not_or.mp hfit
    obtain ⟨v, hv, ob, bh, hfind, hmem, hstate, hlru, hpin⟩ := exists_bad hc hbad
    obtain ⟨rest, hf, -⟩ := hc.at hfind
    obtain ⟨pre, post, he⟩ := append_of_mem hmem
    -- an order in which this head comes first
    obtain ⟨c', hrun⟩ := h
      ⟨fun c => if v ∈ c.expirable then v :: c.expirable.erase v else c.expirable,
      idle, fun c => by split_ifs with hin; exacts [(perm_cons_erase hin).symm, .refl _],
      fun c => .refl _⟩
    obtain ⟨c1, hheads, -⟩ := bind_eq_ok.mp hrun
    have hfails : c.trimBh v.1 v.2 = .error .assertion := by
      rw [trimBh, atObject, focus_eq hfind, ok_bind,
        Focus.trimBh_fails hf he hlru hpin (not_le.mp hmany) hstate]
      rfl
    simp only [if_pos hv, foldlM_cons, hfails] at hheads
    cases hheads
  · intro hfit lru
    obtain ⟨c1, hheads, hc1, hheld1, -⟩ := foldlM_all expirable (fun c v => trimBh_fits)
      ((lru.heads_perm c).nodup_iff.mpr c.nodup_expirable) ⟨hc, hheld, hfit⟩
      fun v hv => (lru.heads_perm c).mem_iff.mp hv
    obtain ⟨c2, hobjects, -⟩ := foldlM_all idle (fun c v => trimObject_held)
      ((lru.objects_perm c1).nodup_iff.mpr c1.nodup_idle) ⟨hc1, hheld1⟩
      fun v hv => (lru.objects_perm c1).mem_iff.mp hv
    exact ⟨c2, by rw [trim, hheads, ok_bind, hobjects]⟩

/-- Nothing that `trim` looks at has changed, apart from heads that are zero. -/
structure Kept (c c' : Cacher) : Prop where
  stat : ∀ st, st ≠ .zero → c'.books.stat st = c.books.stat st
  maxSize : c'.maxSize = c.maxSize
  held : c.Held → c'.Held

theorem Kept.refl (c : Cacher) : Kept c c := ⟨fun _ _ => rfl, rfl, id⟩

theorem Kept.trans {c''} (h : Kept c c') (h' : Kept c' c'') : Kept c c'' :=
  ⟨fun st hst => (h'.stat st hst).trans (h.stat st hst), h'.maxSize.trans h.maxSize,
    h'.held ∘ h.held⟩

theorem Kept.fit_iff (h : Kept c c') : c'.Fit ↔ c.Fit := by
  unfold Fit
  rw [h.stat .clean nofun, h.stat .error nofun, h.stat .missing nofun, h.maxSize]

theorem kept_put {f : Focus} {ob} (hfind : c.objects.find? key = some ob)
    (hframe : f.ob.frame = ob.frame)
    (hstat : ∀ st, st ≠ .zero → f.books.stat st = c.books.stat st) : Kept c (c.put key f) :=
  ⟨hstat, rfl, fun h => h.put fun hob => (hob ob hfind).of_frame hframe⟩

theorem kept_getObject (key : Soid) (oid : String) (objectNo : ℕ) (oset : ObjectSet)
    (truncateSize : ℕ) : Kept c (c.getObject key oid objectNo oset truncateSize) := by
  refine ⟨fun _ _ => rfl, rfl, fun h => h.put fun hob => ?_⟩
  unfold objectFor
  cases hfind : c.objects.find? key with
  | none => exact fun hne => absurd rfl hne
  | some ob => exact hob ob hfind

end Cacher

end CephDokan.ObjectCacher
