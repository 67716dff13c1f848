import CephDokan.Client.Caps
import CephDokan.Lib.Trace

/-!
# Capabilities in use stay

A bit that the client uses and has implemented with some MDS is not given back while it is in
use: a revoked bit stays implemented until its last reference is dropped, and a cap of another
MDS than the auth one gives a used bit up only if the auth cap has it issued. References can be
taken on bits that no MDS has issued (an uncommitted synchronous write counts as one on
`FILE_BUFFER`), so a bit in use need not be implemented in the first place.
-/

namespace CephDokan.Client.CapInode

open Fallible CapBit SortedMap List

variable {inode inode' inode'' : CapInode} {b : CapBit} {used : Mask} {mds : ℕ} {cap : InodeCap}

theorem mem_foldr_union (f : InodeCap → Mask) (es : List (ℕ × InodeCap)) :
    b ∈ es.foldr (fun e c => f e.2 ∪ c) ∅ ↔ ∃ e ∈ es, b ∈ f e.2 := by
  induction es with
  | nil => simp
  | cons e es ih => rw [foldr_cons, Finset.mem_union, ih, exists_mem_cons_iff]

theorem mem_capsIssued :
    b ∈ inode.capsIssued ↔ ∃ mds cap, inode.caps.find? mds = some cap ∧ b ∈ cap.issued := by
  simp only [find?_eq_some_iff]
  exact (mem_foldr_union InodeCap.issued _).trans Prod.exists

theorem mem_capsImplemented :
    b ∈ inode.capsImplemented ↔ ∃ mds cap, inode.caps.find? mds = some cap ∧
      b ∈ cap.implemented := by
  simp only [find?_eq_some_iff]
  exact (mem_foldr_union InodeCap.implemented _).trans Prod.exists

theorem mem_capsUsed : b ∈ inode.capsUsed ↔ inode.refs b ≠ 0 := by simp [capsUsed]

theorem mem_getCapsUsed :
    b ∈ inode.getCapsUsed ↔ inode.refs b ≠ 0 ∨ (b = fileCache ∧ inode.cached = true) := by
  unfold getCapsUsed
  split_ifs with h
  · rw [Finset.mem_insert, mem_capsUsed, and_iff_left h.2, or_comm]
  · rw [mem_capsUsed, or_iff_left_of_imp]
    rintro ⟨rfl, hcached⟩
    by_contra hnot
    exact h ⟨by simpa [mem_capsUsed] using hnot, hcached⟩

/-! ### What an operation keeps -/

def Ok (inode : CapInode) : Prop :=
  ∀ mds cap, inode.caps.find? mds = some cap → cap.issued ⊆ cap.implemented

theorem Ok.issued_implemented (h : inode.Ok) : inode.capsIssued ⊆ inode.capsImplemented := by
  intro b hb
  obtain ⟨mds, cap, hfind, hmem⟩ := mem_capsIssued.mp hb
  exact mem_capsImplemented.mpr ⟨mds, cap, hfind, h mds cap hfind hmem⟩

/-- From one inode to another no bit of `used` is given back, neither by all the caps together
nor by the auth cap. -/
structure Keeps (used : Mask) (inode inode' : CapInode) : Prop where
  implemented : ∀ b ∈ used, b ∈ inode.capsImplemented → b ∈ inode'.capsImplemented
  auth : inode'.auth = inode.auth
  authCap : ∀ mds cap, inode.auth = some mds → inode.caps.find? mds = some cap →
    ∃ cap', inode'.caps.find? mds = some cap' ∧
      ∀ b ∈ used, b ∈ cap.implemented → b ∈ cap'.implemented

/-- The messages to the auth MDS name all bits of `used` that its cap has. -/
def SentKeeps (used : Mask) (inode : CapInode) (sent : List CapMessage) : Prop :=
  ∀ m ∈ sent, inode.auth = some m.mds → ∀ cap, inode.caps.find? m.mds = some cap →
    ∀ b ∈ used, b ∈ cap.implemented → b ∈ m.caps

theorem Keeps.of_caps (hcaps : inode'.caps = inode.caps) (hauth : inode'.auth = inode.auth) :
    Keeps used inode inode' := by
  refine ⟨fun b _ hb => ?_, hauth,
    fun mds cap _ hfind => ⟨cap, by rw [hcaps, hfind], fun _ _ h => h⟩⟩
  simpa only [mem_capsImplemented, hcaps] using hb

theorem Keeps.trans (h : Keeps used inode inode') (h' : Keeps used inode' inode'') :
    Keeps used inode inode'' := by
  refine ⟨fun b hb hin => h'.implemented b hb (h.implemented b hb hin), h'.auth.trans h.auth, ?_⟩
  intro mds cap hauth hfind
  obtain ⟨cap', hfind', hsub⟩ := h.authCap mds cap hauth hfind
  obtain ⟨cap'', hfind'', hsub'⟩ := h'.authCap mds cap' (h.auth.trans hauth) hfind'
  exact ⟨cap'', hfind'', fun b hb hin => hsub' b hb (hsub b hb hin)⟩

variable {sent : List CapMessage}

theorem SentKeeps.of_keeps (h : Keeps used inode inode') (hsent : SentKeeps used inode' sent) :
    SentKeeps used inode sent := by
  intro m hm hauth cap hfind b hb hin
  obtain ⟨cap', hfind', hsub⟩ := h.authCap m.mds cap hauth hfind
  exact hsent m hm (h.auth.trans hauth) cap' hfind' b hb (hsub b hb hin)

theorem SentKeeps.mono {used'} (h : SentKeeps used inode sent) (hsub : used' ⊆ used) :
    SentKeeps used' inode sent :=
  fun m hm hauth cap hfind b hb => h m hm hauth cap hfind b (hsub hb)

theorem Ok.of_caps (h : inode.Ok) (hcaps : inode'.caps = inode.caps) : inode'.Ok := by
  intro mds cap hfind
  exact h mds cap (by rw [← hcaps, hfind])

theorem Ok.insert {new} (h : inode.Ok) (hcaps : inode'.caps = inode.caps.insert mds new)
    (hnew : new.issued ⊆ new.implemented) : inode'.Ok := by
  intro mds' cap hfind
  rw [hcaps] at hfind
  by_cases hmds : mds' = mds
  · subst hmds
    rw [find?_insert_self] at hfind
    cases hfind
    exact hnew
  · rw [find?_insert_of_ne _ _ hmds] at hfind
    exact h mds' cap hfind

/-- A cap may give up a bit of `used` only if it is not the auth cap, and the auth cap has the bit
issued. -/
theorem Keeps.insert {new} (h : inode.Ok) (hfind : inode.caps.find? mds = some cap)
    (hcaps : inode'.caps = inode.caps.insert mds new) (hauth : inode'.auth = inode.auth)
    (hnew : ∀ b ∈ used, b ∈ cap.implemented → b ∈ new.implemented ∨
      ∃ a acap, inode.auth = some a ∧ a ≠ mds ∧ inode.caps.find? a = some acap ∧ b ∈ acap.issued) :
    Keeps used inode inode' := by
  refine ⟨?_, hauth, ?_⟩
  · intro b hb hin
    obtain ⟨mds', cap', hfind', hmem⟩ := mem_capsImplemented.mp hin
    rw [mem_capsImplemented, hcaps]
    by_cases hmds : mds' = mds
    · subst hmds
      rw [hfind] at hfind'
      cases hfind'
      rcases hnew b hb hmem with hkept | ⟨a, acap, -, hne, hacap, hissued⟩
      · exact ⟨mds', new, find?_insert_self _ _ _, hkept⟩
      · exact ⟨a, acap, by rw [find?_insert_of_ne _ _ hne, hacap], h a acap hacap hissued⟩
    · exact ⟨mds', cap', by rw [find?_insert_of_ne _ _ hmds, hfind'], hmem⟩
  · intro a acap hauth' hacap
    rw [hcaps]
    by_cases hmds : a = mds
    · subst hmds
      rw [hfind] at hacap
      cases hacap
      refine ⟨new, find?_insert_self _ _ _, ?_⟩
      intro b hb hmem
      rcases hnew b hb hmem with hkept | ⟨a', -, hsome, hne, -⟩
      · exact hkept
      · rw [hauth'] at hsome
        exact absurd (Option.some.inj hsome).symm hne
    · exact ⟨acap, by rw [find?_insert_of_ne _ _ hmds, hacap], fun _ _ hmem => hmem⟩

theorem Keeps.mono {used'} (h : Keeps used inode inode') (hsub : used' ⊆ used) :
    Keeps used' inode inode' := by
  refine ⟨fun b hb => h.implemented b (hsub hb), h.auth, fun mds cap hauth hfind => ?_⟩
  obtain ⟨cap', hfind', hkept⟩ := h.authCap mds cap hauth hfind
  exact ⟨cap', hfind', fun b hb => hkept b (hsub hb)⟩

/-! ### Sending -/

theorem mem_usedOf (hb : b ∈ used) : b ∈ inode.usedOf used mds ∨
    ∃ a acap, inode.auth = some a ∧ a ≠ mds ∧ inode.caps.find? a = some acap ∧ b ∈ acap.issued := by
  unfold usedOf
  cases hacap : inode.authCap with
  | none => exact .inl hb
  | some acap =>
    obtain ⟨a, hauth, hfind⟩ := Option.bind_eq_some_iff.mp hacap
    split_ifs with hmds
    · exact .inl hb
    · by_cases hissued : b ∈ acap.issued
      · refine .inr ⟨a, acap, hauth, ?_, hfind, hissued⟩
        rintro rfl
        exact hmds hauth
      · exact .inl (Finset.mem_sdiff.mpr ⟨hb, hissued⟩)

theorem sendCap_spec (used : Mask) (h : inode.Ok) (hfind : inode.caps.find? mds = some cap)
    (want retain flush : Mask) :
    (inode.sendCap mds cap (inode.usedOf used mds) want retain flush).1.Ok ∧
      Keeps used inode (inode.sendCap mds cap (inode.usedOf used mds) want retain flush).1 ∧
      SentKeeps used inode
        [(inode.sendCap mds cap (inode.usedOf used mds) want retain flush).2] := by
  have hkept : ∀ b ∈ used, b ∈ cap.implemented →
      b ∈ cap.implemented ∩ (cap.issued ∩ (retain \ (cap.implemented \ cap.issued)) ∪
        inode.usedOf used mds) ∨ ∃ a acap, inode.auth = some a ∧ a ≠ mds ∧
          inode.caps.find? a = some acap ∧ b ∈ acap.issued := by
    intro b hb himp
    refine (mem_usedOf hb).imp_left fun hin => ?_
    exact Finset.mem_inter.mpr ⟨himp, Finset.mem_union_right _ hin⟩
  refine ⟨h.insert rfl ?_, Keeps.insert h hfind rfl rfl hkept, ?_⟩
  · intro b hb
    exact Finset.mem_inter.mpr
      ⟨h mds cap hfind (Finset.mem_inter.mp hb).1, Finset.mem_union_left _ hb⟩
  · intro m hm hauth cap' hfind' b hb himp
    rw [mem_singleton.mp hm] at hauth hfind' ⊢
    change inode.caps.find? mds = some cap' at hfind'
    rw [hfind] at hfind'
    cases hfind'
    rcases hkept b hb himp with hin | ⟨a, -, hsome, hne, -⟩
    · exact hin
    · exact absurd (Option.some.inj (hsome.symm.trans hauth)) hne

theorem getCapsUsed_congr (hrefs : inode'.refs = inode.refs)
    (hcached : inode'.cached = inode.cached) :
    inode'.getCapsUsed = inode.getCapsUsed := by
  ext b
  rw [mem_getCapsUsed, mem_getCapsUsed, hrefs, hcached]

/-- What an operation that ends in the state `c` keeps of the bits that stay in use. -/
structure Kept (inode : CapInode) (c : Checking) : Prop where
  ok : c.inode.Ok
  keeps : Keeps (inode.getCapsUsed ∩ c.inode.getCapsUsed) inode c.inode
  sent : SentKeeps (inode.getCapsUsed ∩ c.inode.getCapsUsed) inode c.sent

variable {env : CheckEnv} {seq : ℕ} {c : Checking} {mid : CapInode}

/-- What `check_caps` keeps: all bits stay in use. -/
structure Checked (inode : CapInode) (c : Checking) : Prop where
  ok : c.inode.Ok
  keeps : Keeps inode.getCapsUsed inode c.inode
  sent : SentKeeps inode.getCapsUsed inode c.sent
  used : c.inode.getCapsUsed = inode.getCapsUsed

theorem checkCaps_spec (h : inode.Ok) (hrun : inode.checkCaps env seq = .ok c) :
    Checked inode c := by
  refine checkCaps_invariant (P := Checked inode) hrun ?_ ?_
  · intro held
    exact ⟨h.of_caps rfl, .of_caps rfl rfl, by simp [SentKeeps], rfl⟩
  · rintro c c' mds hround ⟨hok, hkeeps, hsent, hsame⟩
    rcases checkCap_cases hround with rfl | ⟨cap, mid, flush, hfind, hmid, hnew, hmsg⟩
    · exact ⟨hok, hkeeps, hsent, hsame⟩
    · obtain ⟨hcaps, hauth, hmused, hused⟩ : mid.caps = c.inode.caps ∧ mid.auth = c.inode.auth ∧
          mid.getCapsUsed = c.inode.getCapsUsed ∧
          c.inode.usedOf inode.getCapsUsed mds = mid.usedOf inode.getCapsUsed mds := by
        rcases hmid with rfl | rfl <;> exact ⟨rfl, rfl, rfl, rfl⟩
      have hkeeps' : Keeps inode.getCapsUsed inode mid := hkeeps.trans (.of_caps hcaps hauth)
      rw [hused] at hnew hmsg
      obtain ⟨hok', hsend, hone⟩ := sendCap_spec inode.getCapsUsed (hok.of_caps hcaps)
        (hcaps ▸ hfind) inode.capsWanted (inode.retained env.unmounting) flush
      rw [← hnew] at hok' hsend
      refine ⟨hok', hkeeps'.trans hsend, ?_, by rw [hnew]; exact hmused.trans hsame⟩
      rw [hmsg]
      intro m hm
      rcases mem_append.mp hm with hm | hm
      · exact hsent m hm
      · exact SentKeeps.of_keeps hkeeps' hone m hm

theorem Kept.of_check (hok : mid.Ok) (hmid : Keeps (inode.getCapsUsed ∩ mid.getCapsUsed) inode mid)
    (hrun : mid.checkCaps env seq = .ok c) : Kept inode c := by
  obtain ⟨hok', hkeeps, hsent, hused⟩ := checkCaps_spec hok hrun
  rw [← hused] at hmid hkeeps hsent
  have hsub : inode.getCapsUsed ∩ c.inode.getCapsUsed ⊆ c.inode.getCapsUsed :=
    Finset.inter_subset_right
  exact ⟨hok', hmid.trans (hkeeps.mono hsub), SentKeeps.of_keeps hmid (hsent.mono hsub)⟩

theorem Kept.silent {queued} (hok : mid.Ok)
    (hmid : Keeps (inode.getCapsUsed ∩ mid.getCapsUsed) inode mid) :
    Kept inode ⟨mid, [], seq, queued⟩ :=
  ⟨hok, hmid, by simp [SentKeeps]⟩

/-! ### The operations -/

theorem getCaps_cases {need want} {endoff} {phave} (h : inode.Ok)
    (hrun : inode.getCaps env seq need want endoff = .ok (c, phave)) :
    ∃ mid : CapInode, Checked inode { c with inode := mid } ∧
      (phave = none ∧ c.inode = mid ∨ ∃ have_, phave = some have_ ∧ c.inode = mid.getCapRef need ∧
        need ⊆ have_ ∧ have_ ⊆ mid.capsIssued) := by
  unfold getCaps at hrun
  by_cases hempty : inode.caps.entries = []
  · rw [if_pos hempty] at hrun
    cases hrun
    exact ⟨inode, ⟨h, .of_caps rfl rfl, by simp [SentKeeps], rfl⟩, .inl ⟨rfl, rfl⟩⟩
  · rw [if_neg hempty] at hrun
    obtain ⟨c0, hcheck, hrun⟩ := bind_eq_ok.mp hrun
    have hmid : Checked inode c0 := by
      split_ifs at hcheck
      · have hok' : Ok { inode with wantedMaxSize := endoff.toNat } := h.of_caps rfl
        obtain ⟨hok, hkeeps, hsent, hused⟩ := checkCaps_spec hok' hcheck
        exact ⟨hok, ⟨hkeeps.implemented, hkeeps.auth, hkeeps.authCap⟩, hsent, hused⟩
      · cases hcheck
        exact ⟨h, .of_caps rfl rfl, by simp [SentKeeps], rfl⟩
    by_cases hwait : (0 ≤ endoff ∧ (c0.inode.maxSize : ℤ) < endoff) ∨ c0.inode.snapWriting = true
    · rw [if_pos hwait] at hrun
      cases hrun
      exact ⟨_, hmid, .inl ⟨rfl, rfl⟩⟩
    · rw [if_neg hwait] at hrun
      cases htry : c0.inode.tryCaps need want with
      | none =>
        rw [htry] at hrun
        cases hrun
        exact ⟨_, hmid, .inl ⟨rfl, rfl⟩⟩
      | some have_ =>
        rw [htry] at hrun
        cases hrun
        refine ⟨_, hmid, .inr ⟨have_, rfl, rfl, ?_⟩⟩
        unfold tryCaps at htry
        dsimp only at htry
        split_ifs at htry with hissued
        cases htry
        exact ⟨Finset.subset_union_left, Finset.union_subset hissued.1 Finset.inter_subset_left⟩

theorem getCapsUsed_anti (hrefs : ∀ b, inode'.refs b ≤ inode.refs b)
    (hcached : inode'.cached = true → inode.cached = true) :
    inode'.getCapsUsed ⊆ inode.getCapsUsed := by
  intro b hb
  rw [mem_getCapsUsed] at hb ⊢
  refine hb.imp (fun hne => ?_) (fun h => ⟨h.1, hcached h.2⟩)
  have := hrefs b
  omega

theorem dropRefs_used (inode : CapInode) (mask : Mask) :
    (inode.dropRefs mask).getCapsUsed ⊆ inode.getCapsUsed := by
  apply getCapsUsed_anti
  · intro b
    unfold dropRefs
    dsimp only
    split_ifs <;> omega
  · exact id

theorem releaseSet_used (inode : CapInode) (emptied : Bool) :
    (inode.releaseSet emptied).getCapsUsed ⊆ inode.getCapsUsed :=
  getCapsUsed_anti (fun _ => le_rfl) fun hc => (Bool.and_eq_true_iff.mp hc).1

structure KeptDown (inode : CapInode) (c : Checking) : Prop extends Kept inode c where
  used : c.inode.getCapsUsed ⊆ inode.getCapsUsed

theorem KeptDown.checkIf {check}
    (hok : mid.Ok) (hmid : Keeps (inode.getCapsUsed ∩ mid.getCapsUsed) inode mid)
    (hused : mid.getCapsUsed ⊆ inode.getCapsUsed) (hrun : mid.checkIf env seq check = .ok c) :
    KeptDown inode c := by
  unfold CapInode.checkIf at hrun
  split_ifs at hrun
  · refine ⟨.of_check hok hmid hrun, ?_⟩
    rw [(checkCaps_spec hok hrun).used]
    exact hused
  · cases hrun
    exact ⟨.silent hok hmid, hused⟩

theorem putCapRef_kept {mask} {emptied}
    (h : inode.Ok) (hrun : inode.putCapRef env seq mask emptied = .ok c) : KeptDown inode c := by
  obtain ⟨-, -, hrun⟩ := bind_eq_ok.mp hrun
  dsimp only at hrun
  have hok : (inode.dropRefs mask).Ok := h.of_caps rfl
  have hused := dropRefs_used inode mask
  split_ifs at hrun
  · cases hrun
    exact ⟨.silent hok (.of_caps rfl rfl), hused⟩
  · cases hrun
    exact ⟨.silent (hok.of_caps rfl) (.of_caps rfl rfl), (releaseSet_used _ _).trans hused⟩
  · have hcheck : (inode.dropRefs mask).checkIf env seq true = .ok c := hrun
    exact KeptDown.checkIf hok (.of_caps rfl rfl) hused hcheck

theorem setMaxSize_eq (inode : CapInode) (mds maxSize : ℕ) :
    (inode.setMaxSize mds maxSize).caps = inode.caps ∧
      (inode.setMaxSize mds maxSize).auth = inode.auth ∧
      (inode.setMaxSize mds maxSize).getCapsUsed = inode.getCapsUsed := by
  unfold setMaxSize
  split_ifs <;> exact ⟨rfl, rfl, rfl⟩

theorem setCap_used (inode : CapInode) (mds : ℕ) (cap : InodeCap) (newCaps wanted : Mask) :
    (inode.setCap mds cap newCaps wanted).getCapsUsed = inode.getCapsUsed :=
  getCapsUsed_congr rfl rfl

theorem setCap_spec (used : Mask) (h : inode.Ok) (hfind : inode.caps.find? mds = some cap)
    (newCaps wanted : Mask) : (inode.setCap mds cap newCaps wanted).Ok ∧
      Keeps used inode (inode.setCap mds cap newCaps wanted) := by
  refine ⟨h.insert rfl Finset.subset_union_right, Keeps.insert h hfind rfl rfl ?_⟩
  intro b _ hmem
  exact .inl (Finset.mem_union_left _ hmem)

theorem handleCapGrant_kept {maxSize} {newCaps} {flush} {emptied reconsider} (h : inode.Ok)
    (hrun : inode.handleCapGrant env seq mds newCaps maxSize flush emptied reconsider = .ok c) :
    KeptDown inode c := by
  unfold handleCapGrant at hrun
  cases hfind : inode.caps.find? mds with
  | none =>
    rw [hfind] at hrun
    cases hrun
  | some cap =>
    simp only [hfind] at hrun
    obtain ⟨hcaps, hauth, hused⟩ := setMaxSize_eq inode mds maxSize
    generalize inode.setMaxSize mds maxSize = mid at hrun hcaps hauth hused
    have hok : mid.Ok := h.of_caps hcaps
    -- the caps are those of the grant, and the set may be released
    have hset : ∀ wanted (new : CapInode) check, new.checkIf env seq check = .ok c →
        new.caps = (mid.setCap mds cap newCaps wanted).caps → new.auth = mid.auth →
        new.getCapsUsed ⊆ (mid.setCap mds cap newCaps wanted).getCapsUsed → KeptDown inode c := by
      intro wanted new check hrun hnew hauth' hdrop
      rw [setCap_used, hused] at hdrop
      obtain ⟨hok', hkeeps⟩ := setCap_spec inode.getCapsUsed hok (hcaps ▸ hfind) newCaps wanted
      refine KeptDown.checkIf (hok'.of_caps hnew) ?_ hdrop hrun
      exact Keeps.trans (.of_caps hcaps hauth)
        (.trans (hkeeps.mono Finset.inter_subset_left) (.of_caps hnew hauth'))
    by_cases hrevoke : cap.issued \ newCaps ≠ ∅
    · rw [if_pos hrevoke] at hrun
      by_cases hwait : fileBuffer ∈ inode.getCapsUsed \ newCaps ∧ flush = .waiting
      · rw [if_pos hwait] at hrun
        exact hset _ _ _ hrun rfl rfl (Finset.Subset.refl _)
      · rw [if_neg hwait] at hrun
        by_cases hcache : fileCache ∈ cap.issued \ newCaps
        · rw [if_pos hcache] at hrun
          exact hset _ _ _ hrun rfl rfl (releaseSet_used _ _)
        · rw [if_neg hcache] at hrun
          exact hset _ _ _ hrun rfl rfl (releaseSet_used _ _)
    · rw [if_neg hrevoke] at hrun
      by_cases hsame : cap.issued = newCaps
      · rw [if_pos hsame] at hrun
        exact KeptDown.checkIf hok (.of_caps hcaps hauth) hused.subset hrun
      · rw [if_neg hsame] at hrun
        exact hset _ _ _ hrun rfl rfl (Finset.Subset.refl _)

theorem released_spec (cap : InodeCap) (drop unless_ : Mask) :
    (cap.issued ⊆ cap.implemented → (released cap drop unless_).issued ⊆
      (released cap drop unless_).implemented) ∧
    ∀ b ∈ cap.implemented, b ∉ drop → b ∈ (released cap drop unless_).implemented := by
  unfold released
  split_ifs
  · refine ⟨fun h => Finset.sdiff_subset_sdiff h (Finset.Subset.refl _), ?_⟩
    intro b hb hnot
    exact Finset.mem_sdiff.mpr ⟨hb, hnot⟩
  · exact ⟨id, fun b hb _ => hb⟩

theorem encodeInodeRelease_kept (h : inode.Ok) (drop unless_ : Mask) (force : Bool) (seq : ℕ) :
    KeptDown inode ⟨(inode.encodeInodeRelease mds drop unless_ force).1,
      (inode.encodeInodeRelease mds drop unless_ force).2.toList, seq, false⟩ := by
  unfold encodeInodeRelease
  cases hfind : inode.caps.find? mds with
  | none => exact ⟨.silent h (.of_caps rfl rfl), Finset.Subset.refl _⟩
  | some cap =>
    dsimp only
    generalize hdrop : drop \ (inode.dirty ∪ inode.getCapsUsed) = dropped
    obtain ⟨hnew, hkept⟩ := released_spec cap dropped unless_
    generalize released cap dropped unless_ = new at hnew hkept
    have hstay : ∀ b ∈ inode.getCapsUsed, b ∈ cap.implemented → b ∈ new.implemented := by
      intro b hb himp
      apply hkept b himp
      rw [← hdrop]
      simp [hb]
    refine ⟨⟨h.insert rfl (hnew (h mds cap hfind)), ?_, ?_⟩, Finset.Subset.refl _⟩
    · refine Keeps.insert h hfind rfl rfl fun b hb himp => .inl ?_
      exact hstay b (Finset.mem_inter.mp hb).1 himp
    · intro m hm hauth cap' hfind' b hb himp
      obtain ⟨rfl⟩ : m = ⟨mds, new.implemented, new.wanted, ∅, 0⟩ := by
        split_ifs at hm with hsends
        · simpa using hm
        · simp at hm
      rw [hfind] at hfind'
      cases hfind'
      exact hstay b (Finset.mem_inter.mp hb).1 himp

theorem trimCap_kept (h : inode.Ok) (seq : ℕ) :
    KeptDown inode ⟨inode.trimCap mds, [], seq, false⟩ := by
  unfold trimCap
  cases hfind : inode.caps.find? mds with
  | none => exact ⟨.silent h (.of_caps rfl rfl), Finset.Subset.refl _⟩
  | some cap =>
    dsimp only
    split_ifs with htrim
    · obtain ⟨-, hauth, hfree⟩ := htrim
      have hothers : ∀ mds' cap', (inode.caps.erase mds).find? mds' = some cap' →
          inode.caps.find? mds' = some cap' := by
        intro mds' cap' hfind'
        rw [find?_erase] at hfind'
        split_ifs at hfind'
        exact hfind'
      have hother : ∀ mds' cap', mds' ≠ mds → inode.caps.find? mds' = some cap' →
          (inode.caps.erase mds).find? mds' = some cap' := by
        intro mds' cap' hne hfind'
        rw [find?_erase, if_neg hne]
        exact hfind'
      refine ⟨.silent (fun mds' cap' hfind' => h mds' cap' (hothers mds' cap' hfind')) ?_,
        Finset.Subset.refl _⟩
      refine ⟨?_, rfl, fun a acap ha hacap => ⟨acap, hother a acap ?_ hacap, fun _ _ hb => hb⟩⟩
      · intro b hb himp
        have hused := (Finset.mem_inter.mp hb).1
        obtain ⟨mds', cap', hfind', hmem⟩ := mem_capsImplemented.mp himp
        by_cases hmds : mds' = mds
        · subst hmds
          rw [hfind] at hfind'
          cases hfind'
          -- the auth cap has the bit
          have hissued : b ∈ (inode.authCap.map InodeCap.issued).getD ∅ := by
            by_contra hnot
            have hin := Finset.mem_inter.mpr ⟨Finset.mem_sdiff.mpr ⟨hused, hnot⟩,
              Finset.mem_union_right cap.issued hmem⟩
            rw [hfree] at hin
            exact absurd hin (Finset.notMem_empty b)
          cases hacap : inode.authCap with
          | none => simp [hacap] at hissued
          | some acap =>
            obtain ⟨a, ha, hfinda⟩ := Option.bind_eq_some_iff.mp hacap
            refine mem_capsImplemented.mpr ⟨a, acap, hother a acap ?_ hfinda, h a acap hfinda ?_⟩
            · rintro rfl
              exact hauth ha
            · simpa [hacap] using hissued
        · exact mem_capsImplemented.mpr ⟨mds', cap', hother mds' cap' hmds hfind', hmem⟩
      · rintro rfl
        exact hauth ha
    · exact ⟨.silent h (.of_caps rfl rfl), Finset.Subset.refl _⟩

/-! ### Runs -/

inductive Event
  /-- A `get_caps` that succeeds, the references on `extra` its caller takes, whether the caller
  brings data into the cacher, and what is issued then. -/
  | getCaps (extra : Mask) (fills : Bool) (issued : Mask)
  | waits
  | putCapRef
  | grant
  | check
  | release
  | trim
  /-- Other changes of the inode. -/
  | update

/-- As far as `b` goes, references are taken and data is cached on what is issued. -/
def Event.Covers (b : CapBit) : Event → Prop
  | .getCaps extra fills issued => b ∈ extra ∨ (b = fileCache ∧ fills = true) → b ∈ issued
  | _ => True

inductive Step : Event × List CapMessage → CapInode → CapInode → Prop
  | getCaps {inode : CapInode} {env : CheckEnv} {seq : ℕ} {need want : Mask} {endoff : ℤ}
      {c : Checking} {phave : Mask} (extra : Mask) (fills : Bool)
      (hrun : inode.getCaps env seq need want endoff = .ok (c, some phave)) :
      Step (.getCaps extra fills c.inode.capsIssued, c.sent) inode
        { c.inode.getCapRef extra with cached := c.inode.cached || fills }
  | waits {inode : CapInode} {env : CheckEnv} {seq : ℕ} {need want : Mask} {endoff : ℤ}
      {c : Checking} (hrun : inode.getCaps env seq need want endoff = .ok (c, none)) :
      Step (.waits, c.sent) inode c.inode
  | putCapRef {inode : CapInode} {env : CheckEnv} {seq : ℕ} {mask : Mask} {emptied : Bool}
      {c : Checking} (hrun : inode.putCapRef env seq mask emptied = .ok c) :
      Step (.putCapRef, c.sent) inode c.inode
  | grant {inode : CapInode} {env : CheckEnv} {seq mds maxSize : ℕ} {newCaps : Mask}
      {flush : FlushEnd} {emptied reconsider : Bool} {c : Checking}
      (hrun : inode.handleCapGrant env seq mds newCaps maxSize flush emptied reconsider = .ok c) :
      Step (.grant, c.sent) inode c.inode
  | check {inode : CapInode} {env : CheckEnv} {seq : ℕ} {c : Checking}
      (hrun : inode.checkCaps env seq = .ok c) : Step (.check, c.sent) inode c.inode
  | release {inode : CapInode} (mds : ℕ) (drop unless_ : Mask) (force : Bool) :
      Step (.release, (inode.encodeInodeRelease mds drop unless_ force).2.toList) inode
        (inode.encodeInodeRelease mds drop unless_ force).1
  | trim {inode : CapInode} (mds : ℕ) : Step (.trim, []) inode (inode.trimCap mds)
  | update {inode inode' : CapInode} (hcaps : inode'.caps = inode.caps)
      (hauth : inode'.auth = inode.auth) (hrefs : inode'.refs = inode.refs)
      (hcached : inode'.cached = true → inode.cached = true) : Step (.update, []) inode inode'

variable {l : Event × List CapMessage} {ls : List (Event × List CapMessage)}

theorem mem_used_getCapRef {need extra} {fills}
    (hb : b ∈ getCapsUsed { (inode.getCapRef need).getCapRef extra with
      cached := inode.cached || fills }) (hnot : b ∉ inode.getCapsUsed) :
    b ∈ need ∨ b ∈ extra ∨ (b = fileCache ∧ fills = true) := by
  rw [mem_getCapsUsed] at hb hnot
  push Not at hnot
  obtain ⟨hrefs, hcached⟩ := hnot
  rcases hb with hb | ⟨rfl, hb⟩
  · simp only [getCapRef, hrefs] at hb
    by_cases hextra : b ∈ extra
    · exact .inr (.inl hextra)
    · left
      by_contra hneed
      simp [hextra, hneed] at hb
  · refine .inr (.inr ⟨rfl, ?_⟩)
    simpa [hcached rfl] using hb

/-- A step keeps the bits that stay in use, and a bit that comes into use is implemented if it is
issued. -/
theorem Step.kept (h : Step l inode inode') (hs : inode.Ok) :
    Kept inode ⟨inode', l.2, 0, false⟩ ∧ ∀ b ∈ inode'.getCapsUsed, b ∉ inode.getCapsUsed →
      l.1.Covers b → b ∈ inode'.capsImplemented := by
  have hdown : ∀ {c : Checking}, KeptDown inode c → Kept inode ⟨c.inode, c.sent, 0, false⟩ ∧
      ∀ b ∈ c.inode.getCapsUsed, b ∉ inode.getCapsUsed → l.1.Covers b →
        b ∈ c.inode.capsImplemented :=
    fun hc => ⟨⟨hc.ok, hc.keeps, hc.sent⟩, fun _ hb hnot _ => absurd (hc.used hb) hnot⟩
  cases h with
  | @getCaps _ env seq need want endoff c phave extra fills hrun =>
    obtain ⟨mid, ⟨hok, hkeeps, hsent, hused⟩, hcases⟩ := getCaps_cases hs hrun
    rcases hcases with ⟨hnone, -⟩ | ⟨have_, hsome, hinode, hneed, hissued⟩
    · cases hnone
    · cases hsome
      have hcaps : c.inode.caps = mid.caps := by rw [hinode]; rfl
      have hauth : c.inode.auth = mid.auth := by rw [hinode]; rfl
      refine ⟨⟨hok.of_caps hcaps, ?_, hsent.mono Finset.inter_subset_left⟩, ?_⟩
      · exact Keeps.trans (hkeeps.mono Finset.inter_subset_left) (.of_caps hcaps hauth)
      · intro b hb hnot hcov
        rw [← hused] at hnot
        have hin : b ∈ mid.capsIssued := by
          rw [hinode] at hb hcov
          rcases mem_used_getCapRef hb hnot with hin | hin
          · exact hissued (hneed hin)
          · exact hcov hin
        have himp := hok.issued_implemented hin
        simpa only [mem_capsImplemented, getCapRef, hcaps] using himp
  | waits hrun =>
    obtain ⟨mid, ⟨hok, hkeeps, hsent, hused⟩, hcases⟩ := getCaps_cases hs hrun
    rcases hcases with ⟨-, rfl⟩ | ⟨have_, hsome, -⟩
    · exact hdown ⟨⟨hok, hkeeps.mono Finset.inter_subset_left,
        hsent.mono Finset.inter_subset_left⟩, hused.subset⟩
    · cases hsome
  | putCapRef hrun => exact hdown (putCapRef_kept hs hrun)
  | grant hrun => exact hdown (handleCapGrant_kept hs hrun)
  | check hrun =>
    exact hdown ⟨.of_check hs (.of_caps rfl rfl) hrun, (checkCaps_spec hs hrun).used.subset⟩
  | release mds drop unless_ force => exact hdown (encodeInodeRelease_kept hs drop unless_ force 0)
  | trim mds => exact hdown (trimCap_kept hs 0)
  | update hcaps hauth hrefs hcached =>
    exact hdown (c := ⟨inode', [], 0, false⟩) ⟨.silent (hs.of_caps hcaps) (.of_caps hcaps hauth),
      getCapsUsed_anti (fun b => (congrFun hrefs b).le) hcached⟩

theorem trace_ok (h : Trace Step inode ls inode') (hs : inode.Ok) : inode'.Ok :=
  h.invariant (fun _ _ _ _ hstep hok => (hstep.kept hok).1.ok) hs

/-- After every run, the bits in use are implemented as far as they were issued when the references
on them were taken; and whatever the next step is, a bit that is and stays in use stays
implemented, and a message to the auth MDS keeps it. -/
theorem inUse_stays (h : Trace Step inode ls inode') (hs : inode.Ok) :
    (∀ b, (∀ l ∈ ls, l.1.Covers b) → (b ∈ inode.getCapsUsed → b ∈ inode.capsImplemented) →
      b ∈ inode'.getCapsUsed → b ∈ inode'.capsImplemented) ∧
    ∀ l next, Step l inode' next → ∀ b ∈ inode'.getCapsUsed, b ∈ next.getCapsUsed →
      (b ∈ inode'.capsImplemented → b ∈ next.capsImplemented) ∧
      ∀ m ∈ l.2, inode'.auth = some m.mds → ∀ cap, inode'.caps.find? m.mds = some cap →
        b ∈ cap.implemented → b ∈ m.caps := by
  constructor
  · intro b hcov hstart
    have hrun := h.invariant (P := fun t => t.Ok ∧ (b ∈ t.getCapsUsed → b ∈ t.capsImplemented)) ?_
      ⟨hs, hstart⟩
    · exact hrun.2
    · rintro l hl s t hstep ⟨hok, hheld⟩
      obtain ⟨hkept, hnew⟩ := hstep.kept hok
      refine ⟨hkept.ok, fun hb => ?_⟩
      by_cases hbefore : b ∈ s.getCapsUsed
      · exact hkept.keeps.implemented b (Finset.mem_inter.mpr ⟨hbefore, hb⟩) (hheld hbefore)
      · exact hnew b hb hbefore (hcov l hl)
  · intro l next hstep b hb hb'
    obtain ⟨hkept, -⟩ := hstep.kept (trace_ok h hs)
    have hin := Finset.mem_inter.mpr ⟨hb, hb'⟩
    exact ⟨hkept.keeps.implemented b hin,
      fun m hm hauth cap hfind himp => hkept.sent m hm hauth cap hfind b hin himp⟩

/-- The data of a buffered write is in the cache when the MDS revokes `FILE_CACHE`, which `get_caps`
was not asked for. -/
theorem inUse_stays_revoked :
    let cap : InodeCap := ⟨{pin, fileWr, fileBuffer, fileCache},
      {pin, fileWr, fileBuffer, fileCache}, ∅⟩
    ∃ ls inode', Trace Step (holding ⟨[(0, cap)], by simp⟩ 0) ls inode' ∧
      fileCache ∈ inode'.getCapsUsed ∧ fileCache ∉ inode'.capsIssued ∧
      fileCache ∈ inode'.capsImplemented := by
  intro cap
  let inode := holding ⟨[(0, cap)], by simp⟩ 0
  let env : CheckEnv := ⟨[0], false, false, 0, 5⟩
  let extra : Mask := {fileCache, fileBuffer}
  let start : Checking := ⟨inode, [], 0, false⟩
  -- the states are kept as names, so that only `decide` runs the operations
  obtain ⟨got, hgot⟩ : ∃ d, d = ((inode.getCaps env 0 {fileWr} {fileBuffer} (-1)).toOption.getD
    (start, none)).1 := ⟨_, rfl⟩
  obtain ⟨mid, hmid⟩ : ∃ t : CapInode, t = { got.inode.getCapRef extra with
    cached := got.inode.cached || true } := ⟨_, rfl⟩
  obtain ⟨c, hc, hgrant⟩ := exists_eq_getD start
    (mid.handleCapGrant env 0 0 {pin} 0 .flushed false false) (by rw [hmid, hgot]; decide +kernel)
  have hget : inode.getCaps env 0 {fileWr} {fileBuffer} (-1) =
      .ok (got, some {fileWr, fileBuffer}) := by
    have hok := eq_ok_getD (x := inode.getCaps env 0 {fileWr} {fileBuffer} (-1))
      (start, none) (by decide +kernel)
    rw [hok, hgot]
    refine congrArg Except.ok (Prod.ext rfl ?_)
    decide +kernel
  obtain ⟨hused, hissued⟩ : fileCache ∈ c.inode.getCapsUsed ∧ fileCache ∉ c.inode.capsIssued := by
    rw [hc, hmid, hgot]
    decide +kernel
  have hstep : Step (.getCaps extra true got.inode.capsIssued, got.sent) inode mid := by
    rw [hmid]
    exact .getCaps extra true hget
  have htrace : Trace Step inode
      [(.getCaps extra true got.inode.capsIssued, got.sent), (.grant, c.sent)] c.inode :=
    .cons hstep (.single (.grant hgrant))
  have hok : inode.Ok := by
    intro mds cap' hfind
    rw [find?_eq_some_iff] at hfind
    obtain ⟨-, rfl⟩ := Prod.mk.inj (mem_singleton.mp hfind)
    exact Finset.Subset.refl _
  refine ⟨_, c.inode, htrace, hused, hissued, (inUse_stays htrace hok).1 fileCache ?_ ?_ hused⟩
  · intro l hl
    rcases mem_cons.mp hl with rfl | hl
    · intro _
      rw [hgot]
      decide +kernel
    · rw [mem_singleton.mp hl]
      trivial
  · decide +kernel

/-- A synchronous write: `get_caps` with `FILE_WR` granted but not `FILE_BUFFER`, and then the
reference on `FILE_BUFFER` that its commit releases. -/
theorem inUse_syncWrite_unissued :
    let cap : InodeCap := ⟨{pin, fileWr}, {pin, fileWr}, ∅⟩
    ∃ ls inode', Trace Step (holding ⟨[(0, cap)], by simp⟩ 0) ls inode' ∧
      (holding ⟨[(0, cap)], by simp⟩ 0).getCapsUsed = ∅ ∧
      fileBuffer ∈ inode'.getCapsUsed ∧ fileBuffer ∉ inode'.capsImplemented := by
  intro cap
  let inode := holding ⟨[(0, cap)], by simp⟩ 0
  let env : CheckEnv := ⟨[0], false, false, 0, 5⟩
  have hres : (inode.getCaps env 0 {fileWr} {fileBuffer} (-1)).toOption.map (fun r =>
      (r.2, r.1.inode.capsImplemented)) = some (some {fileWr}, {pin, fileWr}) := by decide +kernel
  obtain ⟨⟨c, phave⟩, hrun, heq⟩ := Option.map_eq_some_iff.mp hres
  obtain ⟨rfl, himp⟩ := Prod.mk.inj heq
  have hget := eq_ok_of_toOption hrun
  refine ⟨_, _, .single (.getCaps {fileBuffer} false hget), by decide +kernel, ?_, ?_⟩
  · rw [mem_getCapsUsed]
    left
    simp [getCapRef]
  · intro hin
    have hbuffer : fileBuffer ∈ c.inode.capsImplemented := hin
    rw [himp] at hbuffer
    exact absurd hbuffer (by decide)

end CephDokan.Client.CapInode
