import CephDokan.Client.SnapRealm

/-!
# The fuel of the snap realms

What a call comes to with some fuel it also comes to with more.
-/

namespace CephDokan.Client.SnapState

open Fallible

variable (s : SnapState)

theorem getSnapContext_steady (r : ℕ) : Steady fun fuel => s.getSnapContext fuel r := by
  intro fuel
  induction fuel generalizing r with
  | zero =>
    intro _ _ _ h
    cases h
  | succ fuel ih =>
    intro fuel' a hle h
    obtain ⟨k, rfl⟩ : ∃ k, fuel' = k + 1 := ⟨fuel' - 1, by omega⟩
    simp only [getSnapContext] at h ⊢
    obtain ⟨x, hx, h⟩ := bind_eq_ok.mp h
    rw [hx, ok_bind]
    by_cases hseq : (s.cached r).seq = 0
    · rw [if_pos hseq] at h ⊢
      cases hp : x.pparent with
      | none =>
        rw [hp] at h
        exact h
      | some p =>
        rw [hp] at h
        obtain ⟨b, hb, h⟩ := bind_eq_ok.mp h
        exact bind_eq_ok.mpr ⟨b, ih p k b (by omega) hb, h⟩
    · rw [if_neg hseq] at h ⊢
      exact h

theorem putSnapRealm_steady (r : ℕ) : Steady fun fuel => s.putSnapRealm fuel r := by
  intro fuel
  induction fuel generalizing s r with
  | zero =>
    intro _ _ _ h
    cases h
  | succ fuel ih =>
    intro fuel' a hle h
    obtain ⟨k, rfl⟩ : ∃ k, fuel' = k + 1 := ⟨fuel' - 1, by omega⟩
    simp only [putSnapRealm] at h ⊢
    obtain ⟨x, hx, h⟩ := bind_eq_ok.mp h
    rw [hx, ok_bind]
    by_cases hlast : x.nref - 1 = 0
    · rw [if_pos hlast] at h ⊢
      cases hp : x.pparent with
      | none =>
        rw [hp] at h
        exact h
      | some p =>
        rw [hp] at h
        obtain ⟨t, ht, h⟩ := bind_eq_ok.mp h
        exact bind_eq_ok.mpr ⟨t, ht, ih t p k a (by omega) h⟩
    · rw [if_neg hlast] at h ⊢
      exact h

theorem walk_steady {visit : ℕ → SnapState → ℕ → Run SnapState}
    (hvisit : ∀ s r, Steady fun fuel => visit fuel s r) (s : SnapState) (q : List ℕ) :
    Steady fun fuel => walk (visit fuel) fuel s q := by
  suffices h : ∀ steps steps' fuel fuel' a, steps ≤ steps' → fuel ≤ fuel' →
      walk (visit fuel) steps s q = .ok a → walk (visit fuel') steps' s q = .ok a from
    fun fuel fuel' a hle => h fuel fuel' fuel fuel' a hle hle
  intro steps
  induction steps generalizing s q with
  | zero =>
    intro steps' fuel fuel' a _ _ h
    cases q with
    | nil =>
      unfold walk at h ⊢
      exact h
    | cons r q => cases h
  | succ steps ih =>
    intro steps' fuel fuel' a hsteps hle h
    obtain ⟨k, rfl⟩ : ∃ k, steps' = k + 1 := ⟨steps' - 1, by omega⟩
    cases q with
    | nil => exact h
    | cons r q =>
      simp only [walk] at h ⊢
      obtain ⟨t, ht, h⟩ := bind_eq_ok.mp h
      obtain ⟨x, hx, h⟩ := bind_eq_ok.mp h
      have hone : visit fuel' s r = .ok t := hvisit s r fuel fuel' t hle ht
      rw [hone, ok_bind, hx, ok_bind]
      exact ih t _ k fuel fuel' a (by omega) hle h

theorem invalidateSnaprealmAndChildren_steady (r : ℕ) :
    Steady fun fuel => s.invalidateSnaprealmAndChildren fuel r := by
  have hvisit : ∀ s r, Steady fun _ => .ok (SnapState.invalidateCache s r) := fun _ _ => .const _
  exact walk_steady hvisit s [r]

theorem flushRealm_steady (r : ℕ) : Steady fun fuel => flushRealm fuel s r := by
  apply Steady.bind (.const _)
  intro x
  exact .foldlM (fun s _ => (getSnapContext_steady s r).map Prod.snd) _ _

theorem adjustRealmParent_steady (r p : ℕ) : Steady fun fuel => s.adjustRealmParent fuel r p := by
  apply Steady.bind (.const _)
  intro x
  apply Steady.ite _ (.const _)
  apply Steady.bind
  · unfold leaveParent
    cases x.pparent with
    | none => exact .const _
    | some p => exact .bind (.const _) fun t => putSnapRealm_steady t p
  · exact fun _ => .const _

theorem updateRealm_steady (flush : Bool) (s : SnapState) (info : SnapRealmInfo) :
    Steady fun fuel => updateRealm fuel flush s info := by
  apply Steady.bind (.const _)
  intro x
  apply Steady.bind (.ite (walk_steady flushRealm_steady _ _) (.const _))
  intro s1
  apply Steady.bind (adjustRealmParent_steady s1 _ _)
  intro moved
  apply Steady.bind (.const _)
  intro x1
  apply Steady.bind
  · exact .ite (invalidateSnaprealmAndChildren_steady _ _) (.const _)
  · exact fun s2 => putSnapRealm_steady s2 _

theorem moveInode_steady (info : SnapRealmInfo) (m : SnapState × List ℕ) (i : ℕ) :
    Steady fun fuel => moveInode fuel info m i := by
  unfold moveInode
  cases m.1.snaprealm i with
  | none => exact .const _
  | some r =>
    apply Steady.ite (.const _)
    apply Steady.bind (.const _)
    intro x
    apply Steady.ite (.const _)
    apply Steady.bind (getSnapContext_steady _ r)
    intro c
    apply Steady.bind (.const _)
    intro t
    exact .bind (putSnapRealm_steady t r) fun _ => .const _

theorem adoptRealm_steady (r : ℕ) (s : SnapState) (child : ℕ) :
    Steady fun fuel => adoptRealm fuel r s child := by
  apply Steady.ite _ (.const _)
  apply Steady.bind (adjustRealmParent_steady _ child r)
  exact fun t => putSnapRealm_steady t.1 child

theorem handleSnap_steady (m : SnapMessage) : Steady fun fuel => s.handleSnap fuel m := by
  apply Steady.ite _ (.foldlM (updateRealm_steady _) _ _)
  cases m.trace with
  | nil => exact .const _
  | cons info rest =>
    apply Steady.bind (.const _)
    intro _
    apply Steady.bind (.const _)
    intro _
    apply Steady.bind
    · apply Steady.bind (.foldlM (moveInode_steady info) _ _)
      exact fun t => .bind (.foldlM (adoptRealm_steady _) _ _) fun _ => .const _
    intro t
    apply Steady.bind (.foldlM (updateRealm_steady _) _ _)
    intro u
    exact .bind (.const _) fun v => putSnapRealm_steady v _

theorem handle_steady (e : SnapEvent) : Steady fun fuel => s.handle fuel e := by
  cases e with
  | trace infos => exact .foldlM (updateRealm_steady _) _ _
  | snap m => exact handleSnap_steady s m
  | openRealm i r => exact .const _
  | closeRealm i =>
    show Steady fun fuel => closeRealm fuel s i
    unfold closeRealm
    cases s.snaprealm i with
    | none => exact .const _
    | some r =>
      apply Steady.bind (.const _)
      exact fun t => .bind (putSnapRealm_steady t r) fun _ => .const _
  | context i =>
    simp only [handle]
    cases s.snaprealm i with
    | none => exact .const _
    | some r => exact (getSnapContext_steady s r).map Prod.snd

end CephDokan.Client.SnapState
