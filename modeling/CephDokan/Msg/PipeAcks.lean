import CephDokan.Lib.Trace
import CephDokan.Msg.Dispatch

/-!
# Acknowledgements of a pipe

The reader notes in `in_seq` what has arrived, and the writer acknowledges it whenever `in_seq` is
ahead of `in_seq_acked`. The ack is written without the lock and noted afterwards. A session reset
sets `in_seq` back and leaves the other counter as it is, so that acks of the old session hide the
messages of the new one.
-/

namespace CephDokan.Msg

/-- What the acks of a `Pipe` depend on; `sendSeq` is the ack that the writer is writing. -/
structure PipeSeqs where
  state : PipeState := .accepting
  inSeq : ℕ := 0
  inSeqAcked : ℕ := 0
  sendSeq : Option ℕ := none
  deriving DecidableEq

inductive PipeEvent
  /-- the reader has read a message -/
  | message (seq : ℕ)
  /-- the writer drops the lock to write an ack -/
  | writeAck
  /-- the writer has the lock again -/
  | ackWritten (rc : ℤ)
  | wasSessionReset
  /-- `accept` puts the pipe in the place of an existing one -/
  | replace (existingSeq : ℕ) (isResetFromPeer : Bool)
  /-- connecting, faults, closing: the counters stay -/
  | enter (state : PipeState)

namespace PipeSeqs

/-- One step of a thread that has the lock, if the thread can take it. -/
def step (p : PipeSeqs) : PipeEvent → Option PipeSeqs
  | .message seq =>
    if p.state = .closed ∨ p.state = .connecting then some p
    -- if it is old, drop the message
    else if seq ≤ p.inSeq then some p
    else some { p with inSeq := seq }
  | .writeAck =>
    -- the writer is started by `accept` or `connect`
    if p.state ≠ .accepting ∧ p.sendSeq = none ∧ p.inSeq > p.inSeqAcked then
      some { p with sendSeq := some p.inSeq }
    else none
  | .ackWritten rc =>
    match p.sendSeq with
    | none => none
    | some seq =>
      some { p with sendSeq := none, inSeqAcked := if rc < 0 then p.inSeqAcked else seq }
  | .wasSessionReset => some { p with inSeq := 0 }
  | .replace existingSeq isResetFromPeer =>
    if p.state = .accepting then
      let seq := if isResetFromPeer then 0 else existingSeq
      some { p with inSeq := seq, inSeqAcked := seq }
    else none
  | .enter state => if state = .accepting then none else some { p with state := state }

/-- What has been acknowledged, or is about to be, has been received. -/
structure Covered (p : PipeSeqs) : Prop where
  acked : p.inSeqAcked ≤ p.inSeq
  sending : ∀ seq, p.sendSeq = some seq → seq ≤ p.inSeq
  accepting : p.state = .accepting → p.sendSeq = none

/-- A step that resets no session of which something has been acknowledged. -/
def CleanStep (e : PipeEvent) (p p' : PipeSeqs) : Prop :=
  p.step e = some p' ∧ match e with
    | .wasSessionReset => p.inSeqAcked = 0 ∧ p.sendSeq = none
    | _ => True

variable {p p' : PipeSeqs} {e : PipeEvent}

theorem CleanStep.covered (h : CleanStep e p p') (hp : p.Covered) : p'.Covered := by
  obtain ⟨hstep, hclean⟩ := h
  cases e with
  | message seq =>
    simp only [step] at hstep
    split_ifs at hstep with hgone hold
    · cases hstep
      exact hp
    · cases hstep
      exact hp
    · cases hstep
      have hle : p.inSeq ≤ seq := by omega
      exact ⟨hp.acked.trans hle, fun s hs => (hp.sending s hs).trans hle, hp.accepting⟩
  | writeAck =>
    simp only [step] at hstep
    split_ifs at hstep with hready
    cases hstep
    exact ⟨hp.acked, fun s hs => (Option.some.inj hs).ge, fun h => absurd h hready.1⟩
  | ackWritten rc =>
    simp only [step] at hstep
    cases hsend : p.sendSeq with
    | none => simp [hsend] at hstep
    | some seq =>
      simp only [hsend] at hstep
      cases hstep
      refine ⟨?_, fun s hs => absurd hs (by simp), fun _ => rfl⟩
      -- a failed write leaves the old mark
      split_ifs
      · exact hp.acked
      · exact hp.sending seq hsend
  | wasSessionReset =>
    cases hstep
    exact ⟨hclean.1.le, fun s hs => absurd (hclean.2.symm.trans hs) (by simp), hp.accepting⟩
  | replace existingSeq isResetFromPeer =>
    simp only [step] at hstep
    split_ifs at hstep with haccepting
    all_goals
      cases hstep
      refine ⟨le_rfl, fun s hs => ?_, hp.accepting⟩
      exact absurd ((hp.accepting haccepting).symm.trans hs) (by simp)
  | enter state =>
    simp only [step] at hstep
    split_ifs at hstep with hnew
    cases hstep
    exact ⟨hp.acked, hp.sending, fun h => absurd h hnew⟩

theorem covered_new : Covered {} := ⟨le_rfl, fun _ h => absurd h (by simp), fun _ => rfl⟩

/-- As long as no acknowledged session is reset, the acks never run ahead: what arrives then makes
the writer send an ack for it. -/
theorem run_acks_behind {es : List PipeEvent} (h : Trace CleanStep {} es p) :
    p.inSeqAcked ≤ p.inSeq ∧
      (∀ seq p', p.step (.message seq) = some p' → p'.inSeq ≠ p.inSeq → p'.inSeqAcked < p'.inSeq) ∧
      (p.inSeqAcked < p.inSeq → p.state ≠ .accepting → p.sendSeq = none →
        ∃ p', p.step .writeAck = some p' ∧ p'.sendSeq = some p.inSeq) := by
  have hp : p.Covered := h.invariant (fun _ _ _ _ hstep => hstep.covered) covered_new
  refine ⟨hp.acked, fun seq p' hstep hmoved => ?_, fun hbehind hstate hidle => ?_⟩
  · have hle := hp.acked
    simp only [step] at hstep
    split_ifs at hstep with hgone hold
    · cases hstep
      exact absurd rfl hmoved
    · cases hstep
      exact absurd rfl hmoved
    · cases hstep
      dsimp only
      omega
  · exact ⟨_, if_pos ⟨hstate, hidle, hbehind⟩, rfl⟩

/-- Two messages arrive, and the second is still to be acknowledged. -/
theorem run_acks_behind_twoMessages :
    ∃ p', step ⟨.opened, 2, 1, none⟩ .writeAck = some p' ∧ p'.sendSeq = some 2 := by
  have hrun : Trace CleanStep {} [.enter .opened, .message 1, .writeAck, .ackWritten 0, .message 2]
      ⟨.opened, 2, 1, none⟩ :=
    .cons ⟨rfl, trivial⟩ (.cons ⟨rfl, trivial⟩ (.cons ⟨rfl, trivial⟩
      (.cons ⟨rfl, trivial⟩ (.single ⟨rfl, trivial⟩))))
  exact (run_acks_behind hrun).2.2 (by decide) (by decide) rfl

/-- Five messages are acknowledged, then the peer resets the session while the pipe reconnects: the
three messages of the new session get no ack. -/
theorem reset_suppresses_acks :
    [PipeEvent.enter .opened, .message 5, .writeAck, .ackWritten 0, .enter .connecting,
        .wasSessionReset, .enter .opened, .message 3].foldlM step {} =
      some ⟨.opened, 3, 5, none⟩ ∧ step ⟨.opened, 3, 5, none⟩ .writeAck = none := by
  decide

end PipeSeqs

end CephDokan.Msg
