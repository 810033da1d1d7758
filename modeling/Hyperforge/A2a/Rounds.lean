import Hyperforge.A2a.Claims

/-!
# Rounds of feedback

The response to a round is in one place at most: with the submission that has claimed what is
pending, among the replies to the owner, or in the queue of its stream (`Held`). That needs every
reply to be deleted when it has been received.

* `delivered_to_round`: the agent is sent the responses that have been forwarded for its requests,
  if replies are deleted, and else maybe not;
* `late_submission_fails`: while the owner works on the answer, a submission fails the task.
-/

namespace Hyperforge.A2a

open Transition

namespace Execution

variable {β : Type} {s t : Execution β} {deletes : Bool}

/-- No submission can claim or has a reply to send. -/
structure Silent (s : Execution β) : Prop where
  record : s.record = none
  unclaimed : ∀ i u record, s.submissions i = some u → u.phase ≠ .claimed record

/-- Where the response to a round is that the owner waits for. -/
inductive Awaiting (s : Execution β) (feedback : Feedback β) : Prop
  | quiet (h : s.Silent) (hreplies : s.replies = [])
  | recorded {record : PendingTaskRecord} (hrecord : s.record = some record)
      (hid : record.feedbackId = feedback.feedbackId) (hreplies : s.replies = [])
      (hunclaimed : ∀ i u record, s.submissions i = some u → u.phase ≠ .claimed record)
  | claimed {i : ℕ} (hrecord : s.record = none) (hreplies : s.replies = [])
      (hid : ∃ u, s.submissions i = some u ∧ u.feedbackId = feedback.feedbackId)
      (honly : ∀ j v record, s.submissions j = some v → v.phase = .claimed record → j = i)
  | sent {r : Reply} (h : s.Silent) (hreplies : s.replies = [r])
      (hforwards : (feedback.feedbackId, r) ∈ s.forwards)

/-- No response is in the queue. -/
def Unanswered (s : Execution β) : Prop :=
  ∀ requestId response, s.queue ≠ some (.interaction requestId response)

/-- A response in the queue is to the request that the stream waits after, and is relayed. -/
def Answered (s : Execution β) (relay : Option ℕ) : Prop :=
  ∀ requestId response, s.queue = some (.interaction requestId response) →
    ∃ feedback reply, relay = some reply.relayTopic ∧ s.stream = .paused feedback ∧
      (feedback.feedbackId, reply) ∈ s.forwards ∧ reply.requestId = requestId ∧
      reply.response = response

/-- The response to a round is in one place at most, by how far the owner has come. -/
def Held (s : Execution β) : OwnerPhase β → Prop
  | .pulling relay => s.Silent ∧ s.replies = [] ∧ s.Answered relay
  | .publishing _ _ false => s.Silent ∧ s.replies = [] ∧ s.Unanswered
  | .saving _ _ feedback =>
    s.Silent ∧ s.replies = [] ∧ s.Unanswered ∧ s.stream = .paused feedback
  | .waiting => s.Unanswered ∧ ∃ feedback, s.stream = .paused feedback ∧ s.Awaiting feedback
  | .received reply => s.Silent ∧ s.Unanswered ∧
    ∃ feedback, s.stream = .paused feedback ∧ (feedback.feedbackId, reply) ∈ s.forwards
  | .putting reply => s.Silent ∧ s.replies = [] ∧
    ∃ feedback, s.stream = .paused feedback ∧ (feedback.feedbackId, reply) ∈ s.forwards
  | _ => True

/-- What the agent is sent under an id is the response forwarded for it. -/
def RightRounds (s : Execution β) : Prop := ∀ d ∈ s.deliveries,
  ∃ reply, (d.1, reply) ∈ s.forwards ∧ reply.requestId = d.2.1 ∧ reply.response = d.2.2

/-! ## Rounds whose replies are deleted -/

theorem Silent.of_eq (h : s.Silent) (hrecord : t.record = none ∨ t.record = s.record)
    (hsubmissions : t.submissions = s.submissions) : t.Silent where
  record := hrecord.elim id fun ht => ht.trans h.record
  unclaimed i u record hi := h.unclaimed i u record (hsubmissions ▸ hi)

theorem Awaiting.of_eq {feedback : Feedback β} (h : s.Awaiting feedback)
    (hrecord : t.record = s.record) (hsubmissions : t.submissions = s.submissions)
    (hreplies : t.replies = s.replies) (hforwards : t.forwards = s.forwards) :
    t.Awaiting feedback := by
  cases h with
  | quiet h hr => exact .quiet (h.of_eq (.inr hrecord) hsubmissions) (hreplies.trans hr)
  | recorded hrec hid hr hunclaimed =>
    refine .recorded (hrecord.trans hrec) hid (hreplies.trans hr) ?_
    rwa [hsubmissions]
  | @claimed i hrec hr hid honly =>
    refine .claimed (i := i) (hrecord.trans hrec) (hreplies.trans hr) ?_ ?_ <;> rwa [hsubmissions]
  | sent h hr hf =>
    exact .sent (h.of_eq (.inr hrecord) hsubmissions) (hreplies.trans hr) (hforwards ▸ hf)

/-- Steps that change nothing of a round, but what else there is in the queue. -/
theorem Held.of_eq {phase : OwnerPhase β} (h : s.Held phase) (hrecord : t.record = s.record)
    (hsubmissions : t.submissions = s.submissions) (hreplies : t.replies = s.replies)
    (hforwards : t.forwards = s.forwards) (hstream : t.stream = s.stream)
    (hqueue : ∀ requestId response, t.queue = some (.interaction requestId response) →
      s.queue = some (.interaction requestId response)) : t.Held phase := by
  have hsilent (h : s.Silent) : t.Silent := h.of_eq (.inr hrecord) hsubmissions
  have hunanswered (h : s.Unanswered) : t.Unanswered := fun q r hq => h q r (hqueue q r hq)
  cases phase with
  | pulling relay =>
    obtain ⟨hs, hr, ha⟩ := h
    refine ⟨hsilent hs, hreplies.trans hr, fun q r hq => ?_⟩
    rw [hstream, hforwards]
    exact ha q r (hqueue q r hq)
  | publishing i ms last =>
    cases last with
    | false => exact ⟨hsilent h.1, hreplies.trans h.2.1, hunanswered h.2.2⟩
    | true => trivial
  | saving relay msg feedback =>
    exact ⟨hsilent h.1, hreplies.trans h.2.1, hunanswered h.2.2.1, hstream.trans h.2.2.2⟩
  | waiting =>
    obtain ⟨hu, feedback, hs, ha⟩ := h
    exact ⟨hunanswered hu, feedback, hstream.trans hs,
      ha.of_eq hrecord hsubmissions hreplies hforwards⟩
  | received reply =>
    obtain ⟨hs, hu, feedback, hp, hf⟩ := h
    exact ⟨hsilent hs, hunanswered hu, feedback, hstream.trans hp, hforwards ▸ hf⟩
  | putting reply =>
    obtain ⟨hs, hr, feedback, hp, hf⟩ := h
    exact ⟨hsilent hs, hreplies.trans hr, feedback, hstream.trans hp, hforwards ▸ hf⟩
  | completing | discarding | finished => trivial

theorem orElse_shutdown {queue : Option Item} {requestId response : Text}
    (h : (queue <|> some Item.shutdown) = some (.interaction requestId response)) :
    queue = some (.interaction requestId response) := by
  cases queue with
  | none => cases h
  | some item => exact h

theorem discardPending_queue {report : Report} {requestId response : Text}
    (h : (s.discardPending report).queue = some (.interaction requestId response)) :
    s.queue = some (.interaction requestId response) := by
  dsimp only [discardPending] at h
  split at h
  · exact orElse_shutdown h
  · exact h

/-- The queue has no response where the stream is not waiting for one. -/
theorem Answered.unanswered {relay : Option ℕ} (h : s.Answered relay)
    (hstream : ∀ feedback, s.stream ≠ .paused feedback) : s.Unanswered := by
  intro q r hq
  obtain ⟨feedback, -, -, hpaused, -⟩ := h q r hq
  exact hstream feedback hpaused

theorem Unanswered.answered (h : s.Unanswered) (relay : Option ℕ) : s.Answered relay :=
  fun q r hq => absurd hq (h q r)

theorem held_take (hsilent : s.Silent) (hreplies : s.replies = []) (hqueue : s.Unanswered)
    {relay : Option ℕ} {msg : AragAnswer β} (hphase : s.phase = .pulling relay)
    (hstream : ∀ feedback ∈ msg.asked, s.stream = .paused feedback) :
    (s.take relay msg).Held (s.take relay msg).phase := by
  unfold take
  split
  · trivial
  · split
    · trivial
    · trivial
    · rename_i feedback hturn
      refine ⟨⟨hsilent.record, hsilent.unclaimed⟩, hreplies, hqueue, hstream feedback ?_⟩
      rw [AragAnswer.asked, hturn]
      rfl
    · trivial
    · refine (show s.Held s.phase from ?_).of_eq rfl rfl rfl rfl rfl fun _ _ h => h
      rw [hphase]
      exact ⟨hsilent, hreplies, hqueue.answered _⟩
    · exact ⟨⟨hsilent.record, hsilent.unclaimed⟩, hreplies, hqueue⟩

theorem held_of_ownerStep (h : s.Held s.phase) (hst : OwnerStep true s t) : t.Held t.phase := by
  cases hst with
  | @yield relay msg stream hphase hstream hadvance =>
    rw [hphase] at h
    obtain ⟨hsilent, hreplies, hqueue⟩ := h
    refine held_take (s := { s with stream := stream }.taking relay msg)
      ⟨hsilent.record, hsilent.unclaimed⟩ hreplies
      (hqueue.unanswered fun _ hpaused => by cases hstream.symm.trans hpaused) hphase ?_
    intro feedback hf
    rcases advance_eq_some hadvance with ⟨hasked, -⟩ | ⟨feedback', hasked, rfl, -⟩
    · cases hasked.symm.trans hf
    · cases hasked.symm.trans hf
      rfl
  | receiveFeedback hphase | disconnect hphase =>
    dsimp only
    rw [hphase] at h ⊢
    exact ⟨⟨h.1.record, h.1.unclaimed⟩, h.2.1, fun q r hq => by cases hq⟩
  | endCancelled | endExecuting | endRelay | raiseExecuting | raiseWaiting | complete
  | completeRelay | timeOut | cancelWaiting => trivial
  | save hphase =>
    rw [hphase] at h
    obtain ⟨hsilent, hreplies, hqueue, hstream⟩ := h
    exact ⟨hqueue, _, hstream, .recorded rfl rfl hreplies hsilent.unclaimed⟩
  | @announce k a =>
    obtain ⟨_ | i, msg, feedback⟩ := a <;> exact h.of_eq rfl rfl rfl rfl rfl fun _ _ h => h
  | @announceFails k i =>
    dsimp only
    split
    · trivial
    · refine h.of_eq rfl rfl rfl rfl rfl fun q r hq => ?_
      exact discardPending_queue (show (s.discardPending .silent).queue = _ from hq)
  | @publish i m ms last hphase =>
    rw [hphase] at h
    exact (show s.Held (.publishing i ms last) by cases last <;> exact h).of_eq rfl rfl rfl rfl rfl
      fun _ _ h => h
  | @published i last hphase =>
    rw [hphase] at h
    cases last with
    | true => trivial
    | false => exact ⟨⟨h.1.record, h.1.unclaimed⟩, h.2.1, h.2.2.answered _⟩
  | receive hphase hreceived =>
    rw [hphase] at h
    obtain ⟨hqueue, feedback, hstream, hawaiting⟩ := h
    cases hawaiting with
    | quiet _ hreplies | recorded _ _ hreplies | claimed _ hreplies =>
      cases hreceived.symm.trans hreplies
    | sent hsilent hreplies hforwards =>
      cases hreceived.symm.trans hreplies
      exact ⟨⟨hsilent.record, hsilent.unclaimed⟩, hqueue, feedback, hstream, hforwards⟩
  | @delete reply deleted hphase hdeleted =>
    rw [hphase] at h
    obtain ⟨hsilent, hqueue, feedback, hstream, hforwards⟩ := h
    obtain rfl := hdeleted rfl
    by_cases hp : s.pending.isSome
    · simp only [hp, if_true]
      exact ⟨⟨hsilent.record, hsilent.unclaimed⟩, rfl, feedback, hstream, hforwards⟩
    · simp only [hp]
      trivial
  | put hphase hnone =>
    rw [hphase] at h
    obtain ⟨hsilent, hreplies, feedback, hstream, hforwards⟩ := h
    refine ⟨⟨hsilent.record, hsilent.unclaimed⟩, hreplies, fun q r hq => ?_⟩
    cases hq
    exact ⟨feedback, _, rfl, hstream, hforwards, rfl, rfl⟩
  | @removeDiscarded report => cases report <;> trivial
  | cancelExecuting => exact h.of_eq rfl rfl rfl rfl rfl fun _ _ => orElse_shutdown
  | @cancelSubscribed i hphase hstream =>
    have hp : ({ s.cancelLocal with stream := .ended } : Execution β).phase = .pulling (some i) :=
      hphase
    rw [hp]
    rw [hphase] at h
    obtain ⟨hsilent, hreplies, hanswered⟩ := h
    refine ⟨⟨hsilent.record, hsilent.unclaimed⟩, hreplies, ?_⟩
    have hunanswered : s.Unanswered := hanswered.unanswered (by simp [hstream])
    exact fun q r hq => absurd (orElse_shutdown hq) (hunanswered q r)
  | forgetCancelled => exact h.of_eq rfl rfl rfl rfl rfl fun _ _ h => h

/-- A step of a submission that neither claims nor sends. -/
structure Idle (s : Execution β) (i : ℕ) (t : Execution β) : Prop where
  phase : t.phase = s.phase
  stream : t.stream = s.stream
  queue : t.queue = s.queue
  replies : t.replies = s.replies
  forwards : t.forwards = s.forwards
  record : t.record = none ∨ t.record = s.record
  submissions : ∃ v, t.submissions = Function.update s.submissions i (some v) ∧
    (∀ record, v.phase ≠ .claimed record) ∧ ∀ u ∈ s.submissions i, v.feedbackId = u.feedbackId

theorem idle_setSubmission {i : ℕ} {u : Submission} {phase : SubmissionPhase}
    (hphase : ∀ record, phase ≠ .claimed record)
    (hid : ∀ v ∈ s.submissions i, u.feedbackId = v.feedbackId) :
    Idle s i (s.setSubmission i u phase) :=
  ⟨rfl, rfl, rfl, rfl, rfl, .inr rfl, _, rfl, hphase, hid⟩

/-- What a step of a submission does. -/
theorem submission_cases {i : ℕ} (h : SubmissionStep s i t) :
    (∃ u record, s.submissions i = some u ∧ s.record = some record ∧ u.Matches record ∧
      t = { s with
        record := none
        claims := s.claims ++ [(u.feedbackId, i)] }.setSubmission i u (.claimed record)) ∨
    (∃ u record phase, s.submissions i = some u ∧ u.phase = .claimed record ∧
      (∀ record, phase ≠ .claimed record) ∧
      t = { s with
        replies := s.replies ++ [u.reply i record]
        forwards := s.forwards ++ [(u.feedbackId, u.reply i record)] }.setSubmission i u phase) ∨
    Idle s i t := by
  have hid {u : Submission} {phase : SubmissionPhase} (hi : s.submissions i = some u) :
      ∀ v ∈ s.submissions i,
        ({ u with phase := phase } : Submission).feedbackId = v.feedbackId := by
    intro v hv
    cases hi.symm.trans hv
    rfl
  cases h with
  | claim hi _ hrecord hmatch => exact .inl ⟨_, _, hi, hrecord, hmatch, rfl⟩
  | send hi hphase => exact .inr (.inl ⟨_, _, _, hi, hphase, by intro _; split <;> simp, rfl⟩)
  | refuse hi | submit hi =>
    exact .inr (.inr (idle_setSubmission (by simp) fun v hv => by simp [hi] at hv))
  | expired hi | mismatch hi | unclaimed hi | sendFails hi | interrupt hi | abort hi
  | startWork hi =>
    exact .inr (.inr ⟨rfl, rfl, rfl, rfl, rfl, .inr rfl, _, rfl, by simp, hid hi⟩)
  | remove hi => exact .inr (.inr ⟨rfl, rfl, rfl, rfl, rfl, .inl rfl, _, rfl, by simp, hid hi⟩)
  | relay hi =>
    refine .inr (.inr ⟨rfl, rfl, rfl, rfl, rfl, .inr rfl, _, rfl, ?_, hid hi⟩)
    intro record
    dsimp only
    split <;> simp

theorem Idle.unclaimed {i : ℕ} (h : Idle s i t)
    (hs : ∀ j u record, s.submissions j = some u → u.phase ≠ .claimed record) :
    ∀ j u record, t.submissions j = some u → u.phase ≠ .claimed record := by
  obtain ⟨v, ht, hphase, -⟩ := h.submissions
  intro j u record hj
  rw [ht] at hj
  rcases eq_or_ne j i with rfl | hne
  · rw [Function.update_self] at hj
    cases hj
    exact hphase record
  · rw [Function.update_of_ne hne] at hj
    exact hs j u record hj

theorem Idle.silent {i : ℕ} (h : Idle s i t) (hs : s.Silent) : t.Silent where
  record := h.record.elim id fun ht => ht.trans hs.record
  unclaimed := h.unclaimed hs.unclaimed

theorem Silent.idle {i : ℕ} (h : s.Silent) (hst : SubmissionStep s i t) : Idle s i t := by
  rcases submission_cases hst with ⟨u, record, -, hrecord, -⟩ | ⟨u, record, phase, hi, hphase, -⟩ |
    hidle
  · cases h.record.symm.trans hrecord
  · exact absurd hphase (h.unclaimed i u record hi)
  · exact hidle

theorem Awaiting.idle {i : ℕ} {feedback : Feedback β} (h : s.Awaiting feedback)
    (hst : Idle s i t) : t.Awaiting feedback := by
  cases h with
  | quiet h hr => exact .quiet (hst.silent h) (hst.replies.trans hr)
  | recorded hrec hid hr hunclaimed =>
    have hu := hst.unclaimed hunclaimed
    rcases hst.record with ht | ht
    · exact .quiet ⟨ht, hu⟩ (hst.replies.trans hr)
    · exact .recorded (ht.trans hrec) hid (hst.replies.trans hr) hu
  | @claimed k hrec hr hid honly =>
    obtain ⟨v, ht, hphase, hv⟩ := hst.submissions
    refine .claimed (i := k) (hst.record.elim id fun ht => ht.trans hrec) (hst.replies.trans hr)
      ?_ ?_
    · obtain ⟨u, hk, hu⟩ := hid
      rw [ht]
      rcases eq_or_ne k i with rfl | hne
      · exact ⟨v, Function.update_self .., (hv u hk).trans hu⟩
      · exact ⟨u, by rwa [Function.update_of_ne hne], hu⟩
    · intro j u record hj hclaimed
      rw [ht] at hj
      rcases eq_or_ne j i with rfl | hne
      · rw [Function.update_self] at hj
        cases hj
        exact absurd hclaimed (hphase record)
      · exact honly j u record (by rwa [Function.update_of_ne hne] at hj) hclaimed
  | sent h hr hf => exact .sent (hst.silent h) (hst.replies.trans hr) (hst.forwards ▸ hf)

/-- The submission of a claim is the only one with a reply to send. -/
theorem Awaiting.submission {i : ℕ} {feedback : Feedback β} (h : s.Awaiting feedback)
    (hst : SubmissionStep s i t) : t.Awaiting feedback := by
  rcases submission_cases hst with ⟨u, record, hi, hrecord, hmatch, rfl⟩ |
    ⟨u, record, phase, hi, hphase, hnot, rfl⟩ | hidle
  · cases h with
    | quiet h | sent h => cases h.record.symm.trans hrecord
    | claimed hnone => cases hnone.symm.trans hrecord
    | recorded hrec hid hr hunclaimed =>
      cases hrec.symm.trans hrecord
      refine .claimed (i := i) rfl hr ⟨_, Function.update_self .., hmatch.2.symm.trans hid⟩ ?_
      intro j v record' hj hclaimed
      by_contra hne
      dsimp only [Execution.setSubmission] at hj
      rw [Function.update_of_ne hne] at hj
      exact hunclaimed j v record' hj hclaimed
  · cases h with
    | quiet h | sent h => exact absurd hphase (h.unclaimed i u record hi)
    | recorded _ _ _ hunclaimed => exact absurd hphase (hunclaimed i u record hi)
    | @claimed k hnone hr hid honly =>
      obtain rfl := honly i u record hi hphase
      obtain ⟨u', hi', hid⟩ := hid
      cases hi.symm.trans hi'
      refine .sent (r := u.reply i record) ⟨hnone, ?_⟩ ?_ ?_
      · intro j v record' hj hclaimed
        dsimp only [Execution.setSubmission] at hj
        rcases eq_or_ne j i with rfl | hne
        · rw [Function.update_self] at hj
          cases hj
          exact hnot record' hclaimed
        · rw [Function.update_of_ne hne] at hj
          exact hne (honly j v record' hj hclaimed)
      · simp [Execution.setSubmission, hr]
      · simp [Execution.setSubmission, hid]
  · exact h.idle hidle

theorem held_of_submission {i : ℕ} (h : s.Held s.phase) (hst : SubmissionStep s i t) :
    t.Held t.phase := by
  have hphase : t.phase = s.phase := by cases hst <;> rfl
  have hqueue : t.queue = s.queue := by cases hst <;> rfl
  have hstream : t.stream = s.stream := by cases hst <;> rfl
  have hunanswered (h : s.Unanswered) : t.Unanswered := fun q r hq => h q r (hqueue ▸ hq)
  rw [hphase]
  cases hp : s.phase with
  | pulling relay =>
    rw [hp] at h
    obtain ⟨hs, hr, ha⟩ := h
    have hidle := hs.idle hst
    refine ⟨hidle.silent hs, hidle.replies.trans hr, fun q r hq => ?_⟩
    rw [hstream, hidle.forwards]
    exact ha q r (hqueue ▸ hq)
  | publishing j ms last =>
    rw [hp] at h
    cases last with
    | false =>
      have hidle := h.1.idle hst
      exact ⟨hidle.silent h.1, hidle.replies.trans h.2.1, hunanswered h.2.2⟩
    | true => trivial
  | saving relay msg feedback =>
    rw [hp] at h
    have hidle := h.1.idle hst
    exact ⟨hidle.silent h.1, hidle.replies.trans h.2.1, hunanswered h.2.2.1,
      hstream.trans h.2.2.2⟩
  | waiting =>
    rw [hp] at h
    obtain ⟨hu, feedback, hs, ha⟩ := h
    exact ⟨hunanswered hu, feedback, hstream.trans hs, ha.submission hst⟩
  | received reply =>
    rw [hp] at h
    obtain ⟨hs, hu, feedback, hpaused, hf⟩ := h
    have hidle := hs.idle hst
    exact ⟨hidle.silent hs, hunanswered hu, feedback, hstream.trans hpaused, hidle.forwards ▸ hf⟩
  | putting reply =>
    rw [hp] at h
    obtain ⟨hs, hr, feedback, hpaused, hf⟩ := h
    have hidle := hs.idle hst
    exact ⟨hidle.silent hs, hidle.replies.trans hr, feedback, hstream.trans hpaused,
      hidle.forwards ▸ hf⟩
  | completing | discarding | finished => trivial

theorem Awaiting.lose {feedback : Feedback β} (h : s.Awaiting feedback) :
    ({ s with record := none } : Execution β).Awaiting feedback := by
  cases h with
  | quiet h hr => exact .quiet ⟨rfl, h.unclaimed⟩ hr
  | recorded _ _ hr hunclaimed => exact .quiet ⟨rfl, hunclaimed⟩ hr
  | claimed _ hr hid honly => exact .claimed rfl hr hid honly
  | sent h hr hf => exact .sent ⟨rfl, h.unclaimed⟩ hr hf

theorem Awaiting.loseReply {feedback : Feedback β} (h : s.Awaiting feedback) :
    ({ s with replies := s.replies.tail } : Execution β).Awaiting feedback := by
  cases h with
  | quiet h hr => exact .quiet ⟨h.record, h.unclaimed⟩ (congrArg List.tail hr)
  | recorded hrec hid hr hunclaimed =>
    exact .recorded hrec hid (congrArg List.tail hr) hunclaimed
  | claimed hrec hr hid honly => exact .claimed hrec (congrArg List.tail hr) hid honly
  | sent h hr => exact .quiet ⟨h.record, h.unclaimed⟩ (congrArg List.tail hr)

theorem held_of_loss (h : s.Held s.phase) (hst : Loss s t) : t.Held t.phase := by
  cases hst with
  | message | cancel => exact h.of_eq rfl rfl rfl rfl rfl fun _ _ h => h
  | record =>
    dsimp only
    cases hp : s.phase with
    | waiting =>
      rw [hp] at h
      obtain ⟨hu, feedback, hs, ha⟩ := h
      exact ⟨hu, feedback, hs, ha.lose.of_eq rfl rfl rfl rfl⟩
    | publishing _ _ last =>
      rw [hp] at h
      cases last with
      | false => exact ⟨⟨rfl, h.1.unclaimed⟩, h.2⟩
      | true => trivial
    | pulling | saving | received | putting =>
      rw [hp] at h
      exact ⟨⟨rfl, h.1.unclaimed⟩, h.2⟩
    | completing | discarding | finished => trivial
  | reply =>
    dsimp only
    cases hp : s.phase with
    | waiting =>
      rw [hp] at h
      obtain ⟨hu, feedback, hs, ha⟩ := h
      exact ⟨hu, feedback, hs, ha.loseReply.of_eq rfl rfl rfl rfl⟩
    | publishing _ _ last =>
      rw [hp] at h
      cases last with
      | false => exact ⟨⟨h.1.record, h.1.unclaimed⟩, congrArg List.tail h.2.1, h.2.2⟩
      | true => trivial
    | pulling | saving | putting =>
      rw [hp] at h
      exact ⟨⟨h.1.record, h.1.unclaimed⟩, congrArg List.tail h.2.1, h.2.2⟩
    | received =>
      rw [hp] at h
      exact ⟨⟨h.1.record, h.1.unclaimed⟩, h.2⟩
    | completing | discarding | finished => trivial

theorem held_of_reachable {taskId contextId instanceId : Text}
    (h : (execution β true taskId contextId instanceId).Reachable s) : s.Held s.phase := by
  refine h.invariant (I := fun s => s.Held s.phase) ?_ fun _ _ _ _ h hst => ?_
  · rintro s rfl
    exact ⟨⟨rfl, fun _ _ _ h => by cases h⟩, rfl, fun _ _ h => by cases h⟩
  · cases hst with
    | owner hst => exact held_of_ownerStep h hst
    | submission hst => exact held_of_submission h hst
    | loss hst => exact held_of_loss h hst

theorem RightRounds.of_eq (h : s.RightRounds) (hdeliveries : t.deliveries = s.deliveries)
    (hforwards : s.forwards ⊆ t.forwards) : t.RightRounds := by
  intro d hd
  obtain ⟨reply, hf, hr⟩ := h d (hdeliveries ▸ hd)
  exact ⟨reply, hforwards hf, hr⟩

theorem RightRounds.owner (h : s.RightRounds) (hheld : s.Held s.phase)
    (hst : OwnerStep deletes s t) : t.RightRounds := by
  cases hst with
  | @yield relay msg stream =>
    obtain ⟨-, -, -, hforwards, -, -⟩ :=
      take_eq ({ s with stream := stream }.taking relay msg) relay msg
    obtain ⟨-, -, -, hdeliveries⟩ :=
      take_rest ({ s with stream := stream }.taking relay msg) relay msg
    exact h.of_eq hdeliveries fun _ hf => hforwards.symm ▸ hf
  | receiveFeedback hphase hstream hqueue =>
    rw [hphase] at hheld
    obtain ⟨feedback, reply, -, hpaused, hf, hr⟩ := hheld.2.2 _ _ hqueue
    cases hstream.symm.trans hpaused
    intro d hd
    rcases List.mem_append.1 hd with hd | hd
    · exact h d hd
    · obtain rfl := List.mem_singleton.1 hd
      exact ⟨reply, hf, hr⟩
  | @announce k a => obtain ⟨_ | i, msg, feedback⟩ := a <;> exact h.of_eq rfl (List.Subset.refl _)
  | @removeDiscarded report => cases report <;> exact h.of_eq rfl (List.Subset.refl _)
  | _ => exact h.of_eq rfl (List.Subset.refl _)

theorem RightRounds.step (h : s.RightRounds) (hheld : s.Held s.phase) (hst : s.Step deletes t) :
    t.RightRounds := by
  cases hst with
  | owner hst => exact h.owner hheld hst
  | submission hst =>
    cases hst with
    | send => exact h.of_eq rfl (List.subset_append_left _ _)
    | _ => exact h.of_eq rfl (List.Subset.refl _)
  | loss hst => cases hst <;> exact h.of_eq rfl (List.Subset.refl _)

theorem rightRounds_of_reachable {taskId contextId instanceId : Text}
    (h : (execution β true taskId contextId instanceId).Reachable s) : s.RightRounds := by
  refine h.invariant ?_ fun _ _ _ hr h hst => h.step (held_of_reachable hr) hst
  rintro s rfl
  exact List.forall_mem_nil _

/-! ## Replies that are not deleted -/

section Undeleted

/-- The response to the first round is the one that the second round gets as well, if its reply is
    still there. -/
theorem exists_wrongRound :
    ∃ s, (execution Unit false [] [] []).Reachable s ∧ ¬s.RightRounds := by
  have h : (execution Unit false [] [] []).Reachable
    { taskId := [], contextId := [], instanceId := [] } := .init rfl
  have h := reachable_owner h
    (.yield rfl rfl (show Execution.advance _ (ask "1") = some _ from rfl))
  have h := reachable_owner h (.save rfl)
  have h := reachable_submission (i := 0) h
    (.submit (u := ⟨[], text "1", text "yes", .submitted⟩) rfl (by decide))
  have h := reachable_submission (i := 0) h (.startWork rfl rfl rfl ⟨rfl, rfl⟩)
  have h := reachable_submission (i := 0) h (.claim rfl rfl rfl ⟨rfl, rfl⟩)
  have h := reachable_submission (i := 0) h (@SubmissionStep.send _ _ _ _ _ true rfl rfl)
  have h := reachable_owner h (.receive rfl rfl)
  have h := reachable_owner h (@OwnerStep.delete _ _ _ _ false rfl (by decide))
  have h := reachable_owner h (.put rfl rfl)
  have h := reachable_owner h (.receiveFeedback rfl rfl rfl)
  have h := reachable_owner h
    (.yield rfl rfl (show Execution.advance _ (ask "2") = some _ from rfl))
  have h := reachable_owner h (.save rfl)
  have h := reachable_owner h (.receive rfl rfl)
  have h := reachable_owner h (@OwnerStep.delete _ _ _ _ true rfl (by decide))
  have h := reachable_owner h (.put rfl rfl)
  have h := reachable_owner h (.receiveFeedback rfl rfl rfl)
  refine ⟨_, h, fun hright => ?_⟩
  obtain ⟨reply, hf, -⟩ := hright (text "2", text "1", text "yes")
    (List.mem_cons_of_mem (text "1", text "1", text "yes") (List.mem_singleton_self _))
  have hf : (text "2", reply) ∈ [(text "1", (⟨text "1", text "yes", 0⟩ : Reply))] := hf
  exact absurd (congrArg Prod.fst (List.mem_singleton.1 hf)) (show text "2" ≠ text "1" by decide)

/-- What the agent is sent as the response to a round is what has been forwarded for it, if replies
    that are received are deleted, and only then. -/
theorem delivered_to_round :
    (∀ (s : Execution β) (taskId contextId instanceId : Text),
      (execution β true taskId contextId instanceId).Reachable s → s.RightRounds) ∧
    ∃ s, (execution Unit false [] [] []).Reachable s ∧ ¬s.RightRounds :=
  ⟨fun _ _ _ _ => rightRounds_of_reachable, exists_wrongRound⟩

end Undeleted

/-! ## Late submissions -/

theorem Held.silent (h : s.Held s.phase) (hphase : s.phase.Working) : s.Silent := by
  cases hp : s.phase with
  | publishing _ _ last =>
    rw [hp] at h hphase
    cases last with
    | false => exact h.1
    | true => exact hphase.elim
  | pulling | saving | received | putting =>
    rw [hp] at h
    exact h.1
  | waiting | completing | discarding | finished =>
    rw [hp] at hphase
    exact hphase.elim

/-- A submission that looks for what is pending while the owner works on the answer ends, if not by
    an exception, with a failure of the task, which the owner goes on with. -/
theorem late_submission_fails {taskId contextId instanceId : Text} {i : ℕ} {u : Submission}
    (h : (execution β true taskId contextId instanceId).Reachable s) (hworking : s.phase.Working)
    (hi : s.submissions i = some u) (hphase : u.phase = .submitted ∨ u.phase = .matched)
    (hst : SubmissionStep s i t) : t.phase = s.phase ∧
      (t = s.setSubmission i u .ended ∨
        t.published = s.published ++ [(.submission i, .failed (text "A2A task has expired"))] ∧
        t.submissions i = some { u with phase := .ended }) := by
  have hrecord := ((held_of_reachable h).silent hworking).record
  refine ⟨by cases hst <;> rfl, ?_⟩
  cases hst with
  | refuse hnone | submit hnone => cases hi.symm.trans hnone
  | mismatch _ _ hsome | startWork _ _ hsome | claim _ _ hsome => cases hrecord.symm.trans hsome
  | expired hi' | unclaimed hi' =>
    cases hi.symm.trans hi'
    exact .inr ⟨rfl, Function.update_self ..⟩
  | send hi' hp | sendFails hi' hp | remove hi' hp | relay hi' hp | interrupt hi' hp =>
    cases hi.symm.trans hi'
    rw [hp] at hphase
    rcases hphase with hphase | hphase <;> cases hphase
  | abort hi' =>
    cases hi.symm.trans hi'
    exact .inl rfl

theorem late_submission_fails_answered : ∃ (s t : Execution Unit) (u : Submission),
    s.phase = .pulling (some 0) ∧ t.phase = s.phase ∧
      (t = s.setSubmission 1 u .ended ∨
        t.published =
          s.published ++ [(.submission 1, .failed (text "A2A task has expired"))] ∧
        t.submissions 1 = some { u with phase := .ended }) := by
  obtain ⟨s, h, hphase, hrecord, hnone, -⟩ := exists_answered
  let u : Submission := ⟨[], text "1", text "no", .submitted⟩
  have h := reachable_submission h (.submit (u := u) hnone (by decide))
  have hu : (s.setSubmission 1 u .submitted).submissions 1 = some u :=
    by simp [setSubmission, u]
  exact ⟨s.setSubmission 1 u .submitted, _, u, hphase, late_submission_fails h
    (show OwnerPhase.Working s.phase by rw [hphase]; trivial) hu (.inl rfl)
    (.expired hu rfl hrecord)⟩

end Execution

end Hyperforge.A2a
