import Hyperforge.A2a.Feedback
import Mathlib.Data.List.Nodup

/-!
# Claims of feedback

What is pending for a round of feedback is claimed by one submission at most, whatever the
instances do (`Claimed`), and the agent is sent one response at most to each of its requests
(`Delivered`).
-/

namespace Hyperforge.A2a

open Transition

namespace Execution

variable {β : Type} {s t : Execution β} {deletes : Bool}

@[simp] theorem asked_unexpectedEnd : (unexpectedEnd : AragAnswer β).asked = none := rfl

/-! ## What steps leave -/

/-- Nothing is claimed, forwarded, saved or asked for. -/
structure Frame (s t : Execution β) : Prop where
  contextId : t.contextId = s.contextId
  submissions : t.submissions = s.submissions
  claims : t.claims = s.claims
  forwards : t.forwards = s.forwards
  record : t.record = none ∨ t.record = s.record
  issued : t.issued = s.issued
  saving : t.phase = s.phase ∨ ∀ relay msg feedback, t.phase ≠ .saving relay msg feedback

theorem frame_phase (s : Execution β) {phase : OwnerPhase β}
    (h : ∀ relay msg feedback, phase ≠ .saving relay msg feedback) :
    Frame s { s with phase := phase } := ⟨rfl, rfl, rfl, rfl, .inr rfl, rfl, .inr h⟩

theorem frame_discardPending (s : Execution β) (report : Report) :
    Frame s (s.discardPending report) :=
  ⟨rfl, rfl, rfl, rfl, .inr rfl, rfl, .inr (by simp [discardPending])⟩

theorem frame_discard (s : Execution β) (report : Report) : Frame s (s.discard report) := by
  cases report <;> exact ⟨rfl, rfl, rfl, rfl, .inl rfl, rfl, .inr (by simp [discard, emit])⟩

theorem frame_announce (s : Execution β) (as : List (Option ℕ × AragAnswer β × Feedback β))
    (a : Option ℕ × AragAnswer β × Feedback β) :
    Frame s ({ s with announcing := as }.announce a) := by
  obtain ⟨_ | i, msg, feedback⟩ := a <;> exact ⟨rfl, rfl, rfl, rfl, .inr rfl, rfl, .inl rfl⟩

theorem issued_taking (s : Execution β) (relay : Option ℕ) (msg : AragAnswer β) :
    (s.taking relay msg).issued = s.issued ++ msg.asked.toList := by
  rw [issued, taking, List.filterMap_append]
  cases h : msg.asked <;> simp [issued, h]

/-- What the owner does with an answer that it has taken. -/
theorem take_eq (s : Execution β) (relay : Option ℕ) (msg : AragAnswer β) :
    (s.take relay msg).contextId = s.contextId ∧ (s.take relay msg).submissions = s.submissions ∧
      (s.take relay msg).claims = s.claims ∧ (s.take relay msg).forwards = s.forwards ∧
      (s.take relay msg).record = s.record ∧ (s.take relay msg).taken = s.taken := by
  unfold take
  split
  · exact ⟨rfl, rfl, rfl, rfl, rfl, rfl⟩
  · split <;> exact ⟨rfl, rfl, rfl, rfl, rfl, rfl⟩

/-- The owner saves a record of what it has just taken. -/
theorem take_saving {relay relay' : Option ℕ} {msg msg' : AragAnswer β} {feedback : Feedback β}
    (h : (s.take relay msg).phase = .saving relay' msg' feedback) :
    s.phase = .saving relay' msg' feedback ∨
      relay' = relay ∧ msg' = msg ∧ msg.asked = some feedback := by
  unfold take at h
  split at h
  · cases h
  · split at h
    any_goals cases h
    · rename_i hturn
      exact .inr ⟨rfl, rfl, by rw [AragAnswer.asked, hturn]⟩
    · exact .inl h

/-- The steps of an owner that is not taking answers or saving records. -/
theorem frame_of_ownerStep (h : OwnerStep deletes s t) : Frame s t ∨
    (∃ relay msg stream, s.phase = .pulling relay ∧ s.stream = .running ∧
      s.advance msg = some stream ∧
      t = ({ s with stream := stream }.taking relay msg).take relay msg) ∨
    ∃ relay msg feedback, s.phase = .saving relay msg feedback ∧
      t = s.savePending relay msg feedback := by
  cases h with
  | yield hphase hstream hadvance => exact .inr (.inl ⟨_, _, _, hphase, hstream, hadvance, rfl⟩)
  | save hphase => exact .inr (.inr ⟨_, _, _, hphase, rfl⟩)
  | endExecuting | endRelay =>
    refine .inl ⟨rfl, rfl, rfl, rfl, .inr rfl, ?_, .inr (by simp [discardPending])⟩
    exact (issued_taking s _ _).trans (List.append_nil _)
  | raiseExecuting | raiseWaiting | timeOut => exact .inl (frame_discardPending s _)
  | announce => exact .inl (frame_announce s _ _)
  | @announceFails _ i =>
    refine .inl ⟨rfl, rfl, rfl, rfl, .inr rfl, rfl, ?_⟩
    by_cases hi : i = none
    · exact .inr (by simp [hi])
    · exact .inl (if_neg hi)
  | removeDiscarded => exact .inl (frame_discard s _)
  | complete | completeRelay =>
    exact .inl ⟨rfl, rfl, rfl, rfl, .inl rfl, rfl, .inr (by simp [emit])⟩
  | published =>
    refine .inl (frame_phase s fun relay msg feedback h => ?_)
    split at h <;> cases h
  | delete =>
    refine .inl ⟨rfl, rfl, rfl, rfl, .inr rfl, rfl, .inr fun relay msg feedback h => ?_⟩
    dsimp only at h
    split at h <;> cases h
  | receiveFeedback | disconnect | cancelExecuting | cancelSubscribed | forgetCancelled =>
    exact .inl ⟨rfl, rfl, rfl, rfl, .inr rfl, rfl, .inl rfl⟩
  | endCancelled | publish | receive | put | cancelWaiting =>
    exact .inl ⟨rfl, rfl, rfl, rfl, .inr rfl, rfl, .inr (by simp)⟩

theorem frame_of_loss (h : Loss s t) : Frame s t := by
  cases h with
  | record => exact ⟨rfl, rfl, rfl, rfl, .inl rfl, rfl, .inl rfl⟩
  | reply | message | cancel => exact ⟨rfl, rfl, rfl, rfl, .inr rfl, rfl, .inl rfl⟩

/-! ## A run -/

/-- A request for feedback with an id. -/
def ask (id : String) : AragAnswer Unit where
  operation := .agentRequest
  feedback := some ⟨text id, text id, [], [], [], ()⟩

theorem reachable_owner {taskId contextId instanceId : Text}
    (h : (execution β deletes taskId contextId instanceId).Reachable s)
    (hst : OwnerStep deletes s t) : (execution β deletes taskId contextId instanceId).Reachable t :=
  System.Reachable.step (l := ()) h (.owner hst)

theorem reachable_submission {taskId contextId instanceId : Text} {i : ℕ}
    (h : (execution β deletes taskId contextId instanceId).Reachable s)
    (hst : SubmissionStep s i t) :
    (execution β deletes taskId contextId instanceId).Reachable t :=
  System.Reachable.step (l := ()) h (.submission hst)

/-- A submission has answered the first request. -/
theorem exists_answered : ∃ s, (execution Unit true [] [] []).Reachable s ∧
    s.phase = .pulling (some 0) ∧ s.record = none ∧ s.submissions 1 = none ∧
    s.forwards = [(text "1", ⟨text "1", text "yes", 0⟩)] := by
  have h : (execution Unit true [] [] []).Reachable
    { taskId := [], contextId := [], instanceId := [] } := .init rfl
  have h := reachable_owner h
    (.yield rfl rfl (show Execution.advance _ (ask "1") = some _ from rfl))
  have h := reachable_owner h (.save rfl)
  have h := reachable_submission (i := 0) h
    (.submit (u := ⟨[], text "1", text "yes", .submitted⟩) rfl (by decide))
  have h := reachable_submission (i := 0) h (.startWork rfl rfl rfl ⟨rfl, rfl⟩)
  have h := reachable_submission (i := 0) h (.claim rfl rfl rfl ⟨rfl, rfl⟩)
  have h := reachable_submission (i := 0) h (@SubmissionStep.send _ _ _ _ _ true rfl rfl)
  have h := reachable_owner h (.receive rfl rfl)
  have h := reachable_owner h (@OwnerStep.delete _ _ _ _ true rfl (by decide))
  have h := reachable_owner h (.put rfl rfl)
  exact ⟨_, h, rfl, rfl, rfl, rfl⟩

/-! ## Claims -/

/-- The owner has asked for feedback of an id. -/
def Asked (s : Execution β) (feedbackId requestId : Text) : Prop :=
  ∃ feedback ∈ s.issued, feedback.feedbackId = feedbackId ∧ feedback.requestId = requestId

/-- What a submission has claimed and forwarded, by how far it has come. -/
def Forwards (s : Execution β) (i : ℕ) (u : Submission) : SubmissionPhase → Prop
  | .submitted | .matched => i ∉ s.claims.map Prod.snd
  | .claimed record => u.contextId = s.contextId ∧ (u.feedbackId, i) ∈ s.claims ∧
      s.Asked u.feedbackId record.requestId ∧ i ∉ s.forwards.map (·.2.relayTopic)
  | _ => True

/-- A reply to the owner is the response of a submission that has claimed the round. -/
structure Forwarded (s : Execution β) (feedbackId : Text) (reply : Reply) : Prop where
  claimed : (feedbackId, reply.relayTopic) ∈ s.claims
  asked : s.Asked feedbackId reply.requestId
  submission : ∃ u, s.submissions reply.relayTopic = some u ∧ u.contextId = s.contextId ∧
    u.feedbackId = feedbackId ∧ u.response = reply.response

/-- Every round is claimed once at most, and forwarded for its submission. -/
structure Claimed (s : Execution β) : Prop where
  issued : (s.issued.map Feedback.feedbackId).Nodup
  rounds : (s.claims.map Prod.fst).Nodup
  claimants : (s.claims.map Prod.snd).Nodup
  asked : ∀ c ∈ s.claims, ∃ requestId, s.Asked c.1 requestId
  record : ∀ record ∈ s.record, record.contextId = s.contextId ∧
    s.Asked record.feedbackId record.requestId ∧ record.feedbackId ∉ s.claims.map Prod.fst
  saving : ∀ relay msg feedback, s.phase = .saving relay msg feedback →
    feedback ∈ s.issued ∧ feedback.feedbackId ∉ s.claims.map Prod.fst ∧
      ∀ record ∈ s.record, record.feedbackId ≠ feedback.feedbackId
  unknown : ∀ i, s.submissions i = none → i ∉ s.claims.map Prod.snd
  known : ∀ i u, s.submissions i = some u → s.Forwards i u u.phase
  topics : (s.forwards.map (·.2.relayTopic)).Nodup
  forwarded : ∀ f ∈ s.forwards, s.Forwarded f.1 f.2

theorem Asked.mono {feedbackId requestId : Text} (h : s.Asked feedbackId requestId)
    (hst : ∀ feedback ∈ s.issued, feedback ∈ t.issued) : t.Asked feedbackId requestId :=
  h.imp fun _ h => ⟨hst _ h.1, h.2⟩

theorem Forwards.congr {i : ℕ} {u : Submission} {phase : SubmissionPhase}
    (h : s.Forwards i u phase) (hcontext : t.contextId = s.contextId)
    (hclaims : t.claims = s.claims) (hforwards : t.forwards = s.forwards)
    (hissued : ∀ feedback ∈ s.issued, feedback ∈ t.issued) : t.Forwards i u phase := by
  cases phase with
  | submitted | matched => rwa [Forwards, hclaims]
  | claimed record =>
    rw [Forwards, hclaims, hforwards, hcontext]
    exact ⟨h.1, h.2.1, h.2.2.1.mono hissued, h.2.2.2⟩
  | undelivered | relaying | ended => trivial

/-- Steps after which the submissions, the claims and what is forwarded are the same. -/
theorem Claimed.of_eq (h : s.Claimed) (hcontext : t.contextId = s.contextId)
    (hsubmissions : t.submissions = s.submissions) (hclaims : t.claims = s.claims)
    (hforwards : t.forwards = s.forwards) (hissued : ∀ feedback ∈ s.issued, feedback ∈ t.issued)
    (hnodup : (t.issued.map Feedback.feedbackId).Nodup)
    (hrecord : ∀ record ∈ t.record, record.contextId = s.contextId ∧
      t.Asked record.feedbackId record.requestId ∧ record.feedbackId ∉ s.claims.map Prod.fst)
    (hsaving : ∀ relay msg feedback, t.phase = .saving relay msg feedback →
      feedback ∈ t.issued ∧ feedback.feedbackId ∉ s.claims.map Prod.fst ∧
        ∀ record ∈ t.record, record.feedbackId ≠ feedback.feedbackId) : t.Claimed where
  issued := hnodup
  rounds := hclaims ▸ h.rounds
  claimants := hclaims ▸ h.claimants
  asked c hc := (h.asked c (hclaims ▸ hc)).imp fun _ h => h.mono hissued
  record record hr := by
    rw [hcontext, hclaims]
    exact hrecord record hr
  saving relay msg feedback hphase := by
    rw [hclaims]
    exact hsaving relay msg feedback hphase
  unknown i hi := hclaims ▸ h.unknown i (hsubmissions ▸ hi)
  known i u hi := (h.known i u (hsubmissions ▸ hi)).congr hcontext hclaims hforwards hissued
  topics := hforwards ▸ h.topics
  forwarded f hf := by
    obtain ⟨hclaimed, hasked, hu⟩ := h.forwarded f (hforwards ▸ hf)
    refine ⟨hclaims ▸ hclaimed, hasked.mono hissued, ?_⟩
    rwa [hsubmissions, hcontext]

theorem Claimed.frame (h : s.Claimed) (hst : Frame s t) : t.Claimed := by
  have hissued : ∀ feedback ∈ s.issued, feedback ∈ t.issued := fun _ h => hst.issued ▸ h
  refine h.of_eq hst.contextId hst.submissions hst.claims hst.forwards hissued
    (hst.issued ▸ h.issued) ?_ ?_
  · intro record hr
    rcases hst.record with ht | ht
    · simp [ht] at hr
    · obtain ⟨hcontext, hasked, hclaims⟩ := h.record record (ht ▸ hr)
      exact ⟨hcontext, hasked.mono hissued, hclaims⟩
  · intro relay msg feedback hphase
    rcases hst.saving with ht | ht
    · obtain ⟨hmem, hclaims, hrecord⟩ := h.saving relay msg feedback (ht ▸ hphase)
      rw [hst.issued]
      refine ⟨hmem, hclaims, fun record hr => ?_⟩
      rcases hst.record with hrec | hrec
      · simp [hrec] at hr
      · exact hrecord record (hrec ▸ hr)
    · exact absurd hphase (ht relay msg feedback)

theorem advance_eq_some {msg : AragAnswer β} {stream : StreamPhase β}
    (h : s.advance msg = some stream) :
    (msg.asked = none ∧ stream = .running) ∨ ∃ feedback, msg.asked = some feedback ∧
      stream = .paused feedback ∧ feedback.feedbackId ∉ s.issued.map Feedback.feedbackId := by
  unfold advance at h
  split at h
  · rename_i feedback hasked
    split at h
    · cases h
    · rename_i hnew
      cases h
      exact .inr ⟨feedback, hasked, rfl, hnew⟩
  · rename_i hasked
    cases h
    exact .inl ⟨hasked, rfl⟩

/-- What has been claimed has been asked for. -/
theorem Claimed.not_mem_claims (h : s.Claimed) {feedbackId : Text}
    (hnew : feedbackId ∉ s.issued.map Feedback.feedbackId) :
    feedbackId ∉ s.claims.map Prod.fst := by
  intro hmem
  obtain ⟨c, hc, rfl⟩ := List.mem_map.1 hmem
  obtain ⟨requestId, feedback, hf, hid, -⟩ := h.asked c hc
  exact hnew (List.mem_map.2 ⟨feedback, hf, hid⟩)

theorem Claimed.yield (h : s.Claimed) {relay : Option ℕ} {msg : AragAnswer β}
    {stream : StreamPhase β} (hphase : s.phase = .pulling relay)
    (hadvance : s.advance msg = some stream) :
    (({ s with stream := stream }.taking relay msg).take relay msg).Claimed := by
  obtain ⟨hcontext, hsubmissions, hclaims, hforwards, hrecord, htaken⟩ :=
    take_eq ({ s with stream := stream }.taking relay msg) relay msg
  have hissued : (({ s with stream := stream }.taking relay msg).take relay msg).issued =
      s.issued ++ msg.asked.toList := by
    rw [Execution.issued, htaken]
    exact issued_taking s relay msg
  have hnew : ∀ feedback ∈ msg.asked, feedback.feedbackId ∉ s.issued.map Feedback.feedbackId := by
    intro feedback hf
    rcases advance_eq_some hadvance with ⟨hasked, -⟩ | ⟨feedback', hasked, -, hnew⟩
    · simp [hasked] at hf
    · cases hasked.symm.trans hf
      exact hnew
  refine h.of_eq hcontext hsubmissions hclaims hforwards ?_ ?_ ?_ ?_
  · intro feedback hf
    rw [hissued]
    exact List.mem_append_left _ hf
  · rw [hissued, List.map_append, List.nodup_append]
    refine ⟨h.issued, by cases msg.asked <;> simp, ?_⟩
    intro a ha b hb hab
    obtain ⟨feedback, hf, rfl⟩ := List.mem_map.1 hb
    exact hnew feedback (Option.mem_toList.1 hf) (hab ▸ ha)
  · intro record hr
    obtain ⟨hcontext, hasked, hclaims⟩ := h.record record (hrecord ▸ hr)
    refine ⟨hcontext, hasked.mono fun feedback hf => ?_, hclaims⟩
    rw [hissued]
    exact List.mem_append_left _ hf
  · intro relay' msg' feedback hsaving
    rcases take_saving hsaving with hsaving | ⟨-, -, hasked⟩
    · cases hphase.symm.trans hsaving
    · rw [hissued, hasked]
      refine ⟨by simp, h.not_mem_claims (hnew feedback hasked), fun record hr hid => ?_⟩
      obtain ⟨-, ⟨feedback', hf', hid', -⟩, -⟩ := h.record record (hrecord ▸ hr)
      exact hnew feedback hasked (List.mem_map.2 ⟨feedback', hf', hid'.trans hid⟩)

theorem Claimed.save (h : s.Claimed) {relay : Option ℕ} {msg : AragAnswer β}
    {feedback : Feedback β} (hphase : s.phase = .saving relay msg feedback) :
    (s.savePending relay msg feedback).Claimed := by
  obtain ⟨hissued, hclaims, -⟩ := h.saving _ _ _ hphase
  refine h.of_eq rfl rfl rfl rfl (fun _ h => h) h.issued ?_ ?_
  · intro record hr
    cases hr
    exact ⟨rfl, ⟨feedback, hissued, rfl, rfl⟩, hclaims⟩
  · intro _ _ _ h
    cases h

theorem Claimed.owner (h : s.Claimed) (hst : OwnerStep deletes s t) : t.Claimed := by
  rcases frame_of_ownerStep hst with hst | ⟨relay, msg, stream, hphase, -, hadvance, rfl⟩ |
    ⟨relay, msg, feedback, hphase, rfl⟩
  · exact h.frame hst
  · exact h.yield hphase hadvance
  · exact h.save hphase

/-- A submission goes on, and has claimed and forwarded what it should have. -/
theorem Claimed.setSubmission (h : s.Claimed) {i : ℕ} {u : Submission} {phase : SubmissionPhase}
    (hu : ∀ v ∈ s.submissions i, v = { u with phase := v.phase }) (hphase : s.Forwards i u phase) :
    (s.setSubmission i u phase).Claimed where
  issued := h.issued
  rounds := h.rounds
  claimants := h.claimants
  asked := h.asked
  record := h.record
  saving := h.saving
  unknown j hj := by
    dsimp only [Execution.setSubmission] at hj
    rcases eq_or_ne j i with rfl | hne
    · simp at hj
    · exact h.unknown j (by rwa [Function.update_of_ne hne] at hj)
  known j v hj := by
    dsimp only [Execution.setSubmission] at hj
    rcases eq_or_ne j i with rfl | hne
    · rw [Function.update_self] at hj
      cases hj
      have hforwards : s.Forwards j { u with phase := phase } phase := by
        cases phase <;> exact hphase
      exact hforwards.congr rfl rfl rfl fun _ h => h
    · rw [Function.update_of_ne hne] at hj
      exact (h.known j v hj).congr rfl rfl rfl fun _ h => h
  topics := h.topics
  forwarded f hf := by
    obtain ⟨hclaimed, hasked, v, hv, hcontext, hid, hresponse⟩ := h.forwarded f hf
    refine ⟨hclaimed, hasked, ?_⟩
    dsimp only [Execution.setSubmission]
    rcases eq_or_ne f.2.relayTopic i with hi | hne
    · rw [hi, Function.update_self]
      have := hu v (hi ▸ hv)
      exact ⟨_, rfl, by rw [← hcontext, this], by rw [← hid, this], by rw [← hresponse, this]⟩
    · rw [Function.update_of_ne hne]
      exact ⟨v, hv, hcontext, hid, hresponse⟩

/-- A claim by a submission that is not in one of its own. -/
theorem Claimed.addClaim (h : s.Claimed) {i : ℕ} {u : Submission} {record : PendingTaskRecord}
    (hi : s.submissions i = some u) (hphase : u.phase = .ended) (hrecord : s.record = some record)
    (hclaims : i ∉ s.claims.map Prod.snd) :
    { s with record := none, claims := s.claims ++ [(record.feedbackId, i)] }.Claimed := by
  obtain ⟨-, hasked, hround⟩ := h.record record hrecord
  have hid : record.feedbackId ∈ s.issued.map Feedback.feedbackId := by
    obtain ⟨feedback, hf, hid, -⟩ := hasked
    exact List.mem_map.2 ⟨feedback, hf, hid⟩
  refine ⟨h.issued, ?_, ?_, ?_, by simp, ?_, ?_, ?_, h.topics, ?_⟩
  · rw [List.map_append, List.map_singleton]
    exact h.rounds.append (List.nodup_singleton _) (by simpa using hround)
  · rw [List.map_append, List.map_singleton]
    exact h.claimants.append (List.nodup_singleton _) (by simpa using hclaims)
  · intro c hc
    rcases List.mem_append.1 hc with hc | hc
    · exact h.asked c hc
    · obtain rfl := List.mem_singleton.1 hc
      exact ⟨_, hasked⟩
  · intro relay msg feedback hsaving
    obtain ⟨hmem, hsaved, hne⟩ := h.saving relay msg feedback hsaving
    refine ⟨hmem, ?_, by simp⟩
    rw [List.map_append, List.map_singleton, List.mem_append, List.mem_singleton, not_or]
    exact ⟨hsaved, (hne record hrecord).symm⟩
  · intro j hj
    rw [List.map_append, List.map_singleton, List.mem_append, List.mem_singleton, not_or]
    refine ⟨h.unknown j hj, fun hji => ?_⟩
    cases hi.symm.trans (hji ▸ hj)
  · intro j v hj
    have hv := h.known j v hj
    cases hp : v.phase with
    | submitted | matched =>
      rw [hp] at hv
      rw [Forwards, List.map_append, List.map_singleton, List.mem_append, List.mem_singleton,
        not_or]
      refine ⟨hv, fun hji => ?_⟩
      cases hi.symm.trans (hji ▸ hj)
      cases hphase.symm.trans hp
    | claimed record =>
      rw [hp] at hv
      exact ⟨hv.1, List.mem_append_left _ hv.2.1, hv.2.2⟩
    | undelivered | relaying | ended => trivial
  · intro f hf
    obtain ⟨hclaimed, hasked, hu⟩ := h.forwarded f hf
    exact ⟨List.mem_append_left _ hclaimed, hasked, hu⟩

/-- A reply is forwarded for a submission that is not about to do so. -/
theorem Claimed.addForward (h : s.Claimed) {feedbackId : Text} {reply : Reply} {u : Submission}
    (hreply : s.Forwarded feedbackId reply) (hi : s.submissions reply.relayTopic = some u)
    (hphase : u.phase = .ended) (hforwards : reply.relayTopic ∉ s.forwards.map (·.2.relayTopic)) :
    { s with
      replies := s.replies ++ [reply]
      forwards := s.forwards ++ [(feedbackId, reply)] }.Claimed := by
  refine ⟨h.issued, h.rounds, h.claimants, h.asked, h.record, h.saving, h.unknown, ?_, ?_, ?_⟩
  · intro j v hj
    have hv := h.known j v hj
    cases hp : v.phase with
    | submitted | matched => rwa [hp] at hv
    | claimed record =>
      rw [hp] at hv
      refine ⟨hv.1, hv.2.1, hv.2.2.1, ?_⟩
      rw [List.map_append, List.map_singleton, List.mem_append, List.mem_singleton, not_or]
      refine ⟨hv.2.2.2, fun hji => ?_⟩
      cases hi.symm.trans (hji ▸ hj)
      cases hphase.symm.trans hp
    | undelivered | relaying | ended => trivial
  · rw [List.map_append, List.map_singleton]
    exact h.topics.append (List.nodup_singleton _) (by simpa using hforwards)
  · intro f hf
    rcases List.mem_append.1 hf with hf | hf
    · obtain ⟨hclaimed, hasked, hu⟩ := h.forwarded f hf
      exact ⟨hclaimed, hasked, hu⟩
    · obtain rfl := List.mem_singleton.1 hf
      exact ⟨hreply.claimed, hreply.asked, hreply.submission⟩

theorem Claimed.claim (h : s.Claimed) {i : ℕ} {u : Submission} {record : PendingTaskRecord}
    (hi : s.submissions i = some u) (hphase : u.phase = .matched) (hrecord : s.record = some record)
    (hmatch : u.Matches record) :
    ({ s with
      record := none
      claims := s.claims ++ [(u.feedbackId, i)] }.setSubmission i u (.claimed record)).Claimed := by
  obtain ⟨hcontext, hasked, -⟩ := h.record record hrecord
  obtain ⟨hu, hid⟩ := hmatch
  have hclaims : i ∉ s.claims.map Prod.snd := by
    have := h.known i u hi
    rwa [hphase] at this
  have hforwards : i ∉ s.forwards.map (·.2.relayTopic) := by
    intro hmem
    obtain ⟨f, hf, rfl⟩ := List.mem_map.1 hmem
    exact hclaims (List.mem_map.2 ⟨_, (h.forwarded f hf).claimed, rfl⟩)
  have hsame : ∀ v ∈ s.submissions i, v = { u with phase := v.phase } := by
    intro v hv
    cases hi.symm.trans hv
    rfl
  -- The submission is set aside while its claim is added.
  have hended := h.setSubmission hsame (show s.Forwards i u .ended from trivial)
  have hadded := hended.addClaim (Function.update_self ..) rfl hrecord hclaims
  have hset := hadded.setSubmission (i := i) (u := u)
    (show ∀ v ∈ (s.setSubmission i u .ended).submissions i, _ by
      simp [Execution.setSubmission])
    (show Execution.Forwards _ i u (.claimed record) from
      ⟨hu.symm.trans hcontext, by simp [hid], hid ▸ hasked, hforwards⟩)
  simpa [Execution.setSubmission, hid] using hset

theorem Claimed.send (h : s.Claimed) {i : ℕ} {u : Submission} {record : PendingTaskRecord}
    {phase : SubmissionPhase} (hi : s.submissions i = some u) (hphase : u.phase = .claimed record)
    (hsent : s.Forwards i u phase) (hdone : ∀ record, phase ≠ .claimed record) :
    ({ s with
      replies := s.replies ++ [u.reply i record]
      forwards := s.forwards ++ [(u.feedbackId, u.reply i record)] }.setSubmission i u
        phase).Claimed := by
  obtain ⟨hcontext, hclaim, hasked, hforwards⟩ : s.Forwards i u (.claimed record) :=
    hphase ▸ h.known i u hi
  have hsame : ∀ v ∈ s.submissions i, v = { u with phase := v.phase } := by
    intro v hv
    cases hi.symm.trans hv
    rfl
  have hended := h.setSubmission hsame (show s.Forwards i u .ended from trivial)
  have hadded := hended.addForward (u := { u with phase := .ended })
    (show Forwarded _ u.feedbackId (u.reply i record) from
      ⟨hclaim, hasked, _, Function.update_self .., hcontext, rfl, rfl⟩)
    (Function.update_self ..) rfl hforwards
  have hset := hadded.setSubmission (i := i) (u := u) (by simp [Execution.setSubmission])
    (show Execution.Forwards _ i u phase by
      cases phase with
      | submitted | matched => exact hsent
      | claimed record => exact absurd rfl (hdone record)
      | undelivered | relaying | ended => trivial)
  simpa [Execution.setSubmission] using hset

theorem Claimed.submission (h : s.Claimed) {i : ℕ} (hst : SubmissionStep s i t) : t.Claimed := by
  have hsame {u : Submission} (hi : s.submissions i = some u) :
      ∀ v ∈ s.submissions i, v = { u with phase := v.phase } := by
    intro v hv
    cases hi.symm.trans hv
    rfl
  have hemit {who : Publisher} {event : Event β} : (s.emit who event).Claimed :=
    h.frame ⟨rfl, rfl, rfl, rfl, .inr rfl, rfl, .inl rfl⟩
  cases hst with
  | refuse hi => exact h.setSubmission (fun v hv => by simp [hi] at hv) trivial
  | submit hi => exact h.setSubmission (fun v hv => by simp [hi] at hv) (h.unknown i hi)
  | expired hi | unclaimed hi | interrupt hi => exact hemit.setSubmission (hsame hi) trivial
  | mismatch hi | abort hi | sendFails hi => exact h.setSubmission (hsame hi) trivial
  | startWork hi hphase =>
    refine hemit.setSubmission (hsame hi) ?_
    have := h.known i _ hi
    rwa [hphase] at this
  | claim hi hphase hrecord hmatch => exact h.claim hi hphase hrecord hmatch
  | send hi hphase => exact h.send hi hphase (by split <;> trivial) (by intro _; split <;> simp)
  | remove hi =>
    refine Claimed.setSubmission (h.frame ?_) (hsame hi) trivial
    exact ⟨rfl, rfl, rfl, rfl, .inl rfl, rfl, .inl rfl⟩
  | relay hi =>
    refine Claimed.setSubmission (h.frame ?_) (hsame hi) (by split <;> trivial)
    exact ⟨rfl, rfl, rfl, rfl, .inr rfl, rfl, .inl rfl⟩

theorem Claimed.step (h : s.Claimed) (hst : s.Step deletes t) : t.Claimed := by
  cases hst with
  | owner hst => exact h.owner hst
  | submission hst => exact h.submission hst
  | loss hst => exact h.frame (frame_of_loss hst)

theorem claimed_of_reachable {taskId contextId instanceId : Text}
    (h : (execution β deletes taskId contextId instanceId).Reachable s) : s.Claimed := by
  refine h.invariant ?_ fun _ _ _ _ h hst => h.step hst
  rintro s rfl
  constructor <;> simp [Execution.issued]

/-! ## Deliveries -/

/-- Every round has one response at most. -/
structure Delivered (s : Execution β) : Prop where
  nodup : (s.deliveries.map Prod.fst).Nodup
  issued : ∀ d ∈ s.deliveries, d.1 ∈ s.issued.map Feedback.feedbackId
  paused : ∀ feedback, s.stream = .paused feedback →
    feedback ∈ s.issued ∧ feedback.feedbackId ∉ s.deliveries.map Prod.fst

theorem Delivered.of_eq (h : s.Delivered) (hissued : ∀ feedback ∈ s.issued, feedback ∈ t.issued)
    (hdeliveries : t.deliveries = s.deliveries)
    (hstream : t.stream = s.stream ∨ ∀ feedback, t.stream ≠ .paused feedback) : t.Delivered where
  nodup := hdeliveries ▸ h.nodup
  issued d hd := by
    obtain ⟨feedback, hf, hid⟩ := List.mem_map.1 (h.issued d (hdeliveries ▸ hd))
    exact List.mem_map.2 ⟨feedback, hissued feedback hf, hid⟩
  paused feedback hpaused := by
    rcases hstream with hs | hs
    · obtain ⟨hf, hd⟩ := h.paused feedback (hs ▸ hpaused)
      exact ⟨hissued feedback hf, hdeliveries ▸ hd⟩
    · exact absurd hpaused (hs feedback)

theorem take_rest (s : Execution β) (relay : Option ℕ) (msg : AragAnswer β) :
    (s.take relay msg).stream = s.stream ∧ (s.take relay msg).queue = s.queue ∧
      (s.take relay msg).replies = s.replies ∧ (s.take relay msg).deliveries = s.deliveries := by
  unfold take
  split
  · exact ⟨rfl, rfl, rfl, rfl⟩
  · split <;> exact ⟨rfl, rfl, rfl, rfl⟩

theorem Delivered.yield (h : s.Delivered) {relay : Option ℕ} {msg : AragAnswer β}
    {stream : StreamPhase β} (hadvance : s.advance msg = some stream) :
    (({ s with stream := stream }.taking relay msg).take relay msg).Delivered := by
  set t := ({ s with stream := stream }.taking relay msg).take relay msg with ht
  obtain ⟨hstream, -, -, hdeliveries⟩ :=
    take_rest ({ s with stream := stream }.taking relay msg) relay msg
  have hissued : t.issued = s.issued ++ msg.asked.toList := by
    rw [Execution.issued, (take_eq _ relay msg).2.2.2.2.2]
    exact issued_taking s relay msg
  have hmono : ∀ feedback ∈ s.issued, feedback ∈ t.issued := fun _ hf => by
    rw [hissued]
    exact List.mem_append_left _ hf
  rcases advance_eq_some hadvance with ⟨hasked, rfl⟩ | ⟨feedback, hasked, rfl, hnew⟩
  · exact h.of_eq hmono hdeliveries (.inr fun _ hpaused => by cases hstream.symm.trans hpaused)
  · refine ⟨hdeliveries ▸ h.nodup, ?_, ?_⟩
    · intro d hd
      obtain ⟨feedback, hf, hid⟩ := List.mem_map.1 (h.issued d (hdeliveries ▸ hd))
      exact List.mem_map.2 ⟨feedback, hmono feedback hf, hid⟩
    · intro feedback' hpaused
      cases hstream.symm.trans hpaused
      refine ⟨by simp [hissued, hasked], fun hd => ?_⟩
      obtain ⟨d, hd, hid⟩ := List.mem_map.1 hd
      exact hnew (hid ▸ h.issued d (hdeliveries ▸ hd))

theorem Delivered.owner (h : s.Delivered) (hst : OwnerStep deletes s t) : t.Delivered := by
  cases hst with
  | yield _ _ hadvance => exact h.yield hadvance
  | receiveFeedback _ hstream =>
    obtain ⟨hf, hd⟩ := h.paused _ hstream
    refine ⟨?_, ?_, fun _ hpaused => by cases hpaused⟩
    · rw [List.map_append, List.map_singleton]
      exact h.nodup.append (List.nodup_singleton _) (by simpa using hd)
    · intro d hd
      rcases List.mem_append.1 hd with hd | hd
      · exact h.issued d hd
      · obtain rfl := List.mem_singleton.1 hd
        exact List.mem_map_of_mem hf
  | disconnect | endCancelled | cancelSubscribed =>
    exact h.of_eq (fun _ h => h) rfl (.inr fun _ => by simp)
  | endExecuting | endRelay =>
    refine h.of_eq (fun feedback hf => ?_) rfl (.inr fun _ => by simp [discardPending, taking])
    exact (issued_taking s _ unexpectedEnd).symm ▸ List.mem_append_left _ hf
  | @announce k a =>
    obtain ⟨_ | i, msg, feedback⟩ := a <;> exact h.of_eq (fun _ h => h) rfl (.inl rfl)
  | @removeDiscarded report => cases report <;> exact h.of_eq (fun _ h => h) rfl (.inl rfl)
  | raiseExecuting | raiseWaiting | save | announceFails | publish | published | complete
  | completeRelay | receive | delete | put | timeOut | cancelExecuting | cancelWaiting
  | forgetCancelled => exact h.of_eq (fun _ h => h) rfl (.inl rfl)

theorem Delivered.step (h : s.Delivered) (hst : s.Step deletes t) : t.Delivered := by
  cases hst with
  | owner hst => exact h.owner hst
  | submission hst => cases hst <;> exact h.of_eq (fun _ h => h) rfl (.inl rfl)
  | loss hst => cases hst <;> exact h.of_eq (fun _ h => h) rfl (.inl rfl)

theorem delivered_of_reachable {taskId contextId instanceId : Text}
    (h : (execution β deletes taskId contextId instanceId).Reachable s) : s.Delivered := by
  refine h.invariant ?_ fun _ _ _ _ h hst => h.step hst
  rintro s rfl
  exact ⟨List.nodup_nil, List.forall_mem_nil _, fun _ h => by cases h⟩

/-- A response is forwarded for a round at most once, and the agent is sent one at most. -/
theorem forwarded_once {taskId contextId instanceId : Text}
    (h : (execution β deletes taskId contextId instanceId).Reachable s) :
    (s.forwards.map Prod.fst).Nodup ∧ (s.deliveries.map Prod.fst).Nodup ∧
      ∀ f ∈ s.forwards, s.Forwarded f.1 f.2 := by
  have hclaimed := claimed_of_reachable h
  refine ⟨?_, (delivered_of_reachable h).nodup, hclaimed.forwarded⟩
  have hforwards : s.forwards.Nodup := List.Nodup.of_map _ hclaimed.topics
  refine hforwards.map_on fun f hf f' hf' hid => ?_
  -- Two claims of one round are the same, so that the topics are.
  have hclaim := List.inj_on_of_nodup_map hclaimed.rounds (hclaimed.forwarded f hf).claimed
    (hclaimed.forwarded f' hf').claimed hid
  exact List.inj_on_of_nodup_map hclaimed.topics hf hf' (congrArg Prod.snd hclaim)

theorem forwarded_once_answered : ∃ s : Execution Unit,
    s.forwards = [(text "1", ⟨text "1", text "yes", 0⟩)] ∧
      (s.forwards.map Prod.fst).Nodup ∧ (s.deliveries.map Prod.fst).Nodup ∧
      ∀ f ∈ s.forwards, s.Forwarded f.1 f.2 := by
  obtain ⟨s, h, -, -, -, hforwards⟩ := exists_answered
  exact ⟨s, hforwards, forwarded_once h⟩

end Execution

end Hyperforge.A2a
