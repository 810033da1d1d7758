import Hyperforge.A2a.Rounds
import Mathlib.Data.List.Infix
import Mathlib.Data.List.Perm.Basic

/-!
# Relays of answers

The owner publishes on the relay of a submission what it takes from the stream for it, in order,
and nothing else (`Relayed`), and the submission publishes what it reads of that (`Reads`).
-/

namespace Hyperforge.A2a

open Transition

/-- For whom the owner takes answers. -/
def OwnerPhase.target {β : Type} : OwnerPhase β → Option ℕ
  | .pulling relay | .saving relay _ _ | .completing relay => relay
  | .publishing i _ _ | .discarding (.relayed i) => some i
  | _ => none

/-- The messages that are still to be published of what has been taken. -/
def OwnerPhase.due {β : Type} : OwnerPhase β → List (AgentMessage β)
  | .publishing _ ms _ => ms
  | .saving _ msg _ => [.answer msg]
  | .completing _ => [.done]
  | .discarding (.relayed _) => unexpectedEnd.messages
  | _ => []

/-- The owner may take answers still. -/
def OwnerPhase.Live {β : Type} : OwnerPhase β → Prop
  | .pulling _ | .publishing _ _ false | .saving _ _ _ | .waiting | .received _ | .putting _ => True
  | _ => False

namespace Execution

variable {β : Type} {s t : Execution β} {i : ℕ}

/-- The messages of what has been taken for a relay. -/
def told (s : Execution β) (i : ℕ) : List (AgentMessage β) :=
  (s.taken.filter (·.1 = some i)).flatMap (·.2.messages)

/-- The requests that are still to be announced on a relay. -/
def toAnnounce (s : Execution β) (i : ℕ) : List (AgentMessage β) :=
  (s.announcing.filter (·.1 = some i)).map (.answer ·.2.1)

/-- A relay has been used: its submission has answered a round. -/
def Used (s : Execution β) (i : ℕ) : Prop :=
  ∃ feedbackId ∈ s.deliveries.map Prod.fst, (feedbackId, i) ∈ s.claims

structure Relayed (s : Execution β) : Prop where
  earlier : ∀ i, s.phase.target ≠ some i → (s.relays i).log ++ s.toAnnounce i <+: s.told i
  current : ∀ i, s.phase.target = some i →
    s.toAnnounce i = [] ∧ (s.relays i).log ++ s.phase.due = s.told i
  single : ∀ i, (s.toAnnounce i).length ≤ 1
  announced : ∀ i, s.toAnnounce i ≠ [] → ∃ m ∈ s.taken, m.1 = some i
  used : s.phase.Live → ∀ i, (∃ m ∈ s.taken, m.1 = some i) → s.Used i
  target : ∀ i, s.phase.target = some i → s.phase.Live → s.stream = .running → s.Used i

theorem told_taking (s : Execution β) (relay : Option ℕ) (msg : AragAnswer β) (i : ℕ) :
    (s.taking relay msg).told i = s.told i ++ if relay = some i then msg.messages else [] := by
  rw [told, taking, List.filter_append, List.flatMap_append]
  congr 1
  by_cases h : relay = some i <;> simp [h]

theorem Used.mono (h : s.Used i) (hdeliveries : s.deliveries ⊆ t.deliveries)
    (hclaims : s.claims ⊆ t.claims) : t.Used i := by
  obtain ⟨feedbackId, hd, hc⟩ := h
  exact ⟨feedbackId, List.map_subset _ hdeliveries hd, hclaims hc⟩

/-- What is said of relays and what has been taken for them stays. -/
structure Stays (s t : Execution β) : Prop where
  logs : ∀ i, (t.relays i).log = (s.relays i).log
  announcing : t.announcing = s.announcing
  taken : t.taken = s.taken
  deliveries : s.deliveries ⊆ t.deliveries
  claims : s.claims ⊆ t.claims

theorem Stays.of_eq (hrelays : t.relays = s.relays) (hannouncing : t.announcing = s.announcing)
    (htaken : t.taken = s.taken) (hdeliveries : t.deliveries = s.deliveries)
    (hclaims : t.claims = s.claims) : Stays s t :=
  ⟨fun i => by rw [hrelays], hannouncing, htaken, fun _ h => hdeliveries ▸ h,
    fun _ h => hclaims ▸ h⟩

/-- The owner stops taking answers for a relay, or takes none. -/
theorem Relayed.stop (h : s.Relayed) (hst : Stays s t) (htarget : t.phase.target = none)
    (hlive : t.phase.Live → s.phase.Live) : t.Relayed where
  earlier i _ := by
    rw [hst.logs, toAnnounce, hst.announcing, told, hst.taken]
    by_cases hi : s.phase.target = some i
    · obtain ⟨hannounce, htold⟩ := h.current i hi
      rw [toAnnounce] at hannounce
      rw [hannounce, List.append_nil]
      exact ⟨_, htold⟩
    · exact h.earlier i hi
  current i hi := by cases htarget.symm.trans hi
  single i := by
    rw [toAnnounce, hst.announcing]
    exact h.single i
  announced i hi := by
    rw [toAnnounce, hst.announcing] at hi
    rw [hst.taken]
    exact h.announced i hi
  used hl i hi := by
    rw [hst.taken] at hi
    exact (h.used (hlive hl) i hi).mono hst.deliveries hst.claims
  target i hi := by cases htarget.symm.trans hi

/-- The owner goes on for whom it has been taking answers. -/
theorem Relayed.keep (h : s.Relayed) (hst : Stays s t) (htarget : t.phase.target = s.phase.target)
    (hdue : t.phase.due = s.phase.due) (hlive : t.phase.Live → s.phase.Live)
    (hstream : ∀ i, t.phase.target = some i → t.phase.Live → t.stream = .running →
      s.stream = .running ∨ t.Used i) : t.Relayed where
  earlier i hi := by
    rw [hst.logs, toAnnounce, hst.announcing, told, hst.taken]
    exact h.earlier i (htarget ▸ hi)
  current i hi := by
    rw [hst.logs, toAnnounce, hst.announcing, told, hst.taken, hdue]
    exact h.current i (htarget ▸ hi)
  single i := by
    rw [toAnnounce, hst.announcing]
    exact h.single i
  announced i hi := by
    rw [toAnnounce, hst.announcing] at hi
    rw [hst.taken]
    exact h.announced i hi
  used hl i hi := by
    rw [hst.taken] at hi
    exact (h.used (hlive hl) i hi).mono hst.deliveries hst.claims
  target i hi hl hs := by
    rcases hstream i hi hl hs with hs | hused
    · exact (h.target i (htarget ▸ hi) (hlive hl) hs).mono hst.deliveries hst.claims
    · exact hused

/-! ## Announcements -/

theorem filter_eraseIdx {α : Type} (l : List α) {k : ℕ} {a : α} (ha : l[k]? = some a)
    (p : α → Bool) :
    (l.filter p).length = ((l.eraseIdx k).filter p).length + if p a then 1 else 0 := by
  obtain ⟨hk, rfl⟩ := List.getElem?_eq_some_iff.1 ha
  have := ((List.getElem_cons_eraseIdx_perm hk).filter p).length_eq
  rw [List.filter_cons] at this
  split at this <;> simp_all

/-- An announcement on another relay leaves those of this one. -/
theorem toAnnounce_eraseIdx {k : ℕ} {a : Option ℕ × AragAnswer β × Feedback β}
    (ha : s.announcing[k]? = some a) (hi : a.1 ≠ some i) :
    ({ s with announcing := s.announcing.eraseIdx k } : Execution β).toAnnounce i =
      s.toAnnounce i := by
  have hlength := filter_eraseIdx s.announcing ha (·.1 = some i)
  rw [toAnnounce, toAnnounce]
  congr 1
  refine ((List.eraseIdx_sublist _ _).filter _).eq_of_length ?_
  simpa [hi] using hlength.symm

/-- The announcement on a relay is the only one. -/
theorem Relayed.toAnnounce_eq (h : s.Relayed) {k : ℕ} {msg : AragAnswer β} {feedback : Feedback β}
    (ha : s.announcing[k]? = some (some i, msg, feedback)) : s.toAnnounce i = [.answer msg] ∧
      ({ s with announcing := s.announcing.eraseIdx k } : Execution β).toAnnounce i = [] := by
  have hlength := filter_eraseIdx s.announcing ha (·.1 = some i)
  have hsingle := h.single i
  rw [toAnnounce, List.length_map] at hsingle
  have hmem : (some i, msg, feedback) ∈ s.announcing.filter (·.1 = some i) :=
    List.mem_filter.2 ⟨List.mem_of_getElem? ha, by simp⟩
  constructor
  · obtain ⟨a, hl⟩ := List.length_eq_one_iff.1
      (le_antisymm hsingle (List.length_pos_of_mem hmem))
    rw [hl, List.mem_singleton] at hmem
    rw [toAnnounce, hl, ← hmem]
    rfl
  · rw [toAnnounce, List.map_eq_nil_iff, ← List.length_eq_zero_iff]
    simp only [decide_true, if_true] at hlength
    dsimp only
    omega

/-! ## Steps -/

theorem toAnnounce_announce (s : Execution β) (a : Option ℕ × AragAnswer β × Feedback β) (i : ℕ) :
    (s.announce a).toAnnounce i = s.toAnnounce i := by
  obtain ⟨_ | j, msg, feedback⟩ := a <;> rfl

theorem log_publish (s : Execution β) (j : ℕ) (m : AgentMessage β) (i : ℕ) :
    ((s.publish j m).relays i).log = (s.relays i).log ++ if j = i then [m] else [] := by
  dsimp only [Execution.publish]
  rcases eq_or_ne i j with rfl | hne
  · rw [Function.update_self, if_pos rfl]
  · rw [Function.update_of_ne hne, if_neg hne.symm, List.append_nil]

theorem Relayed.announceFails (h : s.Relayed) {k : ℕ}
    {a : Option ℕ × AragAnswer β × Feedback β} (ha : s.announcing[k]? = some a) :
    ({ s with announcing := s.announcing.eraseIdx k } : Execution β).Relayed := by
  -- The announcement is the only one of its relay.
  have hcases (i : ℕ) :
      ({ s with announcing := s.announcing.eraseIdx k } : Execution β).toAnnounce i = [] ∨
      ({ s with announcing := s.announcing.eraseIdx k } : Execution β).toAnnounce i =
        s.toAnnounce i := by
    rcases eq_or_ne a.1 (some i) with hi | hi
    · obtain ⟨j, msg, feedback⟩ := a
      cases hi
      exact .inl (h.toAnnounce_eq ha).2
    · exact .inr (toAnnounce_eraseIdx ha hi)
  refine ⟨fun i hi => ?_, fun i hi => ⟨?_, (h.current i hi).2⟩, fun i => ?_, fun i hi => ?_, h.used,
    h.target⟩
  · rcases hcases i with heq | heq <;> rw [heq]
    · rw [List.append_nil]
      exact (List.prefix_append _ _).trans (h.earlier i hi)
    · exact h.earlier i hi
  · exact (hcases i).elim id fun heq => heq.trans (h.current i hi).1
  · rcases hcases i with heq | heq <;> rw [heq]
    · exact Nat.zero_le 1
    · exact h.single i
  · rcases hcases i with heq | heq <;> rw [heq] at hi
    · exact absurd rfl hi
    · exact h.announced i hi

theorem Relayed.announce (h : s.Relayed) {k : ℕ} {a : Option ℕ × AragAnswer β × Feedback β}
    (ha : s.announcing[k]? = some a) :
    ({ s with announcing := s.announcing.eraseIdx k }.announce a).Relayed := by
  have herased := h.announceFails ha
  obtain ⟨_ | j, msg, feedback⟩ := a
  · exact herased.keep (.of_eq rfl rfl rfl rfl rfl) rfl rfl id fun _ _ _ hs => .inl hs
  · obtain ⟨hone, hnone⟩ := h.toAnnounce_eq ha
    refine ⟨fun i hi => ?_, fun i hi => ⟨(herased.current i hi).1, ?_⟩, herased.single,
      herased.announced, herased.used, herased.target⟩ <;>
      rw [Execution.announce, log_publish]
    · rcases eq_or_ne j i with rfl | hne
      · rw [if_pos rfl]
        have := h.earlier j hi
        rw [hone] at this
        exact (congrArg _ hnone).trans (List.append_nil _) ▸ this
      · rw [if_neg hne, List.append_nil]
        exact herased.earlier i hi
    · rcases eq_or_ne j i with rfl | hne
      · cases hone.symm.trans (h.current j hi).1
      · rw [if_neg hne, List.append_nil]
        exact (herased.current i hi).2

theorem Relayed.publish (h : s.Relayed) {j : ℕ} {m : AgentMessage β} {ms : List (AgentMessage β)}
    {last : Bool} (hphase : s.phase = .publishing j (m :: ms) last) :
    ({ s.publish j m with phase := .publishing j ms last } : Execution β).Relayed := by
  have htarget : s.phase.target = some j := by rw [hphase]; rfl
  have hlive : OwnerPhase.Live (.publishing j ms last : OwnerPhase β) → s.phase.Live := by
    rw [hphase]
    cases last <;> exact id
  refine ⟨fun i hi => ?_, fun i hi => ?_, h.single, h.announced, fun hl => h.used (hlive hl),
    fun i hi hl => h.target i (htarget.trans hi) (hlive hl)⟩
  · have hne : j ≠ i := fun hji => hi (hji ▸ rfl)
    have hlog := log_publish s j m i
    rw [if_neg hne, List.append_nil] at hlog
    exact hlog.symm ▸ h.earlier i fun hi' => hi (htarget.symm.trans hi')
  · cases hi
    obtain ⟨hannounce, htold⟩ := h.current j htarget
    refine ⟨hannounce, ?_⟩
    have hlog := log_publish s j m j
    rw [if_pos rfl] at hlog
    rw [hphase] at htold
    exact (congrArg (· ++ ms) hlog).trans ((List.append_assoc _ [m] ms).trans htold)

theorem toAnnounce_save (s : Execution β) (relay : Option ℕ) (msg : AragAnswer β)
    (feedback : Feedback β) (i : ℕ) : (s.savePending relay msg feedback).toAnnounce i =
      s.toAnnounce i ++ if relay = some i then [.answer msg] else [] := by
  rw [toAnnounce, savePending, List.filter_append, List.map_append, toAnnounce]
  congr 1
  by_cases h : relay = some i <;> simp [h]

theorem exists_of_told {m : AgentMessage β} (h : m ∈ s.told i) : ∃ m ∈ s.taken, m.1 = some i := by
  obtain ⟨x, hx, -⟩ := List.mem_flatMap.1 h
  obtain ⟨hx, hi⟩ := List.mem_filter.1 hx
  exact ⟨x, hx, of_decide_eq_true hi⟩

theorem Relayed.save (h : s.Relayed) {relay : Option ℕ} {msg : AragAnswer β}
    {feedback : Feedback β} (hphase : s.phase = .saving relay msg feedback) :
    (s.savePending relay msg feedback).Relayed := by
  have htarget : s.phase.target = relay := by rw [hphase]; rfl
  have hdue : s.phase.due = [.answer msg] := by rw [hphase]; rfl
  refine ⟨fun i _ => ?_, fun i hi => (by cases hi), fun i => ?_, fun i hi => ?_,
    fun _ => h.used (by rw [hphase]; trivial), fun i hi => (by cases hi)⟩
  · rw [toAnnounce_save]
    rcases eq_or_ne relay (some i) with hi | hi
    · obtain ⟨hannounce, htold⟩ := h.current i (htarget.trans hi)
      rw [hannounce, if_pos hi, List.nil_append, ← hdue]
      exact htold ▸ List.prefix_refl _
    · rw [if_neg hi, List.append_nil]
      exact h.earlier i (htarget.trans_ne hi)
  · rw [toAnnounce_save]
    rcases eq_or_ne relay (some i) with hi | hi
    · rw [(h.current i (htarget.trans hi)).1, if_pos hi]
      exact le_rfl
    · rw [if_neg hi, List.append_nil]
      exact h.single i
  · rw [toAnnounce_save] at hi
    rcases eq_or_ne relay (some i) with hr | hr
    · have htold := (h.current i (htarget.trans hr)).2
      rw [hdue] at htold
      exact exists_of_told (htold ▸ List.mem_append_right _ (List.mem_singleton_self _))
    · rw [if_neg hr, List.append_nil] at hi
      exact h.announced i hi

/-- The owner takes an answer, and publishes its messages or nothing of it. -/
theorem Relayed.taking (h : s.Relayed) {relay : Option ℕ} {msg : AragAnswer β}
    (hphase : s.phase = .pulling relay) (hst : Stays (s.taking relay msg) t)
    (htarget : t.phase.target = none ∨
      t.phase.target = relay ∧ (relay ≠ none → t.phase.due = msg.messages))
    (hlive : t.phase.Live → s.stream = .running) : t.Relayed := by
  have hpulling : s.phase.target = relay := by rw [hphase]; rfl
  have hs : s.phase.Live := by rw [hphase]; trivial
  have htold (i : ℕ) : t.told i = s.told i ++ if relay = some i then msg.messages else [] := by
    rw [told, hst.taken]
    exact told_taking s relay msg i
  have hannounce (i : ℕ) : t.toAnnounce i = s.toAnnounce i := by
    rw [toAnnounce, hst.announcing]
    rfl
  have hcurrent (i : ℕ) (hi : relay = some i) :
      s.toAnnounce i = [] ∧ (s.relays i).log = s.told i := by
    obtain ⟨ha, hc⟩ := h.current i (hpulling.trans hi)
    rw [hphase] at hc
    exact ⟨ha, (List.append_nil _).symm.trans hc⟩
  have hused (hl : t.phase.Live) (i : ℕ) (hi : relay = some i) : t.Used i :=
    (h.target i (hpulling.trans hi) hs (hlive hl)).mono hst.deliveries hst.claims
  refine ⟨fun i hi => ?_, fun i hi => ?_, fun i => ?_, fun i hi => ?_, fun hl i hi => ?_,
    fun i hi hl _ => ?_⟩
  · rw [hst.logs, hannounce, htold]
    rcases eq_or_ne relay (some i) with hr | hr
    · obtain ⟨ha, hlog⟩ := hcurrent i hr
      rw [ha, List.append_nil]
      exact hlog ▸ List.prefix_append _ _
    · rw [if_neg hr, List.append_nil]
      exact h.earlier i (hpulling.trans_ne hr)
  · rcases htarget with ht | ⟨ht, hdue⟩
    · cases ht.symm.trans hi
    · have hr := ht.symm.trans hi
      obtain ⟨ha, hlog⟩ := hcurrent i hr
      rw [hst.logs, hannounce, htold, if_pos hr, hdue (by simp [hr])]
      exact ⟨ha, congrArg (· ++ _) hlog⟩
  · rw [hannounce]
    exact h.single i
  · rw [hannounce] at hi
    obtain ⟨m, hm, hi⟩ := h.announced i hi
    rw [hst.taken]
    exact ⟨m, List.mem_append_left _ hm, hi⟩
  · obtain ⟨m, hm, hi⟩ := hi
    rw [hst.taken] at hm
    rcases List.mem_append.1 hm with hm | hm
    · exact (h.used hs i ⟨m, hm, hi⟩).mono hst.deliveries hst.claims
    · obtain rfl := List.mem_singleton.1 hm
      exact hused hl i hi
  · rcases htarget with ht | ⟨ht, -⟩
    · cases ht.symm.trans hi
    · exact hused hl i (ht.symm.trans hi)

theorem Relayed.yield (h : s.Relayed) {relay : Option ℕ} {msg : AragAnswer β}
    {stream : StreamPhase β} (hphase : s.phase = .pulling relay) (hstream : s.stream = .running) :
    (({ s with stream := stream }.taking relay msg).take relay msg).Relayed := by
  have hst : Stays (s.taking relay msg)
      (({ s with stream := stream }.taking relay msg).take relay msg) := by
    unfold take
    split
    · exact .of_eq rfl rfl rfl rfl rfl
    · split <;> exact .of_eq rfl rfl rfl rfl rfl
  refine h.taking hphase hst ?_ fun _ => hstream
  unfold take
  split
  · exact .inl rfl
  · cases hturn : msg.turn with
    | error detail =>
      cases relay with
      | none => exact .inl rfl
      | some i => exact .inr ⟨rfl, fun _ => rfl⟩
    | request feedback => exact .inr ⟨rfl, fun _ => by rw [AragAnswer.messages, hturn]; rfl⟩
    | done => exact .inr ⟨rfl, fun _ => by rw [AragAnswer.messages, hturn]; rfl⟩
    | more =>
      cases relay with
      | none => exact .inr ⟨congrArg OwnerPhase.target hphase, fun h => absurd rfl h⟩
      | some i => exact .inr ⟨rfl, fun _ => rfl⟩

/-- The relay of a response that has been received has not been used. -/
theorem Relayed.put (h : s.Relayed) (hclaimed : s.Claimed) (hdelivered : s.Delivered)
    (hheld : s.Held s.phase) {reply : Reply} (hphase : s.phase = .putting reply) :
    ({ s with
      queue := some (.interaction reply.requestId reply.response)
      phase := .pulling (some reply.relayTopic) } : Execution β).Relayed := by
  have hs : s.phase.Live := by rw [hphase]; trivial
  rw [hphase] at hheld
  obtain ⟨-, -, feedback, hstream, hforwards⟩ := hheld
  have hnew : ∀ m ∈ s.taken, m.1 ≠ some reply.relayTopic := by
    intro m hm hi
    obtain ⟨feedbackId, hd, hc⟩ := h.used hs _ ⟨m, hm, hi⟩
    have := List.inj_on_of_nodup_map hclaimed.claimants hc (hclaimed.forwarded _ hforwards).claimed
      rfl
    obtain rfl := congrArg Prod.fst this
    exact (hdelivered.paused feedback hstream).2 hd
  have htold : s.told reply.relayTopic = [] := by
    rw [List.eq_nil_iff_forall_not_mem]
    intro m hm
    obtain ⟨x, hx, hi⟩ := exists_of_told hm
    exact hnew x hx hi
  have hannounce : s.toAnnounce reply.relayTopic = [] := by
    by_contra hne
    obtain ⟨m, hm, hi⟩ := h.announced _ hne
    exact hnew m hm hi
  have hnone : s.phase.target = none := by rw [hphase]; rfl
  refine ⟨fun i _ => h.earlier i (by simp [hnone]), fun i hi => ?_, h.single, h.announced,
    fun _ => h.used hs, fun _ _ _ hr => by cases hstream.symm.trans hr⟩
  cases hi
  have hlog := h.earlier reply.relayTopic (by simp [hnone])
  rw [htold, hannounce, List.append_nil, List.prefix_nil] at hlog
  exact ⟨hannounce, (List.append_nil _).trans (hlog.trans htold.symm)⟩

theorem Relayed.receiveFeedback (h : s.Relayed) (hclaimed : s.Claimed) (hheld : s.Held s.phase)
    {relay : Option ℕ} {feedback : Feedback β} {requestId response : Text}
    (hphase : s.phase = .pulling relay) (hstream : s.stream = .paused feedback)
    (hqueue : s.queue = some (.interaction requestId response)) :
    ({ s with
      stream := .running
      queue := none
      deliveries := s.deliveries ++ [(feedback.feedbackId, requestId, response)] } :
        Execution β).Relayed := by
  refine h.keep ⟨fun _ => rfl, rfl, rfl, List.subset_append_left _ _, List.Subset.refl _⟩ rfl rfl id
    fun i hi _ _ => .inr ?_
  rw [hphase] at hheld
  obtain ⟨feedback', reply, hrelay, hpaused, hf, -⟩ := hheld.2.2 _ _ hqueue
  cases hstream.symm.trans hpaused
  have hi : relay = some i := (congrArg OwnerPhase.target hphase).symm.trans hi
  cases hrelay.symm.trans hi
  exact ⟨feedback.feedbackId, by simp, (hclaimed.forwarded _ hf).claimed⟩

theorem Relayed.owner (h : s.Relayed) (hclaimed : s.Claimed) (hdelivered : s.Delivered)
    (hheld : s.Held s.phase) (hst : OwnerStep true s t) : t.Relayed := by
  cases hst with
  | yield hphase hstream => exact h.yield hphase hstream
  | receiveFeedback hphase hstream hqueue =>
    exact h.receiveFeedback hclaimed hheld hphase hstream hqueue
  | disconnect hphase =>
    exact h.keep (.of_eq rfl rfl rfl rfl rfl) rfl rfl id fun _ _ _ hs => by cases hs
  | endCancelled hphase => exact h.stop (.of_eq rfl rfl rfl rfl rfl) rfl (fun h => h.elim)
  | endExecuting hphase =>
    exact h.taking hphase (.of_eq rfl rfl rfl rfl rfl) (.inl rfl) fun hl => hl.elim
  | endRelay hphase =>
    exact h.taking hphase (.of_eq rfl rfl rfl rfl rfl) (.inr ⟨rfl, fun _ => rfl⟩) fun hl => hl.elim
  | raiseExecuting =>
    refine h.stop (.of_eq rfl rfl rfl rfl rfl) ?_ fun h => h.elim
    unfold raised
    dsimp only [discardPending]
    split <;> rfl
  | raiseWaiting => exact h.stop (.of_eq rfl rfl rfl rfl rfl) rfl (fun h => h.elim)
  | save hphase => exact h.save hphase
  | announce ha => exact h.announce ha
  | @announceFails k i a ha =>
    have herased := h.announceFails ha
    dsimp only
    split
    · refine herased.stop (.of_eq rfl rfl rfl rfl rfl) ?_ fun h => h.elim
      unfold raised
      dsimp only
      split <;> rfl
    · exact herased.keep (.of_eq rfl rfl rfl rfl rfl) rfl rfl id fun _ _ _ hs => .inl hs
  | publish hphase => exact h.publish hphase
  | @published i last hphase =>
    cases last with
    | true => exact h.stop (.of_eq rfl rfl rfl rfl rfl) rfl fun h => h.elim
    | false =>
      refine h.keep (.of_eq rfl rfl rfl rfl rfl) ?_ ?_ (fun _ => ?_) fun _ _ _ hs => .inl hs <;>
        rw [hphase]
      · rfl
      · rfl
      · trivial
  | complete hphase => exact h.stop (.of_eq rfl rfl rfl rfl rfl) rfl (fun h => h.elim)
  | completeRelay hphase => 
    exact h.keep (.of_eq rfl rfl rfl rfl rfl) (by rw [hphase]; rfl) (by rw [hphase]; rfl)
      (fun h => h.elim) fun _ _ hl => hl.elim
  | receive hphase =>
    exact h.stop (.of_eq rfl rfl rfl rfl rfl) rfl fun _ => by rw [hphase]; trivial
  | delete hphase =>
    refine h.stop (.of_eq rfl rfl rfl rfl rfl) ?_ fun _ => by rw [hphase]; trivial
    dsimp only
    split <;> rfl
  | put hphase => exact h.put hclaimed hdelivered hheld hphase
  | timeOut => exact h.stop (.of_eq rfl rfl rfl rfl rfl) rfl (fun h => h.elim)
  | @removeDiscarded report hphase =>
    cases report with
    | silent | failed => exact h.stop (.of_eq rfl rfl rfl rfl rfl) rfl fun h => h.elim
    | relayed i =>
      exact h.keep (.of_eq rfl rfl rfl rfl rfl) (by rw [hphase]; rfl) (by rw [hphase]; rfl)
        (fun h => h.elim) fun _ _ hl => hl.elim
  | cancelExecuting | forgetCancelled =>
    exact h.keep (.of_eq rfl rfl rfl rfl rfl) rfl rfl id fun _ _ _ hs => .inl hs
  | cancelWaiting => exact h.stop (.of_eq rfl rfl rfl rfl rfl) rfl (fun h => h.elim)
  | cancelSubscribed =>
    exact h.keep (.of_eq rfl rfl rfl rfl rfl) rfl rfl id fun _ _ _ hs => by cases hs

theorem Relayed.step (h : s.Relayed) (hclaimed : s.Claimed) (hdelivered : s.Delivered)
    (hheld : s.Held s.phase) (hst : s.Step true t) : t.Relayed := by
  cases hst with
  | owner hst => exact h.owner hclaimed hdelivered hheld hst
  | submission hst =>
    have hstays : Stays s t := by
      cases hst with
      | claim =>
        exact ⟨fun _ => rfl, rfl, rfl, List.Subset.refl _, List.subset_append_left _ _⟩
      | _ => exact .of_eq rfl rfl rfl rfl rfl
    have hphase : t.phase = s.phase := by cases hst <;> rfl
    have hstream : t.stream = s.stream := by cases hst <;> rfl
    exact h.keep hstays (by rw [hphase]) (by rw [hphase]) (fun hl => hphase ▸ hl)
      fun _ _ _ hs => .inl (hstream ▸ hs)
  | loss hst =>
    cases hst with
    | message j n =>
      refine h.keep ⟨fun i => ?_, rfl, rfl, List.Subset.refl _, List.Subset.refl _⟩ rfl rfl id
        fun _ _ _ hs => .inl hs
      dsimp only
      rcases eq_or_ne i j with rfl | hne
      · rw [Function.update_self]
      · rw [Function.update_of_ne hne]
    | record | reply | cancel =>
      exact h.keep (.of_eq rfl rfl rfl rfl rfl) rfl rfl id fun _ _ _ hs => .inl hs

theorem relayed_of_reachable {taskId contextId instanceId : Text}
    (h : (execution β true taskId contextId instanceId).Reachable s) : s.Relayed := by
  refine h.invariant ?_ fun s _ _ hr h hst =>
    h.step (claimed_of_reachable hr) (delivered_of_reachable hr) (held_of_reachable hr) hst
  rintro s rfl
  constructor <;> simp [toAnnounce, told, OwnerPhase.target]

/-! ## What submissions publish -/

/-- The events that a submission has published. -/
def eventsOf (s : Execution β) (i : ℕ) : List (Event β) :=
  (s.published.filter (·.1 = .submission i)).map Prod.snd

/-- The failures of the forwarding itself. -/
def forwardingFailures : List Text :=
  [text "A2A task has expired", text "A2A feedback could not be delivered; resend the request",
    text "A2A task was interrupted by a server restart; resend the request to continue"]

/-- The events are what is read of some of the messages in their order, after the start of the work
    and before a failure of the forwarding, where there are those. -/
def ReadOf (messages : List (AgentMessage β)) (events : List (Event β)) : Prop :=
  ∃ (start failure : List (Event β)) (msgs : List (AgentMessage β)),
    start.Sublist [Event.startWork] ∧ msgs.Sublist messages ∧
    (failure = [] ∨ ∃ detail ∈ forwardingFailures, failure = [Event.failed detail]) ∧
    events = start ++ msgs.filterMap (·.read.1) ++ failure

/-- What a submission has published, by how far it has come. -/
def Reads (s : Execution β) (i : ℕ) : SubmissionPhase → Prop
  | .submitted => s.eventsOf i = []
  | .matched | .claimed _ | .undelivered => s.eventsOf i = [.startWork]
  | .relaying cursor => ∃ msgs : List (AgentMessage β),
      msgs.Sublist ((s.relays i).log.take cursor) ∧
      s.eventsOf i = .startWork :: msgs.filterMap (·.read.1)
  | .ended => ReadOf (s.relays i).log (s.eventsOf i)

def AllRead (s : Execution β) : Prop := ∀ i,
  match s.submissions i with
  | none => s.eventsOf i = []
  | some u => s.Reads i u.phase

theorem eventsOf_emit? (s : Execution β) (who : Publisher) (event : Option (Event β)) (i : ℕ) :
    (s.emit? who event).eventsOf i =
      s.eventsOf i ++ if who = .submission i then event.toList else [] := by
  rw [eventsOf, emit?, List.filter_append, List.map_append]
  congr 1
  cases event <;> by_cases h : who = .submission i <;> simp [h]

theorem eventsOf_emit (s : Execution β) (who : Publisher) (event : Event β) (i : ℕ) :
    (s.emit who event).eventsOf i =
      s.eventsOf i ++ if who = .submission i then [event] else [] :=
  eventsOf_emit? s who (some event) i

/-- What a submission that has ended so has published. -/
theorem Reads.readOf {p : SubmissionPhase} (h : s.Reads i p) :
    ReadOf (s.relays i).log (s.eventsOf i) := by
  cases p with
  | submitted => exact ⟨[], [], [], List.nil_sublist _, List.nil_sublist _, .inl rfl, h⟩
  | matched | claimed | undelivered =>
    exact ⟨_, [], [], List.Sublist.refl _, List.nil_sublist _, .inl rfl, h⟩
  | relaying cursor =>
    obtain ⟨msgs, hmsgs, hevents⟩ := h
    refine ⟨_, [], msgs, List.Sublist.refl _, hmsgs.trans (List.take_sublist _ _), .inl rfl, ?_⟩
    rw [hevents, List.append_nil]
    rfl
  | ended => exact h

theorem Reads.mono {phase : SubmissionPhase} (h : s.Reads i phase)
    (hevents : t.eventsOf i = s.eventsOf i) (hlog : (s.relays i).log <+: (t.relays i).log) :
    t.Reads i phase := by
  cases phase with
  | submitted | matched | claimed | undelivered => exact hevents.trans h
  | relaying cursor =>
    obtain ⟨msgs, hmsgs, h⟩ := h
    exact ⟨msgs, hmsgs.trans (List.IsPrefix.take hlog cursor).sublist, hevents.trans h⟩
  | ended =>
    obtain ⟨start, failure, msgs, hstart, hmsgs, hfailure, h⟩ := h
    exact ⟨start, failure, msgs, hstart, hmsgs.trans (List.IsPrefix.sublist hlog), hfailure,
      hevents.trans h⟩

/-- Steps that are not of submissions publish for nobody of them. -/
theorem AllRead.mono (h : s.AllRead) (hsubmissions : t.submissions = s.submissions)
    (hevents : ∀ i, t.eventsOf i = s.eventsOf i)
    (hlog : ∀ i, (s.relays i).log <+: (t.relays i).log) : t.AllRead := by
  intro i
  have := h i
  rw [hsubmissions]
  cases hi : s.submissions i with
  | none =>
    rw [hi] at this
    exact (hevents i).trans this
  | some u =>
    rw [hi] at this
    exact this.mono (hevents i) (hlog i)

/-- A step of a submission publishes for it. -/
theorem AllRead.setSubmission (h : s.AllRead) {u : Submission} {phase : SubmissionPhase}
    (hrelays : t.relays = s.relays) (hsubmissions : t.submissions = s.submissions)
    (hevents : ∀ j ≠ i, t.eventsOf j = s.eventsOf j) (hreads : t.Reads i phase) :
    (t.setSubmission i u phase).AllRead := by
  intro j
  dsimp only [Execution.setSubmission]
  rcases eq_or_ne j i with rfl | hne
  · rw [Function.update_self]
    cases phase <;> exact hreads
  · rw [Function.update_of_ne hne, hsubmissions]
    have := h j
    cases hj : s.submissions j with
    | none =>
      rw [hj] at this
      exact (hevents j hne).trans this
    | some v =>
      rw [hj] at this
      refine (show Execution.Reads _ j v.phase from this.mono (hevents j hne) ?_)
      exact (congrFun hrelays j).symm ▸ List.prefix_refl _

theorem eventsOf_take (s : Execution β) (relay : Option ℕ) (msg : AragAnswer β) (i : ℕ) :
    (s.take relay msg).eventsOf i = s.eventsOf i := by
  unfold take
  split
  · rfl
  · split
    · exact (eventsOf_emit _ _ _ _).trans (List.append_nil _)
    · rfl
    · rfl
    · rfl
    · exact (eventsOf_emit? _ _ _ _).trans (List.append_nil _)
    · rfl

theorem relays_take (s : Execution β) (relay : Option ℕ) (msg : AragAnswer β) :
    (s.take relay msg).relays = s.relays ∧ (s.take relay msg).submissions = s.submissions := by
  refine ⟨?_, (take_eq s relay msg).2.1⟩
  unfold take
  split
  · rfl
  · split <;> rfl

theorem AllRead.owner (h : s.AllRead) {deletes : Bool} (hst : OwnerStep deletes s t) :
    t.AllRead := by
  have hrefl (i : ℕ) : (s.relays i).log <+: (s.relays i).log := List.prefix_refl _
  have hemit (s : Execution β) (event : Event β) (i : ℕ) :
      (s.emit .execute event).eventsOf i = s.eventsOf i :=
    (eventsOf_emit s _ event i).trans (List.append_nil _)
  have hpublish (j : ℕ) (m : AgentMessage β) (i : ℕ) :
      (s.relays i).log <+: ((s.publish j m).relays i).log :=
    log_publish s j m i ▸ List.prefix_append _ _
  cases hst with
  | @yield relay msg stream =>
    obtain ⟨hrelays, hsubmissions⟩ :=
      relays_take ({ s with stream := stream }.taking relay msg) relay msg
    exact h.mono hsubmissions (eventsOf_take _ relay msg)
      fun i => (congrFun hrelays i).symm ▸ hrefl i
  | @announce k a =>
    obtain ⟨_ | j, msg, feedback⟩ := a
    · exact h.mono rfl (hemit _ _) hrefl
    · exact h.mono rfl (fun _ => rfl) (hpublish j _)
  | @publish j m => exact h.mono rfl (fun _ => rfl) (hpublish j m)
  | complete => exact h.mono rfl (hemit _ _) hrefl
  | @removeDiscarded report =>
    cases report with
    | silent | relayed => exact h.mono rfl (fun _ => rfl) hrefl
    | failed detail => exact h.mono rfl (hemit _ _) hrefl
  | _ => exact h.mono rfl (fun _ => rfl) hrefl

theorem AllRead.loss (h : s.AllRead) (hst : Loss s t) : t.AllRead := by
  cases hst with
  | record | reply => exact h.mono rfl (fun _ => rfl) fun _ => List.prefix_refl _
  | cancel =>
    exact h.mono rfl (fun i => (eventsOf_emit s _ _ i).trans (List.append_nil _))
      fun _ => List.prefix_refl _
  | message j n =>
    refine h.mono rfl (fun _ => rfl) fun i => ?_
    dsimp only
    rcases eq_or_ne i j with rfl | hne
    · rw [Function.update_self]
    · rw [Function.update_of_ne hne]

/-- A submission that fails has published what it has read, and the failure. -/
theorem ReadOf.fail {messages msgs : List (AgentMessage β)} {events start : List (Event β)}
    (hstart : start.Sublist [Event.startWork])
    (hmsgs : msgs.Sublist messages) (hevents : events = start ++ msgs.filterMap (·.read.1))
    {detail : Text} (hdetail : detail ∈ forwardingFailures) :
    ReadOf messages (events ++ [.failed detail]) :=
  ⟨start, _, msgs, hstart, hmsgs, .inr ⟨detail, hdetail, rfl⟩, by rw [hevents]⟩

theorem AllRead.submission (h : s.AllRead) (hst : SubmissionStep s i t) : t.AllRead := by
  have hi {u : Submission} (hi : s.submissions i = some u) : s.Reads i u.phase := by
    have := h i
    rwa [hi] at this
  have hemit (s : Execution β) (event : Event β) (j : ℕ) (hj : j ≠ i) :
      (s.emit (.submission i) event).eventsOf j = s.eventsOf j :=
    (eventsOf_emit s _ event j).trans (by simp [hj.symm])
  have hself (s : Execution β) (event : Event β) :
      (s.emit (.submission i) event).eventsOf i = s.eventsOf i ++ [event] :=
    (eventsOf_emit s _ event i).trans (by rw [if_pos rfl])
  cases hst with
  | refuse hnone =>
    refine h.setSubmission rfl rfl (fun _ _ => rfl) ?_
    have := h i
    rw [hnone] at this
    exact Reads.readOf (p := .submitted) this
  | submit hnone =>
    refine h.setSubmission rfl rfl (fun _ _ => rfl) ?_
    have := h i
    rwa [hnone] at this
  | mismatch hu | abort hu =>
    exact h.setSubmission rfl rfl (fun _ _ => rfl) (hi hu).readOf
  | startWork hu hphase =>
    refine h.setSubmission rfl rfl (hemit s _) ?_
    have := hi hu
    rw [hphase] at this
    exact (hself s _).trans (congrArg (· ++ _) this)
  | claim hu hphase | sendFails hu hphase =>
    refine h.setSubmission rfl rfl (fun _ _ => rfl) ?_
    have := hi hu
    rw [hphase] at this
    exact this
  | @send u record ok hu hphase =>
    refine h.setSubmission rfl rfl (fun _ _ => rfl) ?_
    have := hi hu
    rw [hphase] at this
    cases ok with
    | true => exact ⟨[], List.nil_sublist _, this⟩
    | false => exact this
  | expired hu hphase =>
    refine h.setSubmission rfl rfl (hemit s _) ?_
    have := hi hu
    rw [hphase] at this
    rw [Reads, hself]
    exact ReadOf.fail (List.nil_sublist _) (List.nil_sublist _) this (by simp [forwardingFailures])
  | unclaimed hu hphase =>
    refine h.setSubmission rfl rfl (hemit s _) ?_
    have := hi hu
    rw [hphase] at this
    rw [Reads, hself]
    exact ReadOf.fail (List.Sublist.refl _) (List.nil_sublist _) this (by simp [forwardingFailures])
  | remove hu hphase =>
    refine h.setSubmission rfl rfl (hemit { s with record := none } _) ?_
    have := hi hu
    rw [hphase] at this
    rw [Reads, hself]
    exact ReadOf.fail (List.Sublist.refl _) (List.nil_sublist _) this (by simp [forwardingFailures])
  | interrupt hu hphase =>
    refine h.setSubmission rfl rfl (hemit s _) ?_
    have := hi hu
    rw [hphase] at this
    obtain ⟨msgs, hmsgs, hevents⟩ := this
    rw [Reads, hself]
    exact ReadOf.fail (List.Sublist.refl _) (hmsgs.trans (List.take_sublist _ _)) hevents
      (by simp [forwardingFailures])
  | @relay u cursor j m hu hphase hcursor _ hm =>
    refine h.setSubmission rfl rfl (fun k hk => ?_) ?_
    · exact (eventsOf_emit? s _ _ k).trans (by simp [hk.symm])
    · have := hi hu
      rw [hphase] at this
      obtain ⟨msgs, hmsgs, hevents⟩ := this
      -- What has been read so far comes before the message.
      have hread : (msgs ++ [m]).Sublist ((s.relays i).log.take (j + 1)) := by
        rw [List.take_add_one, hm]
        exact (hmsgs.trans (List.take_sublist_take_left hcursor)).append (List.Sublist.refl _)
      have hnew : (s.emit? (.submission i) m.read.1).eventsOf i =
          .startWork :: (msgs ++ [m]).filterMap (·.read.1) := by
        rw [eventsOf_emit?, if_pos rfl, hevents, List.filterMap_append, List.cons_append]
        cases hr : m.read.1 <;> simp [hr]
      split
      · exact Reads.readOf (p := .relaying (j + 1)) ⟨_, hread, hnew⟩
      · exact ⟨_, hread, hnew⟩

theorem allRead_of_reachable {deletes : Bool} {taskId contextId instanceId : Text}
    (h : (execution β deletes taskId contextId instanceId).Reachable s) : s.AllRead := by
  refine h.invariant ?_ fun _ _ _ _ h hst => ?_
  · rintro s rfl i
    simp [eventsOf]
  · cases hst with
    | owner hst => exact h.owner hst
    | submission hst => exact h.submission hst
    | loss hst => exact h.loss hst

theorem Relayed.log_isPrefix (h : s.Relayed) (i : ℕ) : (s.relays i).log <+: s.told i := by
  by_cases hi : s.phase.target = some i
  · exact ⟨_, (h.current i hi).2⟩
  · exact (List.prefix_append _ _).trans (h.earlier i hi)

/-- What a submission publishes is what the owner has taken from the stream for it, in order, where
    some may be missing, with a failure at the end that is one of the forwarding itself. -/
theorem submission_publishes {taskId contextId instanceId : Text}
    (h : (execution β true taskId contextId instanceId).Reachable s) (i : ℕ) :
    ReadOf (s.told i) (s.eventsOf i) := by
  have hread := allRead_of_reachable h i
  have hread : ReadOf (s.relays i).log (s.eventsOf i) := by
    cases hi : s.submissions i with
    | none =>
      rw [hi] at hread
      exact Reads.readOf (p := .submitted) hread
    | some u =>
      rw [hi] at hread
      exact hread.readOf
  obtain ⟨start, failure, msgs, hstart, hmsgs, hfailure, hevents⟩ := hread
  exact ⟨start, failure, msgs, hstart,
    hmsgs.trans (List.IsPrefix.sublist ((relayed_of_reachable h).log_isPrefix i)), hfailure, hevents⟩

theorem submission_publishes_relayed : ∃ s : Execution Unit,
    s.eventsOf 0 = [.startWork, .artifact (text "answer") (text "done") none] ∧
      ReadOf (s.told 0) (s.eventsOf 0) := by
  have h : (execution Unit true [] [] []).Reachable
    { taskId := [], contextId := [], instanceId := [] } := .init rfl
  have h := reachable_owner h
    (.yield rfl rfl (show Execution.advance _ (ask "1") = some _ from rfl))
  have h := reachable_owner h (.save rfl)
  have h := reachable_submission (i := 0) h
    (.submit (u := ⟨[], text "1", text "yes", .submitted⟩) rfl (by decide))
  have h := reachable_submission (i := 0) h (.startWork rfl rfl rfl ⟨rfl, rfl⟩)
  have h := reachable_submission (i := 0) h (.claim rfl rfl rfl ⟨rfl, rfl⟩)
  have h := reachable_submission (i := 0) h (@SubmissionStep.send _ _ _ _ _ true rfl rfl)
  have h := reachable_owner h (.receive rfl rfl)
  have h := reachable_owner h (@OwnerStep.delete _ _ _ _ true rfl (by decide))
  have h := reachable_owner h (.put rfl rfl)
  have h := reachable_owner h (.receiveFeedback rfl rfl rfl)
  have h := reachable_owner h (.yield rfl rfl
    (show Execution.advance _ { answer := some (text "done") } = some _ from rfl))
  have h := reachable_owner h (.publish rfl)
  have h := reachable_submission (i := 0) h
    (@SubmissionStep.relay _ _ _ _ _ 0 _ rfl rfl (by decide) (by decide) rfl)
  exact ⟨_, rfl, submission_publishes h 0⟩

end Execution

end Hyperforge.A2a
