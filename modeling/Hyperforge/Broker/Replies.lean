import Hyperforge.Library.Transition
import Mathlib.Logic.Function.Basic

/-!
# Replies of the local broker

Replies are sent and received under keys. Each key has a channel, a queue for one reply, which is
created by whoever comes first, and removed by every receiver that leaves, with or without a reply.

* `notLost_clean`: no reply is lost, and no receiver waits on a channel that is not used any more,
  as long as every channel that is removed is not in use by others.
-/

namespace Hyperforge.Broker

open Transition

variable {K P : Type}

/-- How far `send_reply` has come: it waits for its queue to have room, or has completed. -/
inductive SendPhase
  | blocked
  | completed
deriving DecidableEq

structure Sender (K P : Type) where
  key : K
  payload : P
  queue : ℕ
  phase : SendPhase

/-- How far `receive_reply` has come. -/
inductive ReceivePhase
  | waiting
  /-- Its time is up, or it has been cancelled, but it has not left yet. -/
  | expiring
  /-- It has returned the payload of a sender. -/
  | returned (sender : ℕ)
  | left
deriving DecidableEq

structure Receiver (K : Type) where
  key : K
  queue : ℕ
  phase : ReceivePhase

structure Replies (K P : Type) where
  /-- The queues that are found under their keys. -/
  channels : K → Option ℕ
  /-- The queues, each with the sender of the payload that is in it. -/
  queues : ℕ → Option ℕ
  created : ℕ
  senders : ℕ → Option (Sender K P)
  receivers : ℕ → Option (Receiver K)

namespace Replies

def initial : Replies K P where
  channels _ := none
  queues _ := none
  created := 0
  senders _ := none
  receivers _ := none

section Steps

variable [DecidableEq K] (s : Replies K P)

/-- The queue of a key, which is created if there is none. -/
def openChannel (k : K) : Replies K P × ℕ :=
  match s.channels k with
  | some q => (s, q)
  | none =>
    ({ s with
        channels := Function.update s.channels k (some s.created)
        queues := Function.update s.queues s.created none
        created := s.created + 1 }, s.created)

def setSender (i : ℕ) (u : Sender K P) : Replies K P :=
  { s with senders := Function.update s.senders i (some u) }

def setReceiver (r : ℕ) (v : Receiver K) : Replies K P :=
  { s with receivers := Function.update s.receivers r (some v) }

/-- A sender puts its payload into its queue. -/
def put (i : ℕ) (u : Sender K P) : Replies K P :=
  { s with
    queues := Function.update s.queues u.queue (some i)
    senders := Function.update s.senders i (some { u with phase := .completed }) }

/-- A receiver leaves, and removes the channel of its key. -/
def leave (r : ℕ) (v : Receiver K) (phase : ReceivePhase) : Replies K P :=
  { s with
    channels := Function.update s.channels v.key none
    receivers := Function.update s.receivers r (some { v with phase := phase }) }

/-- A receiver takes a payload out of its queue, and leaves with it. -/
def take (r : ℕ) (v : Receiver K) (i : ℕ) : Replies K P :=
  { s.leave r v (.returned i) with queues := Function.update s.queues v.queue none }

/-- `send_reply`, until it has to wait. -/
def sendReply (i : ℕ) (k : K) (payload : P) : Replies K P :=
  let (s, q) := s.openChannel k
  match s.queues q with
  | none => s.put i ⟨k, payload, q, .blocked⟩
  | some _ => s.setSender i ⟨k, payload, q, .blocked⟩

/-- `receive_reply`, until it has to wait. Without time it gives up at once. -/
def receiveReply (r : ℕ) (k : K) (positive : Bool) : Replies K P :=
  let (s, q) := s.openChannel k
  if positive then
    match s.queues q with
    | some i => s.take r ⟨k, q, .waiting⟩ i
    | none => s.setReceiver r ⟨k, q, .waiting⟩
  else s.setReceiver r ⟨k, q, .expiring⟩

end Steps

inductive Label (K P : Type)
  | send (i : ℕ) (k : K) (payload : P)
  /-- A sender that is blocked goes on. -/
  | resume (i : ℕ)
  | receive (r : ℕ) (k : K) (positive : Bool)
  /-- A receiver that waits goes on. -/
  | get (r : ℕ)
  /-- The time of a receiver that waits is up, or it is cancelled. -/
  | expire (r : ℕ)
  /-- A receiver leaves without a payload. -/
  | leave (r : ℕ)

def step [DecidableEq K] (s : Replies K P) : Label K P → Option (Replies K P)
  | .send i k payload => if (s.senders i).isNone then some (s.sendReply i k payload) else none
  | .resume i => (s.senders i).bind fun u =>
    if u.phase = .blocked ∧ (s.queues u.queue).isNone then some (s.put i u) else none
  | .receive r k positive =>
    if (s.receivers r).isNone then some (s.receiveReply r k positive) else none
  | .get r => (s.receivers r).bind fun v =>
    if v.phase = .waiting then (s.queues v.queue).map (s.take r v) else none
  | .expire r => (s.receivers r).bind fun v =>
    if v.phase = .waiting then some (s.setReceiver r { v with phase := .expiring }) else none
  | .leave r => (s.receivers r).bind fun v =>
    if v.phase = .expiring then some (s.leave r v .left) else none

def system (K P : Type) [DecidableEq K] : System (Replies K P) (Label K P) :=
  .ofStep initial step

/-! ## Replies that are not lost -/

section Properties

variable (s t : Replies K P)

def Returned (r i : ℕ) : Prop := ∃ v, s.receivers r = some v ∧ v.phase = .returned i

def Waiting (r : ℕ) (v : Receiver K) : Prop := s.receivers r = some v ∧ v.phase = .waiting

def Blocked (i : ℕ) (u : Sender K P) : Prop := s.senders i = some u ∧ u.phase = .blocked

/-- The sender has completed, but its payload has not been returned. -/
def Undelivered (i : ℕ) (u : Sender K P) : Prop :=
  s.senders i = some u ∧ u.phase = .completed ∧ ∀ r, ¬ s.Returned r i

/-- From `s` to `t`, no receiver of the key has returned a payload. -/
def NoneReturned (k : K) : Prop :=
  ∀ r v i, t.receivers r = some v → v.key = k → v.phase = .returned i → s.receivers r = some v

/-- From `s` to `t`, no receiver of the key has left without a payload, and none that has started
    waits for one. -/
structure Answers (k : K) : Prop where
  left : ∀ r v, t.receivers r = some v → v.key = k → v.phase = .left → s.receivers r = some v
  waiting : ∀ r v, t.Waiting r v → v.key = k → s.Waiting r v

end Properties

/-- A receiver of the key that waits can return a payload, and one that starts does so at once. -/
structure Offers [DecidableEq K] (s : Replies K P) (k : K) : Prop where
  get : ∀ r v, s.Waiting r v → v.key = k → ∃ t i, s.step (.get r) = some t ∧ t.Returned r i
  receive : ∀ r, s.receivers r = none →
    ∃ t i, s.step (.receive r k true) = some t ∧ t.Returned r i

/-- No reply is lost in the runs of a system. -/
structure NotLost [DecidableEq K] (S : System (Replies K P) (Label K P)) : Prop where
  /-- A payload is returned by one receiver at most. -/
  once : ∀ s, S.Reachable s → ∀ r r' i, s.Returned r i → s.Returned r' i → r = r'
  /-- A receiver waits on the channel that senders use. -/
  registered : ∀ s, S.Reachable s → ∀ r v, s.Waiting r v → s.channels v.key = some v.queue
  /-- Where a payload has not been returned, a receiver that waits then, or else the next one that
      starts, can return a payload. -/
  offers : ∀ s, S.Reachable s → ∀ i u, s.Undelivered i u → s.Offers u.key
  /-- It does so instead of leaving without one: until a payload is returned, no receiver leaves,
      and none starts to wait. -/
  answers : ∀ s ls t, S.Reachable s → S.Run s ls t → ∀ i u, s.Undelivered i u →
    s.NoneReturned t u.key → s.Answers t u.key

/-- No other receiver waits for a reply to the key, and no sender waits to send one. -/
structure Unused (s : Replies K P) (r : ℕ) (k : K) : Prop where
  senders : ∀ i u, s.Blocked i u → u.key ≠ k
  receivers : ∀ r' v, r' ≠ r → s.Waiting r' v → v.key ≠ k

/-- If a receiver leaves, the channel that it removes is not used by others, and is left empty. -/
def Clean (s : Replies K P) : Label K P → Prop
  | .receive r k positive => positive → ((s.channels k).bind s.queues).isSome → s.Unused r k
  | .get r => ∀ v, s.receivers r = some v → s.Unused r v.key
  | .leave r => ∀ v, s.receivers r = some v →
    s.Unused r v.key ∧ (s.channels v.key).bind s.queues = none
  | _ => True

/-- The runs in which all steps are clean. -/
def cleanSystem (K P : Type) [DecidableEq K] : System (Replies K P) (Label K P) where
  init := (system K P).init
  step s l t := (system K P).step s l t ∧ s.Clean l

/-! ## What holds in every run -/

variable {s t : Replies K P} {r r' i j q : ℕ} {k : K} {u : Sender K P} {v : Receiver K}

theorem update_some_eq_some {ι α : Type} [DecidableEq ι] {f : ι → Option α} {a b : ι} {x y : α} :
    Function.update f a (some x) b = some y ↔ b = a ∧ x = y ∨ b ≠ a ∧ f b = some y := by
  by_cases hab : b = a
  · rw [hab, Function.update_self, Option.some.injEq]
    simp
  · rw [Function.update_of_ne hab]
    simp [hab]

theorem update_none_eq_some {ι α : Type} [DecidableEq ι] {f : ι → Option α} {a b : ι} {y : α} :
    Function.update f a none b = some y ↔ b ≠ a ∧ f b = some y := by
  by_cases hab : b = a
  · rw [hab, Function.update_self]
    simp
  · rw [Function.update_of_ne hab]
    simp [hab]

/-- The payloads that are in queues have not been returned, and each is returned once. -/
structure Sound (s : Replies K P) : Prop where
  held : ∀ q i, s.queues q = some i →
    ∃ u, s.senders i = some u ∧ u.phase = .completed ∧ u.queue = q ∧ ∀ r, ¬ s.Returned r i
  completed : ∀ r i, s.Returned r i → ∃ u, s.senders i = some u ∧ u.phase = .completed
  once : ∀ r r' i, s.Returned r i → s.Returned r' i → r = r'

/-- A sender starts, or goes on. -/
def Incomplete (s : Replies K P) (i : ℕ) : Prop :=
  ∀ u, s.senders i = some u → u.phase = .blocked

theorem returned_iff_of_update (h : t.receivers = Function.update s.receivers r (some v)) :
    t.Returned r' i ↔ if r' = r then v.phase = .returned i else s.Returned r' i := by
  rw [Returned, h]
  by_cases heq : r' = r
  · rw [if_pos heq, heq, Function.update_self]
    exact ⟨fun ⟨_, hv, hi⟩ => by cases hv; exact hi, fun hi => ⟨v, rfl, hi⟩⟩
  · rw [if_neg heq, Function.update_of_ne heq]
    rfl

/-- Steps that put no payload into a queue and return none. -/
theorem Sound.mono (h : s.Sound) (hqueues : ∀ q i, t.queues q = some i → s.queues q = some i)
    (hsenders : ∀ i u, s.senders i = some u → u.phase = .completed → t.senders i = some u)
    (hreturned : ∀ r i, t.Returned r i → s.Returned r i) : t.Sound where
  held q i hq := by
    obtain ⟨u, hu, hphase, hqueue, hnot⟩ := h.held q i (hqueues q i hq)
    exact ⟨u, hsenders i u hu hphase, hphase, hqueue, fun r hr => hnot r (hreturned r i hr)⟩
  completed r i hr := by
    obtain ⟨u, hu, hphase⟩ := h.completed r i (hreturned r i hr)
    exact ⟨u, hsenders i u hu hphase, hphase⟩
  once r r' i hr hr' := h.once r r' i (hreturned r i hr) (hreturned r' i hr')

theorem Sound.setSender (h : s.Sound) (hi : s.Incomplete i) : (s.setSender i u).Sound := by
  refine h.mono (fun _ _ hq => hq) (fun j w hw hphase => ?_) fun _ _ hr => hr
  have hne : j ≠ i := by
    rintro rfl
    rw [hi w hw] at hphase
    cases hphase
  exact (Function.update_of_ne hne _ _).trans hw

theorem Sound.setReceiver (h : s.Sound) (hv : ∀ i, v.phase ≠ .returned i) :
    (s.setReceiver r v).Sound := by
  refine h.mono (fun _ _ hq => hq) (fun _ _ hw _ => hw) fun r' i hr => ?_
  rw [returned_iff_of_update rfl] at hr
  split_ifs at hr
  · exact absurd hr (hv i)
  · exact hr

/-- A payload that is put into a queue is new there. -/
theorem Sound.put (h : s.Sound) (hi : s.Incomplete i) : (s.put i u).Sound := by
  have hne : ∀ j w, s.senders j = some w → w.phase = .completed → j ≠ i := by
    rintro j w hw hphase rfl
    rw [hi w hw] at hphase
    cases hphase
  have hsenders : ∀ j w, s.senders j = some w → w.phase = .completed →
      (s.put i u).senders j = some w := fun j w hw hphase =>
    (Function.update_of_ne (hne j w hw hphase) _ _).trans hw
  refine ⟨fun q j hq => ?_, fun r j hr => ?_, h.once⟩
  · by_cases hqueue : q = u.queue
    · change Function.update s.queues u.queue (some i) q = some j at hq
      rw [hqueue, Function.update_self] at hq
      obtain rfl := Option.some.inj hq
      rw [hqueue]
      refine ⟨_, Function.update_self .., rfl, rfl, fun r hr => ?_⟩
      obtain ⟨w, hw, hphase⟩ := h.completed r i hr
      exact hne i w hw hphase rfl
    · obtain ⟨w, hw, hphase, hwq, hnot⟩ :=
        h.held q j ((Function.update_of_ne hqueue _ _).symm.trans hq)
      exact ⟨w, hsenders j w hw hphase, hphase, hwq, hnot⟩
  · obtain ⟨w, hw, hphase⟩ := h.completed r j hr
    exact ⟨w, hsenders j w hw hphase, hphase⟩

section Steps

variable [DecidableEq K]

theorem Sound.openChannel (h : s.Sound) (k : K) : (s.openChannel k).1.Sound := by
  rw [Replies.openChannel]
  split
  · exact h
  · refine h.mono (fun q i hq => ?_) (fun _ _ hw _ => hw) fun _ _ hr => hr
    by_cases hqueue : q = s.created
    · rw [hqueue] at hq
      cases (Function.update_self ..).symm.trans hq
    · exact (Function.update_of_ne hqueue _ _).symm.trans hq

theorem Sound.leave (h : s.Sound) : (s.leave r v .left).Sound := by
  refine h.mono (fun _ _ hq => hq) (fun _ _ hw _ => hw) fun r' i hr => ?_
  rw [returned_iff_of_update rfl] at hr
  split_ifs at hr
  exact hr

/-- A payload that is taken out of a queue is not in any other. -/
theorem Sound.take (h : s.Sound) (hi : s.queues v.queue = some i) : (s.take r v i).Sound := by
  obtain ⟨u, hu, hphase, hqueue, hnot⟩ := h.held _ _ hi
  have hreturned : ∀ r' j, (s.take r v i).Returned r' j ↔
      if r' = r then ReceivePhase.returned i = .returned j else s.Returned r' j :=
    fun r' j => returned_iff_of_update (v := { v with phase := .returned i }) rfl
  refine ⟨fun q j hq => ?_, fun r' j hr => ?_, fun r₁ r₂ j h₁ h₂ => ?_⟩
  · have hne : q ≠ v.queue := by
      rintro rfl
      cases (Function.update_self ..).symm.trans hq
    obtain ⟨w, hw, hwphase, hwq, hwnot⟩ :=
      h.held q j ((Function.update_of_ne hne _ _).symm.trans hq)
    refine ⟨w, hw, hwphase, hwq, fun r' hr => ?_⟩
    rw [hreturned] at hr
    split_ifs at hr
    · cases hr
      rw [hu] at hw
      cases hw
      exact hne (hwq.symm.trans hqueue)
    · exact hwnot r' hr
  · rw [hreturned] at hr
    split_ifs at hr
    · cases hr
      exact ⟨u, hu, hphase⟩
    · exact h.completed r' j hr
  · rw [hreturned] at h₁ h₂
    split_ifs at h₁ h₂ with heq₁ heq₂ heq₂
    · rw [heq₁, heq₂]
    · cases h₁
      exact absurd h₂ (hnot r₂)
    · cases h₂
      exact absurd h₁ (hnot r₁)
    · exact h.once r₁ r₂ j h₁ h₂

omit [DecidableEq K] in
theorem sound_initial : (initial : Replies K P).Sound where
  held _ _ h := by cases h
  completed _ _ := by
    rintro ⟨_, h, _⟩
    cases h
  once _ _ _ := by
    rintro ⟨_, h, _⟩
    cases h

/-! ## What a step does -/

/-- What the calls do: they open the channel of their key, and go on as far as they can. -/
def Effect (s : Replies K P) (t : Replies K P) : Label K P → Prop
  | .send i k payload => s.senders i = none ∧
    ((s.openChannel k).1.queues (s.openChannel k).2 = none ∧
        t = (s.openChannel k).1.put i ⟨k, payload, (s.openChannel k).2, .blocked⟩ ∨
      t = (s.openChannel k).1.setSender i ⟨k, payload, (s.openChannel k).2, .blocked⟩)
  | .resume i => ∃ u, s.Blocked i u ∧ s.queues u.queue = none ∧ t = s.put i u
  | .receive r k positive => s.receivers r = none ∧
    ((∃ i, positive ∧ (s.openChannel k).1.queues (s.openChannel k).2 = some i ∧
        t = (s.openChannel k).1.take r ⟨k, (s.openChannel k).2, .waiting⟩ i) ∨
      (s.openChannel k).1.queues (s.openChannel k).2 = none ∧
        t = (s.openChannel k).1.setReceiver r ⟨k, (s.openChannel k).2, .waiting⟩ ∨
      t = (s.openChannel k).1.setReceiver r ⟨k, (s.openChannel k).2, .expiring⟩)
  | .get r => ∃ v i, s.Waiting r v ∧ s.queues v.queue = some i ∧ t = s.take r v i
  | .expire r => ∃ v, s.Waiting r v ∧ t = s.setReceiver r { v with phase := .expiring }
  | .leave r => ∃ v, s.receivers r = some v ∧ v.phase = .expiring ∧ t = s.leave r v .left

theorem effect_of_step {l : Label K P} (h : s.step l = some t) : s.Effect t l := by
  cases l with
  | send i k payload =>
    rw [step] at h
    split_ifs at h with hnone
    refine ⟨Option.isNone_iff_eq_none.1 hnone, ?_⟩
    obtain rfl := Option.some.inj h
    rw [sendReply]
    rcases hq : (s.openChannel k).1.queues (s.openChannel k).2 with _ | j
    · exact .inl ⟨rfl, by dsimp only; rw [hq]⟩
    · exact .inr (by dsimp only; rw [hq])
  | resume i =>
    obtain ⟨u, hu, h⟩ := Option.bind_eq_some_iff.1 h
    split_ifs at h with hphase
    exact ⟨u, ⟨hu, hphase.1⟩, Option.isNone_iff_eq_none.1 hphase.2, (Option.some.inj h).symm⟩
  | receive r k positive =>
    rw [step] at h
    split_ifs at h with hnone
    refine ⟨Option.isNone_iff_eq_none.1 hnone, ?_⟩
    obtain rfl := Option.some.inj h
    rw [receiveReply]
    dsimp only
    split_ifs with hpositive
    · rcases hq : (s.openChannel k).1.queues (s.openChannel k).2 with _ | j
      · exact .inr (.inl ⟨rfl, rfl⟩)
      · exact .inl ⟨j, hpositive, rfl, rfl⟩
    · exact .inr (.inr rfl)
  | get r =>
    obtain ⟨v, hv, h⟩ := Option.bind_eq_some_iff.1 h
    split_ifs at h with hphase
    obtain ⟨i, hi, h⟩ := Option.map_eq_some_iff.1 h
    exact ⟨v, i, ⟨hv, hphase⟩, hi, h.symm⟩
  | expire r =>
    obtain ⟨v, hv, h⟩ := Option.bind_eq_some_iff.1 h
    split_ifs at h with hphase
    exact ⟨v, ⟨hv, hphase⟩, (Option.some.inj h).symm⟩
  | leave r =>
    obtain ⟨v, hv, h⟩ := Option.bind_eq_some_iff.1 h
    split_ifs at h with hphase
    exact ⟨v, hv, hphase, (Option.some.inj h).symm⟩

/-- Opening a channel changes nothing else. -/
theorem openChannel_spec (s : Replies K P) (k : K) :
    (s.openChannel k).1.channels k = some (s.openChannel k).2 ∧
      (s.openChannel k).1.senders = s.senders ∧ (s.openChannel k).1.receivers = s.receivers ∧
      (s.openChannel k).1.queues (s.openChannel k).2 = (s.channels k).bind s.queues := by
  rw [openChannel]
  split
  next q hq => exact ⟨hq, rfl, rfl, by rw [hq]; rfl⟩
  next hq =>
    exact ⟨Function.update_self .., rfl, rfl, (Function.update_self ..).trans (by rw [hq]; rfl)⟩

omit [DecidableEq K] in
theorem Blocked.incomplete (h : s.Blocked i u) : s.Incomplete i := by
  intro w hw
  cases h.1.symm.trans hw
  exact h.2

omit [DecidableEq K] in
theorem incomplete_of_none (h : s.senders i = none) : s.Incomplete i := by
  intro w hw
  rw [h] at hw
  cases hw

theorem Sound.step {l : Label K P} (h : s.Sound) (hst : s.step l = some t) : t.Sound := by
  have heffect := effect_of_step hst
  cases l with
  | send i k payload =>
    obtain ⟨hnone, ⟨-, rfl⟩ | rfl⟩ := heffect
    · refine (h.openChannel k).put (incomplete_of_none ?_)
      rw [(s.openChannel_spec k).2.1, hnone]
    · refine (h.openChannel k).setSender (incomplete_of_none ?_)
      rw [(s.openChannel_spec k).2.1, hnone]
  | resume i =>
    obtain ⟨u, hu, -, rfl⟩ := heffect
    exact h.put hu.incomplete
  | receive r k positive =>
    obtain ⟨-, ⟨i, -, hi, rfl⟩ | ⟨-, rfl⟩ | rfl⟩ := heffect
    · exact (h.openChannel k).take hi
    · exact (h.openChannel k).setReceiver fun i hi => by cases hi
    · exact (h.openChannel k).setReceiver fun i hi => by cases hi
  | get r =>
    obtain ⟨v, i, -, hi, rfl⟩ := heffect
    exact h.take hi
  | expire r =>
    obtain ⟨v, -, rfl⟩ := heffect
    exact h.setReceiver fun i hi => by cases hi
  | leave r =>
    obtain ⟨v, -, -, rfl⟩ := heffect
    exact h.leave

/-- In every run, a payload is returned by one receiver at most. -/
theorem sound_of_reachable (h : (system K P).Reachable s) : s.Sound :=
  h.invariant (fun _ hs => hs ▸ sound_initial) fun _ _ _ _ hs hst => hs.step hst

/-! ## Clean runs -/

/-- Calls that are not finished have the channel of their key, and so do payloads that have not been
    returned. -/
structure Kept (s : Replies K P) : Prop extends Sound s where
  created : ∀ k q, s.channels k = some q → q < s.created
  distinct : ∀ k k' q, s.channels k = some q → s.channels k' = some q → k = k'
  blocked : ∀ i u, s.Blocked i u → s.channels u.key = some u.queue
  waiting : ∀ r v, s.Waiting r v → s.channels v.key = some v.queue
  stored : ∀ i u, s.Undelivered i u →
    s.channels u.key = some u.queue ∧ s.queues u.queue = some i
  sameKey : ∀ r v i u, s.receivers r = some v → v.phase = .returned i → s.senders i = some u →
    u.key = v.key

omit [DecidableEq K] in
theorem kept_initial : (initial : Replies K P).Kept where
  toSound := sound_initial
  created _ _ h := by cases h
  distinct _ _ _ h := by cases h
  blocked _ _ h := by cases h.1
  waiting _ _ h := by cases h.1
  stored _ _ h := by cases h.1
  sameKey _ _ _ _ h := by cases h

theorem Kept.openChannel (h : s.Kept) (k : K) : (s.openChannel k).1.Kept := by
  have hsound := h.toSound.openChannel k
  rw [Replies.openChannel] at hsound ⊢
  split
  · exact h
  next hk =>
    -- The channels that are there are older than the new one, and of other keys.
    have hkeep : ∀ k' q, s.channels k' = some q →
        Function.update s.channels k (some s.created) k' = some q := by
      intro k' q hq
      refine update_some_eq_some.2 (.inr ⟨?_, hq⟩)
      rintro rfl
      rw [hk] at hq
      cases hq
    rw [hk] at hsound
    refine ⟨hsound, fun k' q hq => ?_, fun k₁ k₂ q h₁ h₂ => ?_,
      fun i u hu => hkeep _ _ (h.blocked i u hu), fun r v hv => hkeep _ _ (h.waiting r v hv),
      fun i u hu => ?_, h.sameKey⟩
    · rcases update_some_eq_some.1 hq with ⟨-, rfl⟩ | ⟨-, hq⟩
      · exact Nat.lt_succ_self _
      · exact Nat.lt_succ_of_lt (h.created k' q hq)
    · rcases update_some_eq_some.1 h₁ with ⟨hk₁, hq⟩ | ⟨-, h₁⟩ <;>
        rcases update_some_eq_some.1 h₂ with ⟨hk₂, hq'⟩ | ⟨-, h₂⟩
      · rw [hk₁, hk₂]
      · exact absurd hq (Nat.ne_of_gt (h.created _ _ h₂))
      · exact absurd hq' (Nat.ne_of_gt (h.created _ _ h₁))
      · exact h.distinct _ _ _ h₁ h₂
    · obtain ⟨hchannel, hqueue⟩ := h.stored i u hu
      exact ⟨hkeep _ _ hchannel,
        (Function.update_of_ne (Nat.ne_of_lt (h.created _ _ hchannel)) _ _).trans hqueue⟩

omit [DecidableEq K] in
/-- A sender that has to wait has opened the channel. -/
theorem Kept.setSender (h : s.Kept) (hi : s.Incomplete i) (hphase : u.phase = .blocked)
    (hu : s.channels u.key = some u.queue) : (s.setSender i u).Kept := by
  refine ⟨h.toSound.setSender hi, h.created, h.distinct, fun j w hw => ?_, h.waiting,
    fun j w hw => ?_, fun r v j w hv hreturned hw => ?_⟩
  · rcases update_some_eq_some.1 hw.1 with ⟨rfl, rfl⟩ | ⟨-, hw'⟩
    · exact hu
    · exact h.blocked j w ⟨hw', hw.2⟩
  · rcases update_some_eq_some.1 hw.1 with ⟨rfl, rfl⟩ | ⟨-, hw'⟩
    · cases hphase.symm.trans hw.2.1
    · exact h.stored j w ⟨hw', hw.2⟩
  · rcases update_some_eq_some.1 hw with ⟨rfl, rfl⟩ | ⟨-, hw'⟩
    · obtain ⟨w', hw', hcompleted⟩ := h.completed r j ⟨v, hv, hreturned⟩
      cases (hi w' hw').symm.trans hcompleted
    · exact h.sameKey r v j w hv hreturned hw'

omit [DecidableEq K] in
/-- A payload goes into the channel of its key. -/
theorem Kept.put (h : s.Kept) (hi : s.Incomplete i) (hu : s.channels u.key = some u.queue)
    (hempty : s.queues u.queue = none) : (s.put i u).Kept := by
  refine ⟨h.toSound.put hi, h.created, h.distinct, fun j w hw => ?_, h.waiting,
    fun j w hw => ?_, fun r v j w hv hreturned hw => ?_⟩
  · rcases update_some_eq_some.1 hw.1 with ⟨rfl, rfl⟩ | ⟨-, hw'⟩
    · cases hw.2
    · exact h.blocked j w ⟨hw', hw.2⟩
  · rcases update_some_eq_some.1 hw.1 with ⟨rfl, rfl⟩ | ⟨-, hw'⟩
    · exact ⟨hu, update_some_eq_some.2 (.inl ⟨rfl, rfl⟩)⟩
    · obtain ⟨hchannel, hqueue⟩ := h.stored j w ⟨hw', hw.2⟩
      refine ⟨hchannel, update_some_eq_some.2 (.inr ⟨fun heq => ?_, hqueue⟩)⟩
      rw [heq, hempty] at hqueue
      cases hqueue
  · rcases update_some_eq_some.1 hw with ⟨rfl, rfl⟩ | ⟨-, hw'⟩
    · obtain ⟨w', hw', hcompleted⟩ := h.completed r j ⟨v, hv, hreturned⟩
      cases (hi w' hw').symm.trans hcompleted
    · exact h.sameKey r v j w hv hreturned hw'

/-- The receiver has not returned a payload. -/
def Unanswered (s : Replies K P) (r : ℕ) : Prop := ∀ i, ¬ s.Returned r i

omit [DecidableEq K] in
/-- What is undelivered after a receiver has come to another phase. -/
theorem undelivered_of_update (hr : s.Unanswered r)
    (hreceivers : t.receivers = Function.update s.receivers r (some v))
    (hsenders : t.senders = s.senders) (h : t.Undelivered i u) :
    s.Undelivered i u ∧ v.phase ≠ .returned i := by
  obtain ⟨hu, hphase, hnot⟩ := h
  refine ⟨⟨hsenders ▸ hu, hphase, fun r' hr' => hnot r' ?_⟩, fun hi => hnot r ?_⟩
  · rw [returned_iff_of_update hreceivers, if_neg]
    · exact hr'
    · rintro rfl
      exact hr i hr'
  · rw [returned_iff_of_update hreceivers, if_pos rfl]
    exact hi

omit [DecidableEq K] in
/-- A receiver that waits has opened the channel. -/
theorem Kept.setReceiver (h : s.Kept) (hr : s.Unanswered r) (hv : ∀ i, v.phase ≠ .returned i)
    (hchannel : v.phase = .waiting → s.channels v.key = some v.queue) :
    (s.setReceiver r v).Kept := by
  refine ⟨h.toSound.setReceiver hv, h.created, h.distinct, h.blocked, fun r' w hw => ?_,
    fun i u hu => ?_, fun r' w i u hw hreturned hu => ?_⟩
  · rcases update_some_eq_some.1 hw.1 with ⟨rfl, rfl⟩ | ⟨-, hw'⟩
    · exact hchannel hw.2
    · exact h.waiting r' w ⟨hw', hw.2⟩
  · exact h.stored i u (undelivered_of_update (t := s.setReceiver r v) hr rfl rfl hu).1
  · rcases update_some_eq_some.1 hw with ⟨rfl, rfl⟩ | ⟨-, hw'⟩
    · exact absurd hreturned (hv i)
    · exact h.sameKey r' w i u hw' hreturned hu

/-- A receiver leaves with the payload that is in the channel of its key, which is not used by
    others. -/
theorem Kept.take (h : s.Kept) (hr : s.Unanswered r) (hchannel : s.channels v.key = some v.queue)
    (hi : s.queues v.queue = some i) (hunused : s.Unused r v.key) : (s.take r v i).Kept := by
  obtain ⟨u, hu, hphase, hqueue, hnot⟩ := h.held _ _ hi
  have hkey : u.key = v.key := by
    refine h.distinct _ _ _ ((h.stored i u ⟨hu, hphase, hnot⟩).1) ?_
    rw [hqueue, hchannel]
  refine ⟨h.toSound.take hi, fun k q hq => ?_, fun k₁ k₂ q h₁ h₂ => ?_, fun j w hw => ?_,
    fun r' w hw => ?_, fun j w hw => ?_, fun r' w j x hw hreturned hx => ?_⟩
  · exact h.created k q (update_none_eq_some.1 hq).2
  · exact h.distinct _ _ _ (update_none_eq_some.1 h₁).2 (update_none_eq_some.1 h₂).2
  · exact update_none_eq_some.2 ⟨hunused.senders j w hw, h.blocked j w hw⟩
  · rcases update_some_eq_some.1 hw.1 with ⟨rfl, rfl⟩ | ⟨hne, hw'⟩
    · cases hw.2
    · exact update_none_eq_some.2
        ⟨hunused.receivers r' w hne ⟨hw', hw.2⟩, h.waiting r' w ⟨hw', hw.2⟩⟩
  · obtain ⟨hold, hij⟩ := undelivered_of_update (t := s.take r v i) hr rfl rfl hw
    obtain ⟨hchannel', hqueue'⟩ := h.stored j w hold
    -- The queue of another payload is another queue.
    have hne : w.queue ≠ v.queue := by
      intro heq
      rw [heq, hi] at hqueue'
      cases hqueue'
      exact hij rfl
    refine ⟨update_none_eq_some.2 ⟨fun heq => hne ?_, hchannel'⟩,
      update_none_eq_some.2 ⟨hne, hqueue'⟩⟩
    rw [heq, hchannel] at hchannel'
    exact (Option.some.inj hchannel').symm
  · rcases update_some_eq_some.1 hw with ⟨rfl, rfl⟩ | ⟨-, hw'⟩
    · cases hreturned
      cases hu.symm.trans hx
      exact hkey
    · exact h.sameKey r' w j x hw' hreturned hx

/-- A receiver leaves without a payload, and there is none in the channel of its key, which is not
    used by others. -/
theorem Kept.leave (h : s.Kept) (hr : s.Unanswered r) (hunused : s.Unused r v.key)
    (hempty : (s.channels v.key).bind s.queues = none) : (s.leave r v .left).Kept := by
  refine ⟨h.toSound.leave, fun k q hq => ?_, fun k₁ k₂ q h₁ h₂ => ?_, fun j w hw => ?_,
    fun r' w hw => ?_, fun j w hw => ?_, fun r' w j x hw hreturned hx => ?_⟩
  · exact h.created k q (update_none_eq_some.1 hq).2
  · exact h.distinct _ _ _ (update_none_eq_some.1 h₁).2 (update_none_eq_some.1 h₂).2
  · exact update_none_eq_some.2 ⟨hunused.senders j w hw, h.blocked j w hw⟩
  · rcases update_some_eq_some.1 hw.1 with ⟨rfl, rfl⟩ | ⟨hne, hw'⟩
    · cases hw.2
    · exact update_none_eq_some.2
        ⟨hunused.receivers r' w hne ⟨hw', hw.2⟩, h.waiting r' w ⟨hw', hw.2⟩⟩
  · obtain ⟨hold, -⟩ := undelivered_of_update (t := s.leave r v .left) hr rfl rfl hw
    obtain ⟨hchannel', hqueue'⟩ := h.stored j w hold
    refine ⟨update_none_eq_some.2 ⟨fun heq => ?_, hchannel'⟩, hqueue'⟩
    rw [← heq, hchannel', Option.bind_some, hqueue'] at hempty
    cases hempty
  · rcases update_some_eq_some.1 hw with ⟨rfl, rfl⟩ | ⟨-, hw'⟩
    · cases hreturned
    · exact h.sameKey r' w j x hw' hreturned hx

omit [DecidableEq K] in
theorem unanswered_of_none (h : s.receivers r = none) : s.Unanswered r := by
  rintro i ⟨v, hv, -⟩
  rw [h] at hv
  cases hv

omit [DecidableEq K] in
theorem unanswered_of_phase (h : s.receivers r = some v) (hv : ∀ i, v.phase ≠ .returned i) :
    s.Unanswered r := by
  rintro i ⟨w, hw, hi⟩
  cases h.symm.trans hw
  exact hv i hi

omit [DecidableEq K] in
theorem Waiting.unanswered (h : s.Waiting r v) : s.Unanswered r := by
  refine unanswered_of_phase h.1 fun i hi => ?_
  rw [h.2] at hi
  cases hi

theorem Unused.openChannel (h : s.Unused r k) (k' : K) : (s.openChannel k').1.Unused r k := by
  obtain ⟨-, hsenders, hreceivers, -⟩ := s.openChannel_spec k'
  refine ⟨fun i u hu => h.senders i u ?_, fun r' v hne hv => h.receivers r' v hne ?_⟩
  · rwa [Blocked, hsenders] at hu
  · rwa [Waiting, hreceivers] at hv

theorem Kept.step {l : Label K P} (h : s.Kept) (hst : s.step l = some t) (hclean : s.Clean l) :
    t.Kept := by
  have heffect := effect_of_step hst
  cases l with
  | send i k payload =>
    obtain ⟨hchannel, hsenders, -, -⟩ := s.openChannel_spec k
    obtain ⟨hnone, heffect⟩ := heffect
    have hi : (s.openChannel k).1.Incomplete i := incomplete_of_none (by rw [hsenders, hnone])
    rcases heffect with ⟨hempty, rfl⟩ | rfl
    · exact (h.openChannel k).put hi hchannel hempty
    · exact (h.openChannel k).setSender hi rfl hchannel
  | resume i =>
    obtain ⟨u, hu, hempty, rfl⟩ := heffect
    exact h.put hu.incomplete (h.blocked i u hu) hempty
  | receive r k positive =>
    obtain ⟨hchannel, -, hreceivers, hqueues⟩ := s.openChannel_spec k
    obtain ⟨hnone, heffect⟩ := heffect
    have hr : (s.openChannel k).1.Unanswered r := unanswered_of_none (by rw [hreceivers, hnone])
    rcases heffect with ⟨i, hpositive, hi, rfl⟩ | ⟨-, rfl⟩ | rfl
    · refine (h.openChannel k).take hr hchannel hi (Unused.openChannel (hclean hpositive ?_) k)
      rw [← hqueues, hi]
      rfl
    · exact (h.openChannel k).setReceiver hr (fun i hi => by cases hi) fun _ => hchannel
    · exact (h.openChannel k).setReceiver hr (fun i hi => by cases hi) fun hwaiting => by
        cases hwaiting
  | get r =>
    obtain ⟨v, i, hv, hi, rfl⟩ := heffect
    exact h.take hv.unanswered (h.waiting r v hv) hi (hclean v hv.1)
  | expire r =>
    obtain ⟨v, hv, rfl⟩ := heffect
    exact h.setReceiver hv.unanswered (fun i hi => by cases hi) fun hwaiting => by cases hwaiting
  | leave r =>
    obtain ⟨v, hv, hphase, rfl⟩ := heffect
    obtain ⟨hunused, hempty⟩ := hclean v hv
    refine h.leave (unanswered_of_phase hv fun i hi => ?_) hunused hempty
    cases hphase.symm.trans hi

theorem kept_of_reachable (h : (cleanSystem K P).Reachable s) : s.Kept :=
  h.invariant (fun _ hs => hs ▸ kept_initial) fun _ _ _ _ hs hst => hs.step hst.1 hst.2

/-! ## Payloads that are waiting for a receiver -/

/-- A receiver only starts to wait, or leaves without a payload, if there is none in the channel of
    its key. -/
theorem receiver_of_step {l : Label K P} (hst : s.step l = some t) (hclean : s.Clean l)
    (hv : t.receivers r = some v) (hphase : v.phase = .waiting ∨ v.phase = .left) :
    s.receivers r = some v ∨ (s.channels v.key).bind s.queues = none := by
  have heffect := effect_of_step hst
  cases l with
  | send i k payload =>
    refine .inl ?_
    rw [← (s.openChannel_spec k).2.2.1]
    obtain ⟨-, ⟨-, rfl⟩ | rfl⟩ := heffect <;> exact hv
  | resume i =>
    obtain ⟨u, -, -, rfl⟩ := heffect
    exact .inl hv
  | receive r' k positive =>
    obtain ⟨-, -, hreceivers, hqueues⟩ := s.openChannel_spec k
    rw [← hreceivers]
    obtain ⟨-, ⟨i, -, -, rfl⟩ | ⟨hempty, rfl⟩ | rfl⟩ := heffect
    · rcases update_some_eq_some.1 hv with ⟨rfl, rfl⟩ | ⟨-, hv⟩
      · rcases hphase with hphase | hphase <;> cases hphase
      · exact .inl hv
    · rcases update_some_eq_some.1 hv with ⟨rfl, rfl⟩ | ⟨-, hv⟩
      · exact .inr (hqueues.symm.trans hempty)
      · exact .inl hv
    · rcases update_some_eq_some.1 hv with ⟨rfl, rfl⟩ | ⟨-, hv⟩
      · rcases hphase with hphase | hphase <;> cases hphase
      · exact .inl hv
  | get r' =>
    obtain ⟨w, i, -, -, rfl⟩ := heffect
    rcases update_some_eq_some.1 hv with ⟨rfl, rfl⟩ | ⟨-, hv⟩
    · rcases hphase with hphase | hphase <;> cases hphase
    · exact .inl hv
  | expire r' =>
    obtain ⟨w, -, rfl⟩ := heffect
    rcases update_some_eq_some.1 hv with ⟨rfl, rfl⟩ | ⟨-, hv⟩
    · rcases hphase with hphase | hphase <;> cases hphase
    · exact .inl hv
  | leave r' =>
    obtain ⟨w, hw, -, rfl⟩ := heffect
    rcases update_some_eq_some.1 hv with ⟨rfl, rfl⟩ | ⟨-, hv⟩
    · exact .inr (hclean w hw).2
    · exact .inl hv

/-- Calls that have returned stay as they are. -/
theorem kept_by_step {l : Label K P} (hst : s.step l = some t) :
    (∀ i u, s.senders i = some u → u.phase = .completed → t.senders i = some u) ∧
      ∀ r v i, s.receivers r = some v → v.phase = .returned i → t.receivers r = some v := by
  have heffect := effect_of_step hst
  have hsender : ∀ {s : Replies K P} {j w}, s.Incomplete j →
      ∀ i u, s.senders i = some u → u.phase = .completed →
        Function.update s.senders j (some w) i = some u := by
    intro s j w hj i u hu hphase
    refine update_some_eq_some.2 (.inr ⟨?_, hu⟩)
    rintro rfl
    cases (hj u hu).symm.trans hphase
  have hreceiver : ∀ {s : Replies K P} {r' w}, s.Unanswered r' →
      ∀ r v i, s.receivers r = some v → v.phase = .returned i →
        Function.update s.receivers r' (some w) r = some v := by
    intro s r' w hr' r v i hv hphase
    refine update_some_eq_some.2 (.inr ⟨?_, hv⟩)
    rintro rfl
    exact hr' i ⟨v, hv, hphase⟩
  cases l with
  | send i k payload =>
    obtain ⟨-, hsenders, hreceivers, -⟩ := s.openChannel_spec k
    obtain ⟨hnone, heffect⟩ := heffect
    have hi : (s.openChannel k).1.Incomplete i := incomplete_of_none (by rw [hsenders, hnone])
    rw [← hsenders, ← hreceivers]
    rcases heffect with ⟨-, rfl⟩ | rfl <;> exact ⟨hsender hi, fun _ _ _ hv _ => hv⟩
  | resume i =>
    obtain ⟨u, hu, -, rfl⟩ := heffect
    exact ⟨hsender hu.incomplete, fun _ _ _ hv _ => hv⟩
  | receive r k positive =>
    obtain ⟨-, hsenders, hreceivers, -⟩ := s.openChannel_spec k
    obtain ⟨hnone, heffect⟩ := heffect
    have hr : (s.openChannel k).1.Unanswered r := unanswered_of_none (by rw [hreceivers, hnone])
    rw [← hsenders, ← hreceivers]
    rcases heffect with ⟨i, -, -, rfl⟩ | ⟨-, rfl⟩ | rfl <;>
      exact ⟨fun _ _ hu _ => hu, hreceiver hr⟩
  | get r =>
    obtain ⟨v, i, hv, -, rfl⟩ := heffect
    exact ⟨fun _ _ hu _ => hu, hreceiver hv.unanswered⟩
  | expire r =>
    obtain ⟨v, hv, rfl⟩ := heffect
    exact ⟨fun _ _ hu _ => hu, hreceiver hv.unanswered⟩
  | leave r =>
    obtain ⟨v, hv, hphase, rfl⟩ := heffect
    refine ⟨fun _ _ hu _ => hu, hreceiver (unanswered_of_phase hv fun i hi => ?_)⟩
    cases hphase.symm.trans hi

/-- As long as no receiver of the key returns a payload, one that has been sent stays there. -/
theorem answers_of_run {ls : List (Label K P)} (hs : s.Kept)
    (hrun : (cleanSystem K P).Run s ls t) (hu : s.Undelivered i u)
    (hnone : s.NoneReturned t u.key) : t.Kept ∧ t.Undelivered i u ∧ s.Answers t u.key := by
  induction hrun with
  | refl => exact ⟨hs, hu, fun _ _ hv _ _ => hv, fun _ _ hv _ => hv⟩
  | snoc _ hst ih =>
    obtain ⟨hsenders, hreceivers⟩ := kept_by_step hst.1
    obtain ⟨hkept, hundelivered, hanswers⟩ := ih fun r v j hv hkey hreturned =>
      hnone r v j (hreceivers r v j hv hreturned) hkey hreturned
    have hkept' := hkept.step hst.1 hst.2
    have hsent := hsenders i u hundelivered.1 hundelivered.2.1
    obtain ⟨hchannel, hqueue⟩ := hkept.stored i u hundelivered
    refine ⟨hkept', ⟨hsent, hu.2.1, ?_⟩, ?_, ?_⟩
    · rintro r ⟨v, hv, hreturned⟩
      have hkey := hkept'.sameKey r v i u hv hreturned hsent
      exact hu.2.2 r ⟨v, hnone r v i hv hkey.symm hreturned, hreturned⟩
    · intro r v hv hkey hleft
      rcases receiver_of_step hst.1 hst.2 hv (.inr hleft) with hold | hempty
      · exact hanswers.left r v hold hkey hleft
      · rw [hkey, hchannel, Option.bind_some, hqueue] at hempty
        cases hempty
    · intro r v hv hkey
      rcases receiver_of_step hst.1 hst.2 hv.1 (.inl hv.2) with hold | hempty
      · exact hanswers.waiting r v ⟨hold, hv.2⟩ hkey
      · rw [hkey, hchannel, Option.bind_some, hqueue] at hempty
        cases hempty

/-- A payload that has not been returned is offered to the receivers of its key. -/
theorem offers_of_kept (h : s.Kept) (hu : s.Undelivered i u) : s.Offers u.key := by
  obtain ⟨hchannel, hqueue⟩ := h.stored i u hu
  constructor
  · intro r v hv hkey
    have hsame : v.queue = u.queue := by
      have hwaiting := h.waiting r v hv
      rw [hkey, hchannel] at hwaiting
      exact (Option.some.inj hwaiting).symm
    refine ⟨s.take r v i, i, ?_, (returned_iff_of_update rfl).2 ?_⟩
    · rw [step, hv.1, Option.bind_some, if_pos hv.2, hsame, hqueue]
      rfl
    · rw [if_pos rfl]
  · intro r hr
    have hopen : s.openChannel u.key = (s, u.queue) := by
      rw [openChannel, hchannel]
    refine ⟨s.take r ⟨u.key, u.queue, .waiting⟩ i, i, ?_, (returned_iff_of_update rfl).2 ?_⟩
    · rw [step, hr, Option.isNone_none, if_pos rfl, receiveReply, hopen]
      dsimp only
      rw [if_pos rfl, hqueue]
    · rw [if_pos rfl]

/-- In clean runs, no reply is lost. -/
theorem notLost_clean : NotLost (cleanSystem K P) where
  once _ hs _ _ _ hr hr' := (kept_of_reachable hs).once _ _ _ hr hr'
  registered _ hs := (kept_of_reachable hs).waiting
  offers _ hs _ _ hu := offers_of_kept (kept_of_reachable hs) hu
  answers _ _ _ hs hrun _ _ hu hnone := (answers_of_run (kept_of_reachable hs) hrun hu hnone).2.2

end Steps

/-- Two receivers wait for a reply to a key, and the first one leaves with the first reply. -/
def twoReceivers : List (Label String String) :=
  [.receive 0 "key" true, .receive 1 "key" true, .send 0 "key" "first", .get 0,
    .send 1 "key" "second"]

/-- The second receiver waits on a channel that is not that of the second reply, and times out. -/
theorem not_notLost : ¬ NotLost (system String String) := by
  intro h
  have hsome : (twoReceivers.foldlM step (initial : Replies String String)).isSome := rfl
  have hreachable := System.reachable_of_replay (Option.some_get hsome).symm
  have hrun : (system String String).Run ((twoReceivers.foldlM step initial).get hsome)
      [.expire 1, .leave 1] _ := System.run_of_replay _ _ rfl
  have hanswers := h.answers _ _ _ hreachable hrun 1 ⟨"key", "second", 1, .completed⟩
    ⟨rfl, rfl, ?_⟩ ?_
  · have hleft := hanswers.left 1 ⟨"key", 0, .left⟩ rfl rfl rfl
    cases hleft
  · obtain ⟨_, _, _, _, hnot⟩ := (sound_of_reachable hreachable).held 1 1 rfl
    exact hnot
  · intro r v i hv _ hreturned
    rcases r with _ | _ | r
    · exact hv
    · cases hv
      cases hreturned
    · exact hv

end Replies

end Hyperforge.Broker
