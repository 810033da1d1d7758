import Hyperforge.HarnessSdk.ToolCalls
import Hyperforge.Procedural.Graph

/-!
# The turn loop

In a turn, an agent asks the model again and again: it executes the calls that the model requests,
asks again after an empty response, a few times (`TurnLoopState`), and ends the turn with the first
response that has a text. Where the procedure allows a single action, a response that requests
several calls is refused, and the model asked again. Each iteration is given what the model, the
tools and the storage do in it (`Iteration`).

* `turn_bounded`: a turn in which `T` rounds of calls are executed, while no message arrives, asks
  the model `3 T + 3` times at most, or three times as often with single actions; and once the model
  requests no more calls, the turn ends.

What is left of the retries (`Turn.allowance`) carries the proof: it is used by each request, and
given back by the rounds.
-/

namespace Hyperforge.HarnessSdk

open Json hiding Tree

variable {F N E : Type}

/-! ## Responses -/

structure AgentResult (F N : Type) where
  text : Str
  reasoning : Str := []
  toolCalls : List (HarnessToolCall F) := []
  tokens : Tokens N

/-- Nothing is left of the text once stripped. -/
def isBlankText (text : Str) : Bool :=
  text.all fun
    | .scalar c => isSpace c
    | .surrogate _ => false

def maxEmptyRetries : ℕ := 2

def postToolRetryPrompt : String := "Use the tool results above to answer the user's request now."

def emptyResponseRetryPrompt : String :=
  "Your previous response was empty. Continue the task now: use an appropriate " ++
  "tool when needed, otherwise answer the user's request directly."

structure TurnLoopState where
  toolResultPending : Bool := false
  emptyPostToolRetries : ℕ := 0
  emptyRetries : ℕ := 0
  deriving DecidableEq

def TurnLoopState.recordToolCalls (s : TurnLoopState) : TurnLoopState :=
  { s with toolResultPending := true, emptyPostToolRetries := 0 }

/-- The prompt that the model is asked again with, if it is. -/
def TurnLoopState.retryPrompt (s : TurnLoopState) (text : Str) : Option String × TurnLoopState :=
  if isBlankText text = false then (none, { s with toolResultPending := false })
  else if s.toolResultPending ∧ s.emptyPostToolRetries < maxEmptyRetries then
    (some postToolRetryPrompt, { s with emptyPostToolRetries := s.emptyPostToolRetries + 1 })
  else if s.emptyRetries < maxEmptyRetries then
    (some emptyResponseRetryPrompt, { s with emptyRetries := s.emptyRetries + 1 })
  else (none, s)

/-! ## Iterations -/

structure HarnessInboxItem where
  id : Str
  sender : String
  content : Str

/-- What an agent does in a turn. -/
inductive TurnAction (F : Type)
  /-- A message is added to the conversation. -/
  | message (role : String) (content : Str)
  /-- The model is asked. -/
  | llm
  /-- Calls are executed, to the end or not. -/
  | executeToolCalls (calls : List (HarnessToolCall F)) (text : Str) (completed : Bool)
  | inboxConsumed (id : Str)
  | stopChildren
  | turnCompleted (text : Str)
  | turnInterrupted

/-- How a turn ends: `repeatedActions` is the error for requests of several calls, `raised` any
    other. -/
inductive TurnEnd (E : Type)
  | completed (text : Str)
  | interrupted
  | repeatedActions
  | raised (e : E)

/-- What the environment does in an iteration: the messages that arrive before it and later in it,
    and how each operation ends. -/
structure Iteration (F N E : Type) where
  arrivals : List HarnessInboxItem
  interrupted : Bool
  consume : Except E Unit
  llm : Except E (AgentResult F N)
  append : Except E Unit
  execute : Except E Unit
  lateArrivals : List HarnessInboxItem
  complete : Except E Unit

/-- The state of a turn, between its iterations. -/
structure Turn where
  loop : TurnLoopState := {}
  multiActionRetries : ℕ := 0
  inbox : List HarnessInboxItem := []

/-- The message for the items of an inbox. -/
def renderInbox (items : List HarnessInboxItem) : Str :=
  Str.ofString "New inbox messages:" ++ items.flatMap fun item =>
    Str.ofString s!"\n- {item.sender}: " ++ item.content

/-- `_consume_inbox` -/
def consumeInbox (items : List HarnessInboxItem) (consume : Except E Unit) :
    List (TurnAction F) × Except E Unit :=
  if items = [] then ([], .ok ())
  else (.message "user" (renderInbox items) :: items.map (.inboxConsumed ·.id), consume)

def oneActionPrompt : String :=
  "No calls were executed. Request exactly one tool action per decision, or answer when done."

/-- What ends a turn, or does not. -/
def carryOn (r : Except E Unit) (t : Turn) : Except (TurnEnd E) Turn :=
  match r with
  | .error e => .error (.raised e)
  | .ok () => .ok t

/-- A response without calls. -/
def onText (t : Turn) (i : Iteration F N E) (text : Str) :
    List (TurnAction F) × Except (TurnEnd E) Turn :=
  match t.loop.retryPrompt text with
  | (some prompt, loop) =>
    ([.message "user" (.ofString prompt)], carryOn i.append { t with loop := loop })
  | (none, loop) =>
    match i.append with
    | .error e => ([.message "assistant" text], .error (.raised e))
    | .ok () =>
      if t.inbox = [] then
        ([.message "assistant" text, .turnCompleted text, .stopChildren],
          match i.complete with
          | .error e => .error (.raised e)
          | .ok () => .error (.completed text))
      else ([.message "assistant" text], .ok { t with loop := loop })

/-- A response of the model. -/
def onResult (singleAction : Bool) (t : Turn) (i : Iteration F N E) (result : AgentResult F N) :
    List (TurnAction F) × Except (TurnEnd E) Turn :=
  if singleAction ∧ 1 < result.toolCalls.length then
    if maxEmptyRetries < t.multiActionRetries + 1 then ([], .error .repeatedActions)
    else ([.message "user" (.ofString oneActionPrompt)],
      carryOn i.append { t with multiActionRetries := t.multiActionRetries + 1 })
  else if result.toolCalls ≠ [] then
    ([.executeToolCalls result.toolCalls result.text i.execute.isOk],
      carryOn i.execute { t with loop := t.loop.recordToolCalls, multiActionRetries := 0 })
  else onText { t with multiActionRetries := 0 } i result.text

/-- An iteration. -/
def iterate (singleAction : Bool) (t : Turn) (i : Iteration F N E) :
    List (TurnAction F) × Except (TurnEnd E) Turn :=
  if i.interrupted then ([.stopChildren, .turnInterrupted], .error .interrupted)
  else
    match consumeInbox (t.inbox ++ i.arrivals) i.consume with
    | (actions, .error e) => (actions, .error (.raised e))
    | (actions, .ok ()) =>
      match i.llm with
      | .error e => (actions ++ [.llm], .error (.raised e))
      | .ok result =>
        let r := onResult singleAction { t with inbox := i.lateArrivals } i result
        (actions ++ .llm :: r.1, r.2)

/-- The loop, as far as the iterations go: what it does, and its end or the state it goes on in. -/
def turnLoop (singleAction : Bool) (t : Turn) :
    List (Iteration F N E) → List (TurnAction F) × Except (TurnEnd E) Turn
  | [] => ([], .ok t)
  | i :: is =>
    match iterate singleAction t i with
    | (actions, .error e) => (actions, .error e)
    | (actions, .ok t) =>
      (actions ++ (turnLoop singleAction t is).1, (turnLoop singleAction t is).2)

/-! ## Requests and rounds -/

/-- How often the model is asked. -/
def modelCalls : List (TurnAction F) → ℕ := List.countP fun
  | .llm => true
  | _ => false

/-- How often calls are executed, to the end. -/
def toolRounds : List (TurnAction F) → ℕ := List.countP fun
  | .executeToolCalls _ _ completed => completed
  | _ => false

/-- The calls that are executed, in rounds that come to their end. -/
def executedCalls : List (TurnAction F) → List (HarnessToolCall F) := List.flatMap fun
  | .executeToolCalls calls _ true => calls
  | _ => []

/-- No message arrives. -/
def Iteration.Quiet (i : Iteration F N E) : Prop := i.arrivals = [] ∧ i.lateArrivals = []

/-- The model requests calls. -/
def Iteration.RequestsCalls (i : Iteration F N E) : Prop :=
  ∃ result, i.llm = .ok result ∧ result.toolCalls ≠ []

/-- The model requests several calls. -/
def Iteration.RequestsSeveral (i : Iteration F N E) : Prop :=
  ∃ result, i.llm = .ok result ∧ 1 < result.toolCalls.length

/-- The retries that are left. -/
def TurnLoopState.retries (s : TurnLoopState) : ℕ :=
  (if s.toolResultPending then maxEmptyRetries - s.emptyPostToolRetries else 0) +
    (maxEmptyRetries - s.emptyRetries)

/-- How often the model can still be asked again without a round. -/
def Turn.allowance (singleAction : Bool) (t : Turn) : ℕ :=
  if singleAction then
    (maxEmptyRetries + 1) * t.loop.retries + (maxEmptyRetries - t.multiActionRetries)
  else t.loop.retries

/-- What a round gives back, and itself. -/
def perRound (singleAction : Bool) : ℕ := if singleAction then (maxEmptyRetries + 1) * 3 else 3

variable {singleAction : Bool} {t t' : Turn} {i : Iteration F N E} {is js : List (Iteration F N E)}

@[simp]
theorem modelCalls_append (as bs : List (TurnAction F)) :
    modelCalls (as ++ bs) = modelCalls as + modelCalls bs := List.countP_append

@[simp]
theorem toolRounds_append (as bs : List (TurnAction F)) :
    toolRounds (as ++ bs) = toolRounds as + toolRounds bs := List.countP_append

@[simp]
theorem retries_recordToolCalls (s : TurnLoopState) :
    s.recordToolCalls.retries = maxEmptyRetries + (maxEmptyRetries - s.emptyRetries) := rfl

/-- The model is asked again at the cost of a retry. -/
theorem retries_retryPrompt {s s' : TurnLoopState} {text : Str} {prompt : String}
    (h : s.retryPrompt text = (some prompt, s')) : s'.retries + 1 = s.retries := by
  rw [TurnLoopState.retryPrompt] at h
  split_ifs at h with hblank hpost hempty
  · cases h
  · obtain ⟨-, rfl⟩ := Prod.mk.inj h
    simp only [TurnLoopState.retries, hpost.1, if_true]
    omega
  · obtain ⟨-, rfl⟩ := Prod.mk.inj h
    simp only [TurnLoopState.retries]
    omega
  · cases h

theorem modelCalls_consumeInbox (items : List HarnessInboxItem) (consume : Except E Unit) :
    modelCalls (F := F) (consumeInbox items consume).1 = 0 := by
  rw [consumeInbox]
  split_ifs
  · rfl
  · simp [modelCalls]

theorem toolRounds_consumeInbox (items : List HarnessInboxItem) (consume : Except E Unit) :
    toolRounds (F := F) (consumeInbox items consume).1 = 0 := by
  rw [consumeInbox]
  split_ifs
  · rfl
  · simp [toolRounds]

theorem carryOn_eq_ok {r : Except E Unit} : carryOn r t = .ok t' ↔ r = .ok () ∧ t = t' := by
  rcases r with e | ⟨⟩ <;> simp [carryOn]

theorem actions_onText (t : Turn) (i : Iteration F N E) (text : Str) :
    modelCalls (onText t i text).1 = 0 ∧ toolRounds (onText t i text).1 = 0 := by
  rw [onText]
  rcases t.loop.retryPrompt text with ⟨_ | prompt, loop⟩
  · rcases i.append with e | ⟨⟩
    · exact ⟨rfl, rfl⟩
    · dsimp only
      split_ifs <;> exact ⟨rfl, rfl⟩
  · exact ⟨rfl, rfl⟩

/-- After a response without calls, the model is asked again at the cost of a retry. -/
theorem retries_onText {t : Turn} {text : Str} (ht : t.inbox = [])
    (h : (onText t i text).2 = .ok t') :
    t'.loop.retries + 1 = t.loop.retries ∧ t'.multiActionRetries = t.multiActionRetries := by
  rw [onText] at h
  rcases hprompt : t.loop.retryPrompt text with ⟨_ | prompt, loop⟩
  · rw [hprompt] at h
    rcases happend : i.append with e | ⟨⟩
    · simp [happend] at h
    · rcases hcomplete : i.complete with e | ⟨⟩ <;> simp [happend, hcomplete, ht] at h
  · rw [hprompt] at h
    obtain ⟨-, rfl⟩ := carryOn_eq_ok.1 h
    exact ⟨retries_retryPrompt hprompt, rfl⟩

variable (singleAction) in
/-- A response uses the allowance, unless a round gives it back. -/
theorem onResult_spec {t : Turn} (i : Iteration F N E) (result : AgentResult F N)
    (ht : t.inbox = []) :
    modelCalls (onResult singleAction t i result).1 = 0 ∧
      ∀ t', (onResult singleAction t i result).2 = .ok t' →
        t'.allowance singleAction + 1 ≤ t.allowance singleAction +
          perRound singleAction * toolRounds (onResult singleAction t i result).1 := by
  rw [onResult]
  split_ifs with hseveral hlimit hcalls
  · exact ⟨rfl, nofun⟩
  · -- the calls are refused
    refine ⟨rfl, fun t' h => ?_⟩
    obtain ⟨-, rfl⟩ := carryOn_eq_ok.1 h
    simp only [Turn.allowance, hseveral.1, if_true]
    omega
  · -- a round
    refine ⟨rfl, fun t' h => ?_⟩
    obtain ⟨hexecute, rfl⟩ := carryOn_eq_ok.1 h
    have hround : toolRounds [TurnAction.executeToolCalls result.toolCalls result.text
      i.execute.isOk] = 1 := by
      rw [hexecute]
      rfl
    rw [hround, Turn.allowance, Turn.allowance, retries_recordToolCalls, perRound]
    simp only [TurnLoopState.retries, maxEmptyRetries]
    split_ifs <;> omega
  · -- a text
    obtain ⟨hcalls, hrounds⟩ := actions_onText { t with multiActionRetries := 0 } i result.text
    refine ⟨hcalls, fun t' h => ?_⟩
    obtain ⟨hloop, hmulti⟩ := retries_onText (t := { t with multiActionRetries := 0 }) ht h
    rw [hrounds, Turn.allowance, Turn.allowance, hmulti, ← hloop, maxEmptyRetries]
    split_ifs <;> omega

variable (singleAction t) in
/-- So does an iteration in which no message arrives, the model being asked once. -/
theorem iterate_spec (hi : i.lateArrivals = []) :
    modelCalls (iterate singleAction t i).1 ≤ 1 ∧
      ∀ t', (iterate singleAction t i).2 = .ok t' →
        modelCalls (iterate singleAction t i).1 = 1 ∧
        t'.allowance singleAction + 1 ≤ t.allowance singleAction +
          perRound singleAction * toolRounds (iterate singleAction t i).1 := by
  rw [iterate]
  by_cases hinterrupted : i.interrupted = true
  · rw [if_pos hinterrupted]
    exact ⟨Nat.zero_le _, nofun⟩
  rw [if_neg hinterrupted]
  have hcalls := modelCalls_consumeInbox (F := F) (t.inbox ++ i.arrivals) i.consume
  have hrounds := toolRounds_consumeInbox (F := F) (t.inbox ++ i.arrivals) i.consume
  generalize consumeInbox (F := F) (t.inbox ++ i.arrivals) i.consume = r at hcalls hrounds ⊢
  obtain ⟨actions, e | ⟨⟩⟩ := r
  · exact ⟨hcalls.trans_le (Nat.zero_le 1), nofun⟩
  simp only at hcalls hrounds
  have hllm (as : List (TurnAction F)) : modelCalls (actions ++ .llm :: as) = modelCalls as + 1 ∧
      toolRounds (actions ++ .llm :: as) = toolRounds as := by
    rw [modelCalls_append, toolRounds_append, hcalls, hrounds]
    simp [modelCalls, toolRounds]
  rcases i.llm with e | result
  · exact ⟨((hllm []).1).le, nofun⟩
  obtain ⟨hzero, hspec⟩ := onResult_spec singleAction (t := { t with inbox := i.lateArrivals })
    i result hi
  simp only [(hllm _).1, (hllm _).2, hzero]
  exact ⟨Nat.le_refl 1, fun t' h => ⟨trivial, hspec t' h⟩⟩

variable (singleAction t) in
/-- The model is asked once in each iteration after which the loop goes on, and once more: as often
    as the allowance and the rounds admit. -/
theorem turnLoop_spec (his : ∀ i ∈ is, i.lateArrivals = []) :
    modelCalls (turnLoop singleAction t is).1 ≤ t.allowance singleAction + 1 +
        perRound singleAction * toolRounds (turnLoop singleAction t is).1 ∧
      ∀ t', (turnLoop singleAction t is).2 = .ok t' →
        modelCalls (turnLoop singleAction t is).1 = is.length := by
  induction is generalizing t with
  | nil => exact ⟨Nat.zero_le _, fun _ _ => rfl⟩
  | cons i is ih =>
    rw [List.forall_mem_cons] at his
    obtain ⟨hone, hspec⟩ := iterate_spec singleAction t his.1
    rw [turnLoop]
    generalize iterate singleAction t i = r at hone hspec ⊢
    obtain ⟨actions, e | t₁⟩ := r
    · refine ⟨?_, nofun⟩
      simp only at hone ⊢
      omega
    · obtain ⟨hcall, hallowance⟩ := hspec t₁ rfl
      obtain ⟨hle, hlength⟩ := ih t₁ his.2
      simp only [modelCalls_append, toolRounds_append, List.length_cons, Nat.mul_add] at *
      refine ⟨by omega, fun t' h => ?_⟩
      rw [hlength t' h, hcall, Nat.add_comm]

/-! ## Rounds are of calls that the model has requested -/

variable (singleAction) in
theorem toolRounds_onResult (t : Turn) (i : Iteration F N E) (result : AgentResult F N) :
    toolRounds (onResult singleAction t i result).1 ≤
        (executedCalls (onResult singleAction t i result).1).length ∧
      (result.toolCalls = [] → toolRounds (onResult singleAction t i result).1 = 0) := by
  rw [onResult]
  split_ifs with hseveral hlimit hcalls
  · exact ⟨Nat.le_refl 0, fun _ => rfl⟩
  · exact ⟨Nat.le_refl 0, fun _ => rfl⟩
  · refine ⟨?_, fun h => absurd h hcalls⟩
    have hpos := List.length_pos_of_ne_nil hcalls
    rcases i.execute with e | ⟨⟩
    · exact Nat.zero_le _
    · change 1 ≤ (result.toolCalls ++ []).length
      rwa [List.append_nil]
  · have hrounds := (actions_onText { t with multiActionRetries := 0 } i result.text).2
    exact ⟨hrounds.trans_le (Nat.zero_le _), fun _ => hrounds⟩

variable (singleAction) in
theorem toolRounds_iterate (t : Turn) (i : Iteration F N E) :
    toolRounds (iterate singleAction t i).1 ≤
        (executedCalls (iterate singleAction t i).1).length ∧
      (¬i.RequestsCalls → toolRounds (iterate singleAction t i).1 = 0) := by
  rw [iterate]
  by_cases hinterrupted : i.interrupted = true
  · rw [if_pos hinterrupted]
    exact ⟨Nat.le_refl 0, fun _ => rfl⟩
  rw [if_neg hinterrupted]
  have hrounds := toolRounds_consumeInbox (F := F) (t.inbox ++ i.arrivals) i.consume
  generalize consumeInbox (F := F) (t.inbox ++ i.arrivals) i.consume = r at hrounds ⊢
  obtain ⟨actions, e | ⟨⟩⟩ := r
  · exact ⟨hrounds.trans_le (Nat.zero_le _), fun _ => hrounds⟩
  simp only at hrounds
  have hllm (as : List (TurnAction F)) : toolRounds (actions ++ .llm :: as) = toolRounds as := by
    rw [toolRounds_append, hrounds]
    simp [toolRounds]
  rcases hresult : i.llm with e | result
  · exact ⟨(hllm []).trans_le (Nat.zero_le _), fun _ => hllm []⟩
  obtain ⟨hle, hzero⟩ :=
    toolRounds_onResult singleAction { t with inbox := i.lateArrivals } i result
  simp only [hllm]
  refine ⟨hle.trans ?_, fun h => hzero ?_⟩
  · simp [executedCalls]
  · by_contra hcalls
    exact h ⟨result, hresult, hcalls⟩

variable (singleAction) in
theorem toolRounds_turnLoop (t : Turn) (is : List (Iteration F N E)) :
    toolRounds (turnLoop singleAction t is).1 ≤
        (executedCalls (turnLoop singleAction t is).1).length ∧
      ((∀ i ∈ is, ¬i.RequestsCalls) → toolRounds (turnLoop singleAction t is).1 = 0) := by
  induction is generalizing t with
  | nil => exact ⟨Nat.le_refl 0, fun _ => rfl⟩
  | cons i is ih =>
    have hiterate := toolRounds_iterate singleAction t i
    rw [turnLoop, List.forall_mem_cons]
    generalize iterate singleAction t i = r at hiterate ⊢
    obtain ⟨actions, e | t₁⟩ := r
    · exact ⟨hiterate.1, fun h => hiterate.2 h.1⟩
    · rw [toolRounds_append, executedCalls, List.flatMap_append, List.length_append]
      exact ⟨Nat.add_le_add hiterate.1 (ih t₁).1, fun h => by
        rw [hiterate.2 h.1, (ih t₁).2 h.2]⟩

/-! ## Runs of the loop -/

/-- The loop goes on from the state it is in. -/
theorem turnLoop_append (t : Turn) (is js : List (Iteration F N E)) :
    (turnLoop singleAction t (is ++ js)).2 =
      (turnLoop singleAction t is).2.bind fun t' => (turnLoop singleAction t' js).2 := by
  induction is generalizing t with
  | nil => rfl
  | cons i is ih =>
    rw [List.cons_append, turnLoop, turnLoop]
    generalize iterate singleAction t i = r
    obtain ⟨actions, e | t₁⟩ := r
    · rfl
    · exact ih t₁

/-- Responses with several calls are refused, if the loop goes on. -/
theorem multiActionRetries_turnLoop (hjs : ∀ j ∈ js, j.RequestsSeveral)
    (h : (turnLoop true t js).2 = .ok t') :
    t'.multiActionRetries = t.multiActionRetries + js.length ∧
      (js ≠ [] → t'.multiActionRetries ≤ maxEmptyRetries) := by
  induction js generalizing t with
  | nil =>
    obtain rfl := Except.ok.inj h
    exact ⟨rfl, fun hne => absurd rfl hne⟩
  | cons j js ih =>
    rw [List.forall_mem_cons] at hjs
    obtain ⟨result, hresult, hseveral⟩ := hjs.1
    have hstep {t₁ : Turn} (h₁ : (iterate true t j).2 = .ok t₁) :
        t₁.multiActionRetries = t.multiActionRetries + 1 ∧
          t.multiActionRetries + 1 ≤ maxEmptyRetries := by
      rw [iterate, hresult] at h₁
      split_ifs at h₁
      generalize consumeInbox (F := F) (t.inbox ++ j.arrivals) j.consume = r at h₁
      obtain ⟨actions, e | ⟨⟩⟩ := r
      · cases h₁
      simp only [onResult, hseveral, and_self, if_true] at h₁
      split_ifs at h₁ with hlimit
      obtain ⟨-, rfl⟩ := carryOn_eq_ok.1 h₁
      exact ⟨rfl, Nat.le_of_not_lt hlimit⟩
    rw [turnLoop] at h
    generalize iterate true t j = r at h hstep
    obtain ⟨actions, e | t₁⟩ := r
    · cases h
    obtain ⟨hone, hle⟩ := hstep rfl
    obtain ⟨hlength, hlimit⟩ := ih hjs.2 h
    refine ⟨by rw [hlength, hone, List.length_cons]; omega, fun _ => ?_⟩
    rcases eq_or_ne js [] with rfl | hne
    · rw [hlength, hone]
      exact hle
    · exact hlimit hne

/-- Once no calls are requested, the loop ends before the allowance is exhausted. -/
theorem exists_end_of_quiet (t : Turn) (hjs : ∀ j ∈ js, j.Quiet ∧ ¬j.RequestsCalls)
    (hlength : t.allowance singleAction + 1 < js.length) :
    ∃ e, (turnLoop singleAction t js).2 = .error e := by
  rcases h : (turnLoop singleAction t js).2 with e | t'
  · exact ⟨e, rfl⟩
  obtain ⟨hle, hcalls⟩ := turnLoop_spec singleAction t fun j hj => (hjs j hj).1.2
  rw [hcalls t' h, (toolRounds_turnLoop singleAction t js).2 fun j hj => (hjs j hj).2] at hle
  omega

theorem exists_end (singleAction : Bool) (t : Turn) (env : ℕ → Iteration F N E) {m : ℕ}
    (henv : ∀ n, m ≤ n → (env n).Quiet ∧ ¬(env n).RequestsCalls) :
    ∃ n e, (turnLoop singleAction t ((List.range n).map env)).2 = .error e := by
  rcases h : (turnLoop singleAction t ((List.range m).map env)).2 with e | t'
  · exact ⟨m, e, h⟩
  refine ⟨m + (t'.allowance singleAction + 2), ?_⟩
  rw [List.range_add, List.map_append, turnLoop_append, h, List.map_map]
  refine exists_end_of_quiet t' (fun j hj => ?_) ?_
  · obtain ⟨k, -, rfl⟩ := List.mem_map.1 hj
    exact henv (m + k) (Nat.le_add_right m k)
  · rw [List.length_map, List.length_range]
    omega

/-- A turn in which no message arrives asks the model `3 T + 3` times at most, `T` being the rounds
    that have been executed; with single actions, a response with several calls is refused twice in
    succession at most, and the model asked three times as often. A turn ends if from some
    iteration on no message arrives and the model requests no calls. -/
theorem turn_bounded (inbox : List HarnessInboxItem) :
    (∀ is : List (Iteration F N E), (∀ i ∈ is, i.Quiet) →
      modelCalls (turnLoop false { inbox := inbox } is).1 ≤
        3 * toolRounds (turnLoop false { inbox := inbox } is).1 + 3) ∧
    (∀ is : List (Iteration F N E), (∀ i ∈ is, i.Quiet) →
      modelCalls (turnLoop true { inbox := inbox } is).1 ≤ (maxEmptyRetries + 1) *
        (3 * (executedCalls (turnLoop true { inbox := inbox } is).1).length + 3)) ∧
    (∀ (is js : List (Iteration F N E)) (t : Turn), (∀ j ∈ js, j.RequestsSeveral) →
      (turnLoop true { inbox := inbox } (is ++ js)).2 = .ok t → js.length ≤ maxEmptyRetries) ∧
    ∀ (singleAction : Bool) (env : ℕ → Iteration F N E),
      (∃ m, ∀ n, m ≤ n → (env n).Quiet ∧ ¬(env n).RequestsCalls) →
        ∃ n e, (turnLoop singleAction { inbox := inbox } ((List.range n).map env)).2 =
          .error e := by
  refine ⟨fun is his => ?_, fun is his => ?_, fun is js t hjs h => ?_,
    fun singleAction env ⟨m, hm⟩ => exists_end singleAction _ env hm⟩
  · have hle := (turnLoop_spec false { inbox := inbox } fun i hi => (his i hi).2).1
    rw [perRound, Turn.allowance] at hle
    simp only [TurnLoopState.retries, maxEmptyRetries, Bool.false_eq_true, if_false] at hle
    omega
  · have hle := (turnLoop_spec true { inbox := inbox } fun i hi => (his i hi).2).1
    have hrounds := (toolRounds_turnLoop true { inbox := inbox } is).1
    rw [perRound, Turn.allowance] at hle
    simp only [TurnLoopState.retries, maxEmptyRetries, if_true, Bool.false_eq_true, if_false] at *
    omega
  · rw [turnLoop_append] at h
    rcases hinit : (turnLoop true { inbox := inbox } is).2 with e | t₁ <;> rw [hinit] at h
    · cases h
    · obtain ⟨hlength, hlimit⟩ := multiActionRetries_turnLoop hjs h
      rcases eq_or_ne js [] with rfl | hne
      · exact Nat.zero_le _
      · exact (Nat.le_add_left _ _).trans (hlength ▸ hlimit hne)

end Hyperforge.HarnessSdk
