import Mathlib.Algebra.BigOperators.Group.Finset.Basic
import Mathlib.Algebra.Order.Field.Rat

/-!
# Chains of tool calls

An agent has a language model choose tools, in rounds, and processes the calls of each round. After
the first round it goes on until the model calls the tool `task_complete`, for a number of rounds at
most (`Chain`).

* `MCPAgent.mcpInteraction_runsChain`: an agent of one server does, if the model always chooses a
  tool;
* `MultiMCPAgent.runsChain_iff`: an agent of several servers does only if there are no rounds to go
  on for. The guard of its loop compares an integer with `False`.

What the model answers is given by its responses, in the order in which it is asked.
-/

namespace Hyperforge.Mcp

variable {A : Type}

/-! ## Responses -/

structure ToolUse (A : Type) where
  name : String
  arguments : A

/-- A response of the model: the calls of tools, by names, and what it has cost. -/
structure Response (A : Type) where
  tools : Option (List (String × List (ToolUse A)))
  inputTokens : ℚ
  outputTokens : ℚ

/-- The calls of a response that name a tool. -/
def iterateToolsResp (resp : Response A) : List (String × A) :=
  match resp.tools with
  | none => []
  | some tools => tools.flatMap fun toolsCalls =>
    (toolsCalls.2.filter (·.name ≠ "")).map fun tool => (tool.name, tool.arguments)

/-- How far an interaction has come. -/
structure Outcome (A : Type) where
  /-- How often the model has been asked. -/
  rounds : ℕ := 0
  /-- The calls that have been processed. -/
  processed : List (String × A) := []
  totalInputTokens : ℚ := 0
  totalOutputTokens : ℚ := 0

namespace Outcome

def chooseTool (o : Outcome A) (resp : Response A) : Outcome A :=
  { o with
    rounds := o.rounds + 1
    totalInputTokens := o.totalInputTokens + resp.inputTokens
    totalOutputTokens := o.totalOutputTokens + resp.outputTokens }

def processTool (o : Outcome A) (call : String × A) : Outcome A :=
  { o with processed := o.processed ++ [call] }

/-- Calls are processed up to one of `task_complete`, of which it is told whether there is one. -/
def processTools : List (String × A) → Outcome A → Bool × Outcome A
  | [], o => (false, o)
  | call :: calls, o =>
    if call.1 = "task_complete" then (true, o) else processTools calls (o.processTool call)

end Outcome

/-! ## The agents -/

/-- The loop of an agent of one server. -/
def MCPAgent.turns (maxTurns : ℕ) (responses : ℕ → Response A) (count : ℕ) (finished : Bool)
    (o : Outcome A) : Outcome A :=
  if count < maxTurns ∧ finished = false then
    let resp := responses o.rounds
    let o := o.chooseTool resp
    let toolCalls := iterateToolsResp resp
    if toolCalls.isEmpty then o
    else
      let r := o.processTools toolCalls
      turns maxTurns responses (count + 1) r.1 r.2
  else o
termination_by maxTurns - count

def MCPAgent.mcpInteraction (workChain : Bool) (maxTurns : ℕ) (responses : ℕ → Response A) :
    Outcome A :=
  let resp := responses 0
  let o := Outcome.chooseTool {} resp
  let toolCalls := iterateToolsResp resp
  let o := toolCalls.foldl Outcome.processTool o
  if workChain = false ∨ toolCalls.isEmpty then o
  else turns maxTurns responses 0 false o

/-- `n is False`, of an integer. -/
def isFalse (_ : ℕ) : Bool := false

/-- The loop of an agent of several servers. Its guard is
    `count > max_turns is False and finished is False`, of which the first is a chain of two
    comparisons. -/
def MultiMCPAgent.turns (maxTurns : ℕ) (responses : ℕ → Response A) (count : ℕ) (finished : Bool)
    (o : Outcome A) : Outcome A :=
  if h : (count > maxTurns ∧ isFalse maxTurns) ∧ finished = false then
    let resp := responses o.rounds
    let o := o.chooseTool resp
    let r := o.processTools (iterateToolsResp resp)
    turns maxTurns responses (count + 1) r.1 r.2
  else o
termination_by 0
decreasing_by exact absurd h.1.2 Bool.false_ne_true

def MultiMCPAgent.mcpInteraction (workChain : Bool) (maxTurns : ℕ) (responses : ℕ → Response A) :
    Outcome A :=
  let resp := responses 0
  let o := Outcome.chooseTool {} resp
  let o := (iterateToolsResp resp).foldl Outcome.processTool o
  if workChain = false then
    { o with
      totalInputTokens := resp.inputTokens
      totalOutputTokens := resp.outputTokens }
  else turns maxTurns responses 0 false o

/-! ## Chains -/

/-- The model says that the task is complete. -/
def Completes (resp : Response A) : Prop := ∃ call ∈ iterateToolsResp resp, call.1 = "task_complete"

/-- The calls before that. -/
def used (resp : Response A) : List (String × A) :=
  (iterateToolsResp resp).takeWhile fun call => call.1 ≠ "task_complete"

/-- What an interaction has come to with the first round and some more. -/
structure After (responses : ℕ → Response A) (n : ℕ) (o : Outcome A) : Prop where
  rounds : o.rounds = n + 1
  processed : o.processed = iterateToolsResp (responses 0) ++
    (List.range n).flatMap fun k => used (responses (k + 1))
  totalInputTokens : o.totalInputTokens = ∑ k ∈ Finset.range (n + 1), (responses k).inputTokens
  totalOutputTokens : o.totalOutputTokens = ∑ k ∈ Finset.range (n + 1), (responses k).outputTokens

/-- After the first round there are more, until the task is complete or there are as many as there
    may be. -/
structure Chain (maxTurns : ℕ) (responses : ℕ → Response A) (n : ℕ) (o : Outcome A) : Prop extends
    After responses n o where
  bounded : n ≤ maxTurns
  goesOn : ∀ k < n, k ≠ 0 → ¬ Completes (responses k)
  stops : n = maxTurns ∨ n ≠ 0 ∧ Completes (responses n)

def RunsChain (maxTurns : ℕ) (responses : ℕ → Response A) (o : Outcome A) : Prop :=
  ∃ n, Chain maxTurns responses n o

variable {o : Outcome A} {responses : ℕ → Response A} {calls : List (String × A)}
  {maxTurns count n : ℕ}

theorem foldl_processTool :
    calls.foldl Outcome.processTool o = { o with processed := o.processed ++ calls } := by
  induction calls generalizing o with
  | nil => rw [List.foldl_nil, List.append_nil]
  | cons call calls ih =>
    rw [List.foldl_cons, ih, Outcome.processTool, List.append_assoc]
    rfl

theorem processTools_snd : (o.processTools calls).2 = { o with
    processed := o.processed ++ calls.takeWhile fun call => call.1 ≠ "task_complete" } := by
  induction calls generalizing o with
  | nil => rw [Outcome.processTools, List.takeWhile_nil, List.append_nil]
  | cons call calls ih =>
    rw [Outcome.processTools]
    split_ifs with hcall
    · rw [List.takeWhile_cons_of_neg (by simpa using hcall), List.append_nil]
    · rw [ih, Outcome.processTool, List.takeWhile_cons_of_pos (by simpa using hcall),
        List.append_assoc]
      rfl

theorem processTools_fst :
    (o.processTools calls).1 = true ↔ ∃ call ∈ calls, call.1 = "task_complete" := by
  induction calls generalizing o with
  | nil => simp [Outcome.processTools]
  | cons call calls ih =>
    rw [Outcome.processTools]
    simp only [List.mem_cons, exists_eq_or_imp]
    split_ifs with hcall
    · exact iff_of_true rfl (.inl hcall)
    · rw [ih, or_iff_right hcall]

/-- The first round. -/
theorem after_zero : After responses 0
    ((iterateToolsResp (responses 0)).foldl Outcome.processTool
      (Outcome.chooseTool {} (responses 0))) := by
  rw [foldl_processTool]
  exact ⟨rfl, by simp [Outcome.chooseTool], by simp [Outcome.chooseTool],
    by simp [Outcome.chooseTool]⟩

/-- One more round. -/
theorem After.succ (h : After responses n o) : After responses (n + 1)
    ((o.chooseTool (responses o.rounds)).processTools
      (iterateToolsResp (responses o.rounds))).2 := by
  rw [processTools_snd, h.rounds]
  refine ⟨congrArg Nat.succ h.rounds, ?_, ?_, ?_⟩
  · rw [List.range_succ, List.flatMap_append, List.flatMap_singleton, ← List.append_assoc,
      ← h.processed]
    rfl
  · rw [Finset.sum_range_succ, ← h.totalInputTokens]
    rfl
  · rw [Finset.sum_range_succ, ← h.totalOutputTokens]
    rfl

/-- The agent has come to the end of a chain, or has one more round to go. -/
theorem MCPAgent.turns_runsChain (hselect : ∀ k, iterateToolsResp (responses k) ≠ [])
    (h : After responses count o) (hbound : count ≤ maxTurns) {finished : Bool}
    (hgoesOn : ∀ k < count, k ≠ 0 → ¬ Completes (responses k))
    (hfinished : finished = true ↔ count ≠ 0 ∧ Completes (responses count)) :
    RunsChain maxTurns responses (turns maxTurns responses count finished o) := by
  induction hrest : maxTurns - count generalizing count finished o with
  | zero =>
    have hlast : count = maxTurns := by omega
    rw [turns, if_neg fun hguard => absurd hguard.1 (by omega)]
    exact ⟨count, h, hbound, hgoesOn, .inl hlast⟩
  | succ rest ih =>
    rw [turns]
    dsimp only
    rw [if_neg fun hempty => hselect _ (List.isEmpty_iff.1 hempty)]
    split_ifs with hguard
    · refine ih h.succ (by omega) (fun k hk hne => ?_) ?_ (by omega)
      · rcases Nat.lt_succ_iff_lt_or_eq.1 hk with hk | rfl
        · exact hgoesOn k hk hne
        · intro hcompletes
          exact absurd (hfinished.2 ⟨hne, hcompletes⟩) (by simp [hguard.2])
      · rw [processTools_fst, h.rounds]
        exact ⟨fun hcompletes => ⟨Nat.succ_ne_zero _, hcompletes⟩, fun hcompletes => hcompletes.2⟩
    · have hfinished' := hfinished.1 (by
        rw [not_and, Bool.not_eq_false] at hguard
        exact hguard (by omega))
      exact ⟨count, h, hbound, hgoesOn, .inr hfinished'⟩

/-- An agent of one server runs a chain, if the model always chooses a tool. -/
theorem MCPAgent.mcpInteraction_runsChain (hselect : ∀ k, iterateToolsResp (responses k) ≠ []) :
    RunsChain maxTurns responses (mcpInteraction true maxTurns responses) := by
  rw [mcpInteraction, if_neg (by simp [hselect])]
  exact turns_runsChain hselect after_zero (Nat.zero_le _)
    (fun k hk => absurd hk (Nat.not_lt_zero _)) (by simp)

namespace MultiMCPAgent

/-- There are no rounds after the first. -/
theorem turns_eq {finished : Bool} : turns maxTurns responses count finished o = o := by
  rw [turns, dif_neg fun h => absurd h.1.2 Bool.false_ne_true]

theorem mcpInteraction_after : After responses 0 (mcpInteraction true maxTurns responses) := by
  rw [mcpInteraction, turns_eq]
  exact after_zero

/-- An agent of several servers runs a chain, as an agent of one server does, just if there are no
    rounds to go on for. -/
theorem runsChain_iff :
    RunsChain maxTurns responses (mcpInteraction true maxTurns responses) ∧
      ((∀ k, iterateToolsResp (responses k) ≠ []) →
        mcpInteraction true maxTurns responses = MCPAgent.mcpInteraction true maxTurns responses) ↔
    maxTurns = 0 := by
  have hafter : After responses 0 (mcpInteraction true maxTurns responses) := mcpInteraction_after
  constructor
  · rintro ⟨⟨n, hchain⟩, -⟩
    obtain rfl : n = 0 := Nat.succ.inj (hchain.rounds.symm.trans hafter.rounds)
    exact hchain.stops.elim Eq.symm fun h => absurd rfl h.1
  · rintro rfl
    refine ⟨⟨0, hafter, Nat.le_refl 0, fun k hk => absurd hk (Nat.not_lt_zero _), .inl rfl⟩,
      fun hselect => ?_⟩
    have hchoose : ¬ (true = false ∨ (iterateToolsResp (responses 0)).isEmpty) := by
      simp [hselect]
    have hlast : ¬ (0 < 0 ∧ false = false) := fun h => Nat.lt_irrefl 0 h.1
    rw [mcpInteraction, turns_eq, if_neg Bool.false_ne_true.symm, MCPAgent.mcpInteraction,
      if_neg hchoose, MCPAgent.turns, if_neg hlast]

/-- Each response calls a tool, and none says that the task is complete. -/
def searches (_ : ℕ) : Response Unit where
  tools := some [("search", [⟨"search", ()⟩])]
  inputTokens := 1
  outputTokens := 1

/-- The agent may go on for five rounds, and asks the model once. -/
theorem not_runsChain_searches : ¬ RunsChain 5 searches (mcpInteraction true 5 searches) := by
  rintro ⟨n, hchain⟩
  have hrounds := hchain.rounds
  rw [mcpInteraction_after.rounds] at hrounds
  obtain rfl : 0 = n := Nat.succ.inj hrounds
  rcases hchain.stops with hlast | hcomplete
  · cases hlast
  · exact hcomplete.1 rfl

end MultiMCPAgent

end Hyperforge.Mcp
