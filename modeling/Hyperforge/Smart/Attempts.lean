import Hyperforge.Contexts
import Hyperforge.Library.Json.Spaced
import Hyperforge.Library.Json.Unordered
import Hyperforge.Procedural.Graph
import Hyperforge.Smart.Tools

/-!
# Calls that are not repeated

A smart agent runs in turns: a language model answers with calls of tools, and the agent executes
them and records what came of each (`executeToolCallsTurn`). A call of which the same tool with the
same arguments had no result, or an error, is skipped.

Calls are the same if their keys are (`ToolCall.key_eq_iff`). The records are those of a reactive
run (`reactiveLoop`), or of a run of the executor, of which there is one for each plan
(`callExecutor`, `planAndExecute`): there, what has failed once is not executed again
(`NoRepeat`).
-/

namespace Hyperforge.Smart

open Json hiding Tree

variable {F : Type} {φ : FloatFormat F} {maxDigits : ℕ}

/-! ## Keys -/

/-- The arguments of a call: a JSON object of distinct keys, finite numbers, and strings of
    characters. -/
structure Arguments (φ : FloatFormat F) (maxDigits : ℕ) where
  members : List (Str × Json.Tree F)
  wellFormed : (Json.Tree.obj members).WellFormed φ maxDigits
  readable : (Json.Tree.obj members).Readable ascii

structure ToolCall (φ : FloatFormat F) (maxDigits : ℕ) where
  name : Name
  arguments : Arguments φ maxDigits

/-- Dictionaries get their keys in order, at every level. -/
def normalizeToolArguments (value : Json.Tree F) : Json.Tree F := value.sortKeys

/-- What is written for a call, before its keys are sorted. -/
def ToolCall.tree (call : ToolCall φ maxDigits) : Json.Tree F :=
  .obj [(.ofString "tool_name", .str (chars call.name)),
    (.ofString "tool_arguments", normalizeToolArguments (.obj call.arguments.members))]

def ToolCall.key (call : ToolCall φ maxDigits) : Str := call.tree.sortKeys.spaced φ ascii

/-- The arguments are equal as JSON values, whatever the order of keys is. -/
def Arguments.Same (args args' : Arguments φ maxDigits) : Prop :=
  (Json.Tree.obj args.members).Same (.obj args'.members)

variable {call call' : ToolCall φ maxDigits}

theorem ToolCall.wellFormed_tree (call : ToolCall φ maxDigits) :
    call.tree.WellFormed φ maxDigits :=
  ⟨(by decide : [Str.ofString "tool_name", Str.ofString "tool_arguments"].Nodup), trivial,
    call.arguments.wellFormed.sortKeys, trivial⟩

theorem ToolCall.readable_tree (call : ToolCall φ maxDigits) : call.tree.Readable ascii :=
  ⟨⟨⟨_, rfl⟩, call.name, rfl⟩, ⟨⟨_, rfl⟩, call.arguments.readable.sortKeys⟩, trivial⟩

theorem ToolCall.key_eq_iff :
    call.key = call'.key ↔ call.name = call'.name ∧ call.arguments.Same call'.arguments := by
  have hinjective : call.key = call'.key ↔ call.tree.sortKeys = call'.tree.sortKeys :=
    ⟨spaced_injective call.wellFormed_tree.sortKeys call'.wellFormed_tree.sortKeys
      call.readable_tree.sortKeys call'.readable_tree.sortKeys, fun h => by rw [key, h, key]⟩
  have hsame : call.arguments.Same call'.arguments ↔
      (Json.Tree.obj call.arguments.members).sortKeys =
        (Json.Tree.obj call'.arguments.members).sortKeys :=
    same_iff_sortKeys call.arguments.wellFormed call'.arguments.wellFormed
  have hnormalized : (normalizeToolArguments (.obj call.arguments.members)).Same
      (normalizeToolArguments (.obj call'.arguments.members)) ↔
        call.arguments.Same call'.arguments := by
    rw [hsame, normalizeToolArguments, normalizeToolArguments,
      same_iff_sortKeys call.arguments.wellFormed.sortKeys call'.arguments.wellFormed.sortKeys,
      call.arguments.wellFormed.sortKeys_sortKeys, call'.arguments.wellFormed.sortKeys_sortKeys]
  have hname : chars call.name = chars call'.name ↔ call.name = call'.name :=
    (List.map_injective_iff.2 fun _ _ => CodePoint.scalar.inj).eq_iff
  rw [hinjective, ← same_iff_sortKeys call.wellFormed_tree call'.wellFormed_tree, ← hname,
    ← hnormalized]
  constructor
  · rintro ⟨-, ⟨y, hy, hname⟩, ⟨z, hz, harguments⟩, -⟩
    cases Option.some.inj hy
    cases Option.some.inj hz
    exact ⟨hname, harguments⟩
  · rintro ⟨hname, harguments⟩
    exact ⟨rfl, ⟨_, rfl, hname⟩, ⟨_, rfl, harguments⟩, trivial⟩

/-! ## Outcomes -/

inductive ToolOutcome
  | useful
  | empty
  | error
  deriving DecidableEq

/-- What a call returns, as far as its outcome depends on it. The items of a list may be
    contexts. -/
inductive ToolResult
  | error
  | none
  | context (context : Context)
  | list (items : List (Option Context))
  | str (text : Text)
  | collection (size : ℕ)
  | other

def contextHasUsefulContent (context : Context) : Bool :=
  !context.chunks.isEmpty || !context.structured.isEmpty || !context.jsonObjects.isEmpty ||
    !context.prompts.isEmpty || !context.images.isEmpty || !context.summary.all isSpace ||
    !context.imageUrls.isEmpty

def usefulIf (useful : Bool) : ToolOutcome := if useful then .useful else .empty

def classifyToolResult : ToolResult → ToolOutcome
  | .error => .error
  | .none => .empty
  | .context context => usefulIf (contextHasUsefulContent context)
  | .list [] => .empty
  | .list items => usefulIf <| items.any fun item => item.elim true contextHasUsefulContent
  | .str text => usefulIf (!text.all isSpace)
  | .collection size => usefulIf (0 < size)
  | .other => .useful

structure ToolAttempt (φ : FloatFormat F) (maxDigits : ℕ) where
  call : ToolCall φ maxDigits
  outcome : ToolOutcome

/-- The attempts by the keys of the calls. -/
abbrev Attempts (φ : FloatFormat F) (maxDigits : ℕ) := List (Str × ToolAttempt φ maxDigits)

/-! ## Feedback -/

/-- What identifies a decision: numbers that are equal are one key. -/
inductive DecisionId (F : Type)
  | str (s : Str)
  | int (i : ℤ)
  | float (x : F)
  deriving DecidableEq

/-- How questions are simplified, which floats are zero, and which are integers. -/
structure Feedback (F : Type) where
  stripLower : Str → Str
  isZero : F → Bool
  toInt : F → Option ℤ

variable (feedback : Feedback F)

/-- The value of a key, if it counts as true. -/
def truthy (members : List (Str × Json.Tree F)) (key : String) : Option (Json.Tree F) :=
  match members.lookup (.ofString key) with
  | none | some .null | some (.bool false) | some (.int 0) | some (.str []) | some (.arr [])
  | some (.obj []) => none
  | some (.float x) => if feedback.isZero x then none else some (.float x)
  | some x => some x

/-- A value as a key: `none` where an exception is raised, as it is no key. -/
def decisionId : Json.Tree F → Option (DecisionId F)
  | .str s => some (.str s)
  | .int i => some (.int i)
  | .bool b => some (.int b.toNat)
  | .float x => some ((feedback.toInt x).elim (.float x) .int)
  | _ => none

/-- The decision that a call asks for, and the question: `some none` if there is no question, and
    `none` where an exception is raised. -/
def feedbackRequest (call : ToolCall φ maxDigits) :
    Option (Option (DecisionId F × Json.Tree F)) :=
  match truthy feedback call.arguments.members "question" with
  | none => some none
  | some question =>
    match truthy feedback call.arguments.members "decision_id", question with
    | some id, _ => (decisionId feedback id).map fun id => some (id, question)
    | none, .str text =>
      some (some (.str (.ofString "legacy:" ++ feedback.stripLower text), question))
    | none, _ => none

def userFeedback : Name := "user_feedback".toList
def taskComplete : Name := "task_complete".toList

section Runs

variable [DecidableEq F]

/-- Whether a call asks for feedback that has not been given: `none` where an exception is
    raised. -/
def hasUnresolvedFeedback (resolved : List (DecisionId F × Text)) :
    List (ToolCall φ maxDigits) → Option Bool
  | [] => some false
  | call :: calls =>
    if call.name ≠ userFeedback then hasUnresolvedFeedback resolved calls
    else (feedbackRequest feedback call).bind fun
      | none => hasUnresolvedFeedback resolved calls
      | some (id, _) =>
        if (resolved.lookup id).isNone then some true else hasUnresolvedFeedback resolved calls

/-- The first decision that the calls ask for of which the feedback has not been given, if there
    is one: `none` where an exception is raised, as also for a question that is no text. -/
def unresolvedFeedback (resolved : List (DecisionId F × Text)) :
    List (ToolCall φ maxDigits) → Option (Option (DecisionId F))
  | [] => some none
  | call :: calls =>
    if call.name ≠ userFeedback then unresolvedFeedback resolved calls
    else (feedbackRequest feedback call).bind fun
      | none => unresolvedFeedback resolved calls
      | some (id, question) =>
        if (resolved.lookup id).isSome then unresolvedFeedback resolved calls
        else
          match question with
          | .str _ => some (some id)
          | _ => none

/-! ## Turns -/

/-- What happens in a turn: the calls of the model, the feedback of the user if it is asked for,
    and what is returned by the calls that are executed, or the exception they raise (`none`). -/
structure TurnInput (φ : FloatFormat F) (maxDigits : ℕ) where
  calls : List (ToolCall φ maxDigits)
  answer : Text
  results : ℕ → Option ToolResult

/-- A turn that has been taken. -/
structure TurnRecord (φ : FloatFormat F) (maxDigits : ℕ) where
  executed : List (ToolCall φ maxDigits)
  attempts : Attempts φ maxDigits
  resolved : List (DecisionId F × Text)
  raised : Bool

/-- The call is not executed again: an attempt had no result, or an error. -/
def fruitless (attempts : Attempts φ maxDigits) (key : Str) : Bool :=
  match attempts.lookup key with
  | some attempt => attempt.outcome ≠ .useful
  | none => false

/-- The calls to execute, each with an attempt that is pending, which counts as useful. -/
def selectCalls (attempts : Attempts φ maxDigits) :
    List (ToolCall φ maxDigits) → Attempts φ maxDigits × List (ToolCall φ maxDigits)
  | [] => (attempts, [])
  | call :: calls =>
    if call.name = taskComplete ∨ fruitless attempts call.key then selectCalls attempts calls
    else
      let selected := selectCalls (assign call.key ⟨call, .useful⟩ attempts) calls
      (selected.1, call :: selected.2)

/-- The outcomes of calls are recorded. -/
def recordOutcomes (attempts : Attempts φ maxDigits)
    (results : List (ToolCall φ maxDigits × ToolResult)) : Attempts φ maxDigits :=
  results.foldl (fun attempts r =>
    assign r.1.key ⟨r.1, classifyToolResult r.2⟩ attempts) attempts

/-- The calls that are executed one after the other: those after an exception are not. -/
def untilRaised (results : ℕ → Option ToolResult) (calls : List (ToolCall φ maxDigits)) :
    List (ToolCall φ maxDigits) :=
  calls.take (((List.range calls.length).takeWhile fun i => (results i).isSome).length + 1)

/-- The calls are executed, at once or one after the other, and their outcomes recorded unless
    there is an exception. -/
def executeCalls (parallel : Bool) (input : TurnInput φ maxDigits)
    (attempts : Attempts φ maxDigits) (resolved : List (DecisionId F × Text))
    (calls : List (ToolCall φ maxDigits)) : TurnRecord φ maxDigits :=
  let selected := selectCalls attempts calls
  match (List.range selected.2.length).mapM input.results with
  | some results => {
      executed := selected.2
      attempts := recordOutcomes selected.1 (selected.2.zip results)
      resolved := resolved
      raised := false }
  | none => {
      executed := if parallel then selected.2 else untilRaised input.results selected.2
      attempts := selected.1
      resolved := resolved
      raised := true }

/-- One turn. Feedback that has not been given is asked for, and nothing is executed then. -/
def executeToolCallsTurn (parallel : Bool) (input : TurnInput φ maxDigits)
    (calls : List (ToolCall φ maxDigits)) (attempts : Attempts φ maxDigits)
    (resolved : List (DecisionId F × Text)) : TurnRecord φ maxDigits :=
  match unresolvedFeedback feedback resolved calls with
  | none => ⟨[], attempts, resolved, true⟩
  | some (some id) => ⟨[], attempts, assign id input.answer resolved, false⟩
  | some none =>
    executeCalls parallel input attempts resolved (calls.filter (·.name ≠ userFeedback))

/-! ## Runs -/

/-- The turns of a reactive run, of at most a number of iterations, in which certain things
    happen. -/
def reactiveLoop (parallel : Bool) (inputs : ℕ → TurnInput φ maxDigits) :
    ℕ → ℕ → Attempts φ maxDigits → List (DecisionId F × Text) → List (TurnRecord φ maxDigits)
  | 0, _, _, _ => []
  | fuel + 1, iteration, attempts, resolved =>
    let input := inputs iteration
    if input.calls = [] then []
    else
      match hasUnresolvedFeedback feedback resolved input.calls with
      | none => [⟨[], attempts, resolved, true⟩]
      | some requested =>
        let turn :=
          executeToolCallsTurn feedback parallel input input.calls attempts resolved
        turn :: if turn.raised || !requested && input.calls.any (·.name = taskComplete) then []
          else reactiveLoop parallel inputs fuel (iteration + 1) turn.attempts turn.resolved

/-- The turns of a run of the executor. -/
def executorLoop (parallel : Bool) (inputs : ℕ → TurnInput φ maxDigits) :
    ℕ → ℕ → Attempts φ maxDigits → List (DecisionId F × Text) → List (TurnRecord φ maxDigits)
  | 0, _, _, _ => []
  | fuel + 1, iteration, attempts, resolved =>
    let input := inputs iteration
    let calls := input.calls.filter (·.name ≠ taskComplete)
    if calls = [] then []
    else
      match hasUnresolvedFeedback feedback resolved calls with
      | none => [⟨[], attempts, resolved, true⟩]
      | some requested =>
        let turn := executeToolCallsTurn feedback parallel input calls attempts resolved
        turn :: if turn.raised || !requested && input.calls.any (·.name = taskComplete) then []
          else executorLoop parallel inputs fuel (iteration + 1) turn.attempts turn.resolved

/-- A run of the executor begins without attempts. -/
def callExecutor (parallel : Bool) (maxIterations : ℕ) (inputs : ℕ → TurnInput φ maxDigits)
    (resolved : List (DecisionId F × Text)) : List (TurnRecord φ maxDigits) :=
  executorLoop feedback parallel inputs maxIterations 0 [] resolved

/-- The runs of the executor for the plans of a planner, as long as it has steps to be
    executed, each of which gets the feedback that has been given before. -/
def planAndExecute (parallel : Bool) (maxIterations : ℕ) (planned : ℕ → Bool)
    (inputs : ℕ → ℕ → TurnInput φ maxDigits) :
    ℕ → ℕ → List (DecisionId F × Text) → List (List (TurnRecord φ maxDigits))
  | 0, _, _ => []
  | fuel + 1, iteration, resolved =>
    if planned iteration then
      let run := callExecutor feedback parallel maxIterations (inputs iteration) resolved
      run :: if run.any (·.raised) then []
        else planAndExecute parallel maxIterations planned inputs fuel (iteration + 1)
          ((run.getLast?.map (·.resolved)).getD resolved)
    else []

end Runs

/-! ## What is not repeated -/

/-- A call that was fruitless by the end of a turn is executed in none of the later ones. -/
def NoRepeat (turns : List (TurnRecord φ maxDigits)) : Prop :=
  turns.Pairwise fun turn later =>
    ∀ call ∈ later.executed, fruitless turn.attempts call.key = false

variable {feedback} {parallel : Bool} {input : TurnInput φ maxDigits}
  {inputs : ℕ → TurnInput φ maxDigits} {attempts : Attempts φ maxDigits}
  {resolved : List (DecisionId F × Text)} {calls : List (ToolCall φ maxDigits)} {key : Str}
  {turn : TurnRecord φ maxDigits} {turns : List (TurnRecord φ maxDigits)}

/-- A turn executes no fruitless call, and what is fruitless stays so. -/
structure TurnRecord.Keeps (attempts : Attempts φ maxDigits) (turn : TurnRecord φ maxDigits) :
    Prop where
  executed : ∀ call ∈ turn.executed, fruitless attempts call.key = false
  attempts : ∀ key, fruitless attempts key → fruitless turn.attempts key

theorem fruitless_assign (attempt : ToolAttempt φ maxDigits) :
    fruitless (assign call.key attempt attempts) key =
      if call.key = key then decide (attempt.outcome ≠ .useful) else fruitless attempts key := by
  rw [fruitless, lookup_assign]
  split_ifs <;> rfl

/-- Pending attempts are not fruitless, nor were those before. -/
theorem fruitless_selectCalls : fruitless (selectCalls attempts calls).1 key =
    fruitless attempts key := by
  induction calls generalizing attempts with
  | nil => rfl
  | cons call calls ih =>
    rw [selectCalls]
    split_ifs with h
    · exact ih
    · rw [not_or, Bool.not_eq_true] at h
      rw [ih, fruitless_assign]
      split_ifs with hkey
      · rw [← hkey, h.2]
        rfl
      · rfl

theorem fruitless_of_mem_selectCalls (h : call ∈ (selectCalls attempts calls).2) :
    fruitless attempts call.key = false := by
  induction calls generalizing attempts with
  | nil => cases h
  | cons first calls ih =>
    rw [selectCalls] at h
    split_ifs at h with hskip
    · exact ih h
    · rw [not_or, Bool.not_eq_true] at hskip
      rcases List.mem_cons.1 h with rfl | h
      · exact hskip.2
      · have hkept := ih h
        rw [fruitless_assign] at hkept
        split_ifs at hkept with hkey
        · rw [← hkey, hskip.2]
        · exact hkept

theorem fruitless_recordOutcomes {results : List (ToolCall φ maxDigits × ToolResult)}
    (h : ∀ r ∈ results, r.1.key ≠ key) :
    fruitless (recordOutcomes attempts results) key = fruitless attempts key := by
  induction results generalizing attempts with
  | nil => rfl
  | cons r results ih =>
    rw [List.forall_mem_cons] at h
    rw [recordOutcomes, List.foldl_cons, ← recordOutcomes, ih h.2, fruitless_assign, if_neg h.1]

theorem executeCalls_keeps : (executeCalls parallel input attempts resolved calls).Keeps
    attempts := by
  have hselected (call : ToolCall φ maxDigits) (hcall : call ∈ (selectCalls attempts calls).2) :
      fruitless attempts call.key = false := fruitless_of_mem_selectCalls hcall
  unfold executeCalls
  dsimp only
  split
  · refine ⟨hselected, fun key hkey => ?_⟩
    dsimp only
    rw [fruitless_recordOutcomes fun r hr heq => ?_, fruitless_selectCalls, hkey]
    have hr := hselected r.1 (List.of_mem_zip hr).1
    rw [heq, hkey] at hr
    cases hr
  · refine ⟨fun call hcall => ?_, fun key hkey => by rwa [fruitless_selectCalls]⟩
    dsimp only at hcall
    split_ifs at hcall
    · exact hselected call hcall
    · exact hselected call (List.mem_of_mem_take hcall)

/-- Turns of which each begins with the attempts of the one before. -/
def Chained : Attempts φ maxDigits → List (TurnRecord φ maxDigits) → Prop
  | _, [] => True
  | attempts, turn :: turns => turn.Keeps attempts ∧ Chained turn.attempts turns

theorem Chained.executed (h : Chained attempts turns) :
    ∀ turn ∈ turns, ∀ call ∈ turn.executed, fruitless attempts call.key = false := by
  induction turns generalizing attempts with
  | nil => exact fun _ h => absurd h List.not_mem_nil
  | cons turn turns ih =>
    refine List.forall_mem_cons.2 ⟨h.1.executed, fun later hlater call hcall => ?_⟩
    by_contra hfruitless
    rw [Bool.not_eq_false] at hfruitless
    have hlater := ih h.2 later hlater call hcall
    rw [h.1.attempts _ hfruitless] at hlater
    cases hlater

theorem Chained.noRepeat (h : Chained attempts turns) : NoRepeat turns := by
  induction turns generalizing attempts with
  | nil => exact .nil
  | cons turn turns ih => exact .cons h.2.executed (ih h.2)

variable [DecidableEq F]

theorem executeToolCallsTurn_keeps :
    (executeToolCallsTurn feedback parallel input calls attempts resolved).Keeps attempts := by
  unfold executeToolCallsTurn
  split
  · exact ⟨by simp, fun _ => id⟩
  · exact ⟨by simp, fun _ => id⟩
  · exact executeCalls_keeps

theorem reactiveLoop_chained (fuel iteration : ℕ) : Chained attempts
    (reactiveLoop feedback parallel inputs fuel iteration attempts resolved) := by
  induction fuel generalizing iteration attempts resolved with
  | zero => trivial
  | succ fuel ih =>
    rw [reactiveLoop]
    split_ifs
    · trivial
    · split
      · exact ⟨⟨by simp, fun _ => id⟩, trivial⟩
      · refine ⟨executeToolCallsTurn_keeps, ?_⟩
        split_ifs
        · trivial
        · exact ih _

theorem executorLoop_chained (fuel iteration : ℕ) : Chained attempts
    (executorLoop feedback parallel inputs fuel iteration attempts resolved) := by
  induction fuel generalizing iteration attempts resolved with
  | zero => trivial
  | succ fuel ih =>
    rw [executorLoop]
    split_ifs
    · trivial
    · split
      · exact ⟨⟨by simp, fun _ => id⟩, trivial⟩
      · refine ⟨executeToolCallsTurn_keeps, ?_⟩
        split_ifs
        · trivial
        · exact ih _

theorem callExecutor_noRepeat (maxIterations : ℕ) :
    NoRepeat (callExecutor feedback parallel maxIterations inputs resolved) :=
  (executorLoop_chained maxIterations 0).noRepeat

theorem planAndExecute_noRepeat {maxIterations : ℕ} {planned : ℕ → Bool}
    {inputs : ℕ → ℕ → TurnInput φ maxDigits} (fuel iteration : ℕ) :
    ∀ run ∈ planAndExecute feedback parallel maxIterations planned inputs fuel iteration resolved,
      NoRepeat run := by
  induction fuel generalizing iteration resolved with
  | zero => exact fun _ h => absurd h List.not_mem_nil
  | succ fuel ih =>
    rw [planAndExecute]
    split_ifs
    · refine List.forall_mem_cons.2 ⟨callExecutor_noRepeat maxIterations, ?_⟩
      split_ifs
      · exact fun _ h => absurd h List.not_mem_nil
      · exact ih _
    · exact fun _ h => absurd h List.not_mem_nil

/-- Calls have one key if they are of one tool with the same arguments, and no fruitless call is
    executed again in a reactive run, nor in a run of the executor. -/
theorem smart_not_repeats (feedback : Feedback F) (parallel : Bool) (maxIterations : ℕ) :
    (∀ call call' : ToolCall φ maxDigits, call.key = call'.key ↔
      call.name = call'.name ∧ call.arguments.Same call'.arguments) ∧
    (∀ inputs : ℕ → TurnInput φ maxDigits,
      NoRepeat (reactiveLoop feedback parallel inputs maxIterations 0 [] [])) ∧
    ∀ (planned : ℕ → Bool) (inputs : ℕ → ℕ → TurnInput φ maxDigits),
      ∀ run ∈ planAndExecute feedback parallel maxIterations planned inputs maxIterations 0 [],
        NoRepeat run :=
  ⟨fun _ _ => ToolCall.key_eq_iff, fun _ => (reactiveLoop_chained maxIterations 0).noRepeat,
    fun _ _ => planAndExecute_noRepeat maxIterations 0⟩

theorem withoutFloats_literal (_ : Unit) (h : false = true) :
    ∃ l : Literal, l.WellFormed ∧ ¬ l.IsInt ∧ l.text = [] := absurd h Bool.false_ne_true

theorem withoutFloats_read (x : Unit) (_ : false = true) : () = x := rfl

/-- A format of no floats. -/
def withoutFloats : FloatFormat Unit where
  isFinite _ := false
  repr _ := []
  read _ := ()
  literal := withoutFloats_literal
  read_repr := withoutFloats_read

/-- A call without arguments. -/
def lookupCall : ToolCall withoutFloats 1 :=
  ⟨"lookup__agent".toList, [], ⟨List.nodup_nil, trivial⟩, trivial⟩

/-- The model calls a tool in the first turn of each run of the executor, which has no result. -/
def fruitlessInputs (_ iteration : ℕ) : TurnInput withoutFloats 1 where
  calls := if iteration = 0 then [lookupCall] else []
  answer := []
  results _ := some .none

def plainFeedback : Feedback Unit := ⟨id, fun _ => false, fun _ => none⟩

/-- What had no result for one plan is executed again for the next. -/
theorem not_noRepeat_planAndExecute : ¬ NoRepeat (planAndExecute plainFeedback false 2
    (fun _ => true) fruitlessInputs 2 0 []).flatten := by
  have hrun : planAndExecute plainFeedback false 2 (fun _ => true) fruitlessInputs 2 0 [] =
      List.replicate 2 [⟨[lookupCall], [(lookupCall.key, ⟨lookupCall, .empty⟩)], [], false⟩] := by
    rfl
  intro h
  rw [hrun] at h
  have hkept := List.rel_of_pairwise_cons h List.mem_cons_self lookupCall List.mem_cons_self
  rw [fruitless, List.lookup_cons_self] at hkept
  cases hkept

end Hyperforge.Smart
