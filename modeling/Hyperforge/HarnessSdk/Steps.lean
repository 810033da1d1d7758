import Hyperforge.HarnessSdk.Turn
import Hyperforge.Library.Json.Ascii
import Mathlib.Data.Finset.Union
import Mathlib.Data.Finset.Filter

/-!
# The steps of a procedure

The calls of a round run concurrently. Those that fail leave their identifiers in a set that the
rounds share (`_failed_procedural_calls`), from which the outcomes are read back, in the order in
which the calls have been requested, once all have ended.

* `recorded_iff`: whatever the order in which the calls end, a step is recorded for each, in order
  and with its own outcome, and no identifier is left, if and only if nothing is raised on the way,
  no call fails that has the identifier of an earlier one, and an identifier that was left before is
  that of a call of the round, the first of which fails.
-/

namespace Hyperforge.HarnessSdk

open Json hiding Tree

variable {F E : Type}

/-! ## Texts of arguments -/

section Text

variable (φ : FloatFormat F)

def separator (index : ℕ) : Str := if index = 0 then [] else .ofString ", "

mutual

/-- `json.dumps`, with its own separators and characters that are ASCII. -/
def spaced : Json.Tree F → Str
  | .arr items => .scalar '[' :: spacedItems 0 items ++ [.scalar ']']
  | .obj members => .scalar '\x7b' :: spacedMembers 0 members ++ [.scalar '\x7d']
  | x => x.write φ ascii

def spacedItems (index : ℕ) : List (Json.Tree F) → Str
  | [] => []
  | x :: xs => separator index ++ spaced x ++ spacedItems (index + 1) xs

def spacedMembers (index : ℕ) : List (Str × Json.Tree F) → Str
  | [] => []
  | (k, x) :: ms =>
    separator index ++ ascii.quote k ++ .ofString ": " ++ spaced x ++ spacedMembers (index + 1) ms

end

end Text

/-! ## Calls -/

inductive StepStatus
  | completed
  | failed
  deriving DecidableEq

structure ProcedureStep where
  decisionId : Str
  callId : Str
  procedureName : Str
  arguments : Str
  observation : Str
  status : StepStatus
  graphVersion : Str
  deriving DecidableEq

/-- What the steps of a decision have in common. -/
structure Decision where
  id : Str
  graphVersion : Str
  maxObservationChars : ℕ

/-- The message of a tool. -/
structure ToolMessage where
  callId : Str
  toolName : Str
  content : Str

/-- How a tool ends: `raised` is an exception that is not an `Exception`. -/
inductive Execution (E : Type)
  | completed (content : Str)
  | failed (error : Str)
  | raised (e : E)

/-- What happens to a call: the emission of `tool.requested`, the tool with the emission of
    `tool.completed`, and the emissions of `tool.failed` and of the step. -/
structure CallRun (E : Type) where
  requested : Except E Unit
  execution : Execution E
  reported : Except E Unit
  step : Except E Unit

/-- A call at its place in the round, with its identifier. -/
structure RoundCall (F E : Type) where
  position : ℕ
  id : Str
  call : HarnessToolCall F
  run : CallRun E

/-- The tools of an agent, those that are lazy with `true`, and the lazy ones that are active. -/
structure Toolbox where
  lazyLoad : Str → Option Bool
  active : Str → Bool

/-- Calls without an identifier are given one. -/
def identify (uuid : ℕ → Str) (calls : List (HarnessToolCall F × CallRun E)) :
    List (RoundCall F E) :=
  calls.mapIdx fun k c =>
    { position := k
      id := match c.1.id with
        | none | some [] => uuid k
        | some id => id
      call := c.1
      run := c.2 }

variable (tools : Toolbox)

/-- How the tool of a call ends. -/
def RoundCall.outcome (c : RoundCall F E) : Execution E :=
  match tools.lazyLoad c.call.name with
  | none => .failed (.ofString "Unknown tool: " ++ c.call.name)
  | some true =>
    if tools.active c.call.name then c.run.execution
    else .failed (.ofString "Tool is not active: " ++ c.call.name)
  | some false => c.run.execution

def errorContent (φ : FloatFormat F) (error : Str) : Str :=
  (Json.Tree.obj [(.ofString "error", .str error)]).write φ ascii

variable (φ : FloatFormat F)

/-- `_execute_tool_call`, with the identifiers of the calls that have failed. -/
def executeToolCall (c : RoundCall F E) (failed : Finset Str) :
    Finset Str × Except E ToolMessage :=
  match c.run.requested with
  | .error e => (failed, .error e)
  | .ok () =>
    match c.outcome tools with
    | .completed content => (failed, .ok ⟨c.id, c.call.name, content⟩)
    | .raised e => (failed, .error e)
    | .failed error =>
      (insert c.id failed,
        c.run.reported.map fun _ => ⟨c.id, c.call.name, errorContent φ error⟩)

/-! ## Rounds -/

/-- The calls in the order in which they end, up to the first exception. -/
def gather : List (RoundCall F E) → Finset Str →
    Finset Str × Except E (List (RoundCall F E × ToolMessage))
  | [], failed => (failed, .ok [])
  | c :: cs, failed =>
    match executeToolCall tools φ c failed with
    | (failed, .error e) => (failed, .error e)
    | (failed, .ok message) =>
      ((gather cs failed).1, (gather cs failed).2.map ((c, message) :: ·))

/-- `ProceduralGuidance.record` -/
def record (d : Decision) (c : RoundCall F E) (message : ToolMessage) (failed : Bool) :
    ProcedureStep where
  decisionId := d.id
  callId := c.id
  procedureName := c.call.name
  arguments := (spaced φ (.obj c.call.arguments)).take d.maxObservationChars
  observation := message.content.take d.maxObservationChars
  status := if failed then .failed else .completed
  graphVersion := d.graphVersion

/-- The steps that are recorded, and the identifiers that are left. -/
def recordSteps (d : Decision) : List (RoundCall F E × ToolMessage) → Finset Str →
    List ProcedureStep × Finset Str × Except E Unit
  | [], failed => ([], failed, .ok ())
  | (c, message) :: cs, failed =>
    let step := record φ d c message (c.id ∈ failed)
    match c.run.step with
    | .error e => ([step], failed.erase c.id, .error e)
    | .ok () =>
      let r := recordSteps d cs (failed.erase c.id)
      (step :: r.1, r.2)

/-- What a round leaves: the steps that are recorded, the identifiers that are left, and what is
    raised, `none` being the limit on calls. -/
structure RoundResult (E : Type) where
  steps : List ProcedureStep
  failed : Finset Str
  ending : Except (Option E) Unit

/-- `_execute_tool_calls`: with the calls that have been made before, the limit on their number and
    the order in which the calls end. -/
def executeToolCalls (d : Decision) (limit : Option ℕ) (made : ℕ) (order : List (RoundCall F E))
    (failed : Finset Str) : RoundResult E :=
  if ∃ l ∈ limit, l < made + order.length then ⟨[], failed, .error none⟩
  else
    match gather tools φ order failed with
    | (failed, .error e) => ⟨[], failed, .error (some e)⟩
    | (failed, .ok messages) =>
      -- the results of `gather` are in the order of the requests
      let sorted := messages.insertionSort fun m n => m.1.position ≤ n.1.position
      let r := recordSteps φ d sorted failed
      ⟨r.1, r.2.1, r.2.2.mapError some⟩

/-! ## What is recorded -/

/-- The call fails. -/
def RoundCall.Fails (c : RoundCall F E) : Prop :=
  match c.outcome tools with
  | .failed _ => True
  | _ => False

instance : DecidablePred (RoundCall.Fails (F := F) (E := E) tools) := fun c => by
  unfold RoundCall.Fails
  split <;> infer_instance

/-- Nothing is raised by the call: its beginning can be emitted and, if it fails, its failure. -/
def RoundCall.Returns (c : RoundCall F E) : Prop :=
  c.run.requested = .ok () ∧
    match c.outcome tools with
    | .completed _ => True
    | .failed _ => c.run.reported = .ok ()
    | .raised _ => False

/-- What a call returns does not depend on the others. -/
def RoundCall.message (c : RoundCall F E) : Except E ToolMessage := (executeToolCall tools φ c ∅).2

/-- A step is recorded of a call, with its own outcome. -/
def Records (d : Decision) (c : RoundCall F E) (step : ProcedureStep) : Prop :=
  ∃ message, c.message tools φ = .ok message ∧ step = record φ d c message (c.Fails tools)

/-- A step is recorded of each call, in order, and no identifier is left. -/
def Recorded (d : Decision) (calls : List (RoundCall F E)) (r : RoundResult E) : Prop :=
  List.Forall₂ (Records tools φ d) calls r.steps ∧ r.failed = ∅

variable {tools φ} {c : RoundCall F E} {cs order calls : List (RoundCall F E)} {failed : Finset Str}
  {d : Decision}

variable (tools φ) in
theorem executeToolCall_snd (c : RoundCall F E) (failed : Finset Str) :
    (executeToolCall tools φ c failed).2 = c.message tools φ := by
  rw [RoundCall.message, executeToolCall, executeToolCall]
  rcases c.run.requested with e | ⟨⟩
  · rfl
  · rcases c.outcome tools with _ | _ | _ <;> rfl

theorem returns_iff : c.Returns tools ↔ ∃ message, c.message tools φ = .ok message := by
  rw [RoundCall.Returns, RoundCall.message, executeToolCall]
  rcases c.run.requested with e | ⟨⟩
  · simp
  · rcases c.outcome tools with _ | _ | _
    · simp
    · rcases c.run.reported with e | ⟨⟩ <;> simp [Except.map]
    · simp

theorem mem_executeToolCall {message : ToolMessage} (h : c.message tools φ = .ok message)
    (failed : Finset Str) (id : Str) :
    id ∈ (executeToolCall tools φ c failed).1 ↔ id ∈ failed ∨ c.Fails tools ∧ c.id = id := by
  rw [RoundCall.message, executeToolCall] at h
  rw [executeToolCall, RoundCall.Fails]
  rcases hrequested : c.run.requested with e | ⟨⟩ <;> rw [hrequested] at h
  · cases h
  · rcases houtcome : c.outcome tools with content | error | e
    · simp
    · simp [eq_comm, or_comm]
    · rw [houtcome] at h
      cases h

/-- The round goes on to the steps if no call raises; then the calls that have failed have left
    their identifiers. -/
theorem gather_of_returns (h : ∀ c ∈ order, ∃ message, c.message tools φ = .ok message)
    (failed : Finset Str) :
    ∃ messages, (gather tools φ order failed).2 = .ok messages ∧ messages.map Prod.fst = order ∧
      (∀ m ∈ messages, m.1.message tools φ = .ok m.2) ∧
      ∀ id, id ∈ (gather tools φ order failed).1 ↔
        id ∈ failed ∨ ∃ c ∈ order, c.Fails tools ∧ c.id = id := by
  induction order generalizing failed with
  | nil => exact ⟨[], rfl, rfl, fun _ hm => absurd hm List.not_mem_nil, fun id => by simp [gather]⟩
  | cons c order ih =>
    rw [List.forall_mem_cons] at h
    obtain ⟨message, hmessage⟩ := h.1
    have hmem := mem_executeToolCall hmessage failed
    have hsnd := executeToolCall_snd tools φ c failed
    rw [gather]
    generalize executeToolCall tools φ c failed = r at hmem hsnd ⊢
    obtain ⟨failed', result⟩ := r
    obtain rfl : result = .ok message := hsnd.trans hmessage
    obtain ⟨messages, hok, hfst, hall, hids⟩ := ih h.2 failed'
    refine ⟨(c, message) :: messages, ?_, ?_, ?_, fun id => ?_⟩
    · dsimp only
      rw [hok]
      rfl
    · rw [List.map_cons, hfst]
    · exact List.forall_mem_cons.2 ⟨hmessage, hall⟩
    · dsimp only
      rw [hids, hmem, List.exists_mem_cons_iff, or_assoc]

theorem gather_of_raises {e : E} (hc : c ∈ order) (h : c.message tools φ = .error e)
    (failed : Finset Str) : ∃ e, (gather tools φ order failed).2 = .error e := by
  induction order generalizing failed with
  | nil => exact absurd hc List.not_mem_nil
  | cons b order ih =>
    have hsnd := executeToolCall_snd tools φ b failed
    rw [gather]
    generalize executeToolCall tools φ b failed = r at hsnd ⊢
    obtain ⟨failed', e' | message⟩ := r
    · exact ⟨e', rfl⟩
    rcases List.mem_cons.1 hc with rfl | hc
    · rw [h] at hsnd
      cases hsnd
    · obtain ⟨e', he'⟩ := ih hc failed'
      refine ⟨e', ?_⟩
      dsimp only
      rw [he']
      rfl

/-! ## Identifiers and outcomes -/

/-- The outcomes of the calls are read back from the identifiers. -/
def Outcomes (tools : Toolbox) : List (RoundCall F E) → Finset Str → Prop
  | [], _ => True
  | c :: cs, failed => (c.id ∈ failed ↔ c.Fails tools) ∧ Outcomes tools cs (failed.erase c.id)

/-- The steps are those of the outcomes, and nothing is left, if the identifiers give the outcomes
    and have all been read. -/
theorem recordSteps_iff {messages : List (RoundCall F E × ToolMessage)}
    (h : ∀ m ∈ messages, m.1.message tools φ = .ok m.2) (failed : Finset Str) :
    (List.Forall₂ (Records tools φ d) (messages.map Prod.fst) (recordSteps φ d messages failed).1 ∧
        (recordSteps φ d messages failed).2.1 = ∅) ↔
      (∀ c ∈ (messages.map Prod.fst).dropLast, c.run.step = .ok ()) ∧
      Outcomes tools (messages.map Prod.fst) failed ∧
        ∀ id ∈ failed, ∃ c ∈ messages.map Prod.fst, c.id = id := by
  induction messages generalizing failed with
  | nil => simp [recordSteps, Outcomes, Finset.eq_empty_iff_forall_notMem]
  | cons m messages ih =>
    obtain ⟨c, message⟩ := m
    rw [List.forall_mem_cons] at h
    have hrecord : Records tools φ d c (record φ d c message (c.id ∈ failed)) ↔
        (c.id ∈ failed ↔ c.Fails tools) := by
      constructor
      · rintro ⟨message', hmessage, heq⟩
        by_contra hne
        have hstatus := congrArg ProcedureStep.status heq
        by_cases hmem : c.id ∈ failed <;> by_cases hfails : c.Fails tools <;>
          simp [record, hmem, hfails] at hne hstatus
      · intro heq
        exact ⟨message, h.1, by simp only [heq]⟩
    have hleft : (∀ id ∈ failed, ∃ b ∈ c :: messages.map Prod.fst, b.id = id) ↔
        ∀ id ∈ failed.erase c.id, ∃ b ∈ messages.map Prod.fst, b.id = id := by
      simp only [List.exists_mem_cons_iff, Finset.mem_erase]
      exact forall_congr' fun id => by grind
    have hspec := ih h.2 (failed.erase c.id)
    rw [List.map_cons, Outcomes, hleft, recordSteps]
    rcases messages with _ | ⟨m, messages⟩
    · -- the emission after the last step does not matter
      rcases c.run.step with e | ⟨⟩ <;>
        simp [recordSteps, Outcomes, hrecord, Finset.eq_empty_iff_forall_notMem]
    · rcases hstep : c.run.step with e | ⟨⟩
      · simp [hstep]
      · dsimp only
        rw [List.forall₂_cons, hrecord, and_assoc, hspec, List.map_cons, List.dropLast_cons_cons,
          List.forall_mem_cons]
        tauto

/-- The identifiers give the outcomes, and are all read, if no call fails after one that has its
    identifier, those that fail have left theirs, and of each the first call fails. -/
theorem outcomes_iff (cs : List (RoundCall F E)) (failed : Finset Str) :
    (Outcomes tools cs failed ∧ ∀ id ∈ failed, ∃ c ∈ cs, c.id = id) ↔
      (cs.Pairwise fun c c' => c'.Fails tools → c.id ≠ c'.id) ∧
      (∀ c ∈ cs, c.Fails tools → c.id ∈ failed) ∧
      ∀ id ∈ failed, ∃ c, cs.find? (·.id = id) = some c ∧ c.Fails tools := by
  induction cs generalizing failed with
  | nil => simp [Outcomes]
  | cons c cs ih =>
    have hleft : (∀ id ∈ failed, ∃ b ∈ c :: cs, b.id = id) ↔
        ∀ id ∈ failed.erase c.id, ∃ b ∈ cs, b.id = id := by
      simp only [List.exists_mem_cons_iff, Finset.mem_erase]
      exact forall_congr' fun id => by grind
    have hfind : (∀ id ∈ failed, ∃ b, (c :: cs).find? (·.id = id) = some b ∧ b.Fails tools) ↔
        (c.id ∈ failed → c.Fails tools) ∧
          ∀ id ∈ failed.erase c.id, ∃ b, cs.find? (·.id = id) = some b ∧ b.Fails tools := by
      simp only [List.find?_cons, Finset.mem_erase]
      constructor
      · intro h
        refine ⟨fun hc => ?_, fun id hid => ?_⟩
        · simpa using h c.id hc
        · simpa [Ne.symm hid.1] using h id hid.2
      · rintro ⟨hc, h⟩ id hid
        rcases eq_or_ne c.id id with rfl | hne
        · simpa using hc hid
        · simpa [hne] using h id ⟨hne.symm, hid⟩
    have hspec := ih (failed.erase c.id)
    simp only [Finset.mem_erase] at hspec
    rw [Outcomes, hleft, hfind, List.pairwise_cons, List.forall_mem_cons, and_assoc]
    simp only [Finset.mem_erase]
    rw [hspec]
    constructor
    · rintro ⟨hc, hpairs, hfails, hfirst⟩
      exact ⟨⟨fun b hb hbf => (hfails b hb hbf).1.symm, hpairs⟩,
        ⟨hc.2, fun b hb hbf => (hfails b hb hbf).2⟩, hc.1, hfirst⟩
    · rintro ⟨⟨hc, hpairs⟩, ⟨hcf, hfails⟩, hfc, hfirst⟩
      exact ⟨⟨hfc, hcf⟩, hpairs, fun b hb hbf => ⟨(hc b hb hbf).symm, hfails b hb hbf⟩, hfirst⟩

/-- A call that fails is the first with its identifier. -/
theorem find?_of_pairwise (h : cs.Pairwise fun c c' => c'.Fails tools → c.id ≠ c'.id)
    (hc : c ∈ cs) (hfails : c.Fails tools) : cs.find? (·.id = c.id) = some c := by
  induction cs with
  | nil => exact absurd hc List.not_mem_nil
  | cons b cs ih =>
    rw [List.pairwise_cons] at h
    rcases List.mem_cons.1 hc with rfl | hc
    · simp
    · rw [List.find?_cons_of_neg (by simpa using h.1 c hc hfails)]
      exact ih h.2 hc

/-- The results of a round, in the order of the requests. -/
theorem map_sorted {messages : List (RoundCall F E × ToolMessage)}
    (hcalls : calls.Pairwise fun c c' => c.position < c'.position)
    (hperm : (messages.map Prod.fst).Perm calls) :
    (messages.insertionSort fun m n => m.1.position ≤ n.1.position).map Prod.fst = calls := by
  have hsorted := (List.perm_insertionSort
    (fun m n : RoundCall F E × ToolMessage => m.1.position ≤ n.1.position) messages).map Prod.fst
  have hle : calls.Pairwise fun c c' => c.position ≤ c'.position := hcalls.imp Nat.le_of_lt
  refine (hsorted.trans hperm).eq_of_pairwise (fun b c hb hc hbc hcb => ?_) ?_ hle
  · have hnodup : (calls.map (·.position)).Nodup := List.pairwise_map.2 (hcalls.imp Nat.ne_of_lt)
    refine List.inj_on_of_nodup_map hnodup ?_ hc (le_antisymm hbc hcb)
    exact (hsorted.trans hperm).mem_iff.1 hb
  · exact List.pairwise_map.2 (List.pairwise_insertionSort _ _)

theorem position_identify (uuid : ℕ → Str) (batch : List (HarnessToolCall F × CallRun E)) :
    (identify uuid batch).Pairwise fun c c' => c.position < c'.position := by
  rw [List.pairwise_iff_getElem]
  intro i j hi hj hij
  simpa [identify] using hij

section Rounds

variable {limit : Option ℕ} {made : ℕ}
  (hsorted : calls.Pairwise fun c c' => c.position < c'.position)
  (horder : order.Perm calls)

/-- Beyond the limit nothing is recorded. -/
theorem recorded_of_limit (hlimit : ∃ l ∈ limit, l < made + order.length) :
    Recorded tools φ d calls (executeToolCalls tools φ d limit made order failed) ↔
      calls = [] ∧ failed = ∅ := by
  rw [executeToolCalls, if_pos hlimit, Recorded, List.forall₂_nil_right_iff]

include horder in
/-- Nor is it after a call that raises. -/
theorem not_recorded_of_raises (hlimit : ¬∃ l ∈ limit, l < made + order.length) (hc : c ∈ calls)
    (hraises : ¬c.Returns tools) :
    ¬Recorded tools φ d calls (executeToolCalls tools φ d limit made order failed) := by
  rintro ⟨hsteps, -⟩
  rcases hmessage : c.message tools φ with e | message
  · obtain ⟨e', he'⟩ := gather_of_raises (horder.mem_iff.2 hc) hmessage failed
    rw [executeToolCalls, if_neg hlimit] at hsteps
    generalize gather tools φ order failed = r at he' hsteps
    obtain ⟨left, result⟩ := r
    obtain rfl : result = .error e' := he'
    rw [List.forall₂_nil_right_iff.1 hsteps] at hc
    exact List.not_mem_nil hc
  · exact hraises (returns_iff.2 ⟨message, hmessage⟩)

include hsorted horder in
/-- Where no call raises, the steps are recorded from the identifiers. -/
theorem recorded_of_returns (hlimit : ¬∃ l ∈ limit, l < made + order.length)
    (hreturns : ∀ c ∈ calls, c.Returns tools) :
    Recorded tools φ d calls (executeToolCalls tools φ d limit made order failed) ↔
      (∀ c ∈ calls.dropLast, c.run.step = .ok ()) ∧
      (calls.Pairwise fun c c' => c'.Fails tools → c.id ≠ c'.id) ∧
      ∀ id ∈ failed, ∃ c, calls.find? (·.id = id) = some c ∧ c.Fails tools := by
  obtain ⟨messages, hok, hfst, hall, hids⟩ := gather_of_returns (fun c hc =>
    returns_iff.1 (hreturns c (horder.mem_iff.1 hc))) failed
  rw [executeToolCalls, if_neg hlimit]
  generalize gather tools φ order failed = r at hok hids ⊢
  obtain ⟨left, result⟩ := r
  obtain rfl : result = .ok messages := hok
  have hmap := map_sorted hsorted (hfst ▸ horder)
  have hmem : ∀ m ∈ messages.insertionSort fun m n => m.1.position ≤ n.1.position,
      m.1.message tools φ = .ok m.2 := fun m hm => hall m ((List.mem_insertionSort _).1 hm)
  have hspec := recordSteps_iff (d := d) hmem left
  rw [hmap] at hspec
  rw [Recorded, hspec, outcomes_iff]
  refine and_congr_right' (and_congr_right fun hpairs => ?_)
  have hleft (id : Str) : id ∈ left ↔ id ∈ failed ∨ ∃ c ∈ calls, c.Fails tools ∧ c.id = id := by
    rw [hids]
    simp only [horder.mem_iff]
  constructor
  · exact fun h id hid => h.2 id ((hleft id).2 (.inl hid))
  · intro h
    refine ⟨fun c hc hfails => (hleft c.id).2 (.inr ⟨c, hc, hfails, rfl⟩), fun id hid => ?_⟩
    rcases (hleft id).1 hid with hid | ⟨c, hc, hfails, rfl⟩
    · exact h id hid
    · exact ⟨c, find?_of_pairwise hpairs hc hfails, hfails⟩

end Rounds

/-- In whatever order the calls of a round end, a step is recorded of each, in order and with its
    own outcome, and no identifier is left, if and only if the limit admits the calls, nothing is
    raised by them or by the emission of a step other than the last, no call fails that has the
    identifier of an earlier one, and of the identifiers that were left before, the first calls
    fail. -/
theorem recorded_iff (tools : Toolbox) (φ : FloatFormat F) (d : Decision) (limit : Option ℕ)
    (made : ℕ) (uuid : ℕ → Str) (batch : List (HarnessToolCall F × CallRun E))
    {order : List (RoundCall F E)} (horder : order.Perm (identify uuid batch))
    (failed : Finset Str) :
    Recorded tools φ d (identify uuid batch) (executeToolCalls tools φ d limit made order failed) ↔
      (batch ≠ [] → ∀ l ∈ limit, made + batch.length ≤ l) ∧
      (∀ c ∈ identify uuid batch, c.Returns tools) ∧
      (∀ c ∈ (identify uuid batch).dropLast, c.run.step = .ok ()) ∧
      ((identify uuid batch).Pairwise fun c c' => c'.Fails tools → c.id ≠ c'.id) ∧
      ∀ id ∈ failed, ∃ c, (identify uuid batch).find? (·.id = id) = some c ∧ c.Fails tools := by
  have hlength : order.length = batch.length := by
    rw [horder.length_eq, identify, List.length_mapIdx]
  by_cases hlimit : ∃ l ∈ limit, l < made + order.length
  · rw [recorded_of_limit hlimit]
    rw [hlength] at hlimit
    obtain ⟨l, hl, hlt⟩ := hlimit
    rcases eq_or_ne batch [] with rfl | hne
    · simp [identify, Finset.eq_empty_iff_forall_notMem]
    · exact iff_of_false (fun h => hne (List.mapIdx_eq_nil_iff.1 h.1)) fun h =>
        absurd (h.1 hne l hl) (Nat.not_le.2 hlt)
  have hadmits : batch ≠ [] → ∀ l ∈ limit, made + batch.length ≤ l := fun _ l hl =>
    Nat.le_of_not_lt fun hlt => hlimit ⟨l, hl, hlength ▸ hlt⟩
  rw [and_iff_right hadmits]
  by_cases hreturns : ∀ c ∈ identify uuid batch, c.Returns tools
  · rw [and_iff_right hreturns]
    exact recorded_of_returns (position_identify uuid batch) horder hlimit hreturns
  · refine iff_of_false ?_ fun h => hreturns h.1
    push Not at hreturns
    obtain ⟨c, hc, hraises⟩ := hreturns
    exact not_recorded_of_raises horder hlimit hc hraises

/-- The outcomes of recorded steps are those of the calls. -/
theorem map_status {steps : List ProcedureStep}
    (h : List.Forall₂ (Records tools φ d) calls steps) :
    steps.map (·.status) = calls.map fun c => if c.Fails tools then .failed else .completed := by
  induction h with
  | nil => rfl
  | cons hrecords _ ih =>
    obtain ⟨message, -, rfl⟩ := hrecords
    rw [List.map_cons, List.map_cons, ih, record]
    simp only [decide_eq_true_eq]

def letter (c : Char) : Str := [.scalar c]

def oneTool : Toolbox := ⟨fun _ => some false, fun _ => true⟩

def someDecision : Decision := ⟨letter 'd', letter 'v', 100⟩

def callOf (id : Char) (execution : Execution Unit) : HarnessToolCall ℤ × CallRun Unit :=
  (⟨some (letter id), letter 't', []⟩, ⟨.ok (), execution, .ok (), .ok ()⟩)

/-- The second call fails. -/
def twoCalls (id id' : Char) : List (HarnessToolCall ℤ × CallRun Unit) :=
  [callOf id (.completed []), callOf id' (.failed [])]

theorem recorded_two : Recorded oneTool zeroFloats someDecision
    (identify (fun _ => []) (twoCalls 'a' 'b'))
    (executeToolCalls oneTool zeroFloats someDecision none 0
      (identify (fun _ => []) (twoCalls 'a' 'b')).reverse ∅) := by
  refine (recorded_iff oneTool zeroFloats someDecision none 0 (fun _ => []) (twoCalls 'a' 'b')
    (List.reverse_perm _) ∅).2 ⟨fun _ => nofun, ?_, ?_, ?_, fun _ hid => ?_⟩
  · intro c hc
    rcases List.mem_cons.1 hc with rfl | hc
    · exact ⟨rfl, trivial⟩
    · rw [List.mem_singleton.1 hc]
      exact ⟨rfl, rfl⟩
  · exact List.forall_mem_singleton.2 rfl
  · exact List.pairwise_pair.2 fun _ => by decide
  · exact absurd hid (Finset.notMem_empty _)

theorem not_recorded_repeated : ¬Recorded oneTool zeroFloats someDecision
    (identify (fun _ => []) (twoCalls 'a' 'a'))
    (executeToolCalls oneTool zeroFloats someDecision none 0
      (identify (fun _ => []) (twoCalls 'a' 'a')) ∅) := by
  rintro ⟨hsteps, -⟩
  have hstatus : (executeToolCalls oneTool zeroFloats someDecision none 0
      (identify (fun _ => []) (twoCalls 'a' 'a')) ∅).steps.map (·.status) =
      [.failed, .completed] := by
    decide
  exact absurd (hstatus.symm.trans (map_status hsteps)) (by decide)

end Hyperforge.HarnessSdk
