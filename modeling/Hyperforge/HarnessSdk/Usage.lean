import Hyperforge.HarnessSdk.Turn
import Hyperforge.Library.Transition
import Mathlib.Algebra.Order.Group.Int
import Mathlib.Algebra.Ring.Int.Defs

/-!
# The usage of tokens

The agents of a tree share a usage, which the limits are checked against. A call of a model reports
its tokens with the deltas of its stream, and the largest counts are added to the usage when the
call ends: by `AgentHarness.llm` for the calls of an agent, by `ProceduralGuidance.messages` for
those that ask for guidance. Any number of calls run at once, and end in any way.

* `usage_accounted_iff`: the usage is the sum of what has been reported, in every state of a run, if
  and only if no call of an agent that has reported tokens ends with a cancellation, or with another
  exception that `llm` does not count.

What has been lost so is part of the invariant (`lost`).
-/

namespace Hyperforge.HarnessSdk

open Json hiding Tree

variable {F M : Type} [AddCommGroup M] [LinearOrder M]

/-! ## Counts -/

inductive TokenName
  | input
  | output
  | nucliaInput
  | nucliaOutput
  | modelInput
  | modelOutput

def Tokens.get (t : Tokens M) : TokenName → M
  | .input => t.input
  | .output => t.output
  | .nucliaInput => t.nucliaInput
  | .nucliaOutput => t.nucliaOutput
  | .modelInput => t.modelInput
  | .modelOutput => t.modelOutput

def Tokens.map₂ (f : M → M → M) (t u : Tokens M) : Tokens M where
  input := f t.input u.input
  output := f t.output u.output
  nucliaInput := f t.nucliaInput u.nucliaInput
  nucliaOutput := f t.nucliaOutput u.nucliaOutput
  modelInput := f t.modelInput u.modelInput
  modelOutput := f t.modelOutput u.modelOutput

omit [AddCommGroup M] [LinearOrder M] in
@[simp]
theorem get_map₂ (f : M → M → M) (t u : Tokens M) (n : TokenName) :
    (t.map₂ f u).get n = f (t.get n) (u.get n) := by
  cases n <;> rfl

omit [LinearOrder M] in
@[simp]
theorem get_noTokens (n : TokenName) : (noTokens : Tokens M).get n = 0 := by
  cases n <;> rfl

structure UsageLimits (M : Type) where
  maxInputTokens : Option M
  maxOutputTokens : Option M

/-- An exception. -/
inductive CallError
  | usageLimitExceeded (name : String)
  | exception (type text : String)
  | cancelled
  | baseException (type : String)

omit [AddCommGroup M] in
/-- What `_check_limit` raises. -/
def checkLimit (name : String) (limit : Option M) (value : M) : Option CallError :=
  match limit with
  | none => none
  | some limit => if limit < value then some (.usageLimitExceeded name) else none

def checkInput (limits : UsageLimits M) (usage : Tokens M) : Option CallError :=
  checkLimit "max_input_tokens" limits.maxInputTokens usage.input

def checkOutput (limits : UsageLimits M) (usage : Tokens M) : Option CallError :=
  checkLimit "max_output_tokens" limits.maxOutputTokens usage.output

/-! ## Calls -/

inductive CallKind
  | agent
  /-- A call for guidance, and whether its failure is raised. -/
  | guidance (maxGuidanceChars : ℕ) (raises : Bool)

/-- Where a call is: its stream is read, or closed after an exception; or it has ended, its stream
    as given first and the call itself as given last. -/
inductive CallStatus
  | streaming
  | closing (e : CallError)
  | ended (stream : Option CallError) (call : Option CallError)

/-- A call, with the counts that have been reported. -/
structure ModelCall (M : Type) where
  kind : CallKind
  maxima : Tokens M
  text : Str := []
  status : CallStatus := .streaming
  reported : List (Tokens M) := []

/-- What is raised for a delta of guidance. -/
def guidanceCheck (limits : UsageLimits M) (maxGuidanceChars : ℕ) (usage : Tokens M) (text : Str)
    (delta : ModelDelta F M) : Option CallError :=
  (checkInput limits usage).or <| (checkOutput limits usage).or <|
    if delta.toolCalls ≠ [] then
      some (.exception "ValueError" "Guidance must not request tool calls")
    else if maxGuidanceChars < (text ++ delta.text).length then
      some (.exception "ValueError" "Guidance exceeds max_guidance_chars")
    else none

/-- Another delta. -/
def ModelCall.receive (limits : UsageLimits M) (usage : Tokens M) (c : ModelCall M)
    (delta : ModelDelta F M) : ModelCall M :=
  let maxima := c.maxima.map₂ max delta.tokens
  { c with
    maxima := maxima
    text := c.text ++ delta.text
    reported := c.reported ++ [delta.tokens]
    status :=
      match c.kind with
      | .agent => c.status
      | .guidance maxGuidanceChars _ =>
        match guidanceCheck limits maxGuidanceChars (usage.map₂ (· + ·) maxima) c.text delta with
        | none => c.status
        | some e => .closing e }

/-- The end of `llm`: the usage, and what is raised. -/
def llmEnd (limits : UsageLimits M) (usage maxima : Tokens M) :
    Option CallError → Tokens M × Option CallError
  | none =>
    let usage := usage.map₂ (· + ·) maxima
    (usage, (checkInput limits usage).or (checkOutput limits usage))
  | some .cancelled => (usage, some .cancelled)
  | some (.usageLimitExceeded name) => (usage, some (.usageLimitExceeded name))
  | some (.exception _ text) => (usage.map₂ (· + ·) maxima, some (.exception "LLMCallError" text))
  | some (.baseException type) => (usage, some (.baseException type))

/-- What is raised by guidance, the usage being what it is in the end. -/
def guidanceError (limits : UsageLimits M) (raises : Bool) (usage : Tokens M) :
    Option CallError → Option CallError
  | some .cancelled => some .cancelled
  | some (.baseException type) => some (.baseException type)
  | error =>
    match (checkOutput limits usage).or ((checkInput limits usage).or error) with
    | some (.usageLimitExceeded name) => some (.usageLimitExceeded name)
    | error => if raises then error else none

/-- The end of a call whose stream ends so: the usage, and what is raised. -/
def ModelCall.finish (limits : UsageLimits M) (usage : Tokens M) (c : ModelCall M)
    (stream : Option CallError) : Tokens M × Option CallError :=
  match c.kind with
  | .agent => llmEnd limits usage c.maxima stream
  | .guidance _ raises =>
    let usage := usage.map₂ (· + ·) c.maxima
    let pending :=
      match c.status with
      | .closing e => some e
      | _ =>
        if isBlankText c.text then some (.exception "ValueError" "Guidance was empty") else none
    (usage, guidanceError limits raises usage (stream.or pending))

def ModelCall.close (c : ModelCall M) (stream call : Option CallError) : ModelCall M :=
  { c with status := .ended stream call }

/-! ## Runs -/

structure UsageState (M : Type) where
  usage : Tokens M
  calls : List (ModelCall M)

inductive UsageLabel (F M : Type)
  | start (kind : CallKind)
  | delta (k : ℕ) (d : ModelDelta F M)
  | finish (k : ℕ) (stream : Option CallError)

def CallStatus.Ended : CallStatus → Prop
  | .ended _ _ => True
  | _ => False

instance : DecidablePred CallStatus.Ended := fun
  | .ended _ _ => .isTrue trivial
  | .streaming => .isFalse not_false
  | .closing _ => .isFalse not_false

/-- The steps of the calls, in any order. -/
inductive UsageStep (limits : UsageLimits M) :
    UsageState M → UsageLabel F M → UsageState M → Prop
  | start (usage : Tokens M) (calls : List (ModelCall M)) (kind : CallKind) :
    UsageStep limits ⟨usage, calls⟩ (.start kind)
      ⟨usage, calls ++ [{ kind := kind, maxima := noTokens }]⟩
  | delta (usage : Tokens M) (before after : List (ModelCall M)) (c : ModelCall M)
    (d : ModelDelta F M) (h : c.status = .streaming) :
    UsageStep limits ⟨usage, before ++ c :: after⟩ (.delta before.length d)
      ⟨usage, before ++ c.receive limits usage d :: after⟩
  | finish (usage : Tokens M) (before after : List (ModelCall M)) (c : ModelCall M)
    (stream : Option CallError) (h : ¬c.status.Ended) :
    UsageStep limits ⟨usage, before ++ c :: after⟩ (.finish before.length stream)
      ⟨(c.finish limits usage stream).1,
        before ++ c.close stream (c.finish limits usage stream).2 :: after⟩

/-- The calls of the agents of a tree. -/
def usageSystem (F : Type) (limits : UsageLimits M) :
    Transition.System (UsageState M) (UsageLabel F M) where
  init s := s = ⟨noTokens, []⟩
  step := UsageStep limits

/-! ## What has been reported -/

/-- The largest count that has been reported. -/
def peak (reported : List (Tokens M)) (n : TokenName) : M := (reported.map (·.get n)).foldl max 0

/-- The sum over the calls with a property. -/
def sumOf (P : ModelCall M → Prop) [DecidablePred P] (n : TokenName) (calls : List (ModelCall M)) :
    M := calls.foldr (fun c x => (if P c then peak c.reported n else 0) + x) 0

/-- The usage is the sum of what the calls that have ended have reported. -/
def Accounted (s : UsageState M) : Prop :=
  ∀ n, s.usage.get n = sumOf (fun c => c.status.Ended) n s.calls

/-- The exceptions that `llm` does not count the tokens after. -/
def CallError.Uncounted : CallError → Prop
  | .exception _ _ => False
  | _ => True

instance : DecidablePred CallError.Uncounted := fun
  | .exception _ _ => .isFalse not_false
  | .usageLimitExceeded _ => .isTrue trivial
  | .cancelled => .isTrue trivial
  | .baseException _ => .isTrue trivial

/-- The stream has ended with an exception that is not counted. -/
def CallStatus.Lost : CallStatus → Prop
  | .ended (some e) _ => e.Uncounted
  | _ => False

instance : DecidablePred CallStatus.Lost := fun
  | .ended (some e) _ => inferInstanceAs (Decidable e.Uncounted)
  | .ended none _ => .isFalse not_false
  | .streaming => .isFalse not_false
  | .closing _ => .isFalse not_false

def CallKind.IsAgent : CallKind → Prop
  | .agent => True
  | .guidance _ _ => False

instance : DecidablePred CallKind.IsAgent := fun
  | .agent => .isTrue trivial
  | .guidance _ _ => .isFalse not_false

/-- A call of an agent that has ended so. -/
def ModelCall.Lost (c : ModelCall M) : Prop := c.kind.IsAgent ∧ c.status.Lost

instance : DecidablePred (ModelCall.Lost (M := M)) := fun _ => inferInstanceAs (Decidable (_ ∧ _))

variable {P : ModelCall M → Prop} [DecidablePred P] {n : TokenName} {limits : UsageLimits M}
  {s t : UsageState M} {l : UsageLabel F M} {c : ModelCall M}

theorem peak_append (reported : List (Tokens M)) (t : Tokens M) (n : TokenName) :
    peak (reported ++ [t]) n = max (peak reported n) (t.get n) := by
  rw [peak, List.map_append, List.foldl_append]
  rfl

theorem peak_nonneg (reported : List (Tokens M)) (n : TokenName) : 0 ≤ peak reported n := by
  induction reported using List.reverseRecOn with
  | nil => exact le_rfl
  | append_singleton reported t ih =>
    rw [peak_append]
    exact ih.trans (le_max_left _ _)

theorem sumOf_middle (before after : List (ModelCall M)) (c : ModelCall M) :
    sumOf P n (before ++ c :: after) =
      sumOf P n (before ++ after) + if P c then peak c.reported n else 0 := by
  induction before with
  | nil => exact add_comm _ _
  | cons b before ih =>
    rw [List.cons_append, List.cons_append, sumOf, List.foldr_cons, ← sumOf, ih, ← add_assoc]
    rfl

/-! ## The invariant -/

/-- The maxima are those of what has been reported; the usage and what has been lost are the sum. -/
structure UsageInv (s : UsageState M) : Prop where
  maxima : ∀ c ∈ s.calls, ∀ n, c.maxima.get n = peak c.reported n
  lost : ∀ n, s.usage.get n + sumOf ModelCall.Lost n s.calls =
    sumOf (fun c => c.status.Ended) n s.calls

/-- The usage at the end of a call: its counts are added, unless they are lost. -/
theorem get_finish (limits : UsageLimits M) (usage : Tokens M) (c : ModelCall M)
    (stream call : Option CallError) (n : TokenName) :
    (c.finish limits usage stream).1.get n =
      usage.get n + if (c.close stream call).Lost then 0 else c.maxima.get n := by
  rcases hkind : c.kind with _ | ⟨chars, raises⟩
  · rcases stream with _ | _ | _ | _ | _ <;>
      simp [ModelCall.finish, ModelCall.close, hkind, llmEnd, ModelCall.Lost, CallKind.IsAgent,
        CallStatus.Lost, CallError.Uncounted]
  · simp [ModelCall.finish, ModelCall.close, hkind, ModelCall.Lost, CallKind.IsAgent]

theorem UsageInv.step (h : UsageInv s) (hstep : UsageStep limits s l t) : UsageInv t := by
  rcases hstep with ⟨usage, calls, kind⟩ | ⟨usage, before, after, c, d, hc⟩ |
    ⟨usage, before, after, c, stream, hc⟩
  · refine ⟨?_, fun n => ?_⟩
    · rw [List.forall_mem_append, List.forall_mem_singleton]
      exact ⟨h.maxima, get_noTokens⟩
    · have hlost := h.lost n
      rw [sumOf_middle, sumOf_middle, List.append_nil, ← add_assoc, hlost]
      congr 1
      exact (if_neg fun hl => hl.2).trans (if_neg not_false).symm
  · have hmaxima := h.maxima
    rw [List.forall_mem_append, List.forall_mem_cons] at hmaxima
    refine ⟨?_, fun n => ?_⟩
    · rw [List.forall_mem_append, List.forall_mem_cons]
      refine ⟨hmaxima.1, fun n => ?_, hmaxima.2.2⟩
      rw [ModelCall.receive, get_map₂, peak_append, hmaxima.2.1 n]
    · have hlost := h.lost n
      -- the call has not ended, before or after
      have hended : ¬(c.receive limits usage d).status.Ended ∧
          ¬(c.receive limits usage d).Lost := by
        rw [ModelCall.receive, hc, ModelCall.Lost]
        rcases c.kind with _ | ⟨chars, raises⟩
        · exact ⟨not_false, fun hl => hl.2⟩
        · dsimp only
          split <;> exact ⟨not_false, fun hl => hl.2⟩
      have hstreaming : ¬c.status.Ended ∧ ¬c.Lost := by
        rw [ModelCall.Lost, hc]
        exact ⟨not_false, fun hl => hl.2⟩
      rw [sumOf_middle, sumOf_middle, if_neg hstreaming.1, if_neg hstreaming.2] at hlost
      rw [sumOf_middle, sumOf_middle, if_neg hended.1, if_neg hended.2, hlost]
  · have hmaxima := h.maxima
    rw [List.forall_mem_append, List.forall_mem_cons] at hmaxima
    refine ⟨?_, fun n => ?_⟩
    · rw [List.forall_mem_append, List.forall_mem_cons]
      exact hmaxima
    · have hlost := h.lost n
      have hrunning : ¬c.Lost := fun hl => hc <| by
        revert hl
        rw [ModelCall.Lost]
        rcases c.status with _ | _ | _
        · exact fun hl => hl.2
        · exact fun hl => hl.2
        · exact fun _ => trivial
      rw [sumOf_middle, sumOf_middle, if_neg hc, if_neg hrunning, add_zero, add_zero] at hlost
      have hfinish := get_finish limits usage c stream (c.finish limits usage stream).2 n
      rw [hmaxima.2.1 n] at hfinish
      generalize (c.finish limits usage stream) = r at hfinish ⊢
      have hclosed : (c.close stream r.2).status.Ended := trivial
      rw [sumOf_middle, sumOf_middle, hfinish, if_pos hclosed, ← hlost]
      split_ifs
      · rw [add_zero, add_assoc]
      · rw [add_zero, add_right_comm]
        rfl

theorem usageInv_of_reachable (h : (usageSystem F limits).Reachable s) : UsageInv s :=
  h.invariant
    (fun _ hs => hs ▸ ⟨fun _ hc => absurd hc List.not_mem_nil, fun n => by
      rw [get_noTokens]
      exact add_zero 0⟩)
    fun _ _ _ _ hs hstep => hs.step hstep

/-- A call that has ended stays as it is. -/
theorem mem_of_step (hstep : UsageStep limits s l t) (hc : c ∈ s.calls) (hended : c.status.Ended) :
    c ∈ t.calls := by
  rcases hstep with ⟨usage, calls, kind⟩ | ⟨usage, before, after, b, d, hb⟩ |
    ⟨usage, before, after, b, stream, hb⟩
  · exact List.mem_append_left _ hc
  · have hne : c ≠ b := fun h => by
      rw [h, hb] at hended
      exact hended
    simp only [List.mem_append, List.mem_cons, hne, false_or] at hc ⊢
    exact hc.imp_right .inr
  · have hne : c ≠ b := fun h => hb (h ▸ hended)
    simp only [List.mem_append, List.mem_cons, hne, false_or] at hc ⊢
    exact hc.imp_right .inr

omit [AddCommGroup M] [LinearOrder M] in
theorem ModelCall.Lost.ended (h : c.Lost) : c.status.Ended := by
  obtain ⟨-, h⟩ := h
  revert h
  rcases c.status with _ | _ | _
  · exact id
  · exact id
  · exact fun _ => trivial

variable [IsOrderedAddMonoid M]

theorem sumOf_eq_zero {calls : List (ModelCall M)} :
    sumOf P n calls = 0 ↔ ∀ c ∈ calls, P c → peak c.reported n = 0 := by
  have hnonneg (c : ModelCall M) : 0 ≤ if P c then peak c.reported n else 0 := by
    split_ifs
    · exact peak_nonneg _ n
    · exact le_rfl
  have hsum (calls : List (ModelCall M)) : 0 ≤ sumOf P n calls := by
    induction calls with
    | nil => exact le_rfl
    | cons c calls ih => exact add_nonneg (hnonneg c) ih
  induction calls with
  | nil => exact ⟨fun _ _ hc => absurd hc List.not_mem_nil, fun _ => rfl⟩
  | cons c calls ih =>
    have hcons : sumOf P n (c :: calls) =
      (if P c then peak c.reported n else 0) + sumOf P n calls := rfl
    rw [hcons, add_eq_zero_iff_of_nonneg (hnonneg c) (hsum calls), List.forall_mem_cons,
      ite_eq_right_iff]
    exact and_congr_right' ih

/-- The usage is the sum of what has been reported if and only if nothing has been lost. -/
theorem accounted_iff (h : UsageInv s) :
    Accounted s ↔ ∀ c ∈ s.calls, c.Lost → ∀ n, peak c.reported n = 0 := by
  have hlost (n : TokenName) : s.usage.get n = sumOf (fun c => c.status.Ended) n s.calls ↔
      sumOf ModelCall.Lost n s.calls = 0 := by
    rw [← h.lost n, left_eq_add]
  simp only [Accounted, hlost, sumOf_eq_zero]
  exact ⟨fun h c hc hl n => h n c hc hl, fun h n c hc hl => h c hc hl n⟩

/-- A delta that reports ten tokens of input. -/
def tenTokens : ModelDelta Unit ℤ := { tokens := { (noTokens : Tokens ℤ) with input := 10 } }

/-- A call of an agent that has reported them. -/
def tenCall : ModelCall ℤ :=
  ({ kind := .agent, maxima := noTokens } : ModelCall ℤ).receive ⟨none, none⟩ noTokens tenTokens

/-- The call has ended. -/
def tenState (stream : Option CallError) : UsageState ℤ :=
  ⟨(tenCall.finish ⟨none, none⟩ noTokens stream).1,
    [tenCall.close stream (tenCall.finish ⟨none, none⟩ noTokens stream).2]⟩

theorem reachable_tenState (stream : Option CallError) :
    (usageSystem Unit ⟨none, none⟩).Reachable (tenState stream) := by
  have hinit : (usageSystem Unit (⟨none, none⟩ : UsageLimits ℤ)).Reachable ⟨noTokens, []⟩ :=
    .init rfl
  have hstart := hinit.step (.start _ _ .agent)
  have hdelta := hstart.step (.delta _ [] [] _ tenTokens rfl)
  exact hdelta.step (.finish _ [] [] _ stream not_false)

end Hyperforge.HarnessSdk
