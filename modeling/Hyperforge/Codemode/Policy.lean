import Hyperforge.Codemode.Dispatch

/-!
# The policy of an execution

What a worker may do is told by the trace of its dispatches: there is one output, tasks are for
known capabilities, no more than allowed, results are small enough, and no check or emission fails.
What breaks a rule is an offence, with the exception for it (`offence`), and the latch holds that of
the first one (`synced`).

* `policy_enforced`: when the execution returns, nothing has broken a rule, and its value is that
  of the one output; once a rule has been broken, the execution ends with the exception for the
  first offence if its runner returns, and with that of the runner if it raises.

A worker that does not catch an exception fails, and then the runner raises one of its own.
-/

namespace Hyperforge.Codemode.Dispatch

open Json hiding Tree
open Protocol
open Sanitizer hiding total
open Coroutines (total)

section Offences

variable {F : Type} (S : Setting F)

/-- The tasks of a trace. -/
def tasks (log : List (Entry F)) : List (RestrictedPythonTask F) :=
  log.filterMap fun
    | .dispatched task => some task
    | _ => none

/-- The tasks for the output. -/
def outputs (log : List (Entry F)) : List (RestrictedPythonTask F) :=
  (tasks log).filter (·.function = outputFunctionName)

/-- The tasks for capabilities. -/
def nested (log : List (Entry F)) : List (RestrictedPythonTask F) :=
  (tasks log).filter (·.function ≠ outputFunctionName)

/-- The size of a result that is about to be returned. -/
def Entry.resultBytes : Entry F → ℕ
  | encoded (.ok resultBytes) => resultBytes
  | _ => 0

/-- The exception for an entry that breaks a rule, after a trace. -/
def offence (log : List (Entry F)) : Entry F → Option Exc
  | .dispatched task =>
    if task.function = outputFunctionName then
      if outputs log = [] then
        match normalizedOutput S task with
        | .error e => some e
        | .ok _ => none
      else some (.valueError (.ofString "output(value) may only be called once"))
    else match S.capability task.function with
      | none => some (unknownCapability task.function)
      | some _ =>
        if (nested log).length < S.limits.maxNestedCalls then none
        else some (nestedLimitExceeded S ((nested log).length + 1))
  | .checked (.error e) => policyViolation e
  | .notEmitted => some .capabilityEventFailure
  | .normalized (.error e) | .encoded (.error e) => some e
  | .encoded (.ok resultBytes) =>
    let projected := total Entry.resultBytes log + resultBytes
    if projected ≤ S.limits.maxCumulativeResultBytes then none
    else some (cumulativeLimitExceeded S projected)
  | _ => none

/-- The exception for the first offence. -/
def firstOffence (log : List (Entry F)) : List (Entry F) → Option Exc
  | [] => none
  | x :: xs => (offence S log x).or (firstOffence (log ++ [x]) xs)

/-- The state after a trace without offences. -/
structure Clean (s : Shared F) (log : List (Entry F)) : Prop where
  attempts : s.attempts = (outputs log).length
  le_one : (outputs log).length ≤ 1
  output : ∀ task ∈ outputs log, normalizedOutput S task = .ok s.value
  called : s.called ↔ outputs log ≠ []
  nestedCalls : s.nestedCalls = (nested log).length
  bytes : s.cumulativeResultBytes = total Entry.resultBytes log

/-- What is latched at first. -/
def contextViolation : Option Exc :=
  match S.eventContext with
  | .error e => some e
  | .ok () => none

/-- The latch holds the first offence of the trace, which is raised as it is. -/
structure Synced (s : Shared F) (log : List (Entry F)) : Prop where
  violation : s.violation = (contextViolation S).or (firstOffence S [] log)
  clean : s.violation = none → Clean S s log
  rebuilt : contextViolation S = none → ∀ e, s.violation = some e → e.rebuilt = e

/-- What a move does after a trace without offences. -/
structure Follows (log : List (Entry F)) (m : Move F) : Prop where
  violation : m.1.violation = firstOffence S log m.2.2
  clean : m.1.violation = none → Clean S m.1 (log ++ m.2.2)
  rebuilt : ∀ e, m.1.violation = some e → e.rebuilt = e

variable {S} {s : Shared F} {log log' : List (Entry F)} {e : Exc}

theorem outputs_append : outputs (log ++ log') = outputs log ++ outputs log' := by
  rw [outputs, tasks, List.filterMap_append, List.filter_append]
  rfl

theorem nested_append : nested (log ++ log') = nested log ++ nested log' := by
  rw [nested, tasks, List.filterMap_append, List.filter_append]
  rfl

theorem firstOffence_append (pre xs ys : List (Entry F)) : firstOffence S pre (xs ++ ys) =
    (firstOffence S pre xs).or (firstOffence S (pre ++ xs) ys) := by
  induction xs generalizing pre with
  | nil => simp [firstOffence]
  | cons x xs ih => simp [firstOffence, ih, Option.or_assoc]

theorem violation_latch (h : s.violation = none) : (s.latch e).violation = some e := by
  simp [Shared.latch, h]

theorem violation_latch_of_some {e' : Exc} (h : s.violation = some e') :
    (s.latch e).violation = some e' := by
  simp [Shared.latch, h]

/-- A move that offends, and latches the exception for it. -/
theorem Follows.of_offence {m : Move F} (h : m.1.violation = some e)
    (h' : firstOffence S log m.2.2 = some e) (he : e.rebuilt = e) : Follows S log m where
  violation := h.trans h'.symm
  clean hnone := by rw [h] at hnone; cases hnone
  rebuilt e' he' := by
    obtain rfl : e = e' := by simpa [h] using he'
    exact he

/-- A trace that goes on without a task for the output. -/
theorem Clean.append (h : Clean S s log) {s' : Shared F} (houtputs : outputs log' = [])
    (hs : (s'.attempts, s'.called, s'.value) = (s.attempts, s.called, s.value))
    (hnested : s'.nestedCalls = s.nestedCalls + (nested log').length)
    (hbytes : s'.cumulativeResultBytes = s.cumulativeResultBytes + total Entry.resultBytes log') :
    Clean S s' (log ++ log') := by
  obtain ⟨hattempts, hcalled, hvalue⟩ : s'.attempts = s.attempts ∧ s'.called = s.called ∧
      s'.value = s.value := by simpa using hs
  have ho : outputs (log ++ log') = outputs log := by
    rw [outputs_append, houtputs, List.append_nil]
  refine ⟨?_, ho ▸ h.le_one, ?_, ?_, ?_, ?_⟩
  · rw [hattempts, ho, h.attempts]
  · rw [hvalue, ho]
    exact h.output
  · rw [hcalled, ho]
    exact h.called
  · rw [hnested, nested_append, List.length_append, h.nestedCalls]
  · rw [hbytes, Coroutines.total_append, h.bytes]

theorem Synced.move (h : Synced S s log) {m : Move F}
    (hmono : ∀ e, s.violation = some e → m.1.violation = some e)
    (hm : s.violation = none → Clean S s log → Follows S log m) :
    Synced S m.1 (log ++ m.2.2) := by
  cases hv : s.violation with
  | none =>
    have hm := hm hv (h.clean hv)
    refine ⟨?_, hm.clean, fun _ => hm.rebuilt⟩
    rw [firstOffence_append, ← Option.or_assoc, ← h.violation, hv, hm.violation]
    rfl
  | some e =>
    have hm := hmono e hv
    refine ⟨?_, fun hnone => (by rw [hm] at hnone; cases hnone), fun hcontext e' he' => ?_⟩
    · rw [firstOffence_append, ← Option.or_assoc, ← h.violation, hv, hm]
      rfl
    · exact h.rebuilt hcontext e' (hv.trans (hm.symm.trans he'))

/-- A move that does not offend. -/
theorem Follows.of_clean {m : Move F} (h : m.1.violation = none)
    (h' : firstOffence S log m.2.2 = none) (hc : Clean S m.1 (log ++ m.2.2)) : Follows S log m where
  violation := h.trans h'.symm
  clean _ := hc
  rebuilt e he := by rw [h] at he; cases he

theorem Follows.refl (hs : s.violation = none) (h : Clean S s log) (p : Phase F) :
    Follows S log (s, p, []) := .of_clean hs rfl (by rwa [List.append_nil])

theorem Follows.phase {s : Shared F} {p : Phase F} (h : Follows S log (s, p, log')) (p' : Phase F) :
    Follows S log (s, p', log') := ⟨h.violation, h.clean, h.rebuilt⟩

/-- What is neither counted nor an offence does not matter. -/
theorem Follows.snoc {p : Phase F} (h : Follows S log (s, p, log')) (p' : Phase F) {x : Entry F}
    (hoffence : ∀ log, offence S log x = none) (htasks : tasks [x] = [])
    (hbytes : x.resultBytes = 0) : Follows S log (s, p', log' ++ [x]) where
  violation := by
    rw [firstOffence_append, firstOffence, firstOffence, hoffence, Option.or_none, Option.or_none]
    exact h.violation
  clean hs := by
    rw [← List.append_assoc]
    exact (h.clean hs).append (by rw [outputs, htasks]; rfl) rfl (by rw [nested, htasks]; rfl)
      (by rw [Coroutines.total_cons, hbytes]; rfl)
  rebuilt := h.rebuilt

theorem Follows.event {p : Phase F} (h : Follows S log (s, p, log')) (p' : Phase F) {x : Entry F}
    (hx : x.IsEvent) : Follows S log (s, p', log' ++ [x]) := by
  cases x <;> first | exact h.snoc p' (fun _ => rfl) rfl rfl | cases hx

theorem Follows.handle {p : Phase F} (h : Follows S log (s, p, log')) (c : Call F) (e : Exc) :
    Follows S log (handle s c e log') := h.event _ rfl

theorem rebuilt_of_mapError {α : Type} {x : Except PyError α}
    (h : x.mapError Exc.ofPyError = .error e) : e.rebuilt = e := by
  rcases x with (_ | _) | _ <;> cases h <;> rfl

theorem follows_deliver (hs : s.violation = none) (h : Clean S s log) (c : Call F) (v : Value F) :
    Follows S log (deliver S s c v) := by
  rw [deliver]
  split
  next e he =>
    refine Follows.handle (p := .executing c) (.of_offence (e := e) (violation_latch hs) ?_ ?_) c e
    · simp [firstOffence, offence]
    · exact rebuilt_of_mapError he
  next n resultBytes hn =>
    split
    next e he =>
      refine Follows.handle (p := .executing c) (.of_offence (e := e) (violation_latch hs) ?_ ?_)
        c e
      · simp [firstOffence, offence]
      · exact rebuilt_of_mapError he
    next hencoded =>
      have htotal : total Entry.resultBytes (log ++ [.normalized (.ok (n, resultBytes))]) =
          s.cumulativeResultBytes := by
        rw [Coroutines.total_append, h.bytes]
        rfl
      dsimp only
      split
      next hlt =>
        refine Follows.handle (p := .executing c) (.of_offence (violation_latch hs) ?_ rfl) c _
        simp [firstOffence, offence, htotal, hlt]
      next hle =>
        have hfollows : Follows S log ({ s with
            cumulativeResultBytes := s.cumulativeResultBytes + resultBytes }, .executing c,
            [.normalized (.ok (n, resultBytes)), .encoded (.ok resultBytes)]) := by
          refine .of_clean hs ?_ ?_
          · simp [firstOffence, offence, htotal, not_lt.1 hle]
          · exact h.append rfl rfl rfl (by simp [Entry.resultBytes])
        split
        · exact hfollows.handle c _
        · exact hfollows.event _ rfl

/-- A task for a capability. -/
theorem nested_dispatched {task : RestrictedPythonTask F} (h : task.function ≠ outputFunctionName) :
    nested [.dispatched task] = [task] ∧ outputs [.dispatched task] = [] := by
  simp [nested, outputs, tasks, h]

theorem follows_refuse (hs : s.violation = none)
    (h : firstOffence S log log' = some e) (he : e.rebuilt = e) :
    Follows S log (refuse s e log') := by
  rw [refuse]
  exact .of_offence (violation_latch hs) h he

theorem rebuilt_policyViolation {v : Exc} (h : policyViolation e = some v) : v.rebuilt = v := by
  rw [policyViolation.eq_def] at h
  split at h
  · cases h
    rfl
  · split at h <;> cases h
    rfl

theorem follows_request (hs : s.violation = none) {a : Argument F} {c : Capability} {s' : Shared F}
    (hs' : s' = { s with nestedCalls := s.nestedCalls + 1, toolCalls := s.toolCalls + 1 })
    (h : Clean S s log) (hf : a.task.function ≠ outputFunctionName)
    (hc : S.capability a.task.function = some c) (hlt : s.nestedCalls < S.limits.maxNestedCalls) :
    Follows S log (request S s' c a) := by
  subst hs'
  obtain ⟨hnested, houtputs⟩ := nested_dispatched hf
  have hoffence : offence S log (.dispatched a.task) = none := by
    simp [offence, hf, hc, ← h.nestedCalls, hlt]
  have hfollows : ∀ p, Follows S log ({ s with
      nestedCalls := s.nestedCalls + 1, toolCalls := s.toolCalls + 1 }, p,
      [.dispatched a.task]) := by
    refine fun p => .of_clean hs ?_ (h.append houtputs rfl (by rw [hnested]; rfl) rfl)
    simp [firstOffence, hoffence]
  rw [request]
  split
  next e he =>
    split
    next v hv =>
      refine follows_refuse hs ?_ (rebuilt_policyViolation hv)
      rw [firstOffence, hoffence, Option.none_or]
      simp [firstOffence, offence, hv]
    next hv => exact (hfollows (.finished none (.error e))).snoc _ (fun _ => hv) rfl rfl
  next he =>
    have hchecked : ∀ p, Follows S log ({ s with
        nestedCalls := s.nestedCalls + 1, toolCalls := s.toolCalls + 1 }, p,
        [.dispatched a.task, .checked (.ok ())]) :=
      fun p => (hfollows p).snoc p (fun _ => rfl) rfl rfl
    split
    · exact hchecked _
    · exact (hchecked (.finished none (.ok none))).event _ rfl

theorem violation_record {e : Exc} (h : s.violation = some e) (task : RestrictedPythonTask F) :
    record S s task = ({ s with attempts := s.attempts + 1 }, .error e.rebuilt) := by
  rw [record, Shared.raiseIfFailed, h]

theorem rebuilt_normalizedOutput {task : RestrictedPythonTask F}
    (h : normalizedOutput S task = .error e) : e.rebuilt = e := by
  rw [normalizedOutput] at h
  cases hv : outputValue task with
  | error e' =>
    rw [hv] at h
    cases h
    rw [outputValue] at hv
    split at hv
    · cases hv
      rfl
    split at hv
    · cases hv
      rfl
    split at hv
    · cases hv
      rfl
    split at hv <;> cases hv
    rfl
  | ok v =>
    rw [hv] at h
    cases hn : normalize S v S.limits.maxOutputBytes "Code Mode output" with
    | error e' =>
      simp only [hn, bind, Except.bind] at h
      cases h
      exact rebuilt_of_mapError hn
    | ok n =>
      simp only [hn, bind, Except.bind] at h
      cases h

/-- The first output is recorded if it is well formed; a second one is refused. -/
theorem follows_record (hs : s.violation = none) (h : Clean S s log)
    {task : RestrictedPythonTask F} (hf : task.function = outputFunctionName) :
    (∃ s' e, record S s task = (s', .error e) ∧ s'.violation = some e ∧
        firstOffence S log [.dispatched task] = some e ∧ e.rebuilt = e) ∨
      ∃ s' n, record S s task = (s', .ok n) ∧ ∀ p,
        Follows S log ({ s' with value := n }, p, [.dispatched task]) := by
  rw [record, Shared.raiseIfFailed, hs]
  dsimp only
  split
  next hlt =>
    have hne : outputs log ≠ [] := by
      rw [h.attempts] at hlt
      exact List.ne_nil_of_length_pos (by omega)
    exact .inl ⟨_, _, rfl, violation_latch rfl, by simp [firstOffence, offence, hf, hne], rfl⟩
  next hle =>
    have hnil : outputs log = [] := by
      rw [h.attempts] at hle
      exact List.length_eq_zero_iff.1 (by omega)
    split
    next e he =>
      exact .inl ⟨_, _, rfl, violation_latch rfl, by simp [firstOffence, offence, hf, hnil, he],
        rebuilt_normalizedOutput he⟩
    next n hn =>
      refine .inr ⟨_, _, rfl, fun p => .of_clean rfl ?_ ?_⟩
      · simp [firstOffence, offence, hf, hnil, hn]
      · have houtputs : outputs (log ++ [.dispatched task]) = [task] := by
          rw [outputs_append, hnil]
          simp [outputs, tasks, hf]
        have hnested : nested (log ++ [.dispatched task]) = nested log := by
          rw [nested_append]
          simp [nested, tasks, hf]
        refine ⟨?_, by simp [houtputs], by simp [houtputs, hn], by simp [houtputs], ?_, ?_⟩
        · simp [houtputs, h.attempts, hnil]
        · rw [hnested]
          exact h.nestedCalls
        · rw [Coroutines.total_append]
          exact h.bytes

theorem follows_dispatch (hs : s.violation = none) (h : Clean S s log) (a : Argument F) :
    Follows S log (dispatch S s a) := by
  rw [dispatch]
  split
  next hf =>
    obtain ⟨s', e, hr, hs', hoffence, he⟩ | ⟨s', n, hr, hfollows⟩ := follows_record hs h hf
    · rw [hr]
      exact .of_offence hs' hoffence he
    · rw [hr]
      exact hfollows _
  next hf =>
    rw [Shared.raiseIfFailed, hs]
    dsimp only
    split
    next hc => exact follows_refuse hs (by simp [firstOffence, offence, hf, hc]) rfl
    next c hc =>
      split
      next hle =>
        refine follows_refuse hs ?_ rfl
        simp [firstOffence, offence, hf, hc, ← h.nestedCalls, not_lt.2 hle]
      next hlt => exact follows_request hs (by rw [hs]) h hf hc (not_le.1 hlt)

/-- An emission that raises is an offence. -/
theorem Unsent.follows {s' : Shared F} (h : Unsent s s' log') (hs : s.violation = none)
    (hc : Clean S s log) (p : Phase F) : Follows S log (s', p, log') := by
  obtain ⟨rfl, rfl⟩ | ⟨rfl, rfl⟩ := h
  · exact .refl hs hc p
  · exact .of_offence (violation_latch hs) rfl rfl

theorem follows_resume (hs : s.violation = none) (hc : Clean S s log) {p : Phase F} {i : Input F}
    {m : Move F} (h : resume S s p i = some m) : Follows S log m := by
  have hrefl : Follows S log (s, p, []) := .refl hs hc p
  rw [resume.eq_def] at h
  split at h
  next c r =>
    obtain ⟨s', e, log', hr, hlog⟩ | hr := emitNested_cases s r
    · rw [hr] at h
      cases h
      exact hlog.follows hs hc _
    · rw [hr] at h
      dsimp only at h
      split at h
      · cases h
        exact (hrefl.event (.executing c) rfl).handle c _
      · cases h
        exact hrefl.event _ rfl
  next c e =>
    cases h
    exact hrefl.handle c e
  next c adapted =>
    split at h
    · cases h
      exact hrefl.handle c _
    · cases h
      exact hrefl.handle c _
    · cases h
      exact follows_deliver hs hc c _
    · cases h
      exact hrefl.phase _
  next c e =>
    cases h
    exact hrefl.handle c e
  next c v =>
    cases h
    exact follows_deliver hs hc c v
  next c n resultBytes r =>
    obtain ⟨s', e, log', hr, hlog⟩ | hr := emitNested_cases s r
    · rw [hr] at h
      cases h
      exact hlog.follows hs hc _
    · rw [hr] at h
      cases h
      exact hrefl.event _ rfl
  next c exc r =>
    obtain ⟨s', e, log', hr, hlog⟩ | hr := emitNested_cases s r
    · rw [hr] at h
      cases h
      exact hlog.follows hs hc _
    · rw [hr] at h
      cases h
      exact hrefl.event _ rfl
  next =>
    split at h
    · cases h
      exact .of_offence (violation_latch hs) rfl rfl
    · cases h
  next => cases h

/-! ### The latch -/

theorem latched_deliver (hs : s.violation = some e) (c : Call F) (v : Value F) :
    (deliver S s c v).1.violation = some e := by
  rw [deliver]
  split
  · exact violation_latch_of_some hs
  split
  · exact violation_latch_of_some hs
  dsimp only
  split
  · exact violation_latch_of_some hs
  split <;> exact hs

theorem latched_dispatch (hs : s.violation = some e) (a : Argument F) :
    (dispatch S s a).1.violation = some e := by
  rw [dispatch]
  split
  · rw [violation_record hs]
    exact hs
  · rw [Shared.raiseIfFailed, hs]
    exact hs

theorem Unsent.latched {s' : Shared F} (h : Unsent s s' log') (hs : s.violation = some e) :
    s'.violation = some e := by
  obtain ⟨rfl, -⟩ | ⟨rfl, -⟩ := h
  · exact hs
  · exact violation_latch_of_some hs

theorem latched_resume (hs : s.violation = some e) {p : Phase F} {i : Input F} {m : Move F}
    (h : resume S s p i = some m) : m.1.violation = some e := by
  rw [resume.eq_def] at h
  split at h
  next c r =>
    obtain ⟨s', e', log', hr, hlog⟩ | hr := emitNested_cases s r
    · rw [hr] at h
      cases h
      exact hlog.latched hs
    · rw [hr] at h
      dsimp only at h
      split at h <;> cases h <;> exact hs
  next =>
    cases h
    exact hs
  next c adapted =>
    rw [Shared.raiseIfFailed, hs] at h
    cases h
    exact hs
  next =>
    cases h
    exact hs
  next c v =>
    cases h
    exact latched_deliver hs c v
  next c n resultBytes r =>
    obtain ⟨s', e', log', hr, hlog⟩ | hr := emitNested_cases s r
    · rw [hr] at h
      cases h
      exact hlog.latched hs
    · rw [hr] at h
      cases h
      exact hs
  next c exc r =>
    obtain ⟨s', e', log', hr, hlog⟩ | hr := emitNested_cases s r
    · rw [hr] at h
      cases h
      exact hlog.latched hs
    · rw [hr] at h
      cases h
      exact hs
  next =>
    split at h
    · cases h
      exact violation_latch_of_some hs
    · cases h
  next => cases h

end Offences

/-! ## Executions -/

section Executions

variable {F : Type} {S : Setting F} {toolCalls : ℕ}
  {s t u : Coroutines.State (Shared F) (Phase F) (Entry F)}

/-- What the dispatches have done. -/
def history (s : Coroutines.State (Shared F) (Phase F) (Entry F)) : List (Entry F) :=
  s.trace.map Prod.snd

theorem history_spawn (m : Move F) : history (s.spawn m) = history s ++ m.2.2 := by
  simp [history, Coroutines.State.spawn]

theorem history_move (d : ℕ) (m : Move F) : history (s.move d m) = history s ++ m.2.2 := by
  simp [history, Coroutines.State.move]

/-- What the execution itself does to the shared state. -/
theorem other_spec {s t : Shared F} {w : Other} (h : other s w = some t) :
    (∃ started toolCalls outcome, t = { s with started, toolCalls, outcome }) ∧
      (t.started → s.started ∨ s.violation = none) := by
  rw [other.eq_def] at h
  split at h
  · split at h
    · cases h
    next hs =>
      split at h
      · cases h
        exact ⟨⟨_, _, _, rfl⟩, .inl⟩
      next hr =>
        cases h
        refine ⟨⟨_, _, _, rfl⟩, fun _ => .inr ?_⟩
        rw [Shared.raiseIfFailed] at hr
        split at hr
        · cases hr
        · assumption
  · split at h
    · cases h
      exact ⟨⟨_, _, _, rfl⟩, .inl⟩
    · cases h
  · cases h
    exact ⟨⟨_, _, _, rfl⟩, .inl⟩

theorem Synced.other {s t : Shared F} {log : List (Entry F)} (h : Synced S s log) {w : Other}
    (hw : other s w = some t) : Synced S t log := by
  obtain ⟨⟨_, _, _, rfl⟩, -⟩ := other_spec hw
  exact ⟨h.violation, fun hs => have hc := h.clean hs
    ⟨hc.attempts, hc.le_one, hc.output, hc.called, hc.nestedCalls, hc.bytes⟩, h.rebuilt⟩

theorem synced_initial : Synced S (initial S toolCalls) [] where
  violation := (Option.or_none ..).symm
  clean _ := ⟨rfl, Nat.zero_le _, nofun, by simp [initial, outputs, tasks], rfl, rfl⟩
  rebuilt h e he := by
    rw [show (initial S toolCalls).violation = contextViolation S from rfl, h] at he
    cases he

theorem synced (hr : (system S toolCalls).Reachable s) : Synced S s.shared (history s) := by
  refine Coroutines.Program.moves (I := fun s => Synced S s.shared (history s)) hr synced_initial ?_
  intro s t _ h hst
  cases hst with
  | @start a m hm =>
    simp only [program] at hm
    split at hm
    · cases hm
      rw [history_spawn]
      exact h.move (fun _ he => latched_dispatch he a) fun hs hc => follows_dispatch hs hc a
    · cases hm
  | resume hp hm =>
    rw [history_move]
    exact h.move (fun _ he => latched_resume he hm) fun hs hc => follows_resume hs hc hm
  | other hw => exact h.other hw

/-- Nothing is dispatched unless the markers of the events could be made. -/
theorem contextViolation_of_started (hr : (system S toolCalls).Reachable s) :
    s.shared.started ∨ s.phases ≠ [] → contextViolation S = none := by
  refine Coroutines.Program.moves
    (I := fun s => s.shared.started ∨ s.phases ≠ [] → contextViolation S = none) hr ?_ ?_
  · simp [initial]
  intro s t hs h hst
  cases hst with
  | @start a m hm =>
    simp only [program] at hm
    split at hm
    next hstarted => exact fun _ => h (.inl hstarted)
    · cases hm
  | resume hp =>
    refine fun _ => h (.inr fun hnil => ?_)
    rw [hnil] at hp
    cases hp
  | other hw =>
    rintro (ht | hne)
    · obtain hstarted | hnone := (other_spec hw).2 ht
      · exact h (.inl hstarted)
      · exact (Option.or_eq_none_iff.1 ((synced hs).violation.symm.trans hnone)).1
    · exact h (.inr hne)

/-- The latch is not changed any more. -/
theorem latched_run {e : Exc} {ls} (h : (system S toolCalls).Run s ls t)
    (hs : s.shared.violation = some e) : t.shared.violation = some e := by
  refine h.invariant (I := fun t => t.shared.violation = some e) hs fun t l u _ ht htu => ?_
  cases Coroutines.Program.Step.of_step htu with
  | @start a m hm =>
    simp only [program] at hm
    split at hm
    · cases hm
      exact latched_dispatch ht a
    · cases hm
  | resume hp hm => exact latched_resume ht hm
  | other hw =>
    obtain ⟨⟨_, _, _, hu⟩, -⟩ := other_spec hw
    rw [hu]
    exact ht

/-- How a step that finishes the execution ends it. -/
theorem finish_spec {r : Outcome Unit}
    (h : (system S toolCalls).step s (.other (.finish r)) t) :
    s.shared.started ∧ t = { s with shared := { s.shared with
      outcome := some (conclude s.shared r) } } := by
  obtain ⟨u, hu, rfl⟩ := Option.map_eq_some_iff.1 h
  simp only [program, other] at hu
  split at hu
  next hc =>
    cases hu
    exact ⟨(Bool.and_eq_true_iff.1 hc).1, rfl⟩
  · cases hu

/-- An entry of a trace without offences is none. -/
theorem offence_of_mem {log : List (Entry F)} {x : Entry F} {xs : List (Entry F)}
    (h : firstOffence S log xs = none) (hx : x ∈ xs) : ∃ pre, offence S pre x = none := by
  induction xs generalizing log with
  | nil => cases hx
  | cons y ys ih =>
    rw [firstOffence, Option.or_eq_none_iff] at h
    obtain rfl | hx := List.mem_cons.1 hx
    · exact ⟨log, h.1⟩
    · exact ih h.2 hx

variable (S) in
/-- The rules have been obeyed, and the value is that of the one output. -/
structure Obeyed (s : Coroutines.State (Shared F) (Phase F) (Entry F)) (value : Json.Tree F) :
    Prop where
  output : ∃ task, outputs (history s) = [task] ∧ normalizedOutput S task = .ok value
  known : ∀ task ∈ nested (history s), (S.capability task.function).isSome
  calls : (nested (history s)).length ≤ S.limits.maxNestedCalls
  results : total Phase.resultBytes s.phases ≤ S.limits.maxCumulativeResultBytes
  result : ∀ p ∈ s.phases, p.resultBytes ≤ S.limits.maxResultBytes
  emitted : .notEmitted ∉ history s
  checked : ∀ e, .checked (.error e) ∈ history s → e.IsException = false
  normalized : ∀ e, .normalized (.error e) ∉ history s
  encoded : ∀ e, .encoded (.error e) ∉ history s

theorem mem_nested {log : List (Entry F)} {task : RestrictedPythonTask F} : task ∈ nested log ↔
    .dispatched task ∈ log ∧ task.function ≠ outputFunctionName := by
  simp only [nested, tasks, List.mem_filter, List.mem_filterMap, decide_eq_true_eq]
  refine and_congr_left fun _ => ⟨?_, fun h => ⟨_, h, rfl⟩⟩
  rintro ⟨x, hx, h⟩
  cases x <;> cases h
  exact hx

theorem isException_of_policyViolation {e : Exc} (h : policyViolation e = none) :
    e.IsException = false := by
  rw [policyViolation.eq_def] at h
  split at h
  · cases h
  · split at h
    · cases h
    next he => exact Bool.eq_false_iff.2 he

theorem Traced.resultBytes_le {p : Phase F} {es : List (Entry F)} (h : Traced S p es) :
    p.resultBytes ≤ S.limits.maxResultBytes := by
  cases h with
  | completing _ hw | completed _ hw => exact hw.resultBytes_le
  | refused r hr =>
    obtain e | x := r
    · exact Nat.zero_le _
    · rw [hr x rfl]
      exact Nat.zero_le _
  | _ => exact Nat.zero_le _

theorem obeyed_of_clean (hr : (system S toolCalls).Reachable s)
    (hs : s.shared.violation = none) (hcalled : s.shared.called) :
    Obeyed S s s.shared.value := by
  have hsync := synced hr
  have hclean := hsync.clean hs
  have hnone : firstOffence S [] (history s) = none :=
    (Option.or_eq_none_iff.1 (hsync.violation.symm.trans hs)).2
  have hmem : ∀ x ∈ history s, ∃ pre, offence S pre x = none := fun x hx => offence_of_mem hnone hx
  have hlength : (outputs (history s)).length = 1 :=
    le_antisymm hclean.le_one (List.length_pos_of_ne_nil (hclean.called.1 hcalled))
  obtain ⟨task, htask⟩ := List.length_eq_one_iff.1 hlength
  refine ⟨⟨task, htask, hclean.output task (by simp [htask])⟩, ?_, ?_, ?_, ?_, ?_, ?_, ?_, ?_⟩
  · intro task htask
    obtain ⟨hx, hf⟩ := mem_nested.1 htask
    obtain ⟨pre, hpre⟩ := hmem _ hx
    rw [offence, if_neg hf] at hpre
    split at hpre
    · cases hpre
    next c hc => rw [hc]; rfl
  · exact hclean.nestedCalls ▸ (counted hr).calls_le
  · exact (counted hr).bytes.trans (counted hr).bytes_le
  · intro p hp
    obtain ⟨d, hd, rfl⟩ := List.getElem_of_mem hp
    exact (traced hr (List.getElem?_eq_getElem hd)).resultBytes_le
  · intro hx
    obtain ⟨pre, hpre⟩ := hmem _ hx
    cases hpre
  · intro e hx
    obtain ⟨pre, hpre⟩ := hmem _ hx
    exact isException_of_policyViolation hpre
  · intro e hx
    obtain ⟨pre, hpre⟩ := hmem _ hx
    cases hpre
  · intro e hx
    obtain ⟨pre, hpre⟩ := hmem _ hx
    cases hpre

theorem conclude_of_none {s : Shared F} (h : s.violation = none) {value : Json.Tree F}
    (hok : conclude s (.ok ()) = .ok value) : s.called ∧ s.value = value := by
  rw [conclude, Shared.raiseIfFailed, h] at hok
  dsimp only at hok
  split at hok
  next hc =>
    cases hok
    exact ⟨hc, rfl⟩
  · cases hok

/-- When an execution returns the rules have been obeyed. Once one has been broken, it ends with the
    exception for the first offence, unless the runner raises another one. -/
theorem policy_enforced (hr : (system S toolCalls).Reachable s) :
    (∀ r t value, (system S toolCalls).step s (.other (.finish r)) t →
      t.shared.outcome = some (.ok value) → Obeyed S t value) ∧
    ∀ e, firstOffence S [] (history s) = some e → ∀ ls t, (system S toolCalls).Run s ls t →
      (∀ u, (system S toolCalls).step t (.other (.finish (.ok ()))) u →
        u.shared.outcome = some (.error e)) ∧
      ∀ e' u, (system S toolCalls).step t (.other (.finish (.error e'))) u →
        u.shared.outcome = some (.error e') := by
  constructor
  · intro r t value hst ht
    obtain ⟨hstarted, rfl⟩ := finish_spec hst
    have hok : conclude s.shared r = .ok value := Option.some.inj ht
    obtain e | ⟨⟨⟩⟩ := r
    · cases hok
    cases hv : s.shared.violation with
    | some e =>
      rw [conclude, Shared.raiseIfFailed, hv] at hok
      cases hok
    | none =>
      obtain ⟨hcalled, rfl⟩ := conclude_of_none hv hok
      have h := obeyed_of_clean hr hv hcalled
      exact ⟨h.output, h.known, h.calls, h.results, h.result, h.emitted, h.checked, h.normalized,
        h.encoded⟩
  · intro e he ls t hrun
    constructor
    · intro u hu
      obtain ⟨hstarted, rfl⟩ := finish_spec hu
      have hcontext := contextViolation_of_started (hr.run hrun) (.inl hstarted)
      have hviolation : s.shared.violation = some e := by
        rw [(synced hr).violation, hcontext, Option.none_or, he]
      have hlatched := latched_run hrun hviolation
      have hrebuilt := (synced hr).rebuilt hcontext e hviolation
      simp [conclude, Shared.raiseIfFailed, hlatched, hrebuilt]
    · intro e' u hu
      obtain ⟨-, rfl⟩ := finish_spec hu
      rfl

end Executions

/-- A task for a function without arguments. -/
def taskFor (function : String) (args : List (Value Bool)) : Argument Bool where
  task := { function := .ofString function, agent := [], args, keywordArgs := [] }
  checkLimit _ := .ok ()
  id := .ofString "1"

/-- An output, after a call. -/
def answered : List (Coroutines.Label (Argument Bool) (Input Bool) Other) :=
  listed ++ [.start (taskFor "output" [.bool true])]

theorem answered_isSome : (answered.foldlM (program listing).step
    { shared := initial listing 0, phases := [], trace := [] }).isSome := by
  decide +kernel

def afterAnswered : Coroutines.State (Shared Bool) (Phase Bool) (Entry Bool) :=
  (answered.foldlM (program listing).step
    { shared := initial listing 0, phases := [], trace := [] }).get answered_isSome

theorem reachable_afterAnswered : (system listing 0).Reachable afterAnswered :=
  Transition.System.reachable_of_replay (Option.some_get answered_isSome).symm

theorem isSome_finish : (((program listing).step afterAnswered (.other (.finish (.ok ())))).bind
    fun t => t.shared.outcome.bind Except.toOption).isSome := by
  decide +kernel

/-- The execution returns, and has obeyed the rules. -/
theorem policy_enforced_answered : ∃ t value,
    (system listing 0).step afterAnswered (.other (.finish (.ok ()))) t ∧
      t.shared.outcome = some (.ok value) ∧ Obeyed listing t value := by
  obtain ⟨value, h⟩ := Option.isSome_iff_exists.1 isSome_finish
  obtain ⟨t, ht, h⟩ := Option.bind_eq_some_iff.1 h
  obtain ⟨outcome, houtcome, h⟩ := Option.bind_eq_some_iff.1 h
  obtain rfl : outcome = .ok value := by
    cases outcome with
    | error => cases h
    | ok => exact congrArg _ (Option.some.inj h)
  exact ⟨t, value, ht, houtcome, (policy_enforced reachable_afterAnswered).1 _ t value ht houtcome⟩

/-- A call of an unknown capability, whose exception the worker does not catch. -/
def uncaught : List (Coroutines.Label (Argument Bool) (Input Bool) Other) :=
  [.other .start, .start (taskFor "remove" [])]

theorem uncaught_isSome : (uncaught.foldlM (program listing).step
    { shared := initial listing 0, phases := [], trace := [] }).isSome := by
  decide +kernel

def afterUncaught : Coroutines.State (Shared Bool) (Phase Bool) (Entry Bool) :=
  (uncaught.foldlM (program listing).step
    { shared := initial listing 0, phases := [], trace := [] }).get uncaught_isSome

theorem reachable_afterUncaught : (system listing 0).Reachable afterUncaught :=
  Transition.System.reachable_of_replay (Option.some_get uncaught_isSome).symm

/-- What the runner raises when code in the sandbox has raised. -/
def codeFailed : Exc :=
  .runtimeError (.ofString "Python agent error: Generated code execution failed")

/-- The exception is not the one for the first offence: the runner's comes first. -/
theorem not_forall_first : ¬∀ s, (system listing 0).Reachable s →
    ∀ e, firstOffence listing [] (history s) = some e → ∀ r t,
      (system listing 0).step s (.other (.finish r)) t → t.shared.outcome = some (.error e) := by
  intro h
  have hoffence : firstOffence listing [] (history afterUncaught) =
      some (unknownCapability (.ofString "remove")) := by decide +kernel
  have hfinish : ((program listing).step afterUncaught
      (.other (.finish (.error codeFailed)))).isSome := by decide +kernel
  obtain ⟨t, ht⟩ := Option.isSome_iff_exists.1 hfinish
  have hst : (system listing 0).step afterUncaught (.other (.finish (.error codeFailed))) t := ht
  have hfirst := h _ reachable_afterUncaught _ hoffence _ t hst
  obtain ⟨-, rfl⟩ := finish_spec hst
  have hne : codeFailed ≠ unknownCapability (.ofString "remove") := by decide
  exact hne (Except.error.inj (Option.some.inj hfirst))

end Hyperforge.Codemode.Dispatch
