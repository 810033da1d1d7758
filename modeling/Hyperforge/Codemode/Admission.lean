import Hyperforge.Codemode.Callbacks
import Mathlib.Algebra.BigOperators.Group.Finset.Basic
import Mathlib.Algebra.Order.BigOperators.Group.Finset
import Mathlib.Data.Finset.Sum

/-!
# The admission of executions

A limiter shared by executions of untrusted code admits a bounded number of them
at a time (`CodeModeExecutionLimiter`). The slot of an execution is released when its
run is over, whatever the outcome; but callbacks of its runner may be outstanding
then, and the slot is released when they have completed
(`run_when_callbacks_complete`), which is found by counting them down (`Countdown`).

Executions, their runners and the completions of callbacks may be on several
threads: a step of the model is a section of code under a lock, or of one
execution, and the steps of different executions interleave.
-/

namespace Hyperforge.Codemode.Admission

open Transition

/-! ## The limiter -/

structure CodeModeExecutionLimiter where
  maxConcurrentExecutions : ℕ
  active : ℤ := 0
  pos : 0 < maxConcurrentExecutions

namespace CodeModeExecutionLimiter

variable (limiter : CodeModeExecutionLimiter)

def acquire : Except String CodeModeExecutionLimiter :=
  if limiter.active ≥ limiter.maxConcurrentExecutions then
    .error ("Code Mode concurrency limit reached: " ++ toString limiter.active ++ " >= " ++
      toString limiter.maxConcurrentExecutions)
  else .ok { limiter with active := limiter.active + 1 }

def release : CodeModeExecutionLimiter := { limiter with active := limiter.active - 1 }

variable {limiter}

theorem acquire_eq_ok {limiter' : CodeModeExecutionLimiter} : limiter.acquire = .ok limiter' ↔
    limiter.active < limiter.maxConcurrentExecutions ∧
      limiter' = { limiter with active := limiter.active + 1 } := by
  rw [acquire]
  split_ifs with h
  · simp [h]
  · simp [not_le.1 h, eq_comm]

end CodeModeExecutionLimiter

/-! ## Executions -/

/-- A future (left) or a task (right) is done. -/
def Completed (runner : Callbacks.State) : ℕ ⊕ ℕ → Prop
  | .inl f => runner.Done f
  | .inr t => t ∈ runner.finished

/-- The futures and tasks of a runner that are not done. -/
def outstanding (runner : Callbacks.State) : Finset (ℕ ⊕ ℕ) :=
  (runner.runner.pendingCallbackFutures.filter (¬runner.Done ·)).disjSum
    ((runner.runner.callbackTasks ∪ runner.runner.orphanedCallbackTasks).filter
      (· ∉ runner.finished))

/-- The variables of `run_when_callbacks_complete`: the callbacks it has still to
    register with, those that have still to call it back, and their number. -/
structure Countdown where
  unregistered : Finset (ℕ ⊕ ℕ)
  registered : Finset (ℕ ⊕ ℕ) := ∅
  remaining : ℤ
  registrationComplete : Bool := false

namespace Countdown

variable (k : Countdown)

def register (c : ℕ ⊕ ℕ) : Countdown :=
  { k with unregistered := k.unregistered.erase c, registered := insert c k.registered }

/-- `completed`, with whether it releases. -/
def completed (c : ℕ ⊕ ℕ) : Countdown × Bool :=
  let k := { k with registered := k.registered.erase c, remaining := k.remaining - 1 }
  (k, k.registrationComplete && k.remaining == 0)

/-- The end of the registration, with whether it releases. -/
def complete : Countdown × Bool := ({ k with registrationComplete := true }, k.remaining == 0)

/-- The callbacks that have not called back. -/
def left : Finset (ℕ ⊕ ℕ) := k.unregistered ∪ k.registered

end Countdown

/-- Where an execution is: it may be refused, or is running, registering with
    the callbacks outstanding, or at its end. -/
inductive Phase
  | start
  | refused
  | running
  | registering
  | ended
  deriving DecidableEq

structure Execution where
  phase : Phase := .start
  /-- The runner of the sandbox, if the execution has created one. -/
  runner : Option Callbacks.State := none
  countdown : Option Countdown := none
  /-- How many calls of `release` are to be made, and have been. -/
  releasing : ℕ := 0
  released : ℕ := 0

inductive Action
  | createRunner
  | callback (l : Callbacks.Label)
  | endRun
  | register (c : ℕ ⊕ ℕ)
  | completed (c : ℕ ⊕ ℕ)
  | endRegistration
  deriving DecidableEq

namespace Execution

variable (x : Execution)

/-- The end of the run: the slot is released, unless callbacks are outstanding. -/
def endRun : Execution :=
  match x.runner with
  | none => { x with phase := .ended, releasing := x.releasing + 1 }
  | some runner =>
    let pending := outstanding runner
    if pending = ∅ then { x with phase := .ended, releasing := x.releasing + 1 }
    else { x with
      phase := .registering
      countdown := some { unregistered := pending, remaining := pending.card } }

/-- The count is changed, and the slot is to be released if it says so. -/
def count (k : Countdown × Bool) : Execution :=
  { x with countdown := some k.1, releasing := x.releasing + k.2.toNat }

/-- The callbacks that have not called back. -/
def left : Finset (ℕ ⊕ ℕ) :=
  match x.countdown with
  | none => ∅
  | some k => k.left

end Execution

/-- The steps of an execution. The runner takes its own at any time, but runs
    only during the run of the execution. -/
inductive Execution.Step : Execution → Action → Execution → Prop
  | createRunner {x} (hp : x.phase = .running) (hr : x.runner = none) :
    Step x .createRunner { x with runner := some {} }
  | callback {x runner runner' l} (hr : x.runner = some runner)
    (hb : l = .beginCallbackRun → x.phase = .running) (hs : Callbacks.Step runner l runner') :
    Step x (.callback l) { x with runner := some runner' }
  | endRun {x} (hp : x.phase = .running)
    (hr : ∀ runner, x.runner = some runner → runner.phase = .idle ∧ runner.loop = .none) :
    Step x .endRun x.endRun
  | register {x k c} (hk : x.countdown = some k) (hc : c ∈ k.unregistered) :
    Step x (.register c) { x with countdown := some (k.register c) }
  | completed {x k c runner} (hk : x.countdown = some k) (hc : c ∈ k.registered)
    (hr : x.runner = some runner) (hd : Completed runner c) :
    Step x (.completed c) (x.count (k.completed c))
  | endRegistration {x k} (hp : x.phase = .registering) (hk : x.countdown = some k)
    (hu : k.unregistered = ∅) :
    Step x .endRegistration { x.count k.complete with phase := .ended }

/-- Executions are numbered; `admitted` have acquired a slot. -/
structure State where
  limiter : CodeModeExecutionLimiter
  executions : ℕ → Execution := fun _ => {}
  admitted : Finset ℕ := ∅

inductive Label
  | acquire (e : ℕ)
  | refuse (e : ℕ)
  | release (e : ℕ)
  | execution (e : ℕ) (a : Action)
  deriving DecidableEq

/-- The state of an execution is changed. -/
def State.set (s : State) (e : ℕ) (x : Execution) : State :=
  { s with executions := fun e' => if e' = e then x else s.executions e' }

inductive Step : State → Label → State → Prop
  | acquire {s e limiter} (hp : (s.executions e).phase = .start)
    (h : s.limiter.acquire = .ok limiter) :
    Step s (.acquire e) { s.set e { s.executions e with phase := .running } with
      limiter := limiter
      admitted := insert e s.admitted }
  | refuse {s e message} (hp : (s.executions e).phase = .start)
    (h : s.limiter.acquire = .error message) :
    Step s (.refuse e) (s.set e { s.executions e with phase := .refused })
  | release {s e n} (hr : (s.executions e).releasing = n + 1) :
    Step s (.release e) { s.set e { s.executions e with
      releasing := n
      released := (s.executions e).released + 1 } with limiter := s.limiter.release }
  | execution {s e a x} (hs : (s.executions e).Step a x) :
    Step s (.execution e a) (s.set e x)

/-- Executions share a limiter, with no execution at first. -/
def system (maxConcurrentExecutions : ℕ) : System State Label where
  init s := s.limiter.maxConcurrentExecutions = maxConcurrentExecutions ∧
    s.limiter.active = 0 ∧ s.executions = (fun _ => {}) ∧ s.admitted = ∅
  step := Step

/-! ## The invariant -/

/-- A callback is of a runner. -/
def Known (runner : Callbacks.State) : ℕ ⊕ ℕ → Prop
  | .inl f => f ∈ runner.handed
  | .inr t => t ∈ runner.created

theorem Known.step {runner runner' : Callbacks.State} {l : Callbacks.Label}
    (hs : Callbacks.Step runner l runner') {c : ℕ ⊕ ℕ} (h : Known runner c) : Known runner' c := by
  rcases c with f | t
  · exact hs.mono.1 h
  · exact hs.mono.2.1 h

theorem Known.of_outstanding {runner : Callbacks.State} (hr : Callbacks.system.Reachable runner)
    {c : ℕ ⊕ ℕ} (hc : c ∈ outstanding runner) : Known runner c := by
  obtain ⟨-, hf, ht⟩ := Callbacks.invariant hr
  rcases c with f | t
  · have hp : f ∈ runner.runner.pendingCallbackFutures := by
      simp [outstanding] at hc
      exact hc.1
    exact (hf.pending f hp).1
  · simp [outstanding] at hc
    rcases hc.1 with h | h
    · exact ht.tasks h
    · exact ht.orphaned h

/-- The callbacks of a runner are over but for those `left`. -/
structure Over (left : Finset (ℕ ⊕ ℕ)) (runner : Callbacks.State) : Prop where
  settled : Callbacks.Settled runner.created runner
  finished : ∀ t ∈ runner.created, t ∉ runner.finished → .inr t ∈ left

theorem Over.of_outstanding {runner : Callbacks.State} (hr : Callbacks.system.Reachable runner)
    (hp : runner.phase = .idle) (hl : runner.loop = .none) : Over (outstanding runner) runner := by
  obtain ⟨hphase, hfuture, htask⟩ := Callbacks.invariant hr
  have hne : runner.phase ≠ .running := by simp [hp]
  have hheld : ∀ f, ¬runner.Held f := by simp [Callbacks.State.Held, hl]
  refine ⟨⟨hne, hphase.done hfuture hne hheld, rfl⟩, fun t ht hfin => ?_⟩
  simp only [outstanding, Finset.inr_mem_disjSum, Finset.mem_filter, Finset.mem_union]
  rcases htask.tracked t ht hfin with h | h | ⟨ts, h, -⟩
  · exact ⟨.inl h, hfin⟩
  · exact ⟨.inr h, hfin⟩
  · simp [hl] at h

/-- The invariant of an execution: its slot is released once, when its run has
    ended and no callback is left. -/
structure Execution.Inv (x : Execution) : Prop where
  reachable : ∀ runner, x.runner = some runner → Callbacks.system.Reachable runner
  registering : x.phase = .registering ↔
    ∃ k, x.countdown = some k ∧ k.registrationComplete = false
  unregistered : ∀ k, x.countdown = some k → k.registrationComplete = true → k.unregistered = ∅
  ended : ∀ k, x.countdown = some k → k.registrationComplete = true → x.phase = .ended
  remaining : ∀ k, x.countdown = some k → k.remaining = k.left.card ∧
    Disjoint k.unregistered k.registered
  known : ∀ c ∈ x.left, ∃ runner, x.runner = some runner ∧ Known runner c
  isOver : x.phase = .registering ∨ x.phase = .ended → ∀ runner, x.runner = some runner →
    Over x.left runner
  once : x.phase = .ended → x.left = ∅ → x.releasing + x.released = 1
  never : ¬(x.phase = .ended ∧ x.left = ∅) → x.releasing + x.released = 0


namespace Countdown

variable {k : Countdown} {c : ℕ ⊕ ℕ}

theorem left_register (hc : c ∈ k.unregistered) : (k.register c).left = k.left := by
  simp only [left, register]
  ext d
  grind

theorem disjoint_register (hk : Disjoint k.unregistered k.registered) :
    Disjoint (k.register c).unregistered (k.register c).registered := by
  rw [Finset.disjoint_left] at hk ⊢
  grind [register]

theorem left_completed (hk : Disjoint k.unregistered k.registered) (hc : c ∈ k.registered) :
    (k.completed c).1.left = k.left.erase c := by
  rw [Finset.disjoint_left] at hk
  ext d
  simp only [left, completed]
  grind

theorem mem_left_of_registered (hc : c ∈ k.registered) : c ∈ k.left := Finset.mem_union_right _ hc

end Countdown

namespace Execution

variable {x x' : Execution} {a : Action}

theorem left_of_countdown {k : Countdown} (hk : x.countdown = some k) : x.left = k.left := by
  rw [left, hk]

theorem Inv.callback (h : x.Inv) {runner runner' : Callbacks.State} {l : Callbacks.Label}
    (hr : x.runner = some runner) (hb : l = .beginCallbackRun → x.phase = .running)
    (hs : Callbacks.Step runner l runner') : Inv { x with runner := some runner' } where
  reachable := by
    rintro _ ⟨⟩
    exact (h.reachable runner hr).step hs
  registering := h.registering
  unregistered := h.unregistered
  ended := h.ended
  remaining := h.remaining
  known := by
    intro c hc
    obtain ⟨_, hr', hknown⟩ := h.known c hc
    cases hr.symm.trans hr'
    exact ⟨runner', rfl, hknown.step hs⟩
  isOver := by
    rintro hp _ ⟨⟩
    obtain ⟨hsettled, hfin⟩ := h.isOver hp runner hr
    have hl : l ≠ .beginCallbackRun := by
      intro hl
      simp [hb hl] at hp
    -- no task is created anymore
    have hsettled := hsettled.step (Callbacks.invariant (h.reachable runner hr)).1 hl hs
    refine ⟨hsettled.created ▸ hsettled, fun t ht hfin' => hfin t ?_ fun h => hfin' (hs.mono.2.2 h)⟩
    exact hsettled.created ▸ ht
  once := h.once
  never := h.never

theorem Inv.countdown_eq_none (h : x.Inv) (hp : x.phase = .running) : x.countdown = none := by
  rw [Option.eq_none_iff_forall_ne_some]
  intro k hk
  rcases hc : k.registrationComplete
  · simp [h.registering.2 ⟨k, hk, hc⟩] at hp
  · simp [h.ended k hk hc] at hp

theorem Inv.endRun (h : x.Inv) (hp : x.phase = .running)
    (hr : ∀ runner, x.runner = some runner → runner.phase = .idle ∧ runner.loop = .none) :
    x.endRun.Inv := by
  have hk := h.countdown_eq_none hp
  have hreleases := h.never (by simp [hp])
  rcases hrunner : x.runner with _ | runner
  · constructor <;> simp [Execution.endRun, hrunner, hk, Execution.left]
    omega
  · obtain ⟨hidle, hloop⟩ := hr runner hrunner
    have hreachable := h.reachable runner hrunner
    have hover := Over.of_outstanding hreachable hidle hloop
    by_cases hpending : outstanding runner = ∅
    · rw [hpending] at hover
      constructor <;>
        simp [Execution.endRun, hrunner, hk, Execution.left, hpending, hover, hreachable]
      omega
    · constructor <;> simp [Execution.endRun, hrunner, Execution.left, Countdown.left, hpending,
        hover, hreachable]
      · exact ⟨fun f => .of_outstanding hreachable, fun t => .of_outstanding hreachable⟩
      · omega

theorem Inv.completed (h : x.Inv) {k : Countdown} {c : ℕ ⊕ ℕ} {runner : Callbacks.State}
    (hk : x.countdown = some k) (hc : c ∈ k.registered) (hr : x.runner = some runner)
    (hd : Completed runner c) : (x.count (k.completed c)).Inv := by
  obtain ⟨hremaining, hdisjoint⟩ := h.remaining k hk
  have hleft : (x.count (k.completed c)).left = x.left.erase c := by
    rw [left_of_countdown hk, ← Countdown.left_completed hdisjoint hc]
    rfl
  have hcard : ((k.left.erase c).card : ℤ) = k.left.card - 1 := by
    rw [Finset.card_erase_of_mem (Countdown.mem_left_of_registered hc)]
    have := Finset.card_pos.2 ⟨c, Countdown.mem_left_of_registered hc⟩
    omega
  have hne : x.left ≠ ∅ := by
    rw [left_of_countdown hk]
    exact Finset.ne_empty_of_mem (Countdown.mem_left_of_registered hc)
  have hreleases := h.never fun h => hne h.2
  have hzero : (k.remaining - 1 == 0) = decide (k.left.erase c = ∅) := by
    rw [hremaining, ← hcard, Bool.eq_iff_iff]
    simp
  have hcomplete : k.registrationComplete = true ↔ x.phase = .ended := by
    refine ⟨h.ended k hk, fun hp => ?_⟩
    by_contra hcomplete
    simp [h.registering.2 ⟨k, hk, by simpa using hcomplete⟩] at hp
  refine ⟨h.reachable, ?_, ?_, ?_, ?_, ?_, ?_, ?_, ?_⟩
  · rw [show (x.count (k.completed c)).phase = x.phase from rfl, h.registering, hk]
    simp [count, Countdown.completed]
  · rintro _ ⟨⟩ hcomplete
    exact h.unregistered k hk hcomplete
  · rintro _ ⟨⟩ hcomplete
    exact h.ended k hk hcomplete
  · rintro _ ⟨⟩
    rw [Countdown.left_completed hdisjoint hc, hcard, ← hremaining]
    exact ⟨rfl, hdisjoint.mono_right (Finset.erase_subset _ _)⟩
  · rw [hleft]
    exact fun d hd => h.known d (Finset.mem_of_mem_erase hd)
  · intro hp runner' hr'
    cases hr.symm.trans hr'
    obtain ⟨hsettled, hfin⟩ := h.isOver hp runner hr
    refine ⟨hsettled, fun t ht hfin' => ?_⟩
    rw [hleft, Finset.mem_erase]
    refine ⟨?_, hfin t ht hfin'⟩
    rintro rfl
    exact hfin' hd
  · -- the last completion releases, if the registration is complete
    intro hp hl
    rw [hleft, left_of_countdown hk] at hl
    simp only [count, Countdown.completed, hcomplete.2 hp, hzero, hl, decide_true, Bool.and_true,
      Bool.toNat_true]
    omega
  · intro hn
    rw [hleft, left_of_countdown hk] at hn
    by_cases hp : x.phase = .ended
    · simpa [count, Countdown.completed, hzero, mt (And.intro hp) hn] using hreleases
    · simpa [count, Countdown.completed, mt hcomplete.1 hp] using hreleases

theorem Inv.step (h : x.Inv) (hs : x.Step a x') : x'.Inv := by
  cases hs with
  | callback hr hb hs => exact h.callback hr hb hs
  | endRun hp hr => exact h.endRun hp hr
  | completed hk hc hr hd => exact h.completed hk hc hr hd
  | createRunner hp hr =>
    have hk := h.countdown_eq_none hp
    obtain ⟨h1, h2, h3, h4, h5, h6, h7, h8, h9⟩ := h
    refine ⟨?_, h2, h3, h4, h5, ?_, ?_, h8, h9⟩
    · rintro _ ⟨⟩
      exact .init rfl
    · simp [left, hk]
    · simp [hp]
  | @register k c hk hc =>
    have hleft : left { x with countdown := some (k.register c) } = x.left := by
      rw [left_of_countdown hk, ← Countdown.left_register hc]
      rfl
    obtain ⟨h1, h2, h3, h4, h5, h6, h7, h8, h9⟩ := h
    refine ⟨h1, ?_, ?_, ?_, ?_, ?_, ?_, ?_, ?_⟩
    · simpa [hk, Countdown.register] using h2
    · rintro _ ⟨⟩ hcomplete
      simp [h3 k hk hcomplete] at hc
    · rintro _ ⟨⟩ hcomplete
      exact h4 k hk hcomplete
    · rintro _ ⟨⟩
      rw [Countdown.left_register hc]
      exact ⟨(h5 k hk).1, Countdown.disjoint_register (h5 k hk).2⟩
    · rwa [hleft]
    · rwa [hleft]
    · rwa [hleft]
    · rwa [hleft]
  | @endRegistration k hp hk hu =>
    have hleft : left { x.count k.complete with phase := .ended } = x.left := by
      rw [left_of_countdown hk]
      rfl
    have hremaining := (h.remaining k hk).1
    obtain ⟨h1, h2, h3, h4, h5, h6, h7, h8, h9⟩ := h
    refine ⟨h1, ?_, ?_, ?_, ?_, ?_, ?_, ?_, ?_⟩
    · simp [count, Countdown.complete]
    · rintro _ ⟨⟩ -
      exact hu
    · exact fun _ _ _ => rfl
    · rintro _ ⟨⟩
      exact h5 k hk
    · rwa [hleft]
    · rw [hleft]
      exact fun _ => h7 (.inl hp)
    · intro _ hl
      rw [hleft, left_of_countdown hk] at hl
      have := h9 (by simp [hp])
      simp [count, Countdown.complete, hremaining, hl]
      omega
    · intro hn
      rw [hleft, left_of_countdown hk] at hn
      simpa [count, Countdown.complete, hremaining, mt (And.intro rfl) hn] using h9 (by simp [hp])

end Execution


/-- The invariant: the slots in use are those of the executions that were
    admitted and have not released theirs. -/
structure Inv (s : State) : Prop where
  execution : ∀ e, (s.executions e).Inv
  admitted : ∀ e, e ∈ s.admitted ↔
    (s.executions e).phase ≠ .start ∧ (s.executions e).phase ≠ .refused
  active : s.limiter.active = s.admitted.card - ∑ e ∈ s.admitted, (s.executions e).released
  le : s.limiter.active ≤ s.limiter.maxConcurrentExecutions

@[simp]
theorem State.set_self (s : State) (e : ℕ) (x : Execution) : (s.set e x).executions e = x := by
  simp [set]

theorem State.set_of_ne (s : State) {e e' : ℕ} (x : Execution) (h : e' ≠ e) :
    (s.set e x).executions e' = s.executions e' := by
  simp [set, h]

theorem State.sum_set_of_notMem {s : State} (f : Execution → ℕ) {A : Finset ℕ} {e : ℕ}
    (he : e ∉ A) (x : Execution) :
    ∑ e' ∈ A, f ((s.set e x).executions e') = ∑ e' ∈ A, f (s.executions e') := by
  refine Finset.sum_congr rfl fun e' he' => ?_
  rw [State.set_of_ne]
  rintro rfl
  exact he he'

theorem State.sum_set (s : State) (f : Execution → ℕ) {A : Finset ℕ} {e : ℕ} (he : e ∈ A)
    (x : Execution) : ∑ e' ∈ A, f ((s.set e x).executions e') + f (s.executions e) =
      ∑ e' ∈ A, f (s.executions e') + f x := by
  rw [← Finset.add_sum_erase A _ he, ← Finset.add_sum_erase A _ he, State.set_self,
    State.sum_set_of_notMem f (Finset.notMem_erase e A)]
  omega

theorem Execution.Step.released_eq {x x' : Execution} {a : Action} (hs : x.Step a x') :
    x'.released = x.released := by
  cases hs with
  | endRun =>
    simp only [Execution.endRun]
    split
    · rfl
    · split_ifs <;> rfl
  | _ => rfl

/-- An execution goes on only once it is admitted. -/
theorem Execution.Step.phase {x x' : Execution} {a : Action} (hs : x.Step a x') :
    (x'.phase ≠ .start ∧ x'.phase ≠ .refused) ↔ (x.phase ≠ .start ∧ x.phase ≠ .refused) := by
  cases hs with
  | endRun hp =>
    simp only [Execution.endRun, hp]
    split
    · simp
    · split_ifs <;> simp
  | endRegistration hp => simp [hp]
  | _ => rfl

theorem Inv.set {s : State} (h : Inv s) {e : ℕ} {x : Execution} (hx : x.Inv)
    (hp : (x.phase ≠ .start ∧ x.phase ≠ .refused) ↔
      ((s.executions e).phase ≠ .start ∧ (s.executions e).phase ≠ .refused))
    (hr : x.released = (s.executions e).released) : Inv (s.set e x) where
  execution := by
    intro e'
    rcases eq_or_ne e' e with rfl | he
    · simpa using hx
    · simpa [State.set_of_ne _ _ he] using h.execution e'
  admitted := by
    intro e'
    rw [show (s.set e x).admitted = s.admitted from rfl, h.admitted]
    rcases eq_or_ne e' e with rfl | he
    · simpa using hp.symm
    · simp [State.set_of_ne _ _ he]
  active := by
    rw [show (s.set e x).limiter = s.limiter from rfl, h.active]
    congr 2
    refine Finset.sum_congr rfl fun e' _ => ?_
    rcases eq_or_ne e' e with rfl | he
    · simp [hr]
    · simp [State.set_of_ne _ _ he]
  le := h.le


theorem Execution.Inv.released_eq_zero {x : Execution} (h : x.Inv) (hp : x.phase ≠ .ended) :
    x.released = 0 := by
  have := h.never fun h => hp h.1
  omega

theorem Execution.Inv.withPhase {x : Execution} (h : x.Inv) {p : Phase} (hx : x.phase = .start)
    (hp : p = .refused ∨ p = .running) : Execution.Inv { x with phase := p } := by
  have hk : ¬∃ k, x.countdown = some k ∧ k.registrationComplete = false := by
    rw [← h.registering, hx]
    simp
  have hne : p ≠ .registering ∧ p ≠ .ended := by rcases hp with rfl | rfl <;> simp
  obtain ⟨h1, h2, h3, h4, h5, h6, h7, h8, h9⟩ := h
  refine ⟨h1, by simp [hne, hk], h3, ?_, h5, h6, by simp [hne], by simp [hne], fun _ => ?_⟩
  · intro k hc hcomplete
    simp [hx] at h4
    simp [h4 k hc] at hcomplete
  · exact h9 (by simp [hx])

theorem Execution.Inv.release {x : Execution} (h : x.Inv) {n : ℕ} (hn : x.releasing = n + 1) :
    Execution.Inv { x with releasing := n, released := x.released + 1 } := by
  obtain ⟨h1, h2, h3, h4, h5, h6, h7, h8, h9⟩ := h
  refine ⟨h1, h2, h3, h4, h5, h6, h7, fun hp hl => ?_, fun hne => ?_⟩
  · have := h8 hp hl
    simp only
    omega
  · have := h9 hne
    omega

theorem Inv.acquire {s : State} (h : Inv s) {e : ℕ} {limiter : CodeModeExecutionLimiter}
    (hp : (s.executions e).phase = .start) (hl : s.limiter.acquire = .ok limiter) :
    Inv { s.set e { s.executions e with phase := .running } with
      limiter := limiter
      admitted := insert e s.admitted } := by
  obtain ⟨hlt, rfl⟩ := CodeModeExecutionLimiter.acquire_eq_ok.1 hl
  have he : e ∉ s.admitted := by simp [h.admitted, hp]
  have hreleased := (h.execution e).released_eq_zero (by simp [hp])
  refine ⟨fun e' => ?_, fun e' => ?_, ?_, ?_⟩
  · rcases eq_or_ne e' e with rfl | hne
    · simpa [State.set] using (h.execution e').withPhase hp (.inr rfl)
    · simpa [State.set, hne] using h.execution e'
  · rcases eq_or_ne e' e with rfl | hne
    · simp [State.set]
    · simp [State.set, hne, h.admitted]
  · rw [Finset.card_insert_of_notMem he, Finset.sum_insert he]
    change (s.limiter.active + 1 : ℤ) =
      _ - (_ + ∑ e' ∈ s.admitted, ((s.set e _).executions e').released : ℕ)
    rw [State.sum_set_of_notMem Execution.released he, h.active]
    simp [hreleased]
    omega
  · exact hlt

theorem Inv.release {s : State} (h : Inv s) {e n : ℕ} (hn : (s.executions e).releasing = n + 1) :
    Inv { s.set e { s.executions e with
      releasing := n
      released := (s.executions e).released + 1 } with limiter := s.limiter.release } := by
  have he : e ∈ s.admitted := by
    rw [h.admitted]
    have := mt (h.execution e).never (by omega)
    simp [(not_not.1 this).1]
  refine ⟨fun e' => ?_, fun e' => ?_, ?_, ?_⟩
  · rcases eq_or_ne e' e with rfl | hne
    · simpa [State.set] using (h.execution e').release hn
    · simpa [State.set, hne] using h.execution e'
  · rcases eq_or_ne e' e with rfl | hne
    · simp [State.set, h.admitted]
    · simp [State.set, hne, h.admitted]
  · have hsum := s.sum_set Execution.released he { s.executions e with
      releasing := n
      released := (s.executions e).released + 1 }
    change (s.limiter.active - 1 : ℤ) =
      s.admitted.card - ∑ e' ∈ s.admitted, ((s.set e _).executions e').released
    rw [h.active]
    dsimp only at hsum
    omega
  · have := h.le
    simp only [CodeModeExecutionLimiter.release]
    omega

theorem Inv.step {s s' : State} {l : Label} (h : Inv s) (hs : Step s l s') : Inv s' := by
  cases hs with
  | acquire hp hl => exact h.acquire hp hl
  | refuse hp hl =>
    exact h.set ((h.execution _).withPhase hp (.inl rfl)) (by simp [hp]) rfl
  | release hn => exact h.release hn
  | execution hs => exact h.set ((h.execution _).step hs) hs.phase hs.released_eq

theorem Execution.Inv.initial : Execution.Inv {} := by
  constructor <;> simp [Execution.left]

theorem invariant {n : ℕ} {s : State} (hr : (system n).Reachable s) :
    Inv s ∧ s.limiter.maxConcurrentExecutions = n := by
  refine hr.invariant (I := fun s => Inv s ∧ s.limiter.maxConcurrentExecutions = n) ?_ ?_
  · rintro ⟨limiter, _, _⟩ ⟨hn, ha, rfl, rfl⟩
    exact ⟨⟨fun _ => .initial, by simp, by simpa using ha, by simp_all⟩, hn⟩
  · rintro s l s' - ⟨h, rfl⟩ hs
    refine ⟨h.step hs, ?_⟩
    cases hs with
    | acquire hp hl =>
      obtain ⟨-, rfl⟩ := CodeModeExecutionLimiter.acquire_eq_ok.1 hl
      rfl
    | _ => rfl

/-! ## The release of the slots -/

/-- Every task of a runner is finished, and every future handed to it resolved. -/
structure Finished (runner : Callbacks.State) : Prop where
  tasks : runner.created ⊆ runner.finished
  futures : ∀ f ∈ runner.handed, runner.Done f

theorem Over.finished_of_empty {runner : Callbacks.State} (h : Over ∅ runner) :
    Finished runner where
  tasks t ht := by
    by_contra hfin
    simpa using h.finished t ht hfin
  futures := h.settled.done

theorem Finished.completed {runner : Callbacks.State} (h : Finished runner) {c : ℕ ⊕ ℕ}
    (hc : Known runner c) : Completed runner c := by
  rcases c with f | t
  · exact h.futures f hc
  · exact h.tasks hc

/-- A slot is released when the run is over and the callbacks are. -/
theorem Execution.Inv.finished {x : Execution} (h : x.Inv) (hr : x.released ≠ 0) :
    x.phase = .ended ∧ ∀ runner, x.runner = some runner → Finished runner := by
  obtain ⟨hp, hl⟩ := not_not.1 (mt h.never (by omega))
  exact ⟨hp, fun runner hrunner => (hl ▸ h.isOver (.inr hp) runner hrunner).finished_of_empty⟩

/-- Once they are, the slot is released, is about to be, or a callback has
    still to call back. -/
theorem Execution.Inv.released_or {x : Execution} (h : x.Inv) (hp : x.phase = .ended)
    (hf : ∀ runner, x.runner = some runner → Finished runner) :
    x.released = 1 ∨ (∃ n, x.releasing = n + 1) ∨ ∃ c x', x.Step (.completed c) x' := by
  by_cases hl : x.left = ∅
  · have := h.once hp hl
    rcases hn : x.releasing with _ | n
    · exact .inl (by omega)
    · exact .inr (.inl ⟨n, rfl⟩)
  · obtain ⟨c, hc⟩ := Finset.nonempty_of_ne_empty hl
    obtain ⟨runner, hr, hknown⟩ := h.known c hc
    rcases hk : x.countdown with _ | k
    · simp [Execution.left, hk] at hc
    · have hcomplete : k.registrationComplete = true := by
        by_contra hcomplete
        simp [h.registering.2 ⟨k, hk, by simpa using hcomplete⟩] at hp
      rw [left_of_countdown hk, Countdown.left, h.unregistered k hk hcomplete,
        Finset.empty_union] at hc
      exact .inr (.inr ⟨c, _, .completed hk hc hr ((hf runner hr).completed hknown)⟩)

/-- The calls that complete a countdown, and release. -/
def Label.IsDelivery : Label → Prop
  | .execution _ (.completed _) | .release _ => True
  | _ => False

/-- A bound on the number of the deliveries to come. -/
def Execution.due (x : Execution) : ℕ := 2 * x.left.card + x.releasing


def State.due (s : State) : ℕ := ∑ e ∈ s.admitted, (s.executions e).due

/-- A delivery changes an execution that is due one. -/
theorem Step.delivery {s t : State} {l : Label} (h : Inv s) (hs : Step s l t) (hl : l.IsDelivery) :
    ∃ e ∈ s.admitted, ∃ x : Execution, t.executions = (s.set e x).executions ∧
      t.admitted = s.admitted ∧ x.phase = (s.executions e).phase ∧
      x.runner = (s.executions e).runner ∧ x.due < (s.executions e).due := by
  have hadmitted : ∀ e, (s.executions e).phase = .registering ∨ (s.executions e).phase = .ended →
      e ∈ s.admitted := by
    rintro e (hp | hp) <;> simp [h.admitted, hp]
  cases hs with
  | acquire | refuse => exact absurd hl id
  | @release e n hn =>
    have hp := not_not.1 (mt (h.execution e).never (by omega))
    refine ⟨e, hadmitted e (.inr hp.1), _, rfl, rfl, rfl, rfl, ?_⟩
    simp only [Execution.due, Execution.left, hn]
    omega
  | @execution e a x hs =>
    cases hs with
    | @completed k c runner hk hc hr hd =>
      have hp : (s.executions e).phase = .registering ∨ (s.executions e).phase = .ended := by
        rcases hcomplete : k.registrationComplete
        · exact .inl ((h.execution e).registering.2 ⟨k, hk, hcomplete⟩)
        · exact .inr ((h.execution e).ended k hk hcomplete)
      refine ⟨e, hadmitted e hp, _, rfl, rfl, rfl, rfl, ?_⟩
      have hdisjoint := ((h.execution e).remaining k hk).2
      have hmem := Countdown.mem_left_of_registered hc
      have hpos := Finset.card_pos.2 ⟨c, hmem⟩
      have hle := Bool.toNat_le (k.completed c).2
      rw [Execution.due, Execution.due, Execution.left_of_countdown hk,
        Execution.left_of_countdown rfl, Countdown.left_completed hdisjoint hc,
        Finset.card_erase_of_mem hmem]
      simp only [Execution.count]
      omega
    | _ => exact absurd hl id

/-- The executions admitted have ended, and so have their callbacks. -/
def Ended (s : State) : Prop := ∀ e ∈ s.admitted, (s.executions e).phase = .ended ∧
  ∀ runner, (s.executions e).runner = some runner → Finished runner

theorem Ended.delivery {s t : State} {l : Label} (h : Ended s) (hinv : Inv s) (hs : Step s l t)
    (hl : l.IsDelivery) : Ended t ∧ t.due < s.due := by
  obtain ⟨e, he, x, hx, hadmitted, hp, hr, hdue⟩ := hs.delivery hinv hl
  constructor
  · intro e' he'
    rw [hadmitted] at he'
    rw [hx]
    rcases eq_or_ne e' e with rfl | hne
    · rw [State.set_self, hp, hr]
      exact h e' he'
    · rw [State.set_of_ne _ _ hne]
      exact h e' he'
  · have := s.sum_set Execution.due he x
    rw [State.due, State.due, hadmitted, hx]
    omega

/-- Deliveries come to an end. -/
theorem Ended.run {n : ℕ} {s t : State} {ls : List Label} (h : Ended s)
    (hr : (system n).Reachable s) (hrun : (system n).Run s ls t) (hl : ∀ l ∈ ls, l.IsDelivery) :
    Ended t ∧ ls.length + t.due ≤ s.due := by
  induction hrun with
  | refl => simpa using h
  | snoc hrun hs ih =>
    obtain ⟨hended, hle⟩ := ih fun l hmem => hl l (List.mem_append_left _ hmem)
    obtain ⟨hended, hlt⟩ := hended.delivery (invariant (hr.run hrun)).1 hs (hl _ (by simp))
    refine ⟨hended, ?_⟩
    rw [List.length_append, List.length_singleton]
    omega

/-- When no delivery is due, no slot is in use. -/
theorem Ended.active_eq_zero {s : State} (h : Ended s) (hinv : Inv s)
    (hs : ∀ l t, l.IsDelivery → ¬Step s l t) :
    s.limiter.active = 0 ∧ ∀ e ∈ s.admitted, (s.executions e).released = 1 := by
  have hreleased : ∀ e ∈ s.admitted, (s.executions e).released = 1 := by
    intro e he
    obtain ⟨hp, hf⟩ := h e he
    rcases (hinv.execution e).released_or hp hf with h | ⟨n, hn⟩ | ⟨c, x, hc⟩
    · exact h
    · exact absurd (.release hn) (hs (.release e) _ trivial)
    · exact absurd (.execution hc) (hs (.execution e (.completed c)) _ trivial)
  refine ⟨?_, hreleased⟩
  rw [hinv.active, Finset.sum_congr rfl hreleased]
  simp

/-- In every state `s` that executions sharing a limiter of `n` slots reach. -/
theorem admission_slots {n : ℕ} {s : State} (hr : (system n).Reachable s) :
    -- an execution admitted releases its slot once, not before it has ended with its callbacks
    (∀ e, (s.executions e).released ≤ 1) ∧
    (∀ e, (s.executions e).released ≠ 0 → e ∈ s.admitted ∧ (s.executions e).phase = .ended ∧
      ∀ runner, (s.executions e).runner = some runner → Finished runner) ∧
    -- the slots in use
    s.limiter.active = s.admitted.card - ∑ e ∈ s.admitted, (s.executions e).released ∧
    0 ≤ s.limiter.active ∧ s.limiter.active ≤ n ∧
    (∀ e, (s.executions e).phase = .ended →
      (∀ runner, (s.executions e).runner = some runner → Finished runner) →
      (s.executions e).released = 1 ∨
        ∃ t, Step s (.release e) t ∨ ∃ c, Step s (.execution e (.completed c)) t) ∧
    -- once the executions and the callbacks are over, what is left is a bounded number of
    -- deliveries, after which every slot is released
    (Ended s → ∀ ls t, (system n).Run s ls t → (∀ l ∈ ls, l.IsDelivery) →
      ls.length ≤ s.due ∧ ((∀ l u, l.IsDelivery → ¬Step t l u) →
        t.limiter.active = 0 ∧ ∀ e ∈ t.admitted, (t.executions e).released = 1)) := by
  obtain ⟨h, rfl⟩ := invariant hr
  have hreleased : ∀ e, (s.executions e).released ≤ 1 := by
    intro e
    by_cases hp : (s.executions e).phase = .ended ∧ (s.executions e).left = ∅
    · have := (h.execution e).once hp.1 hp.2
      omega
    · have := (h.execution e).never hp
      omega
  refine ⟨hreleased, fun e he => ?_, h.active, ?_, h.le, fun e hp hf => ?_,
    fun hended ls t hrun hl => ?_⟩
  · have hfin := (h.execution e).finished he
    exact ⟨(h.admitted e).2 (by simp [hfin.1]), hfin⟩
  · have hsum := Finset.sum_le_card_nsmul s.admitted _ 1 fun e _ => hreleased e
    rw [Nat.nsmul_eq_mul, mul_one] at hsum
    rw [h.active, sub_nonneg]
    exact_mod_cast hsum
  · rcases (h.execution e).released_or hp hf with h | ⟨n, hn⟩ | ⟨c, x, hc⟩
    · exact .inl h
    · exact .inr ⟨_, .inl (.release hn)⟩
    · exact .inr ⟨_, .inr ⟨c, .execution hc⟩⟩
  · obtain ⟨hended, hle⟩ := hended.run hr hrun hl
    exact ⟨by omega, hended.active_eq_zero (invariant (hr.run hrun)).1⟩

/-- An execution without callbacks releases its slot at its end. -/
theorem admission_slots_released : ∃ s, (system 1).Reachable s ∧ (s.executions 0).released = 1 ∧
    s.limiter.active ≤ 1 := by
  let limiter : CodeModeExecutionLimiter := { maxConcurrentExecutions := 1, pos := one_pos }
  have h : (system 1).Reachable { limiter := limiter } := .init ⟨rfl, rfl, rfl, rfl⟩
  have h := h.step (.acquire (e := 0) rfl
    (CodeModeExecutionLimiter.acquire_eq_ok.2 ⟨by decide, rfl⟩))
  have h := h.step (.execution (e := 0) (.endRun rfl fun _ => by simp [State.set]))
  have h := h.step (.release (e := 0) rfl)
  exact ⟨_, h, rfl, (admission_slots h).2.2.2.2.1⟩

end Hyperforge.Codemode.Admission
