import Hyperforge.Library.Transition
import Mathlib.Data.Finset.Union
import Mathlib.Data.Finset.Option

/-!
# The lifecycle of the callbacks of a sandbox runner

While a run of untrusted code is active, worker threads hand *futures* to the
runner of the sandbox (`registerCallbackIntent`) and wait for them; the event loop creates a
*task* for each (`scheduleCallback`), whose outcome it copies to the future. At
the end of the run the callbacks are closed and cancelled: every future is
resolved, and tasks that ignore their cancellation are tracked as orphans,
which prevents a next run.

The threads share the collections of the runner (`SandboxRunner`) under a lock.
A step of the model is a section of code under the lock, or the resolution of
one future; worker threads may register between any two steps, and the loop may
be in the middle of a `Section` that it has to end before it does anything else.
-/

namespace Hyperforge.Codemode.Callbacks

open Transition

/-- The fields of a runner. Futures and tasks are numbered. -/
structure SandboxRunner where
  callbacksClosed : Bool := true
  runActive : Bool := false
  pendingCallbackFutures : Finset ℕ := ∅
  callbackTasks : Finset ℕ := ∅
  callbackFutures : ℕ → Option ℕ := fun _ => none
  orphanedCallbackTasks : Finset ℕ := ∅

/-- What the loop is in the middle of, with the futures it has taken out of the
    collections, and the tasks it has to track. -/
inductive Section
  | none
  | copyResult (future : ℕ)
  | cancelCallbacks (futures : Finset ℕ)
  | trackOrphaned (tasks : Finset ℕ)
  deriving DecidableEq

/-- Where the active run is, if there is one; `waiting` for its cancelled tasks. -/
inductive Phase
  | idle
  | running
  | cancelling (tasks : Finset ℕ)
  | waiting (tasks : Finset ℕ)
  | finishing
  deriving DecidableEq

structure State where
  runner : SandboxRunner := {}
  phase : Phase := .idle
  loop : Section := .none
  /-- The futures handed to the runner by worker threads. -/
  handed : Finset ℕ := ∅
  /-- How many times each future has been resolved. -/
  resolutions : ℕ → ℕ := fun _ => 0
  /-- The futures registered, before they are posted to the loop. -/
  registered : Finset ℕ := ∅
  /-- The futures posted to the loop. -/
  posted : Finset ℕ := ∅
  /-- The callback tasks created, those with an outcome to copy, those of the
      remote protocol, which copies it itself, and the finished ones. -/
  created : Finset ℕ := ∅
  copies : Finset ℕ := ∅
  remote : Finset ℕ := ∅
  finished : Finset ℕ := ∅

inductive Label
  | registerCallbackIntent (future : ℕ)
  | post (future : ℕ)
  | scheduleCallback (future task : ℕ)
  | finishTask (task : ℕ)
  | copyResult (task : ℕ)
  | resolve (future : ℕ)
  | beginCallbackRun
  | refuseCallbackRun
  | cancelCallbacks
  | endCancel
  | untrack (tasks : Finset ℕ)
  | track (task : ℕ)
  | endTrack
  | completeOrphan (task : ℕ)
  | finishCallbackRun
  | startRemoteCallback (task : ℕ)
  | endRemoteCallback (task : ℕ) (tasks : Finset ℕ)
  deriving DecidableEq

namespace State

variable (s : State)

/-- A future is resolved. -/
def Done (f : ℕ) : Prop := s.resolutions f ≠ 0

instance (f : ℕ) : Decidable (s.Done f) := inferInstanceAs (Decidable (_ ≠ _))

/-- Resolving a future. -/
def resolve (f : ℕ) : State :=
  { s with resolutions := fun g => s.resolutions g + if g = f then 1 else 0 }

/-- Resolving a future unless it is already. -/
def resolveOnce (f : ℕ) : State := if s.Done f then s else s.resolve f

/-- A future or a task of an earlier run is not finished. -/
def Unsettled : Prop :=
  (∃ f ∈ s.runner.pendingCallbackFutures, ¬s.Done f) ∨
    ∃ t ∈ s.runner.callbackTasks ∪ s.runner.orphanedCallbackTasks, t ∉ s.finished

instance : Decidable s.Unsettled := inferInstanceAs (Decidable (_ ∨ _))

/-- `_begin_callback_run`, which may refuse. -/
def beginCallbackRun : Except String SandboxRunner :=
  if s.runner.runActive then .error "SandboxRunner does not support concurrent runs"
  else if s.Unsettled then .error "SandboxRunner cannot be reused until callbacks have completed"
  else .ok { callbacksClosed := false, runActive := true }

/-- `_register_callback_intent`: the future is pending, or is refused with an exception. -/
def registerCallbackIntent (f : ℕ) : State :=
  if s.runner.callbacksClosed then { s.resolve f with handed := insert f s.handed }
  else { s with
    runner := { s.runner with
      pendingCallbackFutures := insert f s.runner.pendingCallbackFutures }
    handed := insert f s.handed
    registered := insert f s.registered }

/-- A new callback task. -/
def create (t : ℕ) : State :=
  { s with
    runner := { s.runner with callbackTasks := insert t s.runner.callbackTasks }
    created := insert t s.created }

/-- `_schedule_callback`: a pending future gets a task, unless the callbacks are closed. -/
def scheduleCallback (f t : ℕ) : State :=
  if f ∉ s.runner.pendingCallbackFutures then s
  else
    let s := { s with runner := { s.runner with
      pendingCallbackFutures := s.runner.pendingCallbackFutures.erase f } }
    if s.runner.callbacksClosed then s.resolveOnce f
    else
      let s := s.create t
      { s with
        runner := { s.runner with
          callbackFutures := fun u => if u = t then some f else s.runner.callbackFutures u }
        copies := insert t s.copies }

/-- The first section of `copy_result`: the future of the task is taken out. -/
def copyResult (t : ℕ) : State :=
  { s with
    runner := { s.runner with
      callbackTasks := s.runner.callbackTasks.erase t
      callbackFutures := fun u => if u = t then none else s.runner.callbackFutures u }
    copies := s.copies.erase t
    loop := match s.runner.callbackFutures t with
      | none => .none
      | some f => if s.Done f then .none else .copyResult f }

/-- The futures of some tasks. -/
def futuresOf (tasks : Finset ℕ) : Finset ℕ :=
  tasks.biUnion fun t => (s.runner.callbackFutures t).toFinset

/-- The first section of `_cancel_callbacks`: the callbacks are closed, and
    every future is taken out. -/
def cancelCallbacks : State :=
  { s with
    runner := { s.runner with
      callbacksClosed := true
      pendingCallbackFutures := ∅
      callbackFutures := fun t =>
        if t ∈ s.runner.callbackTasks then none else s.runner.callbackFutures t }
    loop := .cancelCallbacks (s.runner.pendingCallbackFutures ∪ s.futuresOf s.runner.callbackTasks)
    phase := .cancelling s.runner.callbackTasks }

/-- Tasks are no longer tracked as callbacks; `tasks`, among them, will be as orphans. -/
def untrack (removed tasks : Finset ℕ) : State :=
  { s with
    runner := { s.runner with callbackTasks := s.runner.callbackTasks \ removed }
    loop := .trackOrphaned tasks }

/-- `_finish_callback_run` -/
def finishCallbackRun : State :=
  { s with
    runner := { s.runner with callbacksClosed := true, runActive := false }
    phase := .idle }

variable {s}

theorem done_resolve {f g : ℕ} : (s.resolve f).Done g ↔ g = f ∨ s.Done g := by
  by_cases h : g = f
  · simp [Done, resolve, h]
  · simp [Done, resolve, h]

theorem done_resolveOnce {f g : ℕ} : (s.resolveOnce f).Done g ↔ g = f ∨ s.Done g := by
  rw [resolveOnce]
  split_ifs with hf
  · constructor
    · exact .inr
    · rintro (rfl | h)
      · exact hf
      · exact h
  · exact done_resolve


theorem beginCallbackRun_eq_ok {runner : SandboxRunner} : s.beginCallbackRun = .ok runner ↔
    s.runner.runActive = false ∧ ¬s.Unsettled ∧
      runner = { callbacksClosed := false, runActive := true } := by
  rw [beginCallbackRun]
  split_ifs with ha hu
  · simp [ha]
  · simp [hu]
  · simp [ha, hu, eq_comm]

theorem mem_futuresOf {ts : Finset ℕ} {f : ℕ} :
    f ∈ s.futuresOf ts ↔ ∃ t ∈ ts, s.runner.callbackFutures t = some f := by
  simp [futuresOf]

end State

/-- The steps. Those of the loop need it to be in the middle of no section, or
    go on with the one it is in. -/
inductive Step : State → Label → State → Prop
  | registerCallbackIntent {s f} (hf : f ∉ s.handed) :
    Step s (.registerCallbackIntent f) (s.registerCallbackIntent f)
  | post {s f} (hf : f ∈ s.registered) : Step s (.post f)
    { s with registered := s.registered.erase f, posted := insert f s.posted }
  | scheduleCallback {s f t} (hl : s.loop = .none) (hf : f ∈ s.posted) (ht : t ∉ s.created) :
    Step s (.scheduleCallback f t) { s.scheduleCallback f t with posted := s.posted.erase f }
  | finishTask {s t} (hl : s.loop = .none) (ht : t ∈ s.created) :
    Step s (.finishTask t) { s with finished := insert t s.finished }
  | copyResult {s t} (hl : s.loop = .none) (ht : t ∈ s.finished) (hc : t ∈ s.copies) :
    Step s (.copyResult t) (s.copyResult t)
  | resolveCopy {s f} (hl : s.loop = .copyResult f) :
    Step s (.resolve f) { s.resolve f with loop := .none }
  | resolveCancelled {s f fs} (hl : s.loop = .cancelCallbacks fs) (hf : f ∈ fs) :
    Step s (.resolve f) { s.resolveOnce f with loop := .cancelCallbacks (fs.erase f) }
  | beginCallbackRun {s runner} (hl : s.loop = .none) (h : s.beginCallbackRun = .ok runner) :
    Step s .beginCallbackRun { s with runner := runner, phase := .running }
  | refuseCallbackRun {s e} (hl : s.loop = .none) (h : s.beginCallbackRun = .error e) :
    Step s .refuseCallbackRun s
  | cancelCallbacks {s} (hl : s.loop = .none) (hp : s.phase = .running) :
    Step s .cancelCallbacks s.cancelCallbacks
  | endCancel {s ts} (hl : s.loop = .cancelCallbacks ∅) (hp : s.phase = .cancelling ts) :
    Step s .endCancel { s with loop := .none, phase := .waiting ts }
  -- the tasks still pending when the wait was over, some of which may be finished since
  | untrack {s waited ts} (hl : s.loop = .none) (hp : s.phase = .waiting waited)
    (hts : ts ⊆ waited) (hfin : waited \ ts ⊆ s.finished) :
    Step s (.untrack ts) { s.untrack waited ts with phase := .finishing }
  | track {s t ts} (hl : s.loop = .trackOrphaned ts) (ht : t ∈ ts) : Step s (.track t)
    { s with
      runner := { s.runner with
        orphanedCallbackTasks := insert t s.runner.orphanedCallbackTasks }
      loop := .trackOrphaned (ts.erase t) }
  | endTrack {s} (hl : s.loop = .trackOrphaned ∅) : Step s .endTrack { s with loop := .none }
  | completeOrphan {s t} (hl : s.loop = .none) (ht : t ∈ s.finished) : Step s (.completeOrphan t)
    { s with runner := { s.runner with
        orphanedCallbackTasks := s.runner.orphanedCallbackTasks.erase t } }
  -- the wait is over, or interrupted
  | finishCallbackRun {s} (hl : s.loop = .none)
    (hp : s.phase = .finishing ∨ ∃ ts, s.phase = .waiting ts) :
    Step s .finishCallbackRun s.finishCallbackRun
  | startRemoteCallback {s t} (hl : s.loop = .none) (hp : s.phase = .running)
    (hc : s.runner.callbacksClosed = false) (ht : t ∉ s.created) :
    Step s (.startRemoteCallback t) { s.create t with remote := insert t s.remote }
  | endRemoteCallback {s t ts} (hl : s.loop = .none) (hp : s.phase = .running) (ht : t ∈ s.remote)
    (hts : ts ⊆ {t}) (hfin : {t} \ ts ⊆ s.finished) :
    Step s (.endRemoteCallback t ts) { s.untrack {t} ts with remote := s.remote.erase t }

def system : System State Label where
  init s := s = {}
  step := Step

/-! ## The invariant -/

/-- The section in progress holds a future it has taken out, to resolve it. -/
def State.Held (s : State) (f : ℕ) : Prop :=
  s.loop = .copyResult f ∨ ∃ fs, s.loop = .cancelCallbacks fs ∧ f ∈ fs

/-- The section in progress is to track a task. -/
def State.Tracking (s : State) (t : ℕ) : Prop := ∃ ts, s.loop = .trackOrphaned ts ∧ t ∈ ts

/-- A future handed to the runner is in exactly one place until it is resolved. -/
structure FutureInv (s : State) : Prop where
  once : ∀ f, s.resolutions f ≤ 1
  handed : ∀ f, s.Done f → f ∈ s.handed
  pending : ∀ f ∈ s.runner.pendingCallbackFutures, f ∈ s.handed ∧ ¬s.Done f
  value : ∀ t f, s.runner.callbackFutures t = some f → f ∈ s.handed ∧ ¬s.Done f ∧
    f ∉ s.runner.pendingCallbackFutures
  injective : ∀ t t' f, s.runner.callbackFutures t = some f →
    s.runner.callbackFutures t' = some f → t = t'
  held : ∀ f, s.Held f → f ∈ s.handed ∧ ¬s.Done f ∧ f ∉ s.runner.pendingCallbackFutures ∧
    ∀ t, s.runner.callbackFutures t ≠ some f
  found : ∀ f ∈ s.handed, s.Done f ∨ f ∈ s.runner.pendingCallbackFutures ∨
    (∃ t, s.runner.callbackFutures t = some f) ∨ s.Held f

/-- The callbacks are open while a run is running, and none is left once it has
    cancelled them. -/
structure PhaseInv (s : State) : Prop where
  opened : s.runner.callbacksClosed = false ↔ s.phase = .running
  active : s.runner.runActive = false ↔ s.phase = .idle
  cancelling : (∃ ts, s.phase = .cancelling ts) ↔ ∃ fs, s.loop = .cancelCallbacks fs
  closed : s.phase ≠ .running → s.runner.pendingCallbackFutures = ∅ ∧
    ∀ t, s.runner.callbackFutures t = none
  tasks : ∀ t f, s.runner.callbackFutures t = some f → t ∈ s.runner.callbackTasks ∧
    t ∈ s.created ∧ t ∉ s.remote
  remote : s.remote ⊆ s.created

/-- A task is in one of the collections, or about to be, until it is finished. -/
structure TaskInv (s : State) : Prop where
  tracked : ∀ t ∈ s.created, t ∉ s.finished → t ∈ s.runner.callbackTasks ∨
    t ∈ s.runner.orphanedCallbackTasks ∨ s.Tracking t
  tasks : s.runner.callbackTasks ⊆ s.created
  orphaned : s.runner.orphanedCallbackTasks ⊆ s.created
  tracking : ∀ t, s.Tracking t → t ∈ s.created
  cancelled : ∀ ts, s.phase = .cancelling ts ∨ s.phase = .waiting ts → ts ⊆ s.created

variable {s s' : State} {l : Label}

/-- Every future that is left in the collections is taken out, to be resolved. -/
theorem PhaseInv.held_cancelCallbacks (hp : PhaseInv s) {f : ℕ} : s.cancelCallbacks.Held f ↔
    f ∈ s.runner.pendingCallbackFutures ∨ ∃ t, s.runner.callbackFutures t = some f := by
  have htask : ∀ t, s.runner.callbackFutures t = some f → t ∈ s.runner.callbackTasks :=
    fun t ht => (hp.tasks t f ht).1
  simp only [State.Held, State.cancelCallbacks, reduceCtorEq, false_or,
    Section.cancelCallbacks.injEq, exists_eq_left', Finset.mem_union, State.mem_futuresOf]
  grind

theorem PhaseInv.callbackFutures_cancelCallbacks (hp : PhaseInv s) (t : ℕ) :
    s.cancelCallbacks.runner.callbackFutures t = none := by
  rcases hv : s.runner.callbackFutures t with _ | f
  · simp [State.cancelCallbacks, hv]
  · simp [State.cancelCallbacks, (hp.tasks t f hv).1]

theorem PhaseInv.step (h : PhaseInv s) (hs : Step s l s') : PhaseInv s' := by
  have hnone := h.callbackFutures_cancelCallbacks
  obtain ⟨h1, h2, h3, h4, h5, h6⟩ := h
  cases hs with
  | post | finishTask | refuseCallbackRun | completeOrphan =>
    exact ⟨h1, h2, h3, h4, h5, h6⟩
  | registerCallbackIntent hf =>
    simp only [State.registerCallbackIntent, State.resolve]
    split_ifs <;> constructor <;> grind
  | @scheduleCallback f t hl hf ht =>
    have ht' : t ∉ s.remote := fun h => ht (h6 h)
    simp only [State.scheduleCallback]
    split_ifs
    · constructor <;> grind [State.resolveOnce, State.resolve]
    · simp only [State.create]
      constructor <;> grind
    · exact ⟨h1, h2, h3, h4, h5, h6⟩
  | copyResult hl ht hc =>
    simp only [State.copyResult]
    constructor <;> grind
  | resolveCopy hl =>
    simp only [State.resolve]
    constructor <;> grind
  | resolveCancelled hl hf =>
    simp only [State.resolveOnce, State.resolve]
    split_ifs <;> constructor <;> grind
  | beginCallbackRun hl hb =>
    obtain ⟨ha, -, rfl⟩ := State.beginCallbackRun_eq_ok.1 hb
    constructor <;> grind
  | cancelCallbacks hl hp =>
    refine ⟨?_, ?_, ?_, fun _ => ⟨rfl, hnone⟩, fun t f hv => ?_, h6⟩
    case refine_4 => simp [hnone t] at hv
    all_goals simp [State.cancelCallbacks, h2, hp]
  | endCancel hl hp => constructor <;> grind
  | track | endTrack => constructor <;> grind
  | untrack hl hp hts hfin =>
    simp only [State.untrack]
    constructor <;> grind
  | finishCallbackRun hl hp =>
    simp only [State.finishCallbackRun]
    constructor <;> grind
  | startRemoteCallback hl hp hc ht =>
    simp only [State.create]
    constructor <;> grind
  | endRemoteCallback hl hp ht hts hfin =>
    simp only [State.untrack]
    constructor <;> grind

/-- The invariant depends on where the futures are only. -/
theorem FutureInv.frame (h : FutureInv s) (hr : s'.resolutions = s.resolutions)
    (hh : s'.handed = s.handed)
    (hp : s'.runner.pendingCallbackFutures = s.runner.pendingCallbackFutures)
    (hv : s'.runner.callbackFutures = s.runner.callbackFutures)
    (hl : ∀ f, s'.Held f ↔ s.Held f) : FutureInv s' := by
  have hd : ∀ f, s'.Done f ↔ s.Done f := by
    intro f
    rw [State.Done, State.Done, hr]
  obtain ⟨h1, h2, h3, h4, h5, h6, h7⟩ := h
  constructor <;> simpa only [hr, hh, hp, hv, hl, hd]

theorem FutureInv.step (h : FutureInv s) (hp : PhaseInv s) (hs : Step s l s') : FutureInv s' := by
  have hclosed := hp.closed
  have hactive := hp.active
  have htasks := hp.tasks
  cases hs with
  | post | finishTask | refuseCallbackRun | completeOrphan | finishCallbackRun
  | startRemoteCallback =>
    exact h.frame rfl rfl rfl rfl fun _ => .rfl
  | endCancel | untrack | track | endTrack | endRemoteCallback =>
    -- no future is held in the sections involved
    refine h.frame rfl rfl rfl rfl fun f => ?_
    grind [State.Held, State.untrack]
  | registerCallbackIntent hf =>
    obtain ⟨h1, h2, h3, h4, h5, h6, h7⟩ := h
    simp only [State.registerCallbackIntent, State.resolve]
    split_ifs
    · constructor <;> grind [State.Held, State.Done]
    · constructor <;> grind [State.Held, State.Done]
  | @scheduleCallback f t hl hf ht =>
    obtain ⟨h1, h2, h3, h4, h5, h6, h7⟩ := h
    simp only [State.scheduleCallback]
    split_ifs with hf' hc
    · -- no future is pending once the callbacks are closed
      have hr : s.phase ≠ .running := fun hr => by simp [hp.opened.2 hr] at hc
      simp [(hclosed hr).1] at hf'
    · simp only [State.create]
      constructor
      case found =>
        intro g hg
        rcases h7 g hg with h | h | ⟨u, h⟩ | h
        · exact .inl h
        · by_cases hgf : g = f
          · exact .inr (.inr (.inl ⟨t, by simp [hgf]⟩))
          · exact .inr (.inl (Finset.mem_erase.2 ⟨hgf, h⟩))
        · -- the task is new
          have hu : u ≠ t := by
            rintro rfl
            exact ht (htasks u g h).2.1
          exact .inr (.inr (.inl ⟨u, by simp [hu, h]⟩))
        · exact .inr (.inr (.inr h))
      all_goals grind [State.Done, State.Held]
    · exact ⟨h1, h2, h3, h4, h5, h6, h7⟩
  | copyResult hl ht hc =>
    obtain ⟨h1, h2, h3, h4, h5, h6, h7⟩ := h
    simp only [State.copyResult]
    constructor <;> grind [State.Done, State.Held]
  | @resolveCopy f hl =>
    have hf := h.held f (.inl hl)
    obtain ⟨h1, h2, h3, h4, h5, h6, h7⟩ := h
    simp only [State.resolve]
    constructor <;> grind [State.Done, State.Held]
  | @resolveCancelled f fs hl hf =>
    have hf' := h.held f (.inr ⟨fs, hl, hf⟩)
    obtain ⟨h1, h2, h3, h4, h5, h6, h7⟩ := h
    simp only [State.resolveOnce, State.resolve]
    split_ifs
    · constructor <;> grind [State.Done, State.Held]
    · constructor <;> grind [State.Done, State.Held]
  | beginCallbackRun hl hb =>
    -- without an active run, no future is left in the collections to be cleared
    obtain ⟨ha, -, rfl⟩ := State.beginCallbackRun_eq_ok.1 hb
    have hr : s.phase ≠ .running := by simp [hactive.1 ha]
    obtain ⟨hpending, hvalue⟩ := hclosed hr
    obtain ⟨h1, h2, h3, h4, h5, h6, h7⟩ := h
    constructor <;> grind [State.Done, State.Held]
  | cancelCallbacks hl hr =>
    have hheld := fun f => hp.held_cancelCallbacks (f := f)
    have hnone := hp.callbackFutures_cancelCallbacks
    have hdone : ∀ f, s.cancelCallbacks.Done f ↔ s.Done f := fun _ => .rfl
    have hpending : s.cancelCallbacks.runner.pendingCallbackFutures = ∅ := rfl
    have hhanded : s.cancelCallbacks.handed = s.handed := rfl
    have hl' : ∀ f, ¬s.Held f := by simp [State.Held, hl]
    obtain ⟨h1, h2, h3, h4, h5, h6, h7⟩ := h
    refine ⟨h1, h2, ?_, ?_, ?_, ?_, ?_⟩ <;> grind

theorem TaskInv.step (h : TaskInv s) (hp : PhaseInv s) (hs : Step s l s') : TaskInv s' := by
  have hremote := hp.remote
  obtain ⟨h1, h2, h3, h4, h5⟩ := h
  cases hs with
  | post | refuseCallbackRun => exact ⟨h1, h2, h3, h4, h5⟩
  | registerCallbackIntent hf =>
    simp only [State.registerCallbackIntent, State.resolve]
    split_ifs <;> exact ⟨h1, h2, h3, h4, h5⟩
  | scheduleCallback hl hf ht =>
    simp only [State.scheduleCallback, State.resolveOnce, State.resolve]
    split_ifs
    · exact ⟨h1, h2, h3, h4, h5⟩
    · exact ⟨h1, h2, h3, h4, h5⟩
    · simp only [State.create]
      constructor <;> grind [State.Tracking]
    · exact ⟨h1, h2, h3, h4, h5⟩
  | finishTask hl ht => constructor <;> grind [State.Tracking]
  | copyResult hl ht hc =>
    simp only [State.copyResult]
    constructor <;> grind [State.Tracking]
  | resolveCopy hl =>
    simp only [State.resolve]
    constructor <;> grind [State.Tracking]
  | resolveCancelled hl hf =>
    simp only [State.resolveOnce, State.resolve]
    split_ifs <;> constructor <;> grind [State.Tracking]
  | beginCallbackRun hl hb =>
    -- every task of an earlier run is finished
    obtain ⟨-, hu, rfl⟩ := State.beginCallbackRun_eq_ok.1 hb
    constructor <;> grind [State.Tracking, State.Unsettled]
  | cancelCallbacks hl hp =>
    simp only [State.cancelCallbacks]
    constructor <;> grind [State.Tracking]
  | endCancel hl hp => constructor <;> grind [State.Tracking]
  | untrack hl hp hts hfin =>
    simp only [State.untrack]
    constructor <;> grind [State.Tracking]
  | track hl ht => constructor <;> grind [State.Tracking]
  | endTrack hl => constructor <;> grind [State.Tracking]
  | completeOrphan hl ht => constructor <;> grind [State.Tracking]
  | finishCallbackRun hl hp =>
    simp only [State.finishCallbackRun]
    constructor <;> grind [State.Tracking]
  | startRemoteCallback hl hp hc ht =>
    simp only [State.create]
    constructor <;> grind [State.Tracking]
  | endRemoteCallback hl hp ht hts hfin =>
    simp only [State.untrack]
    constructor <;> grind [State.Tracking]

/-! ## The lifecycle -/

theorem invariant (h : system.Reachable s) : PhaseInv s ∧ FutureInv s ∧ TaskInv s := by
  refine h.invariant (I := fun s => PhaseInv s ∧ FutureInv s ∧ TaskInv s) ?_ ?_
  · rintro s rfl
    exact ⟨by constructor <;> simp, by constructor <;> simp [State.Done, State.Held],
      by constructor <;> simp [State.Tracking]⟩
  · rintro s l s' - ⟨hp, hf, ht⟩ hs
    exact ⟨hp.step hs, hf.step hp hs, ht.step hp hs⟩

/-- The labels of the steps of worker threads. -/
def Label.OfWorker : Label → Prop
  | .registerCallbackIntent _ | .post _ => True
  | _ => False

/-- Until the section in progress has resolved the futures it holds, the loop
    does nothing else. -/
theorem held_step {f : ℕ} (hf : s.Held f) (hs : Step s l s') :
    s'.Done f ∨ s'.Held f ∧ (l.OfWorker ∨ ∃ g, l = .resolve g) := by
  have hl : s.loop ≠ .none := by
    rintro hl
    simp [State.Held, hl] at hf
  cases hs with
  | @registerCallbackIntent g hg =>
    refine .inr ⟨?_, .inl trivial⟩
    simp only [State.registerCallbackIntent, State.resolve]
    split_ifs <;> exact hf
  | post => exact .inr ⟨hf, .inl trivial⟩
  | resolveCopy hl => grind [State.Held, State.Done, State.resolve]
  | resolveCancelled hl hg => grind [State.Held, State.Done, State.resolve, State.resolveOnce]
  | endCancel hl | track hl | endTrack hl => simp [State.Held, hl] at hf
  | _ => contradiction

/-- The section in progress resolves each future it holds. -/
theorem exists_step_of_held {f : ℕ} (hf : s.Held f) : ∃ s', Step s (.resolve f) s' ∧ s'.Done f := by
  rcases hf with hl | ⟨fs, hl, hf⟩
  · exact ⟨_, .resolveCopy hl, State.done_resolve.2 (.inl rfl)⟩
  · refine ⟨_, .resolveCancelled hl hf, ?_⟩
    exact State.done_resolveOnce.2 (.inl rfl)


/-- Nothing is forgotten. -/
theorem Step.mono (hs : Step s l s') :
    s.handed ⊆ s'.handed ∧ s.created ⊆ s'.created ∧ s.finished ⊆ s'.finished := by
  cases hs with
  | registerCallbackIntent =>
    simp only [State.registerCallbackIntent, State.resolve]
    split_ifs <;> simp
  | scheduleCallback =>
    simp only [State.scheduleCallback, State.resolveOnce, State.resolve, State.create]
    split_ifs <;> simp
  | resolveCancelled =>
    simp only [State.resolveOnce, State.resolve]
    split_ifs <;> simp
  | finishTask | startRemoteCallback => simp [State.create]
  | _ => exact ⟨subset_rfl, subset_rfl, subset_rfl⟩

/-- The callbacks are closed and settled: the futures are resolved, and the tasks are `tasks`. -/
structure Settled (tasks : Finset ℕ) (s : State) : Prop where
  phase : s.phase ≠ .running
  done : ∀ f ∈ s.handed, s.Done f
  created : s.created = tasks

/-- Once the callbacks are closed, a future that no section holds is resolved. -/
theorem PhaseInv.done (hp : PhaseInv s) (hf : FutureInv s) (hphase : s.phase ≠ .running)
    (hheld : ∀ f, ¬s.Held f) : ∀ f ∈ s.handed, s.Done f := by
  intro f hh
  obtain ⟨hpending, hvalue⟩ := hp.closed hphase
  rcases hf.found f hh with h | h | ⟨t, h⟩ | h
  · exact h
  · simp [hpending] at h
  · simp [hvalue t] at h
  · exact absurd h (hheld f)

theorem Settled.of_endCancel (hr : system.Reachable s) (hs : Step s .endCancel s') :
    Settled s.created s' := by
  obtain ⟨hp, hf, -⟩ := invariant (hr.step hs)
  cases hs with
  | endCancel hl hc => exact ⟨by simp, hp.done hf (by simp) (by simp [State.Held]), rfl⟩

theorem Settled.step {tasks : Finset ℕ} (h : Settled tasks s) (hp : PhaseInv s)
    (hl : l ≠ .beginCallbackRun) (hs : Step s l s') : Settled tasks s' := by
  obtain ⟨hphase, hdone, rfl⟩ := h
  have hclosed : s.runner.callbacksClosed = true := by grind [hp.opened]
  have hpending := (hp.closed hphase).1
  cases hs with
  | post | finishTask | refuseCallbackRun | track | endTrack | completeOrphan | copyResult =>
    exact ⟨hphase, hdone, rfl⟩
  | registerCallbackIntent hf =>
    simp only [State.registerCallbackIntent, hclosed, if_true]
    refine ⟨hphase, fun g hg => State.done_resolve.2 ?_, rfl⟩
    exact (Finset.mem_insert.1 hg).imp_right (hdone g)
  | scheduleCallback =>
    simp only [State.scheduleCallback, hpending, Finset.notMem_empty, not_false_iff, if_true]
    exact ⟨hphase, hdone, rfl⟩
  | resolveCopy => exact ⟨hphase, fun g hg => State.done_resolve.2 (.inr (hdone g hg)), rfl⟩
  | resolveCancelled =>
    simp only [State.resolveOnce]
    split_ifs
    · exact ⟨hphase, hdone, rfl⟩
    · exact ⟨hphase, fun g hg => State.done_resolve.2 (.inr (hdone g hg)), rfl⟩
  | beginCallbackRun => exact absurd rfl hl
  | cancelCallbacks _ hr | startRemoteCallback _ hr | endRemoteCallback _ hr =>
    exact absurd hr hphase
  | endCancel | untrack | finishCallbackRun => exact ⟨by simp [State.finishCallbackRun], hdone, rfl⟩


theorem Settled.run {tasks : Finset ℕ} {ls : List Label} (hr : system.Reachable s)
    (h : Settled tasks s) (hrun : system.Run s ls s') (hl : .beginCallbackRun ∉ ls) :
    Settled tasks s' := by
  refine (hrun.invariant (I := fun s => system.Reachable s ∧ Settled tasks s) ⟨hr, h⟩ ?_).2
  rintro t l u hmem ⟨ht, h⟩ hs
  exact ⟨ht.step hs, h.step (invariant ht).1 (fun heq => hl (heq ▸ hmem)) hs⟩

/-- With no run active, the collections hold every task that is not finished. -/
theorem unsettled_iff (hr : system.Reachable s) (hl : s.loop = .none)
    (ha : s.runner.runActive = false) : s.Unsettled ↔ ∃ t ∈ s.created, t ∉ s.finished := by
  obtain ⟨hp, -, ht⟩ := invariant hr
  have hphase : s.phase ≠ .running := by simp [hp.active.1 ha]
  have hpending := (hp.closed hphase).1
  constructor
  · rintro (⟨f, hf, -⟩ | ⟨t, hmem, hfin⟩)
    · simp [hpending] at hf
    · rcases Finset.mem_union.1 hmem with h | h
      · exact ⟨t, ht.tasks h, hfin⟩
      · exact ⟨t, ht.orphaned h, hfin⟩
  · rintro ⟨t, hmem, hfin⟩
    rcases ht.tracked t hmem hfin with h | h | ⟨ts, h, -⟩
    · exact .inr ⟨t, Finset.mem_union_left _ h, hfin⟩
    · exact .inr ⟨t, Finset.mem_union_right _ h, hfin⟩
    · simp [hl] at h

/-- `_begin_callback_run` refuses a run if one is active, or a task is not finished. -/
theorem exists_refuse_iff (hr : system.Reachable s) (hl : s.loop = .none) :
    (∃ s', Step s .refuseCallbackRun s') ↔
      s.runner.runActive = true ∨ ∃ t ∈ s.created, t ∉ s.finished := by
  constructor
  · rintro ⟨s', hs⟩
    cases hs with
    | refuseCallbackRun hl h =>
      rw [or_iff_not_imp_left, Bool.not_eq_true]
      intro ha
      rw [← unsettled_iff hr hl ha]
      by_contra hu
      simp [State.beginCallbackRun, ha, hu] at h
  · intro h
    rcases hb : s.beginCallbackRun with e | runner
    · exact ⟨s, .refuseCallbackRun hl hb⟩
    · obtain ⟨ha, hu, -⟩ := State.beginCallbackRun_eq_ok.1 hb
      rw [unsettled_iff hr hl ha] at hu
      simp [ha, hu] at h

/-- A run begins when every task of the earlier ones is finished. -/
theorem finished_of_begin (hr : system.Reachable s) (hs : Step s .beginCallbackRun s') :
    s.created ⊆ s.finished := by
  cases hs with
  | beginCallbackRun hl h =>
    obtain ⟨ha, hu, -⟩ := State.beginCallbackRun_eq_ok.1 h
    rw [unsettled_iff hr hl ha] at hu
    exact fun t ht => by_contra fun hfin => hu ⟨t, ht, hfin⟩

/-- The lifecycle of callbacks, in every state `s` that is reached. -/
theorem callback_lifecycle (hr : system.Reachable s) :
    -- a future is resolved at most once, and not lost: if it is in none of the
    -- collections, the section in progress resolves it before the loop does anything else
    (∀ f, s.resolutions f ≤ 1) ∧
    (∀ f ∈ s.handed, s.Done f ∨ f ∈ s.runner.pendingCallbackFutures ∨
      (∃ t, s.runner.callbackFutures t = some f) ∨ s.Held f) ∧
    (∀ f, s.Held f → (∃ s', Step s (.resolve f) s' ∧ s'.Done f) ∧ ∀ l s', Step s l s' →
      s'.Done f ∨ s'.Held f ∧ (l.OfWorker ∨ ∃ g, l = .resolve g)) ∧
    -- when the callbacks are cancelled, every future is resolved, and until the next
    -- run no task is created, and the futures that are registered are resolved
    (∀ s₁ ls s₂, Step s .endCancel s₁ → system.Run s₁ ls s₂ → .beginCallbackRun ∉ ls →
      (∀ f ∈ s₂.handed, s₂.Done f) ∧ s₂.created = s.created) ∧
    -- a refused run changes nothing, and the tasks are finished when one begins
    (∀ s', Step s .refuseCallbackRun s' → s' = s) ∧
    (s.loop = .none → ((∃ s', Step s .refuseCallbackRun s') ↔
      s.runner.runActive = true ∨ ∃ t ∈ s.created, t ∉ s.finished)) ∧
    ∀ s', Step s .beginCallbackRun s' → s.created ⊆ s.finished := by
  obtain ⟨hp, hf, ht⟩ := invariant hr
  refine ⟨hf.once, hf.found, fun f h => ⟨exists_step_of_held h, fun _ _ => held_step h⟩,
    fun s₁ ls s₂ hs hrun hl => ?_, fun s' hs => ?_, exists_refuse_iff hr,
    fun s' => finished_of_begin hr⟩
  · have h := (Settled.of_endCancel hr hs).run (hr.step hs) hrun hl
    exact ⟨h.done, h.created⟩
  · cases hs
    rfl

/-- A callback has run, and its task is about to copy the result. -/
def copying : State :=
  let s : State := { runner := { callbacksClosed := false, runActive := true }, phase := .running }
  let s := s.registerCallbackIntent 0
  let s : State := { s with registered := s.registered.erase 0, posted := insert 0 s.posted }
  let s : State := { s.scheduleCallback 0 0 with posted := s.posted.erase 0 }
  let s : State := { s with finished := insert 0 s.finished }
  s.copyResult 0

theorem reachable_copying : system.Reachable copying := by
  have h : system.Reachable {} := .init rfl
  have h := h.step (.beginCallbackRun rfl
    (State.beginCallbackRun_eq_ok.2 ⟨rfl, by decide, rfl⟩))
  have h := h.step (.registerCallbackIntent (f := 0) (by decide))
  have h := h.step (.post (f := 0) (by decide))
  have h := h.step (.scheduleCallback (f := 0) (t := 0) rfl (by decide) (by decide))
  have h := h.step (.finishTask (t := 0) rfl (by decide))
  exact h.step (.copyResult (t := 0) rfl (by decide) (by decide))

theorem callback_lifecycle_copying : system.Reachable copying ∧ ∀ f, copying.resolutions f ≤ 1 :=
  ⟨reachable_copying, (callback_lifecycle reachable_copying).1⟩

/-- While the result of a task is copied, its future is in none of the collections. -/
theorem not_forall_found : ¬∀ s, system.Reachable s → ∀ f ∈ s.handed, s.Done f ∨
    f ∈ s.runner.pendingCallbackFutures ∨ ∃ t, s.runner.callbackFutures t = some f := by
  intro h
  rcases h copying reachable_copying 0 (by decide) with h | h | ⟨t, h⟩
  · exact absurd h (by decide)
  · exact absurd h (by decide)
  · by_cases ht : t = 0
    · simp [copying, State.copyResult, ht] at h
    · simp [copying, State.copyResult, State.scheduleCallback, State.create,
        State.registerCallbackIntent, ht] at h

end Hyperforge.Codemode.Callbacks
