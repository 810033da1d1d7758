import Hyperforge.Library.Journal
import Hyperforge.Procedural.Store

/-!
# Evolution as a list of events

What a run of evolution does is known in advance, given the caller's code: the
state at the boundary of each round is a function of the previous one (`next`),
and so is everything that is published and called in between (`roundEvents`).
A run performs these events in order, until something fails: `evolve` refines
the list `evolveEvents` (`performs_evolve`), with no invariant to find.

The results about whole runs are then proved along the events.
-/

namespace Hyperforge.Evolution

open Crash

variable {J S R P : Type}

/-- The files of the output directory. -/
abbrev Files (J S : Type) := Name → Option (Option (Document J S))

/-- The files and the log. -/
structure State (J S : Type) where
  files : Files J S
  log : Log J S

inductive Event (J S : Type)
  | publish (n : Name) (doc : Document J S)
  | point (p : Pointer S)
  | log (f : Log J S → Log J S)

/-- What an event does. A document is published under a free name, or one under
    which it is already. -/
inductive Step : State J S → Event J S → State J S → Prop
  | publish {v l n doc} (h : v n = none ∨ v n = some (some doc)) :
    Step ⟨v, l⟩ (.publish n doc) ⟨publish v n doc, l⟩
  | point {v l p} : Step ⟨v, l⟩ (.point p) ⟨publish v .retained (.pointer p), l⟩
  | log {v l f} : Step ⟨v, l⟩ (.log f) ⟨v, f l⟩

/-- A list of events, from an empty directory. -/
def journal (events : List (Event J S)) : Journal (Event J S) (State J S) (World J S) where
  step := Step
  shows s w := At s.files s.log w
  start := ⟨fun _ => none, {}⟩
  events := events

variable (env : Env J S R P) (cfg : Config J)

/-! ## The events of a run -/

def graphEvent (g : ProceduralGraph) : Event J S :=
  .publish (.graph (env.fingerprint g)) (.graph g.data.canonical)

def retainEvent (g : ProceduralGraph) (score : Option S) (roundId : ℕ) : Event J S :=
  .point ⟨env.fingerprint g, score, roundId⟩

def rejectEvents (roundId : ℕ) (record : Record J S) : List (Event J S) :=
  [.publish (.round roundId) (.record record), .publish (.rejection roundId) (.record record)]

def acceptEvents (roundId : ℕ) (record : Record J S) (candidate : ProceduralGraph) (score : S) :
    List (Event J S) :=
  [.publish (.round roundId) (.record record), retainEvent env candidate (some score) roundId]

section Rounds

variable [LE S] [DecidableLE S]

/-- The state after the evaluation `v` of the candidate. -/
def settled (st : LoopState J S) (roundId : ℕ) (p : Proposing J S) (candidate : ProceduralGraph)
    (v : Evaluation J S) : LoopState J S :=
  match v.score with
  | .error _ => rejected cfg st (validatedRecord env cfg st roundId p candidate v)
  | .ok score =>
    if st.retainedScore ≤ score then accepted cfg st candidate score
    else rejected cfg st (validatedRecord env cfg st roundId p candidate v)

def settleEvents (st : LoopState J S) (roundId : ℕ) (p : Proposing J S)
    (candidate : ProceduralGraph) (v : Evaluation J S) : List (Event J S) :=
  match v.score with
  | .error _ => rejectEvents roundId (validatedRecord env cfg st roundId p candidate v)
  | .ok score =>
    if st.retainedScore ≤ score then
      acceptEvents env roundId (validatedRecord env cfg st roundId p candidate v) candidate score
    else rejectEvents roundId (validatedRecord env cfg st roundId p candidate v)

/-- The evaluation of the candidate of a round. -/
abbrev validation (roundId : ℕ) (candidate : ProceduralGraph) : Evaluation J S :=
  evaluate env (.validation roundId) candidate cfg.validationTasks

/-- The state after a round whose first part is `p`. -/
def concluded (st : LoopState J S) (roundId : ℕ) (p : Proposing J S) : LoopState J S :=
  match p.outcome with
  | .error (phase, e) => rejected cfg st (failedRecord env cfg st roundId p phase e)
  | .ok candidate => settled env cfg st roundId p candidate (validation env cfg roundId candidate)

def concludeEvents (st : LoopState J S) (roundId : ℕ) (p : Proposing J S) : List (Event J S) :=
  match p.outcome with
  | .error (phase, e) => rejectEvents roundId (failedRecord env cfg st roundId p phase e)
  | .ok candidate =>
    graphEvent env candidate ::
      .log (Log.validate (.validation roundId) (validation env cfg roundId candidate)) ::
        settleEvents env cfg st roundId p candidate (validation env cfg roundId candidate)

/-- What is proposed in a round from the boundary `b`. -/
abbrev proposed (roundId : ℕ) (b : Boundary J S) : Proposing J S :=
  propose env cfg b.toLoopState roundId b.history

/-- The boundary after a round. -/
def next (roundId : ℕ) (b : Boundary J S) : Boundary J S where
  toLoopState := concluded env cfg b.toLoopState roundId (proposed env cfg roundId b)
  history := b.history ++ (proposed env cfg roundId b).refinerCall.toList

def roundEvents (roundId : ℕ) (b : Boundary J S) : List (Event J S) :=
  .log (Log.run (proposed env cfg roundId b).calls) ::
    .log (Log.ask (proposed env cfg roundId b).refinerCall) ::
      (concludeEvents env cfg b.toLoopState roundId (proposed env cfg roundId b) ++
        [.log (Log.reach (next env cfg roundId b).toLoopState)])

/-- The first boundary. -/
def first (retained : ProceduralGraph) (score : S) : Boundary J S := ⟨⟨retained, score, [], 0⟩, []⟩

/-- The evaluation of the initial graph. -/
abbrev baseline (retained : ProceduralGraph) : Evaluation J S :=
  evaluate env .baseline retained cfg.validationTasks

/-- The events of the baseline, whose boundary is the first one. -/
def baselineEvents (retained : ProceduralGraph) (v : Evaluation J S) (score : S) :
    List (Event J S) :=
  [.log (Log.validate .baseline v),
    .publish .baseline (.baseline ⟨env.fingerprint retained, v.traces, .ok score⟩),
    retainEvent env retained (some score) 0] ++
  [.log (Log.reach (first retained score).toLoopState)]

/-- The events of a baseline that has failed. -/
def failedEvents (retained : ProceduralGraph) (v : Evaluation J S) (e : Exc) : List (Event J S) :=
  [.log (Log.validate .baseline v),
    .publish .baseline (.baseline ⟨env.fingerprint retained, v.traces, .error e.render⟩)]

/-- The events before the baseline. -/
def prepareEvents (retained : ProceduralGraph) (m : Manifest J) : List (Event J S) :=
  [.publish .manifest (.manifest m), graphEvent env retained, retainEvent env retained none 0]

/-- The events of a run. -/
def evolveEvents (initialGraph : GraphData) : List (Event J S) :=
  match prepare env cfg initialGraph with
  | .error _ => []
  | .ok (retained, m) =>
    prepareEvents env retained m ++
      match (baseline env cfg retained).score with
      | .error e => failedEvents env retained (baseline env cfg retained) e
      | .ok score =>
        baselineEvents env retained (baseline env cfg retained) score ++
          Journal.loopEvents (roundEvents env cfg) (next env cfg) cfg.rounds.toNat 1
            (first retained score)

end Rounds

/-! ## The state after some events -/

/-- What an event does to the log. -/
def Event.onLog : Event J S → Log J S → Log J S
  | .log f, l => f l
  | .publish _ _, l => l
  | .point _, l => l

theorem Step.log_eq {s t : State J S} {e : Event J S} (h : Step s e t) : t.log = e.onLog s.log := by
  cases h <;> rfl

/-- The log after some events. -/
theorem log_of_runs {events : List (Event J S)} {s t : State J S} {es : List (Event J S)}
    (h : (journal events).Runs s es t) : t.log = es.foldl (fun l e => e.onLog l) s.log := by
  induction es generalizing s with
  | nil =>
    cases h
    rfl
  | cons e es ih =>
    obtain ⟨u, hu, h⟩ := h
    rw [ih h, List.foldl_cons, Step.log_eq hu]

/-- Events that keep an invariant of the log. -/
theorem along_log {events : List (Event J S)} {s : State J S} {es : List (Event J S)}
    {I : Log J S → Prop} (hs : I s.log) (h : ∀ e ∈ es, ∀ l, I l → I (e.onLog l)) :
    (journal events).Along (fun _ t => I t.log) s es := by
  induction es generalizing s with
  | nil => trivial
  | cons e es ih =>
    intro t ht
    have ht : I t.log := by
      rw [Step.log_eq ht]
      exact h e (by simp) _ hs
    exact ⟨ht, ih ht fun e he => h e (List.mem_cons_of_mem _ he)⟩

/-- No boundary is reached, and the refiner is not called. -/
structure Log.Grows (l l' : Log J S) : Prop where
  boundaries : l'.boundaries = l.boundaries
  refinerCalls : l'.refinerCalls = l.refinerCalls
  validations : l.validations ⊆ l'.validations

theorem Log.grows_refl (l : Log J S) : l.Grows l := ⟨rfl, rfl, fun _ h => h⟩

theorem Log.grows_run (l : Log J S) (calls : List (Call × ProceduralGraph × EvaluationTask J)) :
    l.Grows (l.run calls) := ⟨rfl, rfl, fun _ h => h⟩

theorem Log.grows_validate (l : Log J S) (stage : Stage) (v : Evaluation J S) :
    l.Grows (l.validate stage v) := ⟨rfl, rfl, List.subset_append_left _ _⟩

/-- What an event does to the files. -/
def Event.onFiles : Event J S → Files J S → Files J S
  | .log _, v => v
  | .publish n doc, v => Evolution.publish v n doc
  | .point p, v => Evolution.publish v .retained (.pointer p)

theorem Step.files_eq {s t : State J S} {e : Event J S} (h : Step s e t) :
    t.files = e.onFiles s.files := by
  cases h <;> rfl

/-- The files after some events. -/
theorem files_of_runs {events : List (Event J S)} {s t : State J S} {es : List (Event J S)}
    (h : (journal events).Runs s es t) : t.files = es.foldl (fun v e => e.onFiles v) s.files := by
  induction es generalizing s with
  | nil =>
    cases h
    rfl
  | cons e es ih =>
    obtain ⟨u, hu, h⟩ := h
    rw [ih h, List.foldl_cons, Step.files_eq hu]

theorem onLog_rejectEvents {roundId : ℕ} {record : Record J S} {e : Event J S}
    (he : e ∈ rejectEvents roundId record) (l : Log J S) : e.onLog l = l := by
  rcases List.mem_pair.1 he with rfl | rfl <;> rfl

theorem onLog_acceptEvents {roundId : ℕ} {record : Record J S} {candidate : ProceduralGraph}
    {score : S} {e : Event J S} (he : e ∈ acceptEvents env roundId record candidate score)
    (l : Log J S) : e.onLog l = l := by
  rcases List.mem_pair.1 he with rfl | rfl <;> rfl

/-- The log after the validation of a candidate, if there is one. -/
def concludeLog (roundId : ℕ) (p : Proposing J S) (l : Log J S) : Log J S :=
  match p.outcome with
  | .error _ => l
  | .ok candidate => l.validate (.validation roundId) (validation env cfg roundId candidate)

section Rounds

variable [LE S] [DecidableLE S]

/-- The log before the end of a round. -/
def runLog (roundId : ℕ) (b : Boundary J S) (l : Log J S) : Log J S :=
  concludeLog env cfg roundId (proposed env cfg roundId b)
    ((l.run (proposed env cfg roundId b).calls).ask (proposed env cfg roundId b).refinerCall)

variable {env cfg}

/-- Once the refiner has been called, only the validation of the candidate is logged. -/
theorem onLog_concludeEvents {st : LoopState J S} {roundId : ℕ} {p : Proposing J S} {e : Event J S}
    (he : e ∈ concludeEvents env cfg st roundId p) :
    (∀ l, e.onLog l = l) ∨ ∃ candidate,
      e = .log (Log.validate (.validation roundId) (validation env cfg roundId candidate)) := by
  rw [concludeEvents] at he
  cases ho : p.outcome with
  | error pe =>
    rw [ho] at he
    exact .inl (onLog_rejectEvents he)
  | ok candidate =>
    rw [ho] at he
    rcases List.mem_cons.1 he with rfl | he
    · exact .inl fun _ => rfl
    rcases List.mem_cons.1 he with rfl | he
    · exact .inr ⟨candidate, rfl⟩
    rw [settleEvents] at he
    cases hv : (validation env cfg roundId candidate).score with
    | error e' =>
      rw [hv] at he
      exact .inl (onLog_rejectEvents he)
    | ok score =>
      rw [hv] at he
      dsimp only at he
      split_ifs at he
      · exact .inl (onLog_acceptEvents env he)
      · exact .inl (onLog_rejectEvents he)

theorem grows_concludeEvents {st : LoopState J S} {roundId : ℕ} {p : Proposing J S} {e : Event J S}
    (he : e ∈ concludeEvents env cfg st roundId p) (l : Log J S) : l.Grows (e.onLog l) := by
  rcases onLog_concludeEvents he with h | ⟨candidate, rfl⟩
  · rw [h]
    exact l.grows_refl
  · exact l.grows_validate _ _

theorem foldl_concludeEvents {st : LoopState J S} {roundId : ℕ} {p : Proposing J S} {l : Log J S} :
    (concludeEvents env cfg st roundId p).foldl (fun l e => e.onLog l) l =
      concludeLog env cfg roundId p l := by
  rw [concludeEvents, concludeLog]
  cases p.outcome with
  | error e => rfl
  | ok candidate =>
    dsimp only
    rw [List.foldl_cons, List.foldl_cons, settleEvents]
    cases (validation env cfg roundId candidate).score with
    | error e => rfl
    | ok score =>
      dsimp only
      split_ifs <;> rfl

theorem log_of_round {events : List (Event J S)} {s t : State J S} {roundId : ℕ}
    {b : Boundary J S} (h : (journal events).Runs s (roundEvents env cfg roundId b) t) :
    t.log = (runLog env cfg roundId b s.log).reach (next env cfg roundId b).toLoopState := by
  rw [log_of_runs h, roundEvents, List.foldl_cons, List.foldl_cons, List.foldl_append,
    foldl_concludeEvents]
  rfl

/-- An invariant of the log along a round: it is enough that it holds once the
    runner and the refiner have been called, and at the end. -/
theorem along_round {events : List (Event J S)} {s : State J S} {roundId : ℕ} {b : Boundary J S}
    {I : Log J S → Prop} (hI : ∀ l l', l.Grows l' → I l → I l') (hs : I s.log)
    (hask : I ((s.log.run (proposed env cfg roundId b).calls).ask
      (proposed env cfg roundId b).refinerCall))
    (hend : ∀ t, (journal events).Runs s (roundEvents env cfg roundId b) t → I t.log) :
    (journal events).Along (fun _ t => I t.log) s (roundEvents env cfg roundId b) := by
  intro s₁ h₁
  have h₁' : I s₁.log := by
    rw [Step.log_eq h₁]
    exact hI _ _ (Log.grows_run _ _) hs
  refine ⟨h₁', fun s₂ h₂ => ?_⟩
  have h₂' : I s₂.log := by
    rw [Step.log_eq h₂, Step.log_eq h₁]
    exact hask
  refine ⟨h₂', (along_log h₂' fun e he l hl => hI _ _ (grows_concludeEvents he l) hl).append ?_⟩
  exact fun s₃ h₃ s₄ h₄ =>
    ⟨hend s₄ ⟨s₁, h₁, s₂, h₂, Journal.runs_append.2 ⟨s₃, h₃, s₄, h₄, rfl⟩⟩, trivial⟩

/-- An invariant of the log along a run, given what holds before each round. -/
theorem along_evolve {initialGraph : GraphData} {I : Log J S → Prop}
    {B : ℕ → Boundary J S → State J S → Prop} (hI : ∀ l l', l.Grows l' → I l → I l')
    (h₀ : I {}) (hB : ∀ k b s, B k b s → I s.log)
    (hfirst : ∀ graph m score s t, prepare env cfg initialGraph = .ok (graph, m) →
      (baseline env cfg graph).score = .ok score → s.log = {} →
      (journal (evolveEvents env cfg initialGraph)).Runs s
        (baselineEvents env graph (baseline env cfg graph) score) t →
      B 1 (first graph score) t)
    (hround : ∀ k b s, B k b s → (journal (evolveEvents env cfg initialGraph)).Along
      (fun _ t => I t.log) s (roundEvents env cfg k b))
    (hnext : ∀ k b s t, B k b s → (journal (evolveEvents env cfg initialGraph)).Runs s
      (roundEvents env cfg k b) t → B (k + 1) (next env cfg k b) t) :
    (journal (evolveEvents env cfg initialGraph)).Along (fun _ t => I t.log)
      (journal (evolveEvents env cfg initialGraph)).start (evolveEvents env cfg initialGraph) := by
  set J' := journal (evolveEvents env cfg initialGraph)
  rw [evolveEvents]
  cases hp : prepare env cfg initialGraph with
  | error e => trivial
  | ok o =>
    obtain ⟨graph, m⟩ := o
    refine Journal.Along.append (along_log h₀ ?_) fun s hs => ?_
    · simp [prepareEvents, graphEvent, retainEvent, Event.onLog]
    have hs : s.log = {} := log_of_runs hs
    have hs₀ : I s.log := hs ▸ h₀
    have hvalidate (l : Log J S) (h : I l) :
        I (l.validate .baseline (baseline env cfg graph)) := hI _ _ (l.grows_validate _ _) h
    cases hv : (baseline env cfg graph).score with
    | error e => exact along_log hs₀ (by simpa [failedEvents, Event.onLog] using hvalidate)
    | ok score =>
      refine Journal.Along.append (Journal.Along.append (along_log hs₀ ?_) ?_) fun t ht => ?_
      · simpa [retainEvent, Event.onLog] using hvalidate
      · intro u hu t htu
        exact ⟨hB _ _ _ (hfirst graph m score s t hp hv hs (Journal.runs_append.2
          ⟨u, hu, Journal.runs_singleton.2 htu⟩)), trivial⟩
      · exact Journal.Along.loop hround hnext _ 1 _ t (hfirst graph m score s t hp hv hs ht)

end Rounds

/-! ## A run performs its events -/

variable {env cfg} {events : List (Event J S)} {s t : State J S} {pre : List (Event J S)}
  {e : Event J S} {es : List (Event J S)}

theorem allows_stay (h : (journal events).Reached pre s) :
    Allows (journal events).Follows s.files s.files s.log :=
  fun _ _ hw hw' => ⟨pre, s, h, hw, .inl hw'⟩

theorem allows_step {v : Files J S} {l : Log J S} (hs : (journal events).Reached pre s)
    (ht : (journal events).Reached (pre ++ [e]) t) (h : Step s e t) (hv : t.files = v)
    (hl : s.log = l) (hl' : t.log = l) : Allows (journal events).Follows s.files v l := by
  subst hv hl
  exact fun w w' hw hw' => ⟨pre, s, hs, hw, .inr ⟨e, t, ht, h, ⟨hw'.shows, hl'.symm ▸ hw'.log⟩⟩⟩

/-- A prefix of the events is reached with its next event. -/
theorem reached_step (hpre : pre ++ [e] <+: events)
    (hs : (journal events).Runs (journal events).start pre s) (h : Step s e t) :
    (journal events).Reached pre s ∧ (journal events).Reached (pre ++ [e]) t :=
  ⟨⟨(List.prefix_append _ _).trans hpre, hs⟩,
    hpre, Journal.runs_append.2 ⟨s, hs, Journal.runs_singleton.2 h⟩⟩

theorem performs_log {f : Log J S → Log J S} :
    (journal events).Performs s (log f) [.log f] fun _ => True := by
  intro pre hpre hs
  have hstep : Step s (.log f) ⟨s.files, f s.log⟩ := Step.log
  obtain ⟨h, h'⟩ := reached_step hpre hs hstep
  exact (log_spec fun w hw => ⟨pre, s, h, hw, .inr ⟨_, _, h', hstep, hw.shows, rfl⟩⟩).conseq
    (fun _ h => h) (fun _ w hw => ⟨trivial, _, Journal.runs_singleton.2 hstep, hw⟩) (fun _ _ h => h)

theorem performs_write {n : Name} {doc : Document J S} :
    (journal events).Performs s (ArtifactStore.write env n doc) [.publish n doc] fun _ => True := by
  intro pre hpre hs
  have hstep (hn : s.files n = none) : Step s (.publish n doc) ⟨publish s.files n doc, s.log⟩ :=
    .publish (.inl hn)
  refine (write_spec (allows_stay ⟨(List.prefix_append _ _).trans hpre, hs⟩) fun hn => ?_).conseq
    (fun _ h => h) (fun _ w hw => ⟨trivial, _, Journal.runs_singleton.2 (hstep hw.1), hw.2⟩)
    (fun _ _ h => h)
  obtain ⟨h, h'⟩ := reached_step hpre hs (hstep hn)
  exact ⟨allows_step h h' (hstep hn) rfl rfl rfl, allows_stay h'⟩

theorem performs_graph {g : ProceduralGraph} :
    (journal events).Performs s (ArtifactStore.graph env g) [graphEvent env g]
      fun _ => True := by
  intro pre hpre hs
  have hstep (hn : s.files (.graph (env.fingerprint g)) = none ∨
      s.files (.graph (env.fingerprint g)) = some (some (.graph g.data.canonical))) :
      Step s (graphEvent env g) ⟨publishGraph env s.files g, s.log⟩ := .publish hn
  refine (graph_spec (allows_stay ⟨(List.prefix_append _ _).trans hpre, hs⟩) fun hn => ?_).conseq
    (fun _ h => h) (fun _ w hw => ⟨trivial, _, Journal.runs_singleton.2 (hstep hw.1), hw.2⟩)
    (fun _ _ h => h)
  obtain ⟨h, h'⟩ := reached_step hpre hs (hstep (.inl hn))
  exact ⟨allows_step h h' (hstep (.inl hn)) rfl rfl rfl, allows_stay h'⟩

theorem performs_retain {g : ProceduralGraph} {score : Option S} {roundId : ℕ} :
    (journal events).Performs s (ArtifactStore.retain env g score roundId)
      [retainEvent env g score roundId] fun _ => True := by
  intro pre hpre hs
  have hstep : Step s (retainEvent env g score roundId)
      ⟨publish s.files .retained (.pointer ⟨env.fingerprint g, score, roundId⟩), s.log⟩ := .point
  obtain ⟨h, h'⟩ := reached_step hpre hs hstep
  exact (retain_spec (allows_stay h) (allows_step h h' hstep rfl rfl rfl) (allows_stay h')).conseq
    (fun _ h => h) (fun _ w hw => ⟨trivial, _, Journal.runs_singleton.2 hstep, hw⟩)
    (fun _ _ h => h)

theorem performs_init {outputExists : Bool} :
    (journal events).Performs s (ArtifactStore.init outputExists) [] fun _ => True := by
  intro pre hpre hs
  exact (init_spec (allows_stay ⟨by simpa using hpre, hs⟩)).conseq (fun _ h => h)
    (fun _ w hw => ⟨trivial, s, rfl, hw⟩) (fun _ _ h => h)

theorem performs_exceptionOnly {α : Type} {r : Except Exc α} :
    (journal events).Performs s (exceptionOnly r) [] (· = r) := fun _ _ _ =>
  exceptionOnly_spec.conseq (fun _ h => h) (fun _ _ hw => ⟨hw.1, s, rfl, hw.2⟩) (fun _ _ h => h)

theorem performs_reject {st : LoopState J S} {roundId : ℕ} {record : Record J S} :
    (journal events).Performs s (reject env cfg st roundId record) (rejectEvents roundId record)
      (· = rejected cfg st record) :=
  performs_write.bind fun _ _ _ _ => performs_write.bind fun _ _ _ _ => .pure rfl

theorem performs_accept {st : LoopState J S} {roundId : ℕ} {record : Record J S}
    {candidate : ProceduralGraph} {score : S} :
    (journal events).Performs s (accept env cfg st roundId record candidate score)
      (acceptEvents env roundId record candidate score) (· = accepted cfg st candidate score) :=
  performs_write.bind fun _ _ _ _ => performs_retain.bind fun _ _ _ _ => .pure rfl

section Rounds

variable [LE S] [DecidableLE S]

theorem performs_validate {st : LoopState J S} {roundId : ℕ} {p : Proposing J S}
    {candidate : ProceduralGraph} :
    (journal events).Performs s (validate env cfg st roundId p candidate)
      (graphEvent env candidate ::
        .log (Log.validate (.validation roundId) (validation env cfg roundId candidate)) ::
          settleEvents env cfg st roundId p candidate (validation env cfg roundId candidate))
      (· = settled env cfg st roundId p candidate (validation env cfg roundId candidate)) := by
  refine performs_graph.bind fun _ _ _ _ => performs_log.bind fun _ _ _ _ =>
    performs_exceptionOnly.bind fun o _ ho _ => ?_
  subst ho
  rw [settled]
  dsimp only [validation]
  cases (evaluate env (.validation roundId) candidate cfg.validationTasks).score with
  | error e => exact performs_reject
  | ok score =>
    dsimp only
    split_ifs with hle
    · exact performs_accept
    · exact performs_reject

theorem performs_runRound {b : Boundary J S} {roundId : ℕ}
    (hb : s.log.refinerCalls = b.history) :
    (journal events).Performs s (runRound env cfg b.toLoopState roundId)
      (.log (Log.run (proposed env cfg roundId b).calls) ::
        .log (Log.ask (proposed env cfg roundId b).refinerCall) ::
          concludeEvents env cfg b.toLoopState roundId (proposed env cfg roundId b))
      (· = (next env cfg roundId b).toLoopState) := by
  have hread : (journal events).Performs s
      (Prog.read fun w => .ok w.2.refinerCalls : Program J S (List (RefinerArgs J S))) []
      (· = b.history) := by
    refine Journal.Performs.read fun w history hw h => ?_
    cases h
    rw [← hb, hw.log]
  refine hread.bind fun history _ hh _ => ?_
  subst hh
  refine performs_log.bind fun _ _ _ _ => performs_log.bind fun _ _ _ _ => ?_
  dsimp only [next, concluded, concludeEvents]
  cases (propose env cfg b.toLoopState roundId b.history).outcome with
  | error pe => exact performs_exceptionOnly.bind fun _ _ _ _ => performs_reject
  | ok candidate => exact performs_validate

theorem performs_round {b : Boundary J S} {roundId : ℕ} (hb : s.log.refinerCalls = b.history) :
    (journal events).Performs s (round env cfg b.toLoopState roundId)
      (roundEvents env cfg roundId b) (· = (next env cfg roundId b).toLoopState) := by
  refine (performs_runRound hb).bind fun st _ hst _ => ?_
  subst hst
  exact performs_log.bind fun _ _ _ _ => .pure rfl

theorem history_of_round {roundId : ℕ} {b : Boundary J S} (hb : s.log.refinerCalls = b.history)
    (h : (journal events).Runs s (roundEvents env cfg roundId b) t) :
    t.log.refinerCalls = (next env cfg roundId b).history := by
  rw [log_of_round h]
  change (concludeLog env cfg roundId _ _).refinerCalls = b.history ++ _
  rw [concludeLog, ← hb]
  cases (proposed env cfg roundId b).outcome <;> rfl

/-- A round reaches its boundary. -/
theorem boundaries_of_round {roundId : ℕ} {b : Boundary J S}
    (hb : s.log.refinerCalls = b.history)
    (h : (journal events).Runs s (roundEvents env cfg roundId b) t) :
    t.log.boundaries = s.log.boundaries ++ [next env cfg roundId b] := by
  have hh := history_of_round hb h
  rw [log_of_round h] at hh ⊢
  change (runLog env cfg roundId b s.log).refinerCalls = _ at hh
  rw [Log.reach, hh, runLog, concludeLog]
  cases (proposed env cfg roundId b).outcome <;> rfl

theorem performs_rounds {n k : ℕ} {b : Boundary J S} (hb : s.log.refinerCalls = b.history) :
    (journal events).Performs s
      (Prog.loop (round env cfg) b.toLoopState (List.range' k n))
      (Journal.loopEvents (roundEvents env cfg) (next env cfg) n k b)
      (· = (Journal.loopEnd (next env cfg) n k b).toLoopState) :=
  Journal.Performs.loop_range' (I := fun _ b s => s.log.refinerCalls = b.history)
    (fun _ _ _ h => performs_round h) (fun _ _ _ _ h ht => history_of_round h ht) n k b s hb

end Rounds

theorem performs_baseline {graph : ProceduralGraph} {score : S}
    (hv : (baseline env cfg graph).score = .ok score) :
    (journal events).Performs s (scoreBaseline env cfg graph)
      (baselineEvents env graph (baseline env cfg graph) score)
      (· = (first graph score).toLoopState) := by
  refine performs_log.bind fun _ _ _ _ => performs_exceptionOnly.bind fun o _ ho _ => ?_
  obtain rfl : o = .ok score := ho.trans hv
  exact performs_write.bind fun _ _ _ _ => performs_retain.bind fun _ _ _ _ =>
    performs_log.bind fun _ _ _ _ => .pure rfl

theorem performs_failed {graph : ProceduralGraph} {e : Exc}
    (hv : (baseline env cfg graph).score = .error e) :
    (journal events).Performs s (scoreBaseline env cfg graph)
      (failedEvents env graph (baseline env cfg graph) e) (fun _ => False) := by
  refine performs_log.bind fun _ _ _ _ => performs_exceptionOnly.bind fun o _ ho _ => ?_
  obtain rfl : o = .error e := ho.trans hv
  exact performs_write.bind fun _ _ _ _ => .raise

variable [LE S] [DecidableLE S]

omit [LE S] [DecidableLE S] in
/-- What is checked before the run starts. -/
theorem of_prepare {initialGraph : GraphData} {graph : ProceduralGraph} {m : Manifest J}
    (h : prepare env cfg initialGraph = .ok (graph, m)) :
    graph.data = initialGraph ∧ graph.data.checkTools cfg.availableTools = .ok () := by
  simp only [prepare, bind_eq_ok, mapError_eq_ok, pure, Except.pure] at h
  obtain ⟨_, _, g, hg, _, ht, _, _, _, _, heq⟩ := h
  cases heq
  exact ⟨ProceduralGraph.data_of_ofData hg, ht⟩

/-- The last boundary of a run that returns. -/
def IsLast (env : Env J S R P) (cfg : Config J) (initialGraph : GraphData) (b : Boundary J S) :
    Prop :=
  ∃ retained m score, prepare env cfg initialGraph = .ok (retained, m) ∧
    (baseline env cfg retained).score = .ok score ∧
    b = Journal.loopEnd (next env cfg) cfg.rounds.toNat 1 (first retained score)

/-- A run of evolution performs its events, in order, until something fails,
    and returns the graph retained at the last boundary. -/
theorem performs_evolve {initialGraph : GraphData} {outputExists : Bool} :
    (journal (evolveEvents env cfg initialGraph)).Performs
      (journal (evolveEvents env cfg initialGraph)).start
      (evolve env cfg initialGraph outputExists) (evolveEvents env cfg initialGraph)
      (fun graph => ∃ b, IsLast env cfg initialGraph b ∧ graph = b.retained) := by
  set J' := journal (evolveEvents env cfg initialGraph)
  have hread : J'.Performs J'.start
      (Prog.read fun _ => prepare env cfg initialGraph : Program J S _) []
      (prepare env cfg initialGraph = .ok ·) := Journal.Performs.read fun _ _ _ h => h
  rw [evolveEvents]
  cases hp : prepare env cfg initialGraph with
  | error e =>
    refine hread.bind fun _ _ h _ => ?_
    rw [hp] at h
    cases h
  | ok o =>
    obtain ⟨retained, m⟩ := o
    refine hread.bind fun _ s₀ h h₀ => ?_
    obtain rfl := Except.ok.inj (hp.symm.trans h)
    refine performs_init.bind fun _ s₁ _ h₁ => performs_write.bind fun _ s₂ _ h₂ => ?_
    refine performs_graph.bind fun _ s₃ _ h₃ => performs_retain.bind fun _ s₄ _ h₄ => ?_
    have hs₄ : s₄.log.refinerCalls = [] := by
      rw [log_of_runs h₄, log_of_runs h₃, log_of_runs h₂, log_of_runs h₁, log_of_runs h₀]
      rfl
    cases hv : (baseline env cfg retained).score with
    | error e =>
      exact (performs_failed hv).bind fun _ _ h _ => h.elim
    | ok score =>
      refine (performs_baseline hv).bind fun st s₅ hst h₅ => ?_
      subst hst
      have hs₅ : s₅.log.refinerCalls = (first retained score).history := by
        rw [log_of_runs h₅]
        exact hs₄
      refine (performs_rounds hs₅).map fun st hst => ?_
      subst hst
      exact ⟨_, ⟨retained, m, score, hp, hv, rfl⟩, rfl⟩

/-- What holds once all the events have been performed. -/
theorem of_isLast {initialGraph : GraphData} {B : ℕ → Boundary J S → State J S → Prop}
    (hfirst : ∀ graph m score s t, prepare env cfg initialGraph = .ok (graph, m) →
      (baseline env cfg graph).score = .ok score → s.log = {} →
      (journal (evolveEvents env cfg initialGraph)).Runs s
        (baselineEvents env graph (baseline env cfg graph) score) t →
      B 1 (first graph score) t)
    (hnext : ∀ k b s t, B k b s → (journal (evolveEvents env cfg initialGraph)).Runs s
      (roundEvents env cfg k b) t → B (k + 1) (next env cfg k b) t)
    {b : Boundary J S} (hb : IsLast env cfg initialGraph b)
    (ht : (journal (evolveEvents env cfg initialGraph)).Runs
      (journal (evolveEvents env cfg initialGraph)).start (evolveEvents env cfg initialGraph) t) :
    B (1 + cfg.rounds.toNat) b t := by
  obtain ⟨graph, m, score, hp, hv, rfl⟩ := hb
  set J' := journal (evolveEvents env cfg initialGraph)
  rw [evolveEvents, hp] at ht
  dsimp only at ht
  rw [hv] at ht
  obtain ⟨s, hs, ht⟩ := Journal.runs_append.1 ht
  obtain ⟨u, hu, ht⟩ := Journal.runs_append.1 ht
  exact Journal.runs_loopEvents hnext _ 1 _ u
    (hfirst graph m score s u hp hv (log_of_runs hs) hu) ht

end Hyperforge.Evolution
