import Hyperforge.Procedural.Rounds
import Mathlib.Data.List.Forall2

/-!
# What the refiner learns

The refiner is not told about validation but what it scores: two runs that
agree on what the refiner may know (`SameTraining`, the rest of the environment
and of the configuration) and, at every stage, on the mean score of the
candidate or on its failure, give it the same arguments in every round
(`refiner_noninterference`). The tasks of validation and testing, what the
runner returns for them, and the expected answers of training may differ.

The boundaries of the two runs are related by `Alike`, which is kept by a round
(`Alike.next`): rejections need only have the same summaries.
-/

namespace Hyperforge.Evolution

open Crash

variable {J S R P : Type}

/-- The same environment, with another runner. -/
abbrev Env.withRunner (env : Env J S R P)
    (runner : Call → ProceduralGraph → EvaluationTask J → Except Exc R) : Env J S R P :=
  { env with runner := runner }

/-- The same configuration, with other tasks. -/
abbrev Config.withTasks (cfg : Config J) (train validation test : List (EvaluationTask J)) :
    Config J :=
  { cfg with trainTasks := train, validationTasks := validation, testTasks := test }

/-- Two tasks are the same for training: their expected answers may differ. -/
structure SameTraining (runner runner' : Call → ProceduralGraph → EvaluationTask J → Except Exc R)
    (t t' : EvaluationTask J) : Prop where
  id : t.id = t'.id
  query : t.query = t'.query
  rollout : ∀ round index graph,
    runner ⟨.training round, index⟩ graph t = runner' ⟨.training round, index⟩ graph t'

/-- Two boundaries are the same for the refiner. -/
structure Alike (b b' : Boundary J S) : Prop where
  retained : b.retained = b'.retained
  score : b.retainedScore = b'.retainedScore
  cursor : b.cursor = b'.cursor
  rejections : b.rejections.map summary = b'.rejections.map summary
  history : b.history = b'.history

variable {env : Env J S R P} {cfg : Config J}
  {runner : Call → ProceduralGraph → EvaluationTask J → Except Exc R}
  {train validation' test : List (EvaluationTask J)} {b b' : Boundary J S} {k : ℕ}

/-! ## Training -/

theorem rollout_same {t t' : EvaluationTask J} (h : SameTraining env.runner runner t t')
    (index : ℕ) (graph : ProceduralGraph) :
    rollout env ⟨.training k, index⟩ graph t =
      rollout (env.withRunner runner) ⟨.training k, index⟩ graph t' := by
  simp only [rollout, h.rollout, h.id, h.query]

/-- Training gives the same traces and outcome. -/
theorem evaluateFrom_same {tasks tasks' : List (EvaluationTask J)}
    (h : List.Forall₂ (SameTraining env.runner runner) tasks tasks') (graph : ProceduralGraph)
    (index : ℕ) (traces : List (Trace J S)) :
    (evaluateFrom env (.training k) graph index tasks traces).traces =
        (evaluateFrom (env.withRunner runner) (.training k) graph index tasks' traces).traces ∧
      (evaluateFrom env (.training k) graph index tasks traces).score =
        (evaluateFrom (env.withRunner runner) (.training k) graph index tasks' traces).score := by
  induction h generalizing index traces with
  | nil => exact ⟨rfl, rfl⟩
  | cons ht _ ih =>
    rw [evaluateFrom, evaluateFrom, rollout_same ht]
    cases rollout (env.withRunner runner) ⟨.training k, index⟩ graph _ with
    | error e => exact ⟨rfl, rfl⟩
    | ok trace => exact ih (index + 1) (traces ++ [trace])

/-- The batches of a round are the same for training. -/
theorem batch_same (h : List.Forall₂ (SameTraining env.runner runner) cfg.trainTasks train)
    (hc : b.cursor = b'.cursor) :
    List.Forall₂ (SameTraining env.runner runner) (batch cfg b.toLoopState)
      (batch (cfg.withTasks train validation' test) b'.toLoopState) := by
  rw [batch, batch, ← hc]
  exact List.forall₂_take _ (List.forall₂_drop _ h)

/-! ## The rejection memory -/

theorem selectSummaries_congr {l l' : List (Record J S)} (h : l.map summary = l'.map summary)
    (summaries : List (Summary J S)) :
    selectSummaries env cfg l summaries = selectSummaries env cfg l' summaries := by
  induction l generalizing l' summaries with
  | nil =>
    cases l' with
    | nil => rfl
    | cons r l' => cases h
  | cons r l ih =>
    cases l' with
    | nil => cases h
    | cons r' l' =>
      rw [List.map_cons, List.map_cons, List.cons.injEq] at h
      rw [selectSummaries, selectSummaries, h.1]
      simp only [ih h.2]

theorem rejectionMemory_congr {l l' : List (Record J S)} (h : l.map summary = l'.map summary) :
    rejectionMemory env cfg l = rejectionMemory env cfg l' := by
  have hlen : l.length = l'.length := by simpa using congrArg List.length h
  refine selectSummaries_congr ?_ []
  rw [lastN, lastN, List.map_reverse, List.map_reverse, List.map_drop, List.map_drop, h, hlen]

theorem trainingContext_withRunner (traces : List (Trace J S)) :
    trainingContext (env.withRunner runner) traces = trainingContext env traces := by
  induction traces with
  | nil => rfl
  | cons t traces ih => rw [trainingContext, trainingContext, ih]

theorem selectSummaries_with (l : List (Record J S)) (summaries : List (Summary J S)) :
    selectSummaries (env.withRunner runner) (cfg.withTasks train validation' test) l summaries =
      selectSummaries env cfg l summaries := by
  induction l generalizing summaries with
  | nil => rfl
  | cons r l ih =>
    rw [selectSummaries, selectSummaries]
    simp only [ih]

theorem refinerArgs_same (hb : Alike b b') (traces : List (Trace J S)) :
    refinerArgs env cfg b.toLoopState traces =
      refinerArgs (env.withRunner runner) (cfg.withTasks train validation' test) b'.toLoopState
        traces := by
  have hc : trainingContext (env.withRunner runner) traces = trainingContext env traces :=
    trainingContext_withRunner traces
  have hr : rejectionMemory (env.withRunner runner) (cfg.withTasks train validation' test)
      b'.rejections = rejectionMemory env cfg b.rejections :=
    (selectSummaries_with _ _).trans (rejectionMemory_congr hb.rejections).symm
  rw [refinerArgs, refinerArgs, hb.retained, hc, hr]
  rfl

/-! ## Rounds -/

/-- What the refiner is told and proposes, and what comes out of it. -/
structure SameProposal (p p' : Proposing J S) : Prop where
  refinerCall : p.refinerCall = p'.refinerCall
  edits : p.edits = p'.edits
  outcome : p.outcome = p'.outcome

theorem Alike.proposed (hb : Alike b b')
    (h : List.Forall₂ (SameTraining env.runner runner) cfg.trainTasks train) :
    SameProposal (proposed env cfg k b)
      (proposed (env.withRunner runner) (cfg.withTasks train validation' test) k b') := by
  have hbatch : List.Forall₂ _ (batch cfg b.toLoopState)
    (batch (cfg.withTasks train validation' test) b'.toLoopState) := batch_same h hb.cursor
  obtain ⟨ht, hs⟩ := evaluateFrom_same (k := k) hbatch b.retained 0 []
  rw [Evolution.proposed, Evolution.proposed, propose, propose, evaluate, evaluate, ← hb.retained,
    ← hb.history, hs, ht, ← refinerArgs_same hb]
  dsimp only
  split
  · exact ⟨rfl, rfl, rfl⟩
  split
  · exact ⟨rfl, rfl, rfl⟩
  split
  · exact ⟨rfl, rfl, rfl⟩
  rename_i proposal _
  have he : recordedEdits (env.withRunner runner) proposal = recordedEdits env proposal := rfl
  rw [he]
  split
  · exact ⟨rfl, rfl, rfl⟩
  · exact ⟨rfl, rfl, rfl⟩

theorem nextCursor_same (hb : Alike b b')
    (h : List.Forall₂ (SameTraining env.runner runner) cfg.trainTasks train) :
    nextCursor cfg b.toLoopState =
      nextCursor (cfg.withTasks train validation' test) b'.toLoopState := by
  have hbatch : List.Forall₂ _ (batch cfg b.toLoopState)
    (batch (cfg.withTasks train validation' test) b'.toLoopState) := batch_same h hb.cursor
  rw [nextCursor, nextCursor, hb.cursor, hbatch.length_eq, h.length_eq]

variable [LE S] [DecidableLE S]

/-- The boundaries stay alike, if the candidate has the same score or fails. -/
theorem Alike.next (hb : Alike b b')
    (h : List.Forall₂ (SameTraining env.runner runner) cfg.trainTasks train)
    (hv : ∀ c, (Evolution.proposed env cfg k b).outcome = .ok c →
      (validation env cfg k c).score.toOption =
        (validation (env.withRunner runner) (cfg.withTasks train validation' test) k
          c).score.toOption) :
    Alike (next env cfg k b)
      (next (env.withRunner runner) (cfg.withTasks train validation' test) k b') := by
  have hp : SameProposal (Evolution.proposed env cfg k b) (Evolution.proposed
    (env.withRunner runner) (cfg.withTasks train validation' test) k b') := hb.proposed h
  have hcur : nextCursor cfg b.toLoopState =
    nextCursor (cfg.withTasks train validation' test) b'.toLoopState := nextCursor_same hb h
  have hhist : b.history ++ (Evolution.proposed env cfg k b).refinerCall.toList = b'.history ++
      (Evolution.proposed (env.withRunner runner) (cfg.withTasks train validation' test) k
        b').refinerCall.toList := by
    rw [hb.history, hp.refinerCall]
  -- two rejections with the same summary
  have hreject {r r' : Record J S} (hr : summary r = summary r') :
      Alike ⟨rejected cfg b.toLoopState r,
          b.history ++ (Evolution.proposed env cfg k b).refinerCall.toList⟩
        ⟨rejected (cfg.withTasks train validation' test) b'.toLoopState r',
          b'.history ++ (Evolution.proposed (env.withRunner runner)
            (cfg.withTasks train validation' test) k b').refinerCall.toList⟩ := by
    refine ⟨hb.retained, hb.score, hcur, ?_, hhist⟩
    simp [rejected, hb.rejections, hr]
  rw [Evolution.next, Evolution.next, concluded, concluded, ← hp.outcome]
  cases ho : (Evolution.proposed env cfg k b).outcome with
  | error pe => exact hreject (by simp [summary, failedRecord, hb.score, hp.edits])
  | ok c =>
    have hvc := hv c ho
    have hfp : (env.withRunner runner).fingerprint c = env.fingerprint c := rfl
    dsimp only
    rw [settled, settled, ← hb.score]
    cases hs : (validation env cfg k c).score with
    | error e =>
      cases hs' : (validation (env.withRunner runner)
          (cfg.withTasks train validation' test) k c).score with
      | error e' =>
        exact hreject (by simp [summary, validatedRecord, hb.score, hp.edits, hs, hs', hfp])
      | ok score =>
        rw [hs, hs'] at hvc
        cases hvc
    | ok score =>
      cases hs' : (validation (env.withRunner runner)
          (cfg.withTasks train validation' test) k c).score with
      | error e' =>
        rw [hs, hs'] at hvc
        cases hvc
      | ok score' =>
        rw [hs, hs'] at hvc
        obtain rfl : score = score' := by simpa [Except.toOption] using hvc
        dsimp only
        split_ifs with hle
        · exact ⟨rfl, rfl, hcur, hb.rejections, hhist⟩
        · exact hreject (by simp [summary, validatedRecord, hb.score, hp.edits, hs, hs', hfp])

/-! ## The progress of a run -/

section Progress

variable (env cfg) (graph : ProceduralGraph) (score : S)

/-- The boundary after `n` rounds. -/
def boundaryAt (n : ℕ) : Boundary J S :=
  Journal.loopEnd (next env cfg) n 1 (first graph score)

theorem boundaryAt_succ (n : ℕ) :
    boundaryAt env cfg graph score (n + 1) =
      next env cfg (n + 1) (boundaryAt env cfg graph score n) := by
  rw [boundaryAt, Journal.loopEnd_succ, Nat.add_comm 1 n, boundaryAt]

/-- After `n` rounds: the boundaries reached, and the scores that led there. -/
structure Progress (n : ℕ) (l : Log J S) : Prop where
  boundaries : l.boundaries = (List.range (n + 1)).map (boundaryAt env cfg graph score)
  baseline : (.baseline, some score) ∈ l.validations
  validations : ∀ i < n, ∀ c,
    (proposed env cfg (i + 1) (boundaryAt env cfg graph score i)).outcome = .ok c →
    (.validation (i + 1), (validation env cfg (i + 1) c).score.toOption) ∈ l.validations

/-- The refiner has been called in `n` rounds, and maybe in the next one. -/
def Asked (n : ℕ) (l : Log J S) : Prop :=
  l.refinerCalls = (boundaryAt env cfg graph score n).history ∨
    l.refinerCalls = (boundaryAt env cfg graph score (n + 1)).history

end Progress

variable {graph : ProceduralGraph} {score : S} {n : ℕ} {l l' : Log J S}
  {events : List (Event J S)} {s t : State J S}

theorem Progress.grows (h : Progress env cfg graph score n l) (hl : l.Grows l') :
    Progress env cfg graph score n l' :=
  ⟨hl.boundaries.trans h.boundaries, hl.validations h.baseline,
    fun i hi c hc => hl.validations (h.validations i hi c hc)⟩

theorem Asked.grows (h : Asked env cfg graph score n l) (hl : l.Grows l') :
    Asked env cfg graph score n l' := by
  rw [Asked, hl.refinerCalls]
  exact h

/-- The validations of a round. -/
theorem validations_of_round {b : Boundary J S}
    (h : (journal events).Runs s (roundEvents env cfg k b) t) :
    s.log.validations ⊆ t.log.validations ∧
      ∀ c, (proposed env cfg k b).outcome = .ok c →
        (.validation k, (validation env cfg k c).score.toOption) ∈ t.log.validations := by
  rw [log_of_round h]
  change s.log.validations ⊆ (runLog env cfg k b s.log).validations ∧
    ∀ c, _ → _ ∈ (runLog env cfg k b s.log).validations
  rw [runLog, concludeLog]
  cases (proposed env cfg k b).outcome with
  | error pe => exact ⟨fun _ h => h, fun c hc => by cases hc⟩
  | ok candidate =>
    refine ⟨List.subset_append_left _ _, fun c hc => ?_⟩
    cases hc
    exact List.mem_append_right _ (List.mem_singleton.2 rfl)

theorem Progress.next (h : Progress env cfg graph score n s.log)
    (hh : s.log.refinerCalls = (boundaryAt env cfg graph score n).history)
    (ht : (journal events).Runs s
      (roundEvents env cfg (n + 1) (boundaryAt env cfg graph score n)) t) :
    Progress env cfg graph score (n + 1) t.log := by
  obtain ⟨hsub, hnew⟩ := validations_of_round ht
  refine ⟨?_, hsub h.baseline, fun i hi c hc => ?_⟩
  · rw [boundaries_of_round hh ht, h.boundaries, ← boundaryAt_succ, List.range_succ (n := n + 1),
      List.map_append]
    rfl
  · rcases Nat.lt_succ_iff_lt_or_eq.1 hi with hi | rfl
    · exact hsub (h.validations i hi c hc)
    · exact hnew c hc

/-- Before round `k`. -/
structure Before (env : Env J S R P) (cfg : Config J) (graph : ProceduralGraph) (score : S)
    (k : ℕ) (b : Boundary J S) (s : State J S) : Prop where
  boundary : ∃ n, k = n + 1 ∧ b = boundaryAt env cfg graph score n ∧
    Progress env cfg graph score n s.log
  history : s.log.refinerCalls = b.history

theorem Before.next {b : Boundary J S} (h : Before env cfg graph score k b s)
    (ht : (journal events).Runs s (roundEvents env cfg k b) t) :
    Before env cfg graph score (k + 1) (next env cfg k b) t := by
  obtain ⟨⟨n, rfl, rfl, hp⟩, hh⟩ := h
  exact ⟨⟨n + 1, rfl, (boundaryAt_succ ..).symm, hp.next hh ht⟩, history_of_round hh ht⟩

/-- Where a run is in the rounds. -/
def InRounds (env : Env J S R P) (cfg : Config J) (graph : ProceduralGraph) (score : S)
    (l : Log J S) : Prop :=
  ∃ n, Progress env cfg graph score n l ∧ Asked env cfg graph score n l

theorem InRounds.grows (h : InRounds env cfg graph score l) (hl : l.Grows l') :
    InRounds env cfg graph score l' := by
  obtain ⟨n, hp, ha⟩ := h
  exact ⟨n, hp.grows hl, ha.grows hl⟩

theorem Before.along {b : Boundary J S} (h : Before env cfg graph score k b s) :
    (journal events).Along (fun _ t => InRounds env cfg graph score t.log) s
      (roundEvents env cfg k b) := by
  obtain ⟨⟨n, hk, hb, hp⟩, hh⟩ := id h
  refine along_round (fun _ _ hl h => h.grows hl) ⟨n, hp, .inl (hb ▸ hh)⟩ ⟨n, ?_, .inr ?_⟩ ?_
  · exact ⟨hp.boundaries, hp.baseline, hp.validations⟩
  · -- once the refiner has been called, the history is that of the next boundary
    rw [boundaryAt_succ, ← hk, ← hb]
    change s.log.refinerCalls ++ _ = b.history ++ _
    rw [hh]
  · intro t ht
    obtain ⟨⟨n', _, hb', hp'⟩, hh'⟩ := h.next ht
    exact ⟨n', hp', .inl (hb' ▸ hh')⟩

/-- Where a run is. -/
def Tracks (env : Env J S R P) (cfg : Config J) (initialGraph : GraphData) (l : Log J S) : Prop :=
  (l.boundaries = [] ∧ l.refinerCalls = []) ∨
    ∃ graph m score, prepare env cfg initialGraph = .ok (graph, m) ∧
      (baseline env cfg graph).score = .ok score ∧ InRounds env cfg graph score l

theorem before_baseline (hs : s.log = {}) (hv : (baseline env cfg graph).score = .ok score)
    (h : (journal events).Runs s (baselineEvents env graph (baseline env cfg graph) score) t) :
    Before env cfg graph score 1 (first graph score) t := by
  have hl : t.log = Log.reach (first graph score).toLoopState
      (Log.validate .baseline (baseline env cfg graph) {}) := by
    rw [log_of_runs h, hs]
    rfl
  refine ⟨⟨0, rfl, rfl, ?_, ?_, fun i hi => absurd hi (Nat.not_lt_zero i)⟩, ?_⟩
  · rw [hl]
    rfl
  · rw [hl]
    exact List.mem_singleton.2 (by rw [hv]; rfl)
  · rw [hl]
    rfl

theorem along_tracks {ig : GraphData} : (journal (evolveEvents env cfg ig)).Along
    (fun _ t => Tracks env cfg ig t.log)
    (journal (evolveEvents env cfg ig)).start (evolveEvents env cfg ig) := by
  refine along_evolve (B := fun k b s => ∃ graph m score, prepare env cfg ig = .ok (graph, m) ∧
    (baseline env cfg graph).score = .ok score ∧ Before env cfg graph score k b s) ?_
    (.inl ⟨rfl, rfl⟩) ?_ ?_ ?_ ?_
  · rintro l l' hl (⟨hb, hr⟩ | ⟨graph, m, score, hp, hv, hin⟩)
    · exact .inl ⟨hl.boundaries.trans hb, hl.refinerCalls.trans hr⟩
    · exact .inr ⟨graph, m, score, hp, hv, hin.grows hl⟩
  · rintro k b s ⟨graph, m, score, hp, hv, ⟨n, _, hb, hpr⟩, hh⟩
    exact .inr ⟨graph, m, score, hp, hv, n, hpr, .inl (hb ▸ hh)⟩
  · exact fun graph m score s t hp hv hs h =>
      ⟨graph, m, score, hp, hv, before_baseline hs hv h⟩
  · rintro k b s ⟨graph, m, score, hp, hv, h⟩
    exact h.along.mono fun _ _ hin => .inr ⟨graph, m, score, hp, hv, hin⟩
  · rintro k b s t ⟨graph, m, score, hp, hv, h⟩ ht
    exact ⟨graph, m, score, hp, hv, h.next ht⟩

/-! ## Two runs -/

/-- The log at the end of a run. -/
def finalLog (env : Env J S R P) (cfg : Config J) (initialGraph : GraphData) (outputExists : Bool)
    (fault : ℕ → Option Exc) : Log J S :=
  ((evolve env cfg initialGraph outputExists).final (start fault)).2

theorem tracks_finalLog (env : Env J S R P) (cfg : Config J) (ig : GraphData) (ex : Bool)
    (fault : ℕ → Option Exc) : Tracks env cfg ig (finalLog env cfg ig ex fault) := by
  have hrun : (journal (evolveEvents env cfg ig)).Performs _ (evolve env cfg ig ex) _ _ :=
    performs_evolve
  obtain ⟨s, hs, hw⟩ := hrun.of_final (at_start fault)
    fun _ _ hs => along_tracks.reached (.inl ⟨rfl, rfl⟩) hs
  rwa [finalLog, hw.log]

/-- At every stage, two runs agree on the mean score of the candidate or on its failure. -/
def SameScores (l l' : Log J S) : Prop :=
  ∀ stage o o', (stage, o) ∈ l.validations → (stage, o') ∈ l'.validations → o = o'

/-- The boundaries that both runs reach are alike. -/
theorem alike_boundaryAt {score' : S} {n' : ℕ}
    (h : List.Forall₂ (SameTraining env.runner runner) cfg.trainTasks train)
    (hl : Progress env cfg graph score n l)
    (hl' : Progress (env.withRunner runner) (cfg.withTasks train validation' test) graph score'
      n' l') (hs : SameScores l l') :
    ∀ i, i ≤ n → i ≤ n' → Alike (boundaryAt env cfg graph score i)
      (boundaryAt (env.withRunner runner) (cfg.withTasks train validation' test) graph score' i)
  | 0, _, _ => by
    obtain rfl := Option.some.inj (hs _ _ _ hl.baseline hl'.baseline)
    exact ⟨rfl, rfl, rfl, rfl, rfl⟩
  | i + 1, hi, hi' => by
    have ih := alike_boundaryAt h hl hl' hs i (by omega) (by omega)
    rw [boundaryAt_succ, boundaryAt_succ]
    refine ih.next h fun c hc => hs _ _ _ (hl.validations i hi c hc) ?_
    have hp : SameProposal (proposed env cfg (i + 1) _) (proposed (env.withRunner runner)
      (cfg.withTasks train validation' test) (i + 1) _) := ih.proposed h
    exact hl'.validations i hi' c (hp.outcome ▸ hc)

/-- What the refiner has received is the same up to the next round. -/
theorem history_boundaryAt {score' : S} {n' : ℕ}
    (h : List.Forall₂ (SameTraining env.runner runner) cfg.trainTasks train)
    (hl : Progress env cfg graph score n l)
    (hl' : Progress (env.withRunner runner) (cfg.withTasks train validation' test) graph score'
      n' l') (hs : SameScores l l') {i : ℕ} (hi : i ≤ n + 1) (hi' : i ≤ n' + 1) :
    (boundaryAt env cfg graph score i).history = (boundaryAt (env.withRunner runner)
      (cfg.withTasks train validation' test) graph score' i).history := by
  cases i with
  | zero => rfl
  | succ i =>
    have ha := alike_boundaryAt h hl hl' hs i (by omega) (by omega)
    have hp : SameProposal (proposed env cfg (i + 1) _) (proposed (env.withRunner runner)
      (cfg.withTasks train validation' test) (i + 1) _) := ha.proposed h
    rw [boundaryAt_succ, boundaryAt_succ, Evolution.next, Evolution.next, ha.history,
      hp.refinerCall]

/-- The refiner is called at most once a round. -/
theorem history_mono {i j : ℕ} (h : i ≤ j) :
    (boundaryAt env cfg graph score i).history <+: (boundaryAt env cfg graph score j).history := by
  induction h with
  | refl => exact List.prefix_rfl
  | step _ ih =>
    rw [boundaryAt_succ]
    exact ih.trans (List.prefix_append _ _)

theorem Asked.exists (h : Asked env cfg graph score n l) :
    ∃ i ≤ n + 1, l.refinerCalls = (boundaryAt env cfg graph score i).history := by
  rcases h with h | h
  · exact ⟨n, Nat.le_succ n, h⟩
  · exact ⟨n + 1, le_rfl, h⟩

/-! ## The tasks that are run -/

/-- The tasks that the runner has been called with are not for testing. -/
def OnlyRuns (cfg : Config J) (l : Log J S) : Prop :=
  ∀ c ∈ l.runnerCalls, c.2.2 ∈ cfg.trainTasks ∨ c.2.2 ∈ cfg.validationTasks

omit [LE S] [DecidableLE S] in
theorem mem_calls {stage : Stage} {tasks : List (EvaluationTask J)} {index : ℕ}
    {traces : List (Trace J S)} {c : Call × ProceduralGraph × EvaluationTask J}
    (h : c ∈ (evaluateFrom env stage graph index tasks traces).calls) : c.2.2 ∈ tasks := by
  induction tasks generalizing index traces with
  | nil => cases h
  | cons task tasks ih =>
    rw [evaluateFrom] at h
    cases hr : rollout env ⟨stage, index⟩ graph task with
    | error e =>
      rw [hr] at h
      rcases List.mem_singleton.1 h with rfl
      exact List.mem_cons_self
    | ok trace =>
      rw [hr] at h
      rcases List.mem_cons.1 h with rfl | h
      · exact List.mem_cons_self
      · exact List.mem_cons_of_mem _ (ih h)

omit [LE S] [DecidableLE S] in
/-- The calls of the first part of a round are about its batch. -/
theorem mem_calls_propose {st : LoopState J S} {history : List (RefinerArgs J S)}
    {c : Call × ProceduralGraph × EvaluationTask J}
    (h : c ∈ (propose env cfg st k history).calls) : c.2.2 ∈ batch cfg st := by
  have hc : (propose env cfg st k history).calls =
      (evaluate env (.training k) st.retained (batch cfg st)).calls := by
    rw [propose]
    repeat' split
    all_goals rfl
  rw [hc] at h
  exact mem_calls h

omit [LE S] [DecidableLE S] in
theorem OnlyRuns.append (h : OnlyRuns cfg l)
    {calls : List (Call × ProceduralGraph × EvaluationTask J)} {tasks : List (EvaluationTask J)}
    (hcalls : ∀ c ∈ calls, c.2.2 ∈ tasks)
    (htasks : ∀ t ∈ tasks, t ∈ cfg.trainTasks ∨ t ∈ cfg.validationTasks) :
    OnlyRuns cfg (l.run calls) := by
  intro c hc
  rcases List.mem_append.1 hc with hc | hc
  · exact h c hc
  · exact htasks _ (hcalls c hc)

omit [LE S] [DecidableLE S] in
theorem OnlyRuns.validate (h : OnlyRuns cfg l) (stage : Stage) :
    OnlyRuns cfg (l.validate stage (evaluate env stage graph cfg.validationTasks)) :=
  h.append (fun _ hc => mem_calls hc) fun _ => .inr

theorem onlyRuns_roundEvents {b : Boundary J S} {e : Event J S}
    (he : e ∈ roundEvents env cfg k b) (h : OnlyRuns cfg l) : OnlyRuns cfg (e.onLog l) := by
  rcases List.mem_cons.1 he with rfl | he
  · exact h.append (fun _ hc => mem_calls_propose hc)
      fun t ht => .inl (List.mem_of_mem_drop (List.mem_of_mem_take ht))
  rcases List.mem_cons.1 he with rfl | he
  · exact h
  rcases List.mem_append.1 he with he | he
  · rcases onLog_concludeEvents he with hl | ⟨candidate, rfl⟩
    · rwa [hl]
    · exact h.validate _
  · cases List.mem_singleton.1 he
    exact h

theorem onlyRuns_evolveEvents {ig : GraphData} {e : Event J S} (he : e ∈ evolveEvents env cfg ig)
    (l : Log J S) (h : OnlyRuns cfg l) : OnlyRuns cfg (e.onLog l) := by
  rw [evolveEvents] at he
  cases hp : prepare env cfg ig with
  | error e' =>
    rw [hp] at he
    cases he
  | ok o =>
    rw [hp] at he
    rcases List.mem_append.1 he with he | he
    · simp only [prepareEvents, List.mem_cons, List.not_mem_nil, or_false] at he
      rcases he with rfl | rfl | rfl <;> exact h
    cases hv : (baseline env cfg o.1).score with
    | error e' =>
      rw [hv] at he
      rcases List.mem_pair.1 he with rfl | rfl
      · exact h.validate _
      · exact h
    | ok score =>
      rw [hv] at he
      rcases List.mem_append.1 he with he | he
      · simp only [baselineEvents, List.mem_append, List.mem_cons, List.not_mem_nil,
          or_false] at he
        rcases he with (rfl | rfl | rfl) | rfl
        · exact h.validate _
        all_goals exact h
      · obtain ⟨k, b, he⟩ := Journal.mem_loopEvents he
        exact onlyRuns_roundEvents he h

omit [LE S] [DecidableLE S] in
theorem nodup_of_checkConfig (h : checkConfig env cfg = .ok ()) : cfg.ids.Nodup := by
  unfold checkConfig at h
  split_ifs at h with _ _ _ _ _ _ hn
  push Not at hn
  exact hn.2

omit [LE S] [DecidableLE S] in
theorem nodup_of_prepare {ig : GraphData} {o : ProceduralGraph × Manifest J}
    (h : prepare env cfg ig = .ok o) : cfg.ids.Nodup := by
  simp only [prepare, bind_eq_ok] at h
  obtain ⟨_, hc, _⟩ := h
  exact nodup_of_checkConfig hc

/-- The runner is not called with a test task. -/
theorem finalLog_runnerCalls (env : Env J S R P) (cfg : Config J) (ig : GraphData) (ex : Bool)
    (fault : ℕ → Option Exc) :
    ∀ c ∈ (finalLog env cfg ig ex fault).runnerCalls, ∀ t ∈ cfg.testTasks, c.2.2.id ≠ t.id := by
  have hrun : (journal (evolveEvents env cfg ig)).Performs _ (evolve env cfg ig ex) _ _ :=
    performs_evolve
  have hstart : OnlyRuns cfg ({} : Log J S) := fun _ hc => by cases hc
  obtain ⟨s, ⟨hs, hp⟩, hw⟩ := hrun.of_final (I := fun s => OnlyRuns cfg s.log ∧
    (s.log.runnerCalls ≠ [] → cfg.ids.Nodup)) (at_start fault) fun pre s hs => by
      refine ⟨(along_log hstart fun _ => onlyRuns_evolveEvents).reached hstart hs, fun hne => ?_⟩
      -- nothing is run unless the run has been prepared
      cases hp : prepare env cfg ig with
      | error e =>
        have hnil : evolveEvents env cfg ig = [] := by rw [evolveEvents, hp]
        obtain ⟨hpre, hs⟩ := hs
        obtain rfl : pre = [] := List.prefix_nil.1 (hnil ▸ hpre)
        cases hs
        exact absurd rfl hne
      | ok o => exact nodup_of_prepare hp
  intro c hc t ht
  rw [finalLog, hw.log] at hc
  have hn := hp (List.ne_nil_of_mem hc)
  rw [Config.ids, List.map_append] at hn
  have hc' : c.2.2.id ∈ (cfg.trainTasks ++ cfg.validationTasks).map (·.id) :=
    List.mem_map_of_mem (List.mem_append.2 (hs c hc))
  exact fun h => List.disjoint_of_nodup_append hn hc' (h ▸ List.mem_map_of_mem ht)

/-- The refiner has been told the same: one run may stop earlier than the other. -/
structure SameRefinerCalls (l l' : Log J S) : Prop where
  calls : l.refinerCalls <+: l'.refinerCalls ∨ l'.refinerCalls <+: l.refinerCalls
  boundaries : ∀ (k : ℕ) (b b' : Boundary J S), l.boundaries[k]? = some b →
    l'.boundaries[k]? = some b' → b.history = b'.history

omit [LE S] [DecidableLE S] in
/-- Both runs start from the same graph. -/
theorem prepared_same {ig : GraphData} {cfg' : Config J} {env' : Env J S R P}
    {graph' : ProceduralGraph} {m m' : Manifest J} (h : prepare env cfg ig = .ok (graph, m))
    (h' : prepare env' cfg' ig = .ok (graph', m')) : graph = graph' := by
  have hd : graph.data = graph'.data := (of_prepare h).1.trans (of_prepare h').1.symm
  cases graph
  cases hd
  rfl

/-- Two runs whose scores agree tell the refiner the same. -/
theorem Tracks.sameRefinerCalls {ig : GraphData}
    (h : List.Forall₂ (SameTraining env.runner runner) cfg.trainTasks train)
    (hl : Tracks env cfg ig l)
    (hl' : Tracks (env.withRunner runner) (cfg.withTasks train validation' test) ig l')
    (hs : SameScores l l') : SameRefinerCalls l l' := by
  rcases hl with ⟨hb, hr⟩ | ⟨graph, m, score, hp, _, n, hl, ha⟩
  · exact ⟨.inl (hr ▸ List.nil_prefix), fun k b b' hk => by simp [hb] at hk⟩
  rcases hl' with ⟨hb, hr⟩ | ⟨graph', m', score', hp', _, n', hl', ha'⟩
  · exact ⟨.inr (hr ▸ List.nil_prefix), fun k b b' _ hk => by simp [hb] at hk⟩
  obtain rfl := prepared_same hp hp'
  obtain ⟨i, hi, hr⟩ := ha.exists
  obtain ⟨j, hj, hr'⟩ := ha'.exists
  refine ⟨?_, fun k b b' hk hk' => ?_⟩
  · rw [hr, hr']
    rcases Nat.le_total i j with hij | hij
    · rw [history_boundaryAt h hl hl' hs hi (hij.trans hj)]
      exact .inl (history_mono hij)
    · rw [← history_boundaryAt h hl hl' hs (hij.trans hi) hj]
      exact .inr (history_mono hij)
  · rw [hl.boundaries, List.getElem?_map] at hk
    rw [hl'.boundaries, List.getElem?_map] at hk'
    obtain ⟨i, hi, rfl⟩ := Option.map_eq_some_iff.1 hk
    obtain ⟨j, hj, rfl⟩ := Option.map_eq_some_iff.1 hk'
    obtain ⟨hn, hi⟩ := List.getElem?_eq_some_iff.1 hi
    obtain ⟨hn', hj⟩ := List.getElem?_eq_some_iff.1 hj
    rw [List.getElem_range] at hi hj
    rw [List.length_range] at hn hn'
    subst hi hj
    exact history_boundaryAt h hl hl' hs hn.le hn'.le

/-- A run that returns has gone through all the rounds. -/
theorem finalLog_of_result {ig : GraphData} {ex : Bool} {fault : ℕ → Option Exc}
    {g : ProceduralGraph} (hg : (evolve env cfg ig ex).result (start fault) = .ok g) :
    ∃ b, (finalLog env cfg ig ex fault).boundaries[cfg.rounds.toNat]? = some b ∧
      (finalLog env cfg ig ex fault).refinerCalls = b.history := by
  have hrun : (journal (evolveEvents env cfg ig)).Performs _ (evolve env cfg ig ex) _ _ :=
    performs_evolve
  obtain ⟨⟨b, hb, _⟩, s, hs, hw⟩ := hrun.result (at_start fault) hg
  obtain ⟨graph, m, score, hp, hv, h⟩ := of_isLast (B := fun k b s => ∃ graph m score,
    prepare env cfg ig = .ok (graph, m) ∧ (baseline env cfg graph).score = .ok score ∧
      Before env cfg graph score k b s)
    (fun graph m score s t hp hv hs h => ⟨graph, m, score, hp, hv, before_baseline hs hv h⟩)
    (fun k b s t ⟨graph, m, score, hp, hv, h⟩ ht => ⟨graph, m, score, hp, hv, h.next ht⟩) hb hs.2
  obtain ⟨⟨n, hn, hbn, hpr⟩, hh⟩ := h
  obtain rfl : n = cfg.rounds.toNat := by omega
  refine ⟨b, ?_, by rw [finalLog, hw.log, hh]⟩
  rw [finalLog, hw.log, hpr.boundaries, hbn]
  simp

/-- Two runs that agree on training, and at every stage on the mean score of the
    candidate or on its failure, tell the refiner the same in every round,
    whatever the tasks of validation and testing, what the runner returns for
    them, what fails and the expected answers are. No test task is run. -/
theorem refiner_noninterference (env : Env J S R P) (cfg : Config J)
    (runner : Call → ProceduralGraph → EvaluationTask J → Except Exc R)
    (train validation test : List (EvaluationTask J)) (initialGraph : GraphData)
    (ex ex' : Bool) (fault fault' : ℕ → Option Exc)
    (htrain : List.Forall₂ (SameTraining env.runner runner) cfg.trainTasks train)
    (hscores : SameScores (finalLog env cfg initialGraph ex fault)
      (finalLog (env.withRunner runner) (cfg.withTasks train validation test) initialGraph
        ex' fault')) :
    SameRefinerCalls (finalLog env cfg initialGraph ex fault)
      (finalLog (env.withRunner runner) (cfg.withTasks train validation test) initialGraph
        ex' fault') ∧
    (∀ g g', (evolve env cfg initialGraph ex).result (start fault) = .ok g →
      (evolve (env.withRunner runner) (cfg.withTasks train validation test) initialGraph
        ex').result (start fault') = .ok g' →
      (finalLog env cfg initialGraph ex fault).refinerCalls =
        (finalLog (env.withRunner runner) (cfg.withTasks train validation test) initialGraph
          ex' fault').refinerCalls) ∧
    ∀ c ∈ (finalLog env cfg initialGraph ex fault).runnerCalls, ∀ t ∈ cfg.testTasks,
      c.2.2.id ≠ t.id := by
  have hsame := (tracks_finalLog env cfg initialGraph ex fault).sameRefinerCalls htrain
    (tracks_finalLog (env.withRunner runner) (cfg.withTasks train validation test) initialGraph
      ex' fault') hscores
  refine ⟨hsame, fun g g' hg hg' => ?_, finalLog_runnerCalls env cfg initialGraph ex fault⟩
  obtain ⟨b, hb, hr⟩ := finalLog_of_result hg
  obtain ⟨b', hb', hr'⟩ := finalLog_of_result hg'
  rw [hr, hr']
  exact hsame.boundaries _ b b' hb hb'

/-- A runner that scores the validation tasks with their expected answers, and a
    refiner that fails. -/
def failingEnv : Env ℕ ℕ (ScoredRollout ℕ ℕ) Unit where
  runner call _ t :=
    .ok ⟨t.id, match call.stage with | .training _ => 1 | _ => t.expected, 0, t.query, 0⟩
  refiner _ := .error ⟨"RuntimeError", "no proposal", true, false⟩
  scoredRollout := .ok
  dumpProposal _ := .ok 0
  reprProposal _ := 0
  graphEdits _ := .ok {}
  graphException _ := .valueError "graph"
  json _ := .ok ""
  sha256 _ := "digest"
  hash _ := "digest"
  provenanceKeys _ := ["model", "evaluator", "tools"]
  sum xs := xs.foldr (· + ·) 0
  div n k := n / k

def failingConfig : Config ℕ where
  trainTasks := [⟨"a", "training", 1, 0⟩]
  validationTasks := [⟨"b", "first", 1, 0⟩, ⟨"c", "second", 3, 0⟩]
  testTasks := [⟨"d", "test", 9, 0⟩]
  availableTools := []
  provenance := 0
  rounds := 1

def startGraph : GraphData := ⟨.one, [⟨"Start", .status, "start", none⟩], [], .reject⟩

/-- Two runs whose validation tasks and expected answers differ, with the same mean. -/
theorem refiner_noninterference_failing :
    SameRefinerCalls (finalLog failingEnv failingConfig startGraph false fun _ => none)
      (finalLog (failingEnv.withRunner failingEnv.runner)
        (failingConfig.withTasks [⟨"a", "training", 7, 0⟩]
          [⟨"e", "third", 2, 5⟩, ⟨"f", "fourth", 2, 0⟩] []) startGraph false fun _ => none) := by
  have h : (finalLog failingEnv failingConfig startGraph false fun _ => none).validations =
      [(.baseline, some 2)] := by decide +kernel
  have h' : (finalLog (failingEnv.withRunner failingEnv.runner)
      (failingConfig.withTasks [⟨"a", "training", 7, 0⟩]
        [⟨"e", "third", 2, 5⟩, ⟨"f", "fourth", 2, 0⟩] []) startGraph false
        fun _ => none).validations = [(.baseline, some 2)] := by decide +kernel
  have htrain : List.Forall₂ (SameTraining failingEnv.runner failingEnv.runner)
      failingConfig.trainTasks [⟨"a", "training", 7, 0⟩] :=
    .cons ⟨rfl, rfl, fun _ _ _ => rfl⟩ .nil
  refine (refiner_noninterference failingEnv failingConfig failingEnv.runner
    [⟨"a", "training", 7, 0⟩] [⟨"e", "third", 2, 5⟩, ⟨"f", "fourth", 2, 0⟩] [] startGraph
    false false (fun _ => none) (fun _ => none) htrain fun stage o o' ho ho' => ?_).1
  simp only [h, List.mem_singleton] at ho
  simp only [h', List.mem_singleton] at ho'
  simp_all

end Hyperforge.Evolution
