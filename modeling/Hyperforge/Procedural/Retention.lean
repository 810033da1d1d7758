import Hyperforge.Procedural.Rounds

/-!
# Retention

What evolution retains, at every boundary of its rounds (`Retention`): a valid
graph that fits the tools, with a score that is exactly the mean of those the
runner returned for the validation tasks, run on this graph at its acceptance;
scores never decrease; and a round accepts a candidate exactly when it was
prepared, validated on every task, and is not worse (`RoundSpec`).

The boundaries only grow, so that all of it is a guarantee of the whole run,
kept by every operation, whatever fails (`along_retention`).
-/

namespace Hyperforge.Evolution

open Crash

variable {J S R P : Type} (env : Env J S R P) (cfg : Config J)

/-- The runner has returned, in `stage`, a rollout of each validation task on
    the graph, each valid, about its task and serializable, and `score` is the
    mean of their scores. -/
def Validated (stage : Stage) (graph : ProceduralGraph) (score : S) : Prop :=
  ∃ rollouts : List (ScoredRollout J S),
    rollouts.length = cfg.validationTasks.length ∧
    (∀ i task, cfg.validationTasks[i]? = some task → ∃ raw rollout,
      env.runner ⟨stage, i⟩ graph task = .ok raw ∧ env.scoredRollout raw = .ok rollout ∧
      rollout.taskId = task.id ∧ (∃ text, env.json (.trace ⟨rollout, task.query⟩) = .ok text) ∧
      rollouts[i]? = some rollout) ∧
    rollouts ≠ [] ∧ score = env.div (env.sum (rollouts.map (·.score))) rollouts.length

/-- The candidate is prepared in a round: training has succeeded, the refiner
    has returned a proposal, which is recorded, and whose edits give the candidate. -/
def Prepared (b : Boundary J S) (roundId : ℕ) (candidate : ProceduralGraph) : Prop :=
  ∃ score args proposal edits,
    (evaluate env (.training roundId) b.retained (batch cfg b.toLoopState)).score = .ok score ∧
    refinerArgs env cfg b.toLoopState
      (evaluate env (.training roundId) b.retained (batch cfg b.toLoopState)).traces = .ok args ∧
    env.refiner (b.history ++ [args]) = .ok proposal ∧
    (recordedEdits env proposal).2 = .ok () ∧
    env.graphEdits proposal = .ok edits ∧
    prepareCandidate b.retained edits (some cfg.availableTools) = .ok candidate

/-- The candidate of a round is to be retained, with its score. -/
def Accepted [LE S] (b : Boundary J S) (roundId : ℕ) (candidate : ProceduralGraph) (score : S) :
    Prop :=
  Prepared env cfg b roundId candidate ∧
    Validated env cfg (.validation roundId) candidate score ∧ b.retainedScore ≤ score

/-- A round ends with a candidate if and only if it is to be retained. -/
def RoundSpec [LE S] (b : Boundary J S) (roundId : ℕ) (graph : ProceduralGraph) (score : S) :
    Prop :=
  (∀ candidate score', Accepted env cfg b roundId candidate score' →
    graph = candidate ∧ score = score') ∧
  ((¬∃ candidate score', Accepted env cfg b roundId candidate score') →
    graph = b.retained ∧ score = b.retainedScore)

/-- A graph and its score, retained after `k` rounds, are those of the
    baseline, or have been accepted in one of the rounds. -/
def Scored [LE S] (bs : List (Boundary J S)) (k : ℕ) (graph : ProceduralGraph) (score : S) :
    Prop :=
  Validated env cfg .baseline graph score ∨
    ∃ r b, r < k ∧ bs[r]? = some b ∧ Accepted env cfg b (r + 1) graph score

/-- What holds of the boundaries of the rounds. -/
structure Retention [LE S] (initialGraph : GraphData) (bs : List (Boundary J S)) : Prop where
  baseline : ∀ b, bs[0]? = some b →
    b.retained.data = initialGraph ∧ Validated env cfg .baseline b.retained b.retainedScore
  valid : ∀ b ∈ bs, b.retained.data.validateGraph = .ok () ∧
    b.retained.data.checkTools cfg.availableTools = .ok ()
  scored : ∀ k b, bs[k]? = some b → Scored env cfg bs k b.retained b.retainedScore
  monotone : bs.Pairwise fun b b' => b.retainedScore ≤ b'.retainedScore
  round : ∀ k b b', bs[k]? = some b → bs[k + 1]? = some b' →
    RoundSpec env cfg b (k + 1) b'.retained b'.retainedScore

variable {env cfg}

/-! ## Evaluation -/

theorem rollout_ok_iff {call : Call} {graph : ProceduralGraph} {task : EvaluationTask J}
    {t : Trace J S} : rollout env call graph task = .ok t ↔
      ∃ raw rollout, env.runner call graph task = .ok raw ∧ env.scoredRollout raw = .ok rollout ∧
        rollout.taskId = task.id ∧ (∃ text, env.json (.trace ⟨rollout, task.query⟩) = .ok text) ∧
        t = ⟨rollout, task.query⟩ := by
  unfold rollout
  cases h₁ : env.runner call graph task with
  | error e => simp [bind, Except.bind]
  | ok raw =>
    cases h₂ : env.scoredRollout raw with
    | error e => simp [bind, Except.bind, h₂]
    | ok r =>
      by_cases h₃ : r.taskId = task.id
      · cases h₄ : env.json (.trace ⟨r, task.query⟩) with
        | error e => simp [bind, Except.bind, h₂, h₃, h₄]
        | ok text => simp [bind, Except.bind, pure, Except.pure, h₂, h₃, h₄, eq_comm]
      · simp [bind, Except.bind, h₂, h₃, throw, throwThe, MonadExceptOf.throw]

/-- An evaluation returns the mean of the scores of its traces, one a task. -/
theorem evaluateFrom_score {stage : Stage} {graph : ProceduralGraph} {score : S} :
    ∀ {tasks : List (EvaluationTask J)} {index : ℕ} {traces : List (Trace J S)},
      (evaluateFrom env stage graph index tasks traces).score = .ok score ↔
        ∃ ts : List (Trace J S), ts.length = tasks.length ∧
          (∀ i task, tasks[i]? = some task → ∃ t, ts[i]? = some t ∧
            rollout env ⟨stage, index + i⟩ graph task = .ok t) ∧
          traces ++ ts ≠ [] ∧ score = mean env (traces ++ ts)
  | [], index, traces => by
    rw [evaluateFrom]
    cases traces with
    | nil =>
      refine ⟨fun h => by simp at h, ?_⟩
      rintro ⟨ts, hl, _, hne, _⟩
      exact absurd (List.length_eq_zero_iff.1 hl) (by simpa using hne)
    | cons t traces =>
      constructor
      · intro h
        have h : mean env (t :: traces) = score := by simpa using h
        exact ⟨[], rfl, by simp, by simp, by simpa using h.symm⟩
      · rintro ⟨ts, hl, _, _, rfl⟩
        rw [List.length_eq_zero_iff.1 hl]
        simp
  | task :: tasks, index, traces => by
    rw [evaluateFrom]
    cases ht : rollout env ⟨stage, index⟩ graph task with
    | error e =>
      refine ⟨fun h => by simp at h, ?_⟩
      rintro ⟨ts, _, h, _⟩
      obtain ⟨t, _, h⟩ := h 0 task rfl
      rw [Nat.add_zero, ht] at h
      cases h
    | ok trace =>
      refine Iff.trans evaluateFrom_score ?_
      constructor
      · rintro ⟨ts, hl, h, hne, hs⟩
        refine ⟨trace :: ts, by simp [hl], fun i task' hi => ?_, by simp, by simpa using hs⟩
        cases i with
        | zero =>
          cases hi
          exact ⟨trace, rfl, ht⟩
        | succ i =>
          obtain ⟨t, h₁, h₂⟩ := h i task' hi
          exact ⟨t, h₁, by rwa [Nat.add_assoc, Nat.add_comm 1 i] at h₂⟩
      · rintro ⟨ts, hl, h, hne, hs⟩
        obtain ⟨t, h₁, h₂⟩ := h 0 task rfl
        rw [Nat.add_zero, ht] at h₂
        cases h₂
        cases ts with
        | nil => simp at h₁
        | cons t ts =>
          cases h₁
          refine ⟨ts, by simpa using hl, fun i task' hi => ?_, by simp, by simpa using hs⟩
          obtain ⟨t', h₁, h₂⟩ := h (i + 1) task' hi
          exact ⟨t', h₁, by rwa [Nat.add_assoc, Nat.add_comm 1 i]⟩

/-- An evaluation on the validation tasks scores a graph if and only if it is validated. -/
theorem evaluate_validated {stage : Stage} {graph : ProceduralGraph} {score : S} :
    (evaluate env stage graph cfg.validationTasks).score = .ok score ↔
      Validated env cfg stage graph score := by
  rw [evaluate, evaluateFrom_score]
  simp only [List.nil_append, Nat.zero_add]
  constructor
  · rintro ⟨ts, hl, h, hne, hs⟩
    refine ⟨ts.map (·.rollout), by simpa using hl, fun i task hi => ?_, by simpa using hne, ?_⟩
    · obtain ⟨t, ht, hr⟩ := h i task hi
      obtain ⟨raw, r, h₁, h₂, h₃, h₄, rfl⟩ := rollout_ok_iff.1 hr
      exact ⟨raw, r, h₁, h₂, h₃, h₄, by simp [ht]⟩
    · rw [hs, mean, List.map_map, List.length_map]
      rfl
  · rintro ⟨rs, hl, h, hne, hs⟩
    -- the traces are the rollouts, each with the query of its task
    refine ⟨(rs.zip cfg.validationTasks).map fun p => ⟨p.1, p.2.query⟩, by simp [hl],
      fun i task hi => ?_, ?_, ?_⟩
    · obtain ⟨raw, r, h₁, h₂, h₃, h₄, h₅⟩ := h i task hi
      refine ⟨⟨r, task.query⟩, by simp [List.getElem?_zip_eq_some, h₅, hi], ?_⟩
      exact rollout_ok_iff.2 ⟨raw, r, h₁, h₂, h₃, h₄, rfl⟩
    · intro hnil
      refine hne (List.length_eq_zero_iff.1 ?_)
      have := congrArg List.length hnil
      simpa [hl] using this
    · rw [hs, mean, List.map_map, List.length_map, List.length_zip, hl, Nat.min_self]
      have hfst : (rs.zip cfg.validationTasks).map Prod.fst = rs := List.map_fst_zip (by rw [hl])
      congr 2
      conv_lhs => rw [← hfst, List.map_map]
      rfl

/-- A round prepares the candidate it proposes. -/
theorem propose_outcome {st : LoopState J S} {roundId : ℕ} {history : List (RefinerArgs J S)}
    {candidate : ProceduralGraph} :
    (propose env cfg st roundId history).outcome = .ok candidate ↔
      Prepared env cfg ⟨st, history⟩ roundId candidate := by
  unfold propose Prepared
  cases h₁ : (evaluate env (.training roundId) st.retained (batch cfg st)).score with
  | error e => simp [h₁]
  | ok score =>
    cases h₂ : refinerArgs env cfg st
        (evaluate env (.training roundId) st.retained (batch cfg st)).traces with
    | error e => simp [h₁, h₂]
    | ok args =>
      cases h₃ : env.refiner (history ++ [args]) with
      | error e => simp [h₁, h₂, h₃]
      | ok proposal =>
        rcases h₄ : recordedEdits env proposal with ⟨edits, r⟩
        cases r with
        | error e => simp [h₁, h₂, h₃, h₄]
        | ok _ =>
          cases h₅ : env.graphEdits proposal with
          | error e => simp [h₁, h₂, h₃, h₄, h₅, candidateOf, Except.mapError, bind, Except.bind]
          | ok g =>
            cases h₆ : prepareCandidate st.retained g (some cfg.availableTools) <;>
              simp [h₁, h₂, h₃, h₄, h₅, h₆, candidateOf, Except.mapError, bind, Except.bind]

/-! ## The boundaries -/

variable {ig : GraphData} {bs : List (Boundary J S)} {b b' : Boundary J S}

theorem Retention.nil [LE S] : Retention env cfg ig [] := by
  constructor <;> simp

theorem Retention.single [Preorder S] (hb : b.retained.data = ig)
    (hs : Validated env cfg .baseline b.retained b.retainedScore)
    (hv : b.retained.data.checkTools cfg.availableTools = .ok ()) :
    Retention env cfg ig [b] := by
  constructor
  · intro c hc
    cases hc
    exact ⟨hb, hs⟩
  · intro c hc
    cases List.mem_singleton.1 hc
    exact ⟨b.retained.valid, hv⟩
  · intro k c hc
    cases List.mem_singleton.1 (List.mem_of_getElem? hc)
    exact .inl hs
  · exact List.pairwise_singleton _ _
  · intro k c c' _ hc
    simp at hc

/-- What has been accepted before stays so. -/
theorem Scored.append [LE S] {k : ℕ} {graph : ProceduralGraph} {score : S}
    (h : Scored env cfg bs k graph score) (b' : Boundary J S) :
    Scored env cfg (bs ++ [b']) k graph score := by
  obtain h | ⟨r, b₀, hr, h₀, hb⟩ := h
  · exact .inl h
  · exact .inr ⟨r, b₀, hr, List.getElem?_append_left (List.getElem?_eq_some_iff.1 h₀).1 ▸ h₀, hb⟩

theorem Scored.mono [LE S] {k k' : ℕ} {graph : ProceduralGraph} {score : S}
    (h : Scored env cfg bs k graph score) (hk : k ≤ k') : Scored env cfg bs k' graph score := by
  obtain h | ⟨r, b, hr, hb⟩ := h
  · exact .inl h
  · exact .inr ⟨r, b, hr.trans_le hk, hb⟩

/-- Appending a boundary, with what holds of it and of the last one. -/
theorem Retention.snoc [Preorder S] (h : Retention env cfg ig (bs ++ [b]))
    (hv : b'.retained.data.validateGraph = .ok () ∧
      b'.retained.data.checkTools cfg.availableTools = .ok ())
    (hs : Scored env cfg (bs ++ [b]) (bs.length + 1) b'.retained b'.retainedScore)
    (hle : b.retainedScore ≤ b'.retainedScore)
    (hr : RoundSpec env cfg b (bs.length + 1) b'.retained b'.retainedScore) :
    Retention env cfg ig (bs ++ [b] ++ [b']) := by
  have hlast : (bs ++ [b])[bs.length]? = some b := by simp
  constructor
  · intro c hc
    rw [List.getElem?_append_left (by simp)] at hc
    exact h.baseline c hc
  · intro c hc
    rcases List.mem_append.1 hc with hc | hc
    · exact h.valid c hc
    · cases List.mem_singleton.1 hc
      exact hv
  · intro k c hc
    rcases Nat.lt_trichotomy k (bs ++ [b]).length with hk | rfl | hk
    · rw [List.getElem?_append_left hk] at hc
      exact (h.scored k c hc).append b'
    · rw [List.getElem?_concat_length] at hc
      cases hc
      exact Scored.append (by simpa using hs) b'
    · rw [List.getElem?_eq_none (by simp at hk ⊢; omega)] at hc
      cases hc
  · refine List.pairwise_append.2 ⟨h.monotone, List.pairwise_singleton _ _, ?_⟩
    intro c hc c' hc'
    cases List.mem_singleton.1 hc'
    -- the scores have not decreased up to `b`
    rcases List.mem_append.1 hc with hc | hc
    · exact ((List.pairwise_append.1 h.monotone).2.2 c hc b (by simp)).trans hle
    · cases List.mem_singleton.1 hc
      exact hle
  · intro k c c' hc hc'
    have hk : k + 1 < (bs ++ [b] ++ [b']).length := (List.getElem?_eq_some_iff.1 hc').1
    rw [List.getElem?_append_left (by simp at hk ⊢; omega)] at hc
    by_cases hk' : k + 1 < (bs ++ [b]).length
    · rw [List.getElem?_append_left hk'] at hc'
      exact h.round k c c' hc hc'
    · have : k = bs.length := by simp at hk hk'; omega
      subst this
      rw [hlast] at hc
      cases hc
      have : (bs ++ [b] ++ [b'])[bs.length + 1]? = some b' := by simp
      rw [this] at hc'
      cases hc'
      exact hr

/-! ## Rounds -/

section Rounds

variable [LE S] [DecidableLE S] {roundId : ℕ}

/-- The state after a round, whose candidate has been prepared. -/
theorem next_of_prepared {candidate : ProceduralGraph}
    (h : Prepared env cfg b roundId candidate) :
    (next env cfg roundId b).toLoopState =
      settled env cfg b.toLoopState roundId (proposed env cfg roundId b) candidate
        (validation env cfg roundId candidate) := by
  have ho : (proposed env cfg roundId b).outcome = .ok candidate := propose_outcome.2 h
  rw [next, concluded, ho]

/-- A candidate that is accepted is retained, with its score. -/
theorem next_of_accepted {candidate : ProceduralGraph} {score : S}
    (h : Accepted env cfg b roundId candidate score) :
    (next env cfg roundId b).retained = candidate ∧
      (next env cfg roundId b).retainedScore = score := by
  obtain ⟨hpre, hval, hle⟩ := h
  rw [next_of_prepared hpre, settled, evaluate_validated.2 hval]
  simp [hle, accepted]

/-- If no candidate is accepted, nothing changes. -/
theorem next_of_rejected (h : ¬∃ candidate score, Accepted env cfg b roundId candidate score) :
    (next env cfg roundId b).retained = b.retained ∧
      (next env cfg roundId b).retainedScore = b.retainedScore := by
  cases ho : (proposed env cfg roundId b).outcome with
  | error pe =>
    obtain ⟨phase, e⟩ := pe
    rw [next, concluded, ho]
    exact ⟨rfl, rfl⟩
  | ok candidate =>
    have hpre : Prepared env cfg b roundId candidate := propose_outcome.1 ho
    rw [next_of_prepared hpre, settled]
    cases hv : (validation env cfg roundId candidate).score with
    | error e => exact ⟨rfl, rfl⟩
    | ok score =>
      have hlt : ¬b.retainedScore ≤ score := fun hle =>
        h ⟨candidate, score, hpre, evaluate_validated.1 hv, hle⟩
      simp [hlt, rejected]

theorem roundSpec_next :
    RoundSpec env cfg b roundId (next env cfg roundId b).retained
      (next env cfg roundId b).retainedScore :=
  ⟨fun _ _ h => next_of_accepted h, next_of_rejected⟩

/-- A round ends with an accepted candidate, or where it started. -/
theorem next_cases :
    Accepted env cfg b roundId (next env cfg roundId b).retained
        (next env cfg roundId b).retainedScore ∨
      (next env cfg roundId b).retained = b.retained ∧
        (next env cfg roundId b).retainedScore = b.retainedScore := by
  by_cases h : ∃ candidate score, Accepted env cfg b roundId candidate score
  · obtain ⟨candidate, score, h⟩ := h
    obtain ⟨hg, hs⟩ := next_of_accepted h
    rw [hg, hs]
    exact .inl h
  · exact .inr (next_of_rejected h)

end Rounds

theorem Retention.next [Preorder S] [DecidableLE S] (h : Retention env cfg ig (bs ++ [b])) :
    Retention env cfg ig (bs ++ [b] ++ [next env cfg (bs.length + 1) b]) := by
  have hlast : (bs ++ [b])[bs.length]? = some b := by simp
  have hcases : Accepted env cfg b (bs.length + 1) _ _ ∨ _ := next_cases
  rcases hcases with hacc | ⟨hg, hs⟩
  · obtain ⟨⟨_, _, _, _, _, _, _, _, _, hc⟩, _, hle⟩ := id hacc
    exact h.snoc ⟨ProceduralGraph.valid _, checkTools_of_prepareCandidate hc⟩
      (.inr ⟨bs.length, b, Nat.lt_succ_self _, hlast, hacc⟩) hle roundSpec_next
  · refine h.snoc ?_ ?_ hs.ge roundSpec_next
    · rw [hg]
      exact h.valid b (by simp)
    · rw [hg, hs]
      exact (h.scored _ _ hlast).mono (Nat.le_succ _)

/-! ## The whole run -/

variable {events : List (Event J S)} {s t : State J S} {k : ℕ}

/-- The files point to a graph, with its score. -/
def PointsTo (env : Env J S R P) (v : Files J S) (graph : ProceduralGraph) (score : S) : Prop :=
  ∃ r, v .retained = some (some (.pointer ⟨env.fingerprint graph, some score, r⟩))

theorem PointsTo.publish {v : Files J S} {graph : ProceduralGraph} {score : S}
    (h : PointsTo env v graph score) {n : Name} {doc : Document J S} (hn : n ≠ .retained) :
    PointsTo env (publish v n doc) graph score := by
  obtain ⟨r, hr⟩ := h
  exact ⟨r, by rw [Evolution.publish, Function.update_of_ne hn.symm, hr]⟩

variable [Preorder S] [DecidableLE S]

/-- After a round, the files point to the graph of its boundary. -/
theorem pointsTo_round (hs : PointsTo env s.files b.retained b.retainedScore)
    (ht : (journal events).Runs s (roundEvents env cfg k b) t) :
    PointsTo env t.files (next env cfg k b).retained (next env cfg k b).retainedScore := by
  rw [files_of_runs ht, roundEvents, List.foldl_cons, List.foldl_cons, List.foldl_append]
  change PointsTo env (List.foldl _ s.files _) _ _
  have hreject {v : Files J S} (hv : PointsTo env v b.retained b.retainedScore)
      (record : Record J S) : PointsTo env
        ((rejectEvents k record).foldl (fun v e => e.onFiles v) v) b.retained b.retainedScore :=
    (hv.publish (by simp)).publish (by simp)
  rw [next, concluded, concludeEvents]
  cases (proposed env cfg k b).outcome with
  | error pe => exact hreject hs _
  | ok candidate =>
    dsimp only
    rw [settled, settleEvents]
    cases (validation env cfg k candidate).score with
    | error e => exact hreject (hs.publish (by simp)) _
    | ok score =>
      dsimp only
      split_ifs
      · exact ⟨k, by simp [acceptEvents, retainEvent, Event.onFiles, accepted]⟩
      · exact hreject (hs.publish (by simp)) _

/-- Before round `k`: the last boundary is `b`, and the files point to its graph. -/
structure Between (env : Env J S R P) (cfg : Config J) (ig : GraphData) (k : ℕ) (b : Boundary J S)
    (s : State J S) : Prop where
  boundaries : ∃ bs, bs.length + 1 = k ∧ s.log.boundaries = bs ++ [b]
  history : s.log.refinerCalls = b.history
  retention : Retention env cfg ig s.log.boundaries
  points : PointsTo env s.files b.retained b.retainedScore

theorem Between.next (h : Between env cfg ig k b s)
    (ht : (journal events).Runs s (roundEvents env cfg k b) t) :
    Between env cfg ig (k + 1) (next env cfg k b) t := by
  obtain ⟨⟨bs, rfl, hb⟩, hh, hr, hp⟩ := h
  have hb' := boundaries_of_round hh ht
  refine ⟨⟨bs ++ [b], by simp, by rw [hb', hb]⟩, history_of_round hh ht, ?_, pointsTo_round hp ht⟩
  rw [hb] at hr
  rw [hb', hb]
  exact hr.next

theorem Between.along (h : Between env cfg ig k b s) :
    (journal events).Along (fun _ t => Retention env cfg ig t.log.boundaries) s
      (roundEvents env cfg k b) :=
  along_round (I := fun l => Retention env cfg ig l.boundaries)
    (fun _ _ hl h => by rwa [hl.boundaries]) h.retention h.retention
    fun _ ht => (h.next ht).retention

omit [DecidableLE S] in
theorem between_first {graph : ProceduralGraph} {m : Manifest J} {score : S}
    (hp : prepare env cfg ig = .ok (graph, m)) (hv : (baseline env cfg graph).score = .ok score)
    (hs : s.log = {})
    (h : (journal events).Runs s (baselineEvents env graph (baseline env cfg graph) score) t) :
    Between env cfg ig 1 (first graph score) t := by
  obtain ⟨hg, ht⟩ := of_prepare hp
  have hb : t.log.boundaries = [first graph score] := by
    rw [log_of_runs h, hs]
    rfl
  refine ⟨⟨[], rfl, hb⟩, ?_, ?_, ?_⟩
  · rw [log_of_runs h, hs]
    rfl
  · rw [hb]
    exact Retention.single hg (evaluate_validated.1 hv) ht
  · rw [files_of_runs h]
    exact ⟨0, by simp [baselineEvents, retainEvent, Event.onFiles, first]⟩

/-- All the boundaries are as they should along the events of a run. -/
theorem along_retention : (journal (evolveEvents env cfg ig)).Along
    (fun _ t => Retention env cfg ig t.log.boundaries)
    (journal (evolveEvents env cfg ig)).start (evolveEvents env cfg ig) :=
  along_evolve (I := fun l => Retention env cfg ig l.boundaries)
    (B := fun k b s => Between env cfg ig k b s) (fun _ _ hl h => by rwa [hl.boundaries])
    Retention.nil (fun _ _ _ h => h.retention)
    (fun _ _ _ _ _ hp hv hs h => between_first hp hv hs h) (fun _ _ _ h => h.along)
    fun _ _ _ _ h ht => h.next ht

/-- What evolution retains, at the boundaries of every run, and what it
    returns, which is what `retained.json` points to. -/
theorem evolve_retention (env : Env J S R P) (cfg : Config J)
    (initialGraph : GraphData) (outputExists : Bool) (fault : ℕ → Option Exc) :
    (∀ w ∈ (evolve env cfg initialGraph outputExists).trace (start fault),
      Retention env cfg initialGraph w.2.boundaries) ∧
    ∀ graph, (evolve env cfg initialGraph outputExists).result (start fault) = .ok graph →
      let w := (evolve env cfg initialGraph outputExists).final (start fault)
      ∃ b r, w.2.boundaries.length = cfg.rounds.toNat + 1 ∧
        w.2.boundaries.getLast? = some b ∧ b.retained = graph ∧
        w.1.view .retained =
          some (some (.pointer ⟨env.fingerprint graph, some b.retainedScore, r⟩)) := by
  have hrun : (journal (evolveEvents env cfg initialGraph)).Performs _
    (evolve env cfg initialGraph outputExists) _ _ := performs_evolve
  constructor
  · intro w hw
    obtain ⟨s, hs, hsw⟩ := hrun.of_mem_trace (at_start fault)
      (fun _ _ hs => along_retention.reached Retention.nil hs) w hw
    rwa [hsw.log]
  · intro graph hgraph
    obtain ⟨⟨b, hb, rfl⟩, s, hs, hsw⟩ := hrun.result (at_start fault) hgraph
    have hbetween : Between env cfg initialGraph (1 + cfg.rounds.toNat) b s :=
      of_isLast (B := fun k b s => Between env cfg initialGraph k b s)
        (fun _ _ _ _ _ hp hv hs h => between_first hp hv hs h)
        (fun _ _ _ _ h ht => h.next ht) hb hs.2
    obtain ⟨⟨bs, hk, hbs⟩, _, _, r, hr⟩ := hbetween
    refine ⟨b, r, ?_, ?_, rfl, ?_⟩
    · rw [hsw.log, hbs, List.length_append, List.length_singleton]
      omega
    · rw [hsw.log, hbs, List.getLast?_concat]
    · rw [hsw.shows.view, hr]

end Hyperforge.Evolution
