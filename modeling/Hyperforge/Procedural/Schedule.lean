import Hyperforge.Procedural.Leakage

/-!
# Training schedules

The batches of the rounds are the training tasks in their order, from the first again after the
last: whatever happens in the rounds, each block of rounds trains on every task once
(`training_schedule`), and no batch is empty. Where a round starts from is given by the number of
the rounds before (`cursor_boundaryAt`).
-/

namespace Hyperforge.Evolution

open Crash

variable {J S R P : Type}

/-! ## Batches of a list -/

/-- The batches of a list are its elements in order. -/
theorem flatMap_batches {α : Type} (l : List α) (b k : ℕ) :
    (List.range k).flatMap (fun i => (l.drop (i * b)).take b) = l.take (k * b) := by
  induction k with
  | zero => simp
  | succ k ih =>
    rw [List.range_succ, List.flatMap_append, ih, List.flatMap_singleton, Nat.succ_mul,
      List.take_add]

/-- The number of batches of `n` elements. -/
def batches (n b : ℕ) : ℕ := (n + b - 1) / b

/-- The batches are all needed, and enough. -/
theorem batches_spec {n b : ℕ} (hn : 0 < n) (hb : 0 < b) :
    0 < batches n b ∧ (batches n b - 1) * b < n ∧ n ≤ batches n b * b := by
  have hle : n + b - 1 < (batches n b + 1) * b := Nat.lt_mul_of_div_lt (Nat.lt_succ_self _) hb
  have hge : batches n b * b ≤ n + b - 1 := Nat.div_mul_le_self _ _
  have hpos : 0 < batches n b := Nat.div_pos (by omega) hb
  obtain ⟨m, hm⟩ : ∃ m, batches n b = m + 1 := Nat.exists_eq_add_of_le' hpos
  rw [hm, Nat.add_mul, Nat.add_mul, Nat.one_mul] at hle
  rw [hm, Nat.add_mul, Nat.one_mul] at hge
  rw [hm, Nat.add_sub_cancel, Nat.add_mul, Nat.one_mul]
  exact ⟨Nat.succ_pos m, by omega, by omega⟩

/-- The tasks, and the size of the batches, of a configuration that is checked. -/
structure Checked (cfg : Config J) (b : ℕ) : Prop where
  size : cfg.batchSize = b
  positive : 0 < b
  tasks : cfg.trainTasks ≠ []

theorem checked_of_checkConfig {env : Env J S R P} {cfg : Config J}
    (h : checkConfig env cfg = .ok ()) : Checked cfg cfg.batchSize.toNat := by
  unfold checkConfig at h
  split_ifs at h with h₁ _ _ _ _ h₂
  simp only [not_or, not_lt] at h₁ h₂
  refine ⟨by omega, by omega, ?_⟩
  simpa using h₂.1

theorem checked_of_prepare {env : Env J S R P} {cfg : Config J} {ig : GraphData}
    {o : ProceduralGraph × Manifest J} (h : prepare env cfg ig = .ok o) :
    Checked cfg cfg.batchSize.toNat := by
  simp only [prepare, bind_eq_ok] at h
  obtain ⟨_, hc, _⟩ := h
  exact checked_of_checkConfig hc

theorem Checked.batch_eq {cfg : Config J} {b : ℕ} (h : Checked cfg b) (st : LoopState J S) :
    batch cfg st = (cfg.trainTasks.drop st.cursor).take b := by
  rw [batch, h.size, Int.toNat_natCast]

/-! ## The cursor -/

section Cursor

variable {env : Env J S R P} {cfg : Config J} [LE S] [DecidableLE S]

theorem cursor_settled {st : LoopState J S} {roundId : ℕ} {p : Proposing J S}
    {candidate : ProceduralGraph} {v : Evaluation J S} :
    (settled env cfg st roundId p candidate v).cursor = nextCursor cfg st := by
  rw [settled]
  cases v.score with
  | error e => rfl
  | ok score =>
    dsimp only
    split_ifs <;> rfl

/-- The cursor moves on whatever a round comes to. -/
theorem cursor_next {roundId : ℕ} {b : Boundary J S} :
    (next env cfg roundId b).cursor = nextCursor cfg b.toLoopState := by
  change (concluded env cfg b.toLoopState roundId (proposed env cfg roundId b)).cursor = _
  rw [concluded]
  cases (proposed env cfg roundId b).outcome with
  | error e => rfl
  | ok candidate => exact cursor_settled

/-- Where a round starts from, given the number of the rounds before. -/
theorem cursor_boundaryAt {b : ℕ} (h : Checked cfg b) (graph : ProceduralGraph) (score : S)
    (j : ℕ) :
    (boundaryAt env cfg graph score j).cursor =
      j % batches cfg.trainTasks.length b * b := by
  obtain ⟨hpos, hlast, hall⟩ := batches_spec (List.length_pos_iff.2 h.tasks) h.positive
  induction j with
  | zero => rw [Nat.zero_mod, Nat.zero_mul]; rfl
  | succ j ih =>
    rw [boundaryAt_succ, cursor_next, nextCursor, h.batch_eq, List.length_take, List.length_drop,
      ih]
    generalize cfg.trainTasks.length = n at *
    generalize batches n b = m at *
    have hlt : j % m < m := Nat.mod_lt j hpos
    have hsucc : (j + 1) % m = (j % m + 1) % m := (Nat.mod_add_mod j m 1).symm
    have hmul : (j % m + 1) * b = j % m * b + b := Nat.succ_mul _ _
    by_cases hj : j % m + 1 = m
    · -- the last batch of a block, which may be partial
      rw [hj] at hmul
      have hend : j % m * b + min b (n - j % m * b) = n := by
        have hstart : j % m * b < n := by rwa [← hj, Nat.add_sub_cancel] at hlast
        omega
      rw [hend, hsucc, hj, Nat.mod_self, Nat.mod_self, Nat.zero_mul]
    · have hle : (j % m + 1) * b < n :=
        (Nat.mul_le_mul_right b (by omega : j % m + 1 ≤ m - 1)).trans_lt hlast
      rw [hsucc, Nat.mod_eq_of_lt (by omega : j % m + 1 < m), min_eq_left (by omega), ← hmul,
        Nat.mod_eq_of_lt hle]

/-- The batch of a round, given the number of the rounds before. -/
theorem batch_boundaryAt {b : ℕ} (h : Checked cfg b) (graph : ProceduralGraph) (score : S)
    (j : ℕ) :
    batch cfg (boundaryAt env cfg graph score j).toLoopState =
      (cfg.trainTasks.drop (j % batches cfg.trainTasks.length b * b)).take b := by
  rw [h.batch_eq, cursor_boundaryAt h]

variable (env) in
/-- No batch is empty. -/
theorem batch_ne_nil {b : ℕ} (h : Checked cfg b) (graph : ProceduralGraph) (score : S) (j : ℕ) :
    batch cfg (boundaryAt env cfg graph score j).toLoopState ≠ [] := by
  obtain ⟨hpos, hlast, _⟩ := batches_spec (List.length_pos_iff.2 h.tasks) h.positive
  have hlt : j % batches cfg.trainTasks.length b * b < cfg.trainTasks.length :=
    (Nat.mul_le_mul_right b (Nat.le_sub_one_of_lt (Nat.mod_lt j hpos))).trans_lt hlast
  rw [batch_boundaryAt h, ← List.length_pos_iff, List.length_take, List.length_drop]
  exact Nat.lt_min.2 ⟨h.positive, by omega⟩

/-- The batches of a block of rounds are the tasks in order. -/
theorem flatMap_batch_boundaryAt {b : ℕ} (h : Checked cfg b) (graph : ProceduralGraph) (score : S)
    (q : ℕ) :
    (List.range' (q * batches cfg.trainTasks.length b) (batches cfg.trainTasks.length b)).flatMap
        (fun j => batch cfg (boundaryAt env cfg graph score j).toLoopState) = cfg.trainTasks := by
  obtain ⟨_, _, hall⟩ := batches_spec (List.length_pos_iff.2 h.tasks) h.positive
  rw [List.range'_eq_map_range, List.flatMap_map]
  calc (List.range (batches cfg.trainTasks.length b)).flatMap (fun i => batch cfg
        (boundaryAt env cfg graph score (q * batches cfg.trainTasks.length b + i)).toLoopState)
      = (List.range (batches cfg.trainTasks.length b)).flatMap
          (fun i => (cfg.trainTasks.drop (i * b)).take b) := by
        refine List.flatMap_congr fun i hi => ?_
        rw [batch_boundaryAt h, Nat.mul_comm q, Nat.mul_add_mod,
          Nat.mod_eq_of_lt (List.mem_range.1 hi)]
    _ = cfg.trainTasks := by rw [flatMap_batches, List.take_of_length_le hall]

/-! ## Means -/

/-- An evaluation divides by the number of some traces, or fails with a rollout. -/
def Divides (env : Env J S R P) (stage : Stage) (graph : ProceduralGraph)
    (tasks : List (EvaluationTask J)) : Prop :=
  (∃ traces, traces ≠ [] ∧ (evaluate env stage graph tasks).score = .ok (mean env traces)) ∨
    ∃ call, ∃ task ∈ tasks, ∃ e,
      rollout env call graph task = .error e ∧ (evaluate env stage graph tasks).score = .error e

omit [LE S] [DecidableLE S] in
/-- Traces are enough, and so are tasks. -/
theorem divides_evaluateFrom (stage : Stage) (graph : ProceduralGraph) :
    ∀ (tasks : List (EvaluationTask J)) (index : ℕ) (traces : List (Trace J S)),
      traces ≠ [] ∨ tasks ≠ [] →
        (∃ traces', traces' ≠ [] ∧
          (evaluateFrom env stage graph index tasks traces).score = .ok (mean env traces')) ∨
        ∃ call, ∃ task ∈ tasks, ∃ e, rollout env call graph task = .error e ∧
          (evaluateFrom env stage graph index tasks traces).score = .error e
  | [], index, traces, h => by
    have hne : traces ≠ [] := h.resolve_right fun h => h rfl
    refine .inl ⟨traces, hne, ?_⟩
    rw [evaluateFrom, if_neg (by simpa using hne)]
  | task :: tasks, index, traces, _ => by
    rw [evaluateFrom]
    cases ht : rollout env ⟨stage, index⟩ graph task with
    | error e => exact .inr ⟨_, task, List.mem_cons_self, e, ht, rfl⟩
    | ok trace =>
      rcases divides_evaluateFrom stage graph tasks (index + 1) (traces ++ [trace])
        (.inl (by simp)) with h | ⟨call, task', hmem, e, he, hs⟩
      · exact .inl h
      · exact .inr ⟨call, task', List.mem_cons_of_mem _ hmem, e, he, hs⟩

omit [LE S] [DecidableLE S] in
theorem divides_of_ne_nil {tasks : List (EvaluationTask J)} (h : tasks ≠ []) (stage : Stage)
    (graph : ProceduralGraph) : Divides env stage graph tasks :=
  divides_evaluateFrom stage graph tasks 0 [] (.inr h)

end Cursor

/-! ## Runs -/

/-- In every run, whatever the rounds come to: no batch is empty, and so no mean of training is
    over no traces, none is larger than the batch size, and the batches of each block of rounds,
    from the first, are the training tasks in order. -/
theorem training_schedule [LE S] [DecidableLE S] (env : Env J S R P) (cfg : Config J)
    (initialGraph : GraphData) (outputExists : Bool) (fault : ℕ → Option Exc) :
    (∀ b ∈ (finalLog env cfg initialGraph outputExists fault).boundaries,
      batch cfg b.toLoopState ≠ [] ∧
      (batch cfg b.toLoopState).length ≤ cfg.batchSize ∧
      ∀ roundId, Divides env (.training roundId) b.retained (batch cfg b.toLoopState)) ∧
    ((finalLog env cfg initialGraph outputExists fault).boundaries ≠ [] → ∀ q,
      (q + 1) * batches cfg.trainTasks.length cfg.batchSize.toNat ≤
        (finalLog env cfg initialGraph outputExists fault).boundaries.length →
      (((finalLog env cfg initialGraph outputExists fault).boundaries.drop
          (q * batches cfg.trainTasks.length cfg.batchSize.toNat)).take
        (batches cfg.trainTasks.length cfg.batchSize.toNat)).flatMap
          (fun b => batch cfg b.toLoopState) = cfg.trainTasks) := by
  rcases tracks_finalLog env cfg initialGraph outputExists fault with
    ⟨hb, _⟩ | ⟨graph, m, score, hp, _, n, hpr, _⟩
  · rw [hb]
    exact ⟨fun _ hb => absurd hb List.not_mem_nil, fun hne => absurd rfl hne⟩
  have hc := checked_of_prepare hp
  rw [hpr.boundaries]
  refine ⟨fun b hb => ?_, fun _ q hq => ?_⟩
  · obtain ⟨j, _, rfl⟩ := List.mem_map.1 hb
    have hne := batch_ne_nil env hc graph score j
    refine ⟨hne, ?_, fun roundId => divides_of_ne_nil hne _ _⟩
    have hle := List.length_take_le cfg.batchSize.toNat
      (cfg.trainTasks.drop (boundaryAt env cfg graph score j).cursor)
    have hsize := hc.size
    rw [← batch] at hle
    omega
  · rw [List.length_map, List.length_range] at hq
    have hblock : ((List.range (n + 1)).drop (q * batches cfg.trainTasks.length
        cfg.batchSize.toNat)).take (batches cfg.trainTasks.length cfg.batchSize.toNat) =
          List.range' (q * batches cfg.trainTasks.length cfg.batchSize.toNat)
            (batches cfg.trainTasks.length cfg.batchSize.toNat) := by
      rw [Nat.succ_mul] at hq
      rw [List.range_eq_range', List.drop_range', Nat.zero_add, Nat.mul_one,
        List.take_range'_of_length_ge (Nat.le_sub_of_add_le' hq)]
    rw [← List.map_drop, ← List.map_take, hblock, List.flatMap_map]
    exact flatMap_batch_boundaryAt hc graph score q

end Hyperforge.Evolution
