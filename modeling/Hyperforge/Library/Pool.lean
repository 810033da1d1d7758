import Hyperforge.Library.Program
import Hyperforge.Library.Transition
import Mathlib.Logic.Function.Basic

/-!
# Pools of programs

Any number of operations are started at any time, and run as programs that share a state
(`Pool`), one action of one of them at a time, between which the environment may change the
state as well (`Pool.system`).

If each program keeps a contract, and what one guarantees is what the others rely on, then
the invariant holds in every reachable state, and every step is what its program
guarantees (`Pool.reachable_safe`, `Pool.guar_of_step`).
-/

namespace Concurrent

open Transition

/-- An operation, and what is left of its program. -/
structure Task (σ χ Op : Type) (Res : Op → Type) where
  op : Op
  program : Program σ χ (Res op)

/-- Whether a task is one that is done with a result. -/
instance Task.decidableDone {σ χ Op : Type} {Res : Op → Type} [DecidableEq Op]
    (o : Option (Task σ χ Op Res)) (op : Op) (r : Res op) [DecidableEq (Res op)] :
    Decidable (o = some ⟨op, .pure r⟩) :=
  match o with
  | none => isFalse fun h => by cases h
  | some ⟨op', p⟩ =>
    if h : op' = op then
      match op', p, h with
      | _, .pure r', rfl => decidable_of_iff (r' = r) (by simp)
      | _, .action _ _, rfl => isFalse (by simp)
      | _, .loop _ _, rfl => isFalse (by simp)
    else isFalse fun h' => h (congrArg Task.op (Option.some.inj h'))

theorem Task.eq_of_decide {σ χ Op : Type} {Res : Op → Type} [DecidableEq Op]
    {o : Option (Task σ χ Op Res)} {op : Op} {r : Res op} [DecidableEq (Res op)]
    (h : @decide _ (Task.decidableDone o op r) = true) : o = some ⟨op, .pure r⟩ :=
  @of_decide_eq_true _ (Task.decidableDone o op r) h

/-- The tasks that have been started, and the state that they share. -/
structure Pool (σ χ Op : Type) (Res : Op → Type) where
  shared : σ
  tasks : ℕ → Option (Task σ χ Op Res)

/-- A step of a pool. -/
inductive Label (χ Op ε : Type)
  | start (i : ℕ) (op : Op)
  | act (i : ℕ) (c : χ)
  | environment (e : ε)

namespace Pool

variable {σ χ ε Op : Type} {Res : Op → Type}

section

variable (program : ℕ → (op : Op) → Program σ χ (Res op)) (environment : σ → ε → Option σ)

/-- A new task is started, a task takes an action, or the environment changes the state. -/
def step (S : Pool σ χ Op Res) : Label χ Op ε → Option (Pool σ χ Op Res)
  | .start i op =>
    match S.tasks i with
    | none => some { S with tasks := Function.update S.tasks i (some ⟨op, program i op⟩) }
    | some _ => none
  | .act i c =>
    match S.tasks i with
    | none => none
    | some t => (t.program.step S.shared c).map fun r =>
      ⟨r.1, Function.update S.tasks i (some ⟨t.op, r.2⟩)⟩
  | .environment e => (environment S.shared e).map fun s => { S with shared := s }

/-- At first, nothing has been started. -/
def system (init : σ → Prop) : System (Pool σ χ Op Res) (Label χ Op ε) where
  init S := init S.shared ∧ ∀ i, S.tasks i = none
  step S l S' := S.step program environment l = some S'

end

variable {program : ℕ → (op : Op) → Program σ χ (Res op)} {environment : σ → ε → Option σ}
  {init : σ → Prop} {inv : σ → Prop} {C : ℕ → Op → Contract σ}
  {post : ℕ → (op : Op) → Res op → σ → Prop} {S S' : Pool σ χ Op Res} {l : Label χ Op ε}

/-- What a step of a pool may be. -/
inductive Stepped (program : ℕ → (op : Op) → Program σ χ (Res op))
    (environment : σ → ε → Option σ) (S : Pool σ χ Op Res) :
    Label χ Op ε → Pool σ χ Op Res → Prop
  | start (i : ℕ) (op : Op) (h : S.tasks i = none) : Stepped program environment S (.start i op)
    { S with tasks := Function.update S.tasks i (some ⟨op, program i op⟩) }
  | act (i : ℕ) (c : χ) (t : Task σ χ Op Res) (s : σ) (p : Program σ χ (Res t.op))
    (h : S.tasks i = some t) (hp : t.program.step S.shared c = some (s, p)) :
    Stepped program environment S (.act i c) ⟨s, Function.update S.tasks i (some ⟨t.op, p⟩)⟩
  | environment (e : ε) (s : σ) (h : environment S.shared e = some s) :
    Stepped program environment S (.environment e) { S with shared := s }

theorem step_cases (h : S.step program environment l = some S') :
    Stepped program environment S l S' := by
  cases l with
  | start i op =>
    rw [step] at h
    split at h
    · next hi =>
      cases h
      exact .start i op hi
    · cases h
  | act i c =>
    rw [step] at h
    split at h
    · cases h
    · next t hi =>
      obtain ⟨⟨s, p⟩, hp, h⟩ := Option.map_eq_some_iff.1 h
      cases h
      exact .act i c t s p hi hp
  | environment e =>
    rw [step] at h
    obtain ⟨s, hs, h⟩ := Option.map_eq_some_iff.1 h
    cases h
    exact .environment e s hs

theorem reachable_of_replay (h : (system program environment init).Reachable S)
    (ls : List (Label χ Op ε)) (h' : ls.foldlM (step program environment) S = some S') :
    (system program environment init).Reachable S' :=
  h.replay (fun _ _ _ h => h) ls h'

/-- Replaying labels, if all of them are steps. -/
theorem run_replay (S : Pool σ χ Op Res) (ls : List (Label χ Op ε))
    (h : (ls.foldlM (step program environment) S).isSome) :
    (system program environment init).Run S ls
      ((ls.foldlM (step program environment) S).get h) :=
  .replay (fun _ _ _ h => h) ls (Option.some_get h).symm

/-- The programs of a pool keep their contracts. -/
structure Sound (program : ℕ → (op : Op) → Program σ χ (Res op))
    (environment : σ → ε → Option σ) (init inv : σ → Prop) (C : ℕ → Op → Contract σ)
    (post : ℕ → (op : Op) → Res op → σ → Prop) : Prop where
  init : ∀ s, init s → inv s
  environment : ∀ s e s', inv s → environment s e = some s' →
    inv s' ∧ ∀ i op, (C i op).rely s s'
  compatible : ∀ i j op op' s s', i ≠ j → (C i op).guar s s' → (C j op').rely s s'
  ensures : ∀ i op, Ensures inv (C i op) (fun _ => True) (program i op) (post i op)

/-- The invariant holds, and what is left of each program keeps its contract. -/
def Safe (inv : σ → Prop) (C : ℕ → Op → Contract σ) (post : ℕ → (op : Op) → Res op → σ → Prop)
    (S : Pool σ χ Op Res) : Prop :=
  inv S.shared ∧ ∀ i t, S.tasks i = some t →
    ∀ n, Concurrent.Safe inv (C i t.op) n S.shared t.program (post i t.op)

theorem Safe.step (hsound : Sound program environment init inv C post) (hS : Safe inv C post S)
    (h : S.step program environment l = some S') : Safe inv C post S' := by
  obtain ⟨hinv, htasks⟩ := hS
  cases step_cases h with
  | start i op hi =>
    refine ⟨hinv, fun j t hj n => ?_⟩
    dsimp only at hj
    rcases eq_or_ne j i with rfl | hne
    · rw [Function.update_self] at hj
      cases hj
      exact hsound.ensures j op n _ trivial
    · rw [Function.update_of_ne hne] at hj
      exact htasks j t hj n
  | act i c t s p hi hp =>
    have hstep (n : ℕ) := (htasks i t hi (n + 1) _ ((C i t.op).refl _) hinv).2 c s p hp
    refine ⟨(hstep 0).2.1, fun j t' hj n => ?_⟩
    dsimp only at hj
    rcases eq_or_ne j i with rfl | hne
    · rw [Function.update_self] at hj
      cases hj
      exact (hstep n).2.2
    · rw [Function.update_of_ne hne] at hj
      exact (htasks j t' hj n).rely
        (hsound.compatible i j t.op t'.op _ _ (Ne.symm hne) (hstep 0).1)
  | environment e s hs =>
    obtain ⟨hinv', hrely⟩ := hsound.environment _ e s hinv hs
    exact ⟨hinv', fun j t hj n => (htasks j t hj n).rely (hrely j t.op)⟩

theorem reachable_safe (hsound : Sound program environment init inv C post)
    (h : (system program environment init).Reachable S) : Safe inv C post S := by
  refine h.invariant (fun S hS => ⟨hsound.init _ hS.1, fun i t hi => ?_⟩)
    fun S l S' _ hS hst => hS.step hsound hst
  rw [hS.2 i] at hi
  cases hi

/-- A step of a task is what its program guarantees. -/
theorem Safe.guar {i : ℕ} {c : χ} {t : Task σ χ Op Res} {s : σ} {p : Program σ χ (Res t.op)}
    (hS : Safe inv C post S) (hi : S.tasks i = some t)
    (hp : t.program.step S.shared c = some (s, p)) : (C i t.op).guar S.shared s :=
  ((hS.2 i t hi 1 _ ((C i t.op).refl _) hS.1).2 c s p hp).1

/-- The postcondition of a task that is done. -/
theorem Safe.holds {i : ℕ} {op : Op} {r : Res op} (hS : Safe inv C post S)
    (hi : S.tasks i = some ⟨op, .pure r⟩) : post i op r S.shared :=
  (hS.2 i _ hi 1 _ ((C i op).refl _) hS.1).1 r rfl

/-- A task that is done stays as it is. -/
theorem done_of_step {i : ℕ} {op : Op} {r : Res op} (hi : S.tasks i = some ⟨op, .pure r⟩)
    (h : S.step program environment l = some S') : S'.tasks i = some ⟨op, .pure r⟩ := by
  cases step_cases h with
  | start j op' hj =>
    have hne : i ≠ j := by
      rintro rfl
      rw [hi] at hj
      cases hj
    rw [← hi]
    exact Function.update_of_ne hne ..
  | act j c t s p hj hp =>
    have hne : i ≠ j := by
      rintro rfl
      rw [hi] at hj
      cases hj
      cases hp
    rw [← hi]
    exact Function.update_of_ne hne ..
  | environment e s hs => exact hi

/-- A task that has been started is there after every step. -/
theorem started_of_step {i : ℕ} {t : Task σ χ Op Res} (hi : S.tasks i = some t)
    (h : S.step program environment l = some S') : ∃ p, S'.tasks i = some ⟨t.op, p⟩ := by
  cases step_cases h with
  | start j op hj =>
    have hne : i ≠ j := by
      rintro rfl
      rw [hi] at hj
      cases hj
    exact ⟨t.program, (Function.update_of_ne hne ..).trans hi⟩
  | act j c t' s p hj hp =>
    rcases eq_or_ne i j with rfl | hne
    · rw [hi] at hj
      cases hj
      exact ⟨p, Function.update_self ..⟩
    · exact ⟨t.program, (Function.update_of_ne hne ..).trans hi⟩
  | environment e s hs => exact ⟨t.program, hi⟩

/-- What a program and what is left of it satisfy. -/
theorem residual {P : (i : ℕ) → (op : Op) → Program σ χ (Res op) → Prop}
    (hP : ∀ i op, P i op (program i op))
    (hstep : ∀ i op p s c s' q, P i op p → p.step s c = some (s', q) → P i op q)
    (h : (system program environment init).Reachable S) {i : ℕ} {t : Task σ χ Op Res}
    (hi : S.tasks i = some t) : P i t.op t.program := by
  suffices hall : ∀ i t, S.tasks i = some t → P i t.op t.program from hall i t hi
  refine h.invariant (I := fun S => ∀ i t, S.tasks i = some t → P i t.op t.program)
    (fun S hS i t hi => ?_) fun S l S' _ hS hst j t hj => ?_
  · rw [hS.2 i] at hi
    cases hi
  · cases step_cases hst with
    | start i op hi =>
      dsimp only at hj
      rcases eq_or_ne j i with rfl | hne
      · rw [Function.update_self] at hj
        cases hj
        exact hP j op
      · rw [Function.update_of_ne hne] at hj
        exact hS j t hj
    | act i c t' s p hi hp =>
      dsimp only at hj
      rcases eq_or_ne j i with rfl | hne
      · rw [Function.update_self] at hj
        cases hj
        exact hstep j t'.op _ _ c _ p (hS j t' hi) hp
      · rw [Function.update_of_ne hne] at hj
        exact hS j t hj
    | environment e s hs => exact hS j t hj

end Pool

end Concurrent
