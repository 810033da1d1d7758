import Mathlib.Data.List.Basic

/-!
# Transition systems

States, initial ones and labelled steps between them (`System`), the runs along
a list of labels (`System.Run`) and the states they reach. What holds
initially and is kept by every step holds in every reachable state
(`System.Reachable.invariant`); what is kept by the steps of a run holds at its
end (`System.Run.invariant`).

A system whose steps are computed (`System.ofStep`) can be replayed.
-/

namespace Transition

/-- A labelled transition system. -/
structure System (σ ℓ : Type*) where
  init : σ → Prop
  step : σ → ℓ → σ → Prop

namespace System

variable {σ ℓ : Type*} (S : System σ ℓ)

/-- A run, along its labels. -/
inductive Run : σ → List ℓ → σ → Prop
  | refl (s : σ) : Run s [] s
  | snoc {s t u : σ} {ls : List ℓ} {l : ℓ} : Run s ls t → S.step t l u → Run s (ls ++ [l]) u

/-- The end of a run from an initial state. -/
def Reachable (s : σ) : Prop := ∃ s₀ ls, S.init s₀ ∧ S.Run s₀ ls s

variable {S} {s t u : σ} {l : ℓ} {ls ls' : List ℓ}

theorem Reachable.init (h : S.init s) : S.Reachable s := ⟨s, [], h, .refl s⟩

theorem Reachable.step (h : S.Reachable s) (hst : S.step s l t) : S.Reachable t := by
  obtain ⟨s₀, ls, h₀, h⟩ := h
  exact ⟨s₀, ls ++ [l], h₀, h.snoc hst⟩

theorem Run.append (h : S.Run s ls t) (h' : S.Run t ls' u) : S.Run s (ls ++ ls') u := by
  induction h' with
  | refl => rwa [List.append_nil]
  | snoc _ hst ih =>
    rw [← List.append_assoc]
    exact ih.snoc hst

theorem Reachable.run (h : S.Reachable s) (h' : S.Run s ls t) : S.Reachable t := by
  obtain ⟨s₀, ls₀, h₀, h⟩ := h
  exact ⟨s₀, ls₀ ++ ls, h₀, h.append h'⟩

/-- What the steps of a run keep holds at its end. -/
theorem Run.invariant {I : σ → Prop} (h : S.Run s ls t) (hs : I s)
    (hstep : ∀ t l u, l ∈ ls → I t → S.step t l u → I u) : I t := by
  induction h with
  | refl => exact hs
  | snoc h hst ih =>
    refine hstep _ _ _ (by simp) (ih fun t l u hl => hstep t l u ?_) hst
    exact List.mem_append_left _ hl

/-- What holds at the end of a run, and not before it, comes to hold with a step. -/
theorem Run.exists_step {P : σ → Prop} (h : S.Run s ls t) (hs : ¬P s) (ht : P t) :
    ∃ ls₁ l ls₂ u v, ls = ls₁ ++ l :: ls₂ ∧ S.Run s ls₁ u ∧ S.step u l v ∧ S.Run v ls₂ t ∧
      ¬P u ∧ P v := by
  induction h with
  | refl => exact absurd ht hs
  | @snoc t t' ls l h hst ih =>
    by_cases ht₁ : P t
    · obtain ⟨ls₁, l', ls₂, u, v, rfl, hu, huv, hv, hP⟩ := ih ht₁
      exact ⟨ls₁, l', ls₂ ++ [l], u, v, by simp, hu, huv, hv.snoc hst, hP⟩
    · exact ⟨ls, l, [], t, t', rfl, h, hst, .refl _, ht₁, ht⟩

/-- What holds initially and is kept by the steps from reachable states holds
    in every reachable state. -/
theorem Reachable.invariant {I : σ → Prop} (h : S.Reachable s) (hinit : ∀ s, S.init s → I s)
    (hstep : ∀ s l t, S.Reachable s → I s → S.step s l t → I t) : I s := by
  obtain ⟨s₀, ls, h₀, h⟩ := h
  refine (h.invariant (I := fun s => S.Reachable s ∧ I s) ⟨.init h₀, hinit s₀ h₀⟩ ?_).2
  exact fun t l u _ ht hst => ⟨ht.1.step hst, hstep t l u ht.1 ht.2 hst⟩

/-- Replaying labels whose steps are computed. -/
theorem Run.replay {f : σ → ℓ → Option σ} (hf : ∀ s l t, f s l = some t → S.step s l t)
    (ls : List ℓ) (h : ls.foldlM f s = some t) : S.Run s ls t := by
  induction ls generalizing s with
  | nil =>
    cases h
    exact .refl _
  | cons l ls ih =>
    obtain ⟨u, hu, h⟩ := Option.bind_eq_some_iff.1 h
    exact ((Run.refl s).snoc (hf s l u hu)).append (ih h)

theorem Reachable.replay {f : σ → ℓ → Option σ} (h : S.Reachable s)
    (hf : ∀ s l t, f s l = some t → S.step s l t) (ls : List ℓ) (h' : ls.foldlM f s = some t) :
    S.Reachable t := h.run (.replay hf ls h')

/-- A system with one initial state, whose steps are computed. -/
def ofStep (s₀ : σ) (step : σ → ℓ → Option σ) : System σ ℓ where
  init s := s = s₀
  step s l t := step s l = some t

/-- Replaying the labels from the initial state. -/
theorem reachable_of_replay {s₀ : σ} {step : σ → ℓ → Option σ} (h : ls.foldlM step s₀ = some s) :
    (ofStep s₀ step).Reachable s :=
  (Reachable.init (S := ofStep s₀ step) rfl).replay (fun _ _ _ h => h) ls h

/-- Replaying labels, if all of them are steps. -/
theorem run_of_replay {s₀ : σ} {step : σ → ℓ → Option σ} (s : σ) (ls : List ℓ)
    (h : (ls.foldlM step s).isSome) : (ofStep s₀ step).Run s ls ((ls.foldlM step s).get h) :=
  .replay (fun _ _ _ h => h) ls (Option.some_get h).symm

end System

end Transition
