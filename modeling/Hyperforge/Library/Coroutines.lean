import Hyperforge.Library.Transition
import Mathlib.Data.List.Basic

/-!
# Interleaved coroutines

Coroutines that share a state. A coroutine is started with an argument and runs up to its first
await; it is resumed with what it has awaited, after any number of steps of the others, and runs up
to the next one. What they do is in a common trace, with their numbers, and the part of one of them
is its log (`State.log`).

* `Reachable.each`: what the start of a coroutine establishes of its phase and its log, and what is
  kept when it is resumed, holds of every coroutine, whatever the others do;
* `Reachable.moves`: what every move keeps of the shared state, the phases and the trace.
-/

namespace Coroutines

open Transition

/-- What coroutines do: `start` up to the first await, `resume` from an await to the next one, in
    the phases where that is awaited. `other` is what happens to the shared state besides. -/
structure Program (σ α π ι ω ε : Type*) where
  start : σ → α → Option (σ × π × List ε)
  resume : σ → π → ι → Option (σ × π × List ε)
  other : σ → ω → Option σ

/-- The shared state, the phases of the coroutines and the trace of what they have done. -/
structure State (σ π ε : Type*) where
  shared : σ
  phases : List π
  trace : List (ℕ × ε)

inductive Label (α ι ω : Type*)
  | start (a : α)
  | resume (d : ℕ) (i : ι)
  | other (w : ω)

variable {σ α π ι ω ε : Type*}

namespace State

variable (s : State σ π ε)

/-- What the coroutine `d` has done. -/
def log (d : ℕ) : List ε := s.trace.filterMap fun e => if e.1 = d then some e.2 else none

/-- A new coroutine. -/
def spawn (m : σ × π × List ε) : State σ π ε where
  shared := m.1
  phases := s.phases ++ [m.2.1]
  trace := s.trace ++ m.2.2.map (s.phases.length, ·)

/-- A move of the coroutine `d`. -/
def move (d : ℕ) (m : σ × π × List ε) : State σ π ε where
  shared := m.1
  phases := s.phases.set d m.2.1
  trace := s.trace ++ m.2.2.map (d, ·)

variable {s}

theorem log_append {t : State σ π ε} {d d' : ℕ} {es : List ε}
    (h : t.trace = s.trace ++ es.map (d', ·)) :
    t.log d = if d' = d then s.log d ++ es else s.log d := by
  rw [log, h, List.filterMap_append]
  split
  next hd =>
    subst hd
    simp [log, List.filterMap_map]
  next hd => simp [log, hd, List.filterMap_map]

theorem log_move_self (d : ℕ) (m : σ × π × List ε) : (s.move d m).log d = s.log d ++ m.2.2 := by
  rw [log_append (s := s) (t := s.move d m) rfl, if_pos rfl]

theorem log_move_of_ne {d d' : ℕ} (h : d ≠ d') (m : σ × π × List ε) :
    (s.move d m).log d' = s.log d' := by
  rw [log_append (s := s) (t := s.move d m) rfl, if_neg h]

theorem log_spawn (m : σ × π × List ε) (d : ℕ) :
    (s.spawn m).log d = if s.phases.length = d then s.log d ++ m.2.2 else s.log d :=
  log_append rfl

/-- The coroutines in the trace have been started. -/
def Numbered (s : State σ π ε) : Prop := ∀ e ∈ s.trace, e.1 < s.phases.length

theorem Numbered.log_eq_nil (h : s.Numbered) : s.log s.phases.length = [] := by
  refine List.filterMap_eq_nil_iff.2 fun e he => if_neg ?_
  exact Nat.ne_of_lt (h e he)

theorem Numbered.spawn (h : s.Numbered) (m : σ × π × List ε) : (s.spawn m).Numbered := by
  intro e he
  rw [State.spawn, List.length_append]
  obtain he | he := List.mem_append.1 he
  · exact Nat.lt_of_lt_of_le (h e he) (by simp)
  · obtain ⟨x, -, rfl⟩ := List.mem_map.1 he
    simp

theorem Numbered.move (h : s.Numbered) {d : ℕ} {p : π} (hd : s.phases[d]? = some p)
    (m : σ × π × List ε) : (s.move d m).Numbered := by
  intro e he
  rw [State.move, List.length_set]
  obtain he | he := List.mem_append.1 he
  · exact h e he
  · obtain ⟨x, -, rfl⟩ := List.mem_map.1 he
    exact (List.getElem?_eq_some_iff.1 hd).1

end State

namespace Program

variable (P : Program σ α π ι ω ε)

def step (s : State σ π ε) : Label α ι ω → Option (State σ π ε)
  | .start a => (P.start s.shared a).map s.spawn
  | .resume d i => s.phases[d]?.bind fun p => (P.resume s.shared p i).map (s.move d)
  | .other w => (P.other s.shared w).map fun t => { s with shared := t }

/-- Runs from a shared state, with no coroutine started. -/
def system (shared : σ) : System (State σ π ε) (Label α ι ω) :=
  .ofStep { shared, phases := [], trace := [] } P.step

/-- A move of one coroutine, or of none. -/
inductive Step (s : State σ π ε) : State σ π ε → Prop
  | start {a : α} {m : σ × π × List ε} (h : P.start s.shared a = some m) : Step s (s.spawn m)
  | resume {d : ℕ} {p : π} {i : ι} {m : σ × π × List ε} (hd : s.phases[d]? = some p)
    (h : P.resume s.shared p i = some m) : Step s (s.move d m)
  | other {w : ω} {t : σ} (h : P.other s.shared w = some t) : Step s { s with shared := t }

variable {P} {shared : σ} {s t : State σ π ε}

theorem Step.of_step {l : Label α ι ω} (h : P.step s l = some t) : P.Step s t := by
  cases l with
  | start a =>
    obtain ⟨m, hm, rfl⟩ := Option.map_eq_some_iff.1 h
    exact .start hm
  | resume d i =>
    obtain ⟨p, hp, h⟩ := Option.bind_eq_some_iff.1 h
    obtain ⟨m, hm, rfl⟩ := Option.map_eq_some_iff.1 h
    exact .resume hp hm
  | other w =>
    obtain ⟨u, hu, rfl⟩ := Option.map_eq_some_iff.1 h
    exact .other hu

/-- What holds initially and is kept by the moves holds in every reachable state. -/
theorem moves {I : State σ π ε → Prop} (hr : (P.system shared).Reachable s)
    (hinit : I { shared, phases := [], trace := [] })
    (hstep : ∀ s t, (P.system shared).Reachable s → I s → P.Step s t → I t) : I s :=
  hr.invariant (fun _ h => h ▸ hinit) fun s _ t hs hI hst => hstep s t hs hI (.of_step hst)

theorem numbered (hr : (P.system shared).Reachable s) : s.Numbered := by
  refine moves hr (fun e he => absurd he List.not_mem_nil) fun s t _ h hst => ?_
  cases hst with
  | start => exact h.spawn _
  | resume hd => exact h.move hd _
  | other => exact h

/-- What holds of the phase and the log of every coroutine: no other one changes them. -/
theorem each {I : π → List ε → Prop} (hr : (P.system shared).Reachable s)
    (hstart : ∀ u a m, P.start u a = some m → I m.2.1 m.2.2)
    (hresume : ∀ u p i m es, I p es → P.resume u p i = some m → I m.2.1 (es ++ m.2.2)) {d : ℕ}
    {p : π} (hp : s.phases[d]? = some p) : I p (s.log d) := by
  refine moves (I := fun s => ∀ (d : ℕ) (p : π), s.phases[d]? = some p → I p (s.log d)) hr ?_ ?_ d p
    hp
  · simp
  intro s t hs ih hst
  cases hst with
  | @start a m h =>
    intro d p hp
    rw [State.log_spawn]
    rw [State.spawn, List.getElem?_append] at hp
    split at hp
    next hd => rw [if_neg (Nat.ne_of_gt hd)]; exact ih _ _ hp
    next hd =>
      obtain ⟨hd', hp⟩ := List.getElem?_eq_some_iff.1 hp
      obtain rfl : s.phases.length = d := by simp at hd'; omega
      rw [if_pos rfl, (numbered hs).log_eq_nil, List.nil_append]
      simpa [← hp] using hstart _ _ _ h
  | @resume d' q i m hq h =>
    intro d p hp
    rw [State.move, List.getElem?_set] at hp
    split at hp
    next hd =>
      subst hd
      rw [State.log_move_self]
      split at hp
      · exact Option.some.inj hp ▸ hresume _ _ _ _ _ (ih _ _ hq) h
      · simp at hp
    next hd => rw [State.log_move_of_ne hd]; exact ih _ _ hp
  | other h => exact ih

end Program

/-! ## Totals -/

/-- The total of what is counted for each. -/
def total {β : Type*} (count : β → ℕ) (xs : List β) : ℕ := xs.foldr (fun x n => count x + n) 0

section

variable {β : Type*} {count : β → ℕ} {xs ys : List β}

@[simp]
theorem total_nil : total count [] = 0 := rfl

@[simp]
theorem total_cons (x : β) : total count (x :: xs) = count x + total count xs := rfl

theorem total_append : total count (xs ++ ys) = total count xs + total count ys := by
  induction xs with
  | nil => simp
  | cons x xs ih => rw [List.cons_append, total_cons, total_cons, ih, Nat.add_assoc]

variable (count) in
theorem total_set {x : β} {i : ℕ} (h : xs[i]? = some x) (y : β) :
    total count (xs.set i y) + count x = total count xs + count y := by
  induction xs generalizing i with
  | nil => simp at h
  | cons z xs ih =>
    cases i with
    | zero =>
      obtain rfl : z = x := by simpa using h
      rw [List.set_cons_zero, total_cons, total_cons]
      omega
    | succ i =>
      have := ih (i := i) (by simpa using h)
      rw [List.set_cons_succ, total_cons, total_cons]
      omega

end

end Coroutines
