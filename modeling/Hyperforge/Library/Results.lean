import Hyperforge.Library.Crash

/-!
# What a computation raises

The exceptions of a computation all satisfy a predicate (`RaisesOnly`), and those of two
computations that are the same (`Agree`): the rules follow how computations are put together,
so that what each part does says what the whole does.
-/

namespace Crash

variable {ε : Type} {α β : Type}

/-- If the computation raises an exception, it satisfies `P`. -/
def RaisesOnly (P : ε → Prop) (x : Except ε α) : Prop := ∀ e, x = .error e → P e

namespace RaisesOnly

variable {P Q : ε → Prop} {x : Except ε α}

theorem ok (a : α) : RaisesOnly P (.ok a : Except ε α) := nofun

theorem error {e : ε} (h : P e) : RaisesOnly P (.error e : Except ε α) := by
  rintro _ ⟨⟩
  exact h

theorem mono (h : RaisesOnly P x) (hPQ : ∀ e, P e → Q e) : RaisesOnly Q x := fun e he =>
  hPQ e (h e he)

theorem bind {f : α → Except ε β} (hx : RaisesOnly P x)
    (hf : ∀ a, x = .ok a → RaisesOnly P (f a)) : RaisesOnly P (x >>= f) := by
  rcases x with e | a
  · rintro _ ⟨⟩
    exact hx e rfl
  · exact hf a rfl

theorem foldlM {f : β → α → Except ε β} {xs : List α} (h : ∀ y, ∀ x ∈ xs, RaisesOnly P (f y x))
    (y : β) : RaisesOnly P (xs.foldlM f y) := by
  induction xs generalizing y with
  | nil => exact ok y
  | cons x xs ih =>
    rw [List.foldlM_cons]
    exact (h y x List.mem_cons_self).bind fun z _ =>
      ih (fun y x hx => h y x (List.mem_cons_of_mem _ hx)) z

/-- A loop of checks. -/
theorem forIn {f : α → Except ε Unit} {xs : List α} (h : ∀ x ∈ xs, RaisesOnly P (f x)) :
    RaisesOnly P (forIn xs PUnit.unit fun x _ => do
      f x
      pure (ForInStep.yield PUnit.unit)) := by
  induction xs with
  | nil => exact ok _
  | cons x xs ih =>
    rw [List.forall_mem_cons] at h
    rw [List.forIn_cons]
    have hx := h.1
    generalize f x = r at hx
    rcases r with e | ⟨⟩
    · rintro _ ⟨⟩
      exact hx e rfl
    · exact ih h.2

end RaisesOnly

/-- The computations are the same, and their exceptions satisfy `P`. -/
def Agree (P : ε → Prop) (x y : Except ε α) : Prop := x = y ∧ RaisesOnly P x

namespace Agree

variable {P : ε → Prop} {x y : Except ε α}

theorem refl (h : RaisesOnly P x) : Agree P x x := ⟨rfl, h⟩

theorem ok (a : α) : Agree P (.ok a : Except ε α) (.ok a) := refl (.ok a)

theorem bind {f g : α → Except ε β} (h : Agree P x y) (hfg : ∀ a, x = .ok a → Agree P (f a) (g a)) :
    Agree P (x >>= f) (y >>= g) := by
  obtain ⟨rfl, h⟩ := h
  refine ⟨?_, h.bind fun a ha => (hfg a ha).2⟩
  rcases x with e | a
  · rfl
  · exact (hfg a rfl).1

theorem error_bind {e : ε} (h : P e) (f g : α → Except ε β) :
    Agree P (.error e >>= f) (.error e >>= g) := refl (.error h)

theorem mapM {f g : α → Except ε β} {xs : List α} (h : ∀ x ∈ xs, Agree P (f x) (g x)) :
    Agree P (xs.mapM f) (xs.mapM g) := by
  induction xs with
  | nil => exact ok []
  | cons x xs ih =>
    rw [List.forall_mem_cons] at h
    rw [List.mapM_cons, List.mapM_cons]
    exact h.1.bind fun y _ => (ih h.2).bind fun ys _ => ok (y :: ys)

end Agree

end Crash
