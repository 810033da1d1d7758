import Mathlib.Logic.Basic

/-!
# Formulas with lists of operands

Formulas over leaves of any type (`Formula`), where conjunctions and disjunctions have any number of
operands, and what it means that one holds (`Formula.Holds`). Of operands that are put together with
a connective, one alone is not wrapped, and none are nothing (`Formula.join`).
-/

inductive Formula (L : Type)
  | leaf (l : L)
  | not (operand : Formula L)
  | and (operands : List (Formula L))
  | or (operands : List (Formula L))

namespace Formula

variable {L : Type} (holds : L → Prop)

mutual

/-- A formula holds, as its leaves do or do not. -/
def Holds : Formula L → Prop
  | leaf l => holds l
  | not x => ¬ x.Holds
  | and xs => HoldsAll xs
  | or xs => HoldsAny xs

def HoldsAll : List (Formula L) → Prop
  | [] => True
  | x :: xs => x.Holds ∧ HoldsAll xs

def HoldsAny : List (Formula L) → Prop
  | [] => False
  | x :: xs => x.Holds ∨ HoldsAny xs

end

variable {holds} {xs : List (Formula L)}

@[simp]
theorem holds_leaf {l : L} : (leaf l).Holds holds ↔ holds l := by rw [Holds]

theorem holdsAll_iff : HoldsAll holds xs ↔ ∀ x ∈ xs, x.Holds holds := by
  induction xs with
  | nil => simp [HoldsAll]
  | cons x xs ih => rw [HoldsAll, ih, List.forall_mem_cons]

theorem holdsAny_iff : HoldsAny holds xs ↔ ∃ x ∈ xs, x.Holds holds := by
  induction xs with
  | nil => simp [HoldsAny]
  | cons x xs ih => simp only [HoldsAny, ih, List.mem_cons, exists_eq_or_imp]

@[simp]
theorem holds_and : (and xs).Holds holds ↔ ∀ x ∈ xs, x.Holds holds := by rw [Holds, holdsAll_iff]

@[simp]
theorem holds_or : (or xs).Holds holds ↔ ∃ x ∈ xs, x.Holds holds := by rw [Holds, holdsAny_iff]

/-- Operands put together with a connective, if there are any. -/
def join (connective : List (Formula L) → Formula L) : List (Formula L) → Option (Formula L)
  | [] => none
  | [x] => some x
  | xs => some (connective xs)

variable {connective : List (Formula L) → Formula L}

theorem join_eq_none : join connective xs = none ↔ xs = [] := by
  rcases xs with _ | ⟨x, _ | ⟨y, xs⟩⟩ <;> simp [join]

theorem forall_join_and : (∀ x ∈ join and xs, x.Holds holds) ↔ ∀ x ∈ xs, x.Holds holds := by
  rcases xs with _ | ⟨x, _ | ⟨y, xs⟩⟩ <;> simp [join]

theorem forall_join_or :
    (∀ x ∈ join or xs, x.Holds holds) ↔ xs = [] ∨ ∃ x ∈ xs, x.Holds holds := by
  rcases xs with _ | ⟨x, _ | ⟨y, xs⟩⟩ <;> simp [join]

end Formula
