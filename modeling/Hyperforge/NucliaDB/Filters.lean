import Hyperforge.Library.Formula
import Mathlib.Tactic.SplitIfs

/-!
# Filters

The filters of a search in a knowledge box (`NdbFilter`), and filter expressions, which have a part
on fields and one on paragraphs, joined by an operator (`FilterExpression`). An expression matches
pairs of a field and a paragraph (`FilterExpression.Matches`), as the filters mean it (`Meaning`).

Expressions are combined part by part (`combineFilterExpressions`).
-/

namespace Hyperforge.NucliaDB

/-- A filter, as far as the agents make them, or another one. -/
inductive NdbFilter (O : Type)
  | keyword (word : List Char)
  | resource (id : List Char)
  | label (labelset : List Char) (label : Option (List Char))
  | fieldMimetype (type : List Char) (subtype : Option (List Char))
  | resourceMimetype (type : List Char) (subtype : Option (List Char))
  | language (language : List Char) (onlyPrimary : Bool)
  | originTag (tag : List Char)
  | originMetadata (field : List Char) (value : Option (List Char))
  | originPath (path : List Char)
  | originCollaborator (collaborator : List Char)
  | originSource (id : List Char)
  | entity (subtype : List Char) (value : Option (List Char))
  | field (type : List Char) (name : Option (List Char))
  | generated (by_ : List Char)
  | other (x : O)

inductive Operator
  | and
  | or
  deriving DecidableEq

structure FilterExpression (O P : Type) where
  field : Option (Formula (NdbFilter O)) := none
  paragraph : Option (Formula P) := none
  operator : Operator := .and

/-- What filters on fields and on paragraphs mean. -/
structure Meaning (O P Field Paragraph : Type) where
  field : Field → NdbFilter O → Prop
  paragraph : Paragraph → P → Prop

variable {O P Field Paragraph : Type}

/-- An expression matches a field and a paragraph. -/
def FilterExpression.Matches (m : Meaning O P Field Paragraph) (e : FilterExpression O P)
    (field : Field) (paragraph : Paragraph) : Prop :=
  match e.field, e.paragraph with
  | none, none => True
  | some x, none => x.Holds (m.field field)
  | none, some y => y.Holds (m.paragraph paragraph)
  | some x, some y =>
    match e.operator with
    | .and => x.Holds (m.field field) ∧ y.Holds (m.paragraph paragraph)
    | .or => x.Holds (m.field field) ∨ y.Holds (m.paragraph paragraph)

/-- `And` or `Or`, of operands. -/
def Operator.klass {L : Type} : Operator → List (Formula L) → Formula L
  | .and => .and
  | .or => .or

/-- Merges filter expressions into a single one. -/
def combineFilterExpressions (expressions : List (FilterExpression O P)) (operator : Operator) :
    Except String (FilterExpression O P) :=
  match expressions with
  | [] => .error "At least one filter expression is required to combine"
  | [e] => .ok e
  | one :: others =>
    if ∃ other ∈ others, one.operator ≠ other.operator then
      .error "Cannot combine filter expressions with different operators"
    else .ok
      { operator := one.operator
        field := Formula.join operator.klass (expressions.filterMap (·.field))
        paragraph := Formula.join operator.klass (expressions.filterMap (·.paragraph)) }

/-! ## What expressions match -/

variable {m : Meaning O P Field Paragraph} {e e' : FilterExpression O P} {field : Field}
  {paragraph : Paragraph}

/-- The parts of an expression are joined with `and`. -/
theorem matches_and (h : e.operator = .and) : e.Matches m field paragraph ↔
    (∀ x ∈ e.field, x.Holds (m.field field)) ∧
      ∀ y ∈ e.paragraph, y.Holds (m.paragraph paragraph) := by
  obtain ⟨_ | x, _ | y, operator⟩ := e <;> obtain rfl : operator = .and := h <;>
    simp [FilterExpression.Matches]

theorem forall_mem_filterMap {α β : Type} {f : α → Option β} {xs : List α} {P : β → Prop} :
    (∀ y ∈ xs.filterMap f, P y) ↔ ∀ x ∈ xs, ∀ y ∈ f x, P y := by
  simp only [List.mem_filterMap, Option.mem_def]
  exact ⟨fun h x hx y hy => h y ⟨x, hx, hy⟩, fun h y ⟨x, hx, hy⟩ => h x hx y hy⟩

/-- Expressions that join their parts with `and` are combined. -/
theorem matches_combine_and {expressions : List (FilterExpression O P)}
    (hcombine : combineFilterExpressions expressions .and = .ok e)
    (hand : ∃ x ∈ expressions, x.operator = .and) :
    e.Matches m field paragraph ↔ ∀ x ∈ expressions, x.Matches m field paragraph := by
  rcases expressions with _ | ⟨one, _ | ⟨other, others⟩⟩
  · cases hcombine
  · cases hcombine
    rw [List.forall_mem_singleton]
  · rw [combineFilterExpressions] at hcombine
    · split_ifs at hcombine with hdiffer
      cases hcombine
      simp only [not_exists, not_and, ne_eq, not_not] at hdiffer
      have hone : one.operator = .and := by
        obtain ⟨x, hx, hop⟩ := hand
        rcases List.mem_cons.1 hx with rfl | hx
        · exact hop
        · rw [hdiffer x hx, hop]
      have hall : ∀ x ∈ one :: other :: others, x.operator = .and := by
        rw [List.forall_mem_cons]
        exact ⟨hone, fun x hx => (hdiffer x hx).symm.trans hone⟩
      rw [matches_and (by exact hone)]
      dsimp only [Operator.klass]
      rw [Formula.forall_join_and, Formula.forall_join_and, forall_mem_filterMap,
        forall_mem_filterMap, ← forall₂_and]
      exact forall₂_congr fun x hx => (matches_and (hall x hx)).symm
    · simp

end Hyperforge.NucliaDB
