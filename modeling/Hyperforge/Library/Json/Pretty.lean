import Hyperforge.Library.Json.Ascii

/-!
# Indented texts

The text of a tree with each item and member on a line of its own, indented by its level
(`Json.Tree.pretty`). What is written of a list of items is at least as long as what is written of
some of them (`length_pretty_arr_le`), and has an encoding if its strings are in ASCII
(`exists_pretty_ascii`).
-/

namespace Json

variable {F : Type}

section Pretty

variable (φ : FloatFormat F) (ψ : StringFormat) (indent : ℕ)

/-- A new line at a level. -/
def newline (level : ℕ) : Str := .scalar '\n' :: List.replicate (indent * level) (.scalar ' ')

mutual

/-- The text of a tree at a level. -/
def Tree.pretty (level : ℕ) : Tree F → Str
  | .null => chars ['n', 'u', 'l', 'l']
  | .bool true => chars ['t', 'r', 'u', 'e']
  | .bool false => chars ['f', 'a', 'l', 's', 'e']
  | .int i => chars (intText i)
  | .float x => chars (φ.repr x)
  | .str s => ψ.quote s
  | .arr [] => chars ['[', ']']
  | .arr items =>
    .scalar '[' :: prettyItems (level + 1) 0 items ++ newline indent level ++ [.scalar ']']
  | .obj [] => chars ['\x7b', '\x7d']
  | .obj members =>
    .scalar '\x7b' :: prettyMembers (level + 1) 0 members ++ newline indent level ++
      [.scalar '\x7d']

def prettyItems (level index : ℕ) : List (Tree F) → Str
  | [] => []
  | x :: xs =>
    comma index ++ newline indent level ++ x.pretty level ++ prettyItems level (index + 1) xs

def prettyMembers (level index : ℕ) : List (Str × Tree F) → Str
  | [] => []
  | (k, x) :: ms =>
    comma index ++ newline indent level ++ ψ.quote k ++ chars [':', ' '] ++ x.pretty level ++
      prettyMembers level (index + 1) ms

end

end Pretty

variable {φ : FloatFormat F} {ψ : StringFormat} {indent level : ℕ}

/-! ## Lengths -/

theorem prettyItems_succ (i : ℕ) (xs : List (Tree F)) :
    prettyItems φ ψ indent level (i + 1) xs = prettyItems φ ψ indent level 1 xs := by
  induction xs generalizing i with
  | nil => rfl
  | cons x xs ih => rw [prettyItems, prettyItems, ih (i + 1), ih 1, comma, comma]; simp

/-- Without the comma in front of the first item, and with brackets. -/
theorem length_pretty_arr_zero (items : List (Tree F)) :
    ((Tree.arr items).pretty φ ψ indent 0).length =
      (prettyItems φ ψ indent 1 1 items).length + 2 := by
  cases items with
  | nil => rfl
  | cons x xs =>
    rw [Tree.pretty, prettyItems, prettyItems, prettyItems_succ 1]
    · simp only [comma, newline, List.length_append, List.length_cons, List.length_nil]
      simp
      omega
    · exact List.cons_ne_nil x xs

/-- What is written of more items is longer. -/
theorem length_prettyItems_le {items items' : List (Tree F)} (h : items.Sublist items') :
    (prettyItems φ ψ indent level 1 items).length ≤
      (prettyItems φ ψ indent level 1 items').length := by
  induction h with
  | slnil => exact le_rfl
  | cons x _ ih =>
    rw [prettyItems, prettyItems_succ 1, List.length_append]
    omega
  | cons_cons x _ ih =>
    rw [prettyItems, prettyItems, prettyItems_succ 1, prettyItems_succ 1]
    simp only [List.length_append]
    omega

theorem length_pretty_arr_le {items items' : List (Tree F)} (h : items.Sublist items') :
    ((Tree.arr items).pretty φ ψ indent 0).length ≤
      ((Tree.arr items').pretty φ ψ indent 0).length := by
  rw [length_pretty_arr_zero, length_pretty_arr_zero]
  exact Nat.add_le_add_right (length_prettyItems_le h) 2

/-! ## ASCII -/

@[simp]
theorem noSurrogates_newline : NoSurrogates (newline indent level) := by
  intro c hc
  rcases List.mem_cons.1 hc with rfl | hc
  · exact ⟨_, rfl⟩
  · exact ⟨_, (List.mem_replicate.1 hc).2⟩

theorem noSurrogates_pretty (x : Tree F) (level : ℕ) :
    NoSurrogates (x.pretty φ ascii indent level) := by
  induction x using Tree.induction generalizing level with
  | null => exact noSurrogates_chars _
  | bool b => cases b <;> exact noSurrogates_chars _
  | int i => exact noSurrogates_chars _
  | float x => exact noSurrogates_chars _
  | str s => exact noSurrogates_quote s
  | arr items ih =>
    have hitems (index : ℕ) :
        NoSurrogates (prettyItems φ ascii indent (level + 1) index items) := by
      induction items generalizing index with
      | nil => exact noSurrogates_nil
      | cons x xs ihs =>
        obtain ⟨hx, hxs⟩ := List.forall_mem_cons.1 ih
        simp [prettyItems, hx, ihs hxs]
    cases items with
    | nil => exact noSurrogates_chars _
    | cons x xs => simp [Tree.pretty, hitems]
  | obj members ih =>
    have hmembers (index : ℕ) :
        NoSurrogates (prettyMembers φ ascii indent (level + 1) index members) := by
      induction members generalizing index with
      | nil => exact noSurrogates_nil
      | cons m ms ihs =>
        obtain ⟨hm, hms⟩ := List.forall_mem_cons.1 ih
        simp [prettyMembers, hm, ihs hms, noSurrogates_quote, noSurrogates_chars]
    cases members with
    | nil => exact noSurrogates_chars _
    | cons m ms => simp [Tree.pretty, hmembers]

/-- A text in ASCII always has an encoding. -/
theorem exists_pretty_ascii (φ : FloatFormat F) (indent : ℕ) (x : Tree F) :
    ∃ cs, x.pretty φ ascii indent 0 = chars cs :=
  (noSurrogates_pretty x 0).exists_chars

end Json
