import Hyperforge.Library.JsonSchema.Positions

/-!
# Trees that are the same at a position

What is at a position of a tree, as far as it goes itself (`shell`): a scalar, the length of an
array, the keys of an object. Two trees may be the same there (`SameAt`) although they differ
within.
-/

namespace Json

open JsonSchema (Segment follow)

variable {F : Type} {t t' t'' x x' : Tree F} {ms ms' : List (Str × Tree F)}
  {items items' : List (Tree F)} {k : Str} {i : ℕ} {path : List Segment}

/-- A tree without what is in it. -/
def Tree.shell : Tree F → Tree F
  | .arr items => .arr (items.map fun _ => .null)
  | .obj ms => .obj (ms.map fun m => (m.1, .null))
  | x => x

/-- There is the same at a position of two trees, or nothing, but for what is within it. -/
def SameAt (path : List Segment) (t t' : Tree F) : Prop :=
  (follow t' path).map Tree.shell = (follow t path).map Tree.shell

@[refl]
theorem SameAt.refl (path : List Segment) (t : Tree F) : SameAt path t t := rfl

@[trans]
theorem SameAt.trans (h : SameAt path t t') (h' : SameAt path t' t'') : SameAt path t t'' :=
  Eq.trans h' h

theorem sameAt_nil : SameAt [] t t' ↔ t'.shell = t.shell := Option.some_inj

/-- There is nothing within a string. -/
theorem follow_str_cons (s : Str) (segment : Segment) (path : List Segment) :
    follow (.str s : Tree F) (segment :: path) = none := by
  cases segment <;> rfl

/-- Objects are the same within if they have the same there under a key, or both nothing. -/
theorem sameAt_key (h : Option.Rel (SameAt path) (ms.lookup k) (ms'.lookup k)) :
    SameAt (.key k :: path) (.obj ms) (.obj ms') := by
  unfold SameAt
  rw [follow, follow]
  generalize ms.lookup k = a, ms'.lookup k = b at h
  cases h with
  | some h => exact h
  | none => rfl

theorem sameAt_index (h : Option.Rel (SameAt path) items[i]? items'[i]?) :
    SameAt (.index i :: path) (.arr items) (.arr items') := by
  unfold SameAt
  rw [follow, follow]
  generalize items[i]? = a, items'[i]? = b at h
  cases h with
  | some h => exact h
  | none => rfl

end Json
