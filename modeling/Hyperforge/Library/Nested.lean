import Hyperforge.Library.Json.Dict
import Mathlib.Tactic.SplitIfs

/-!
# Nested dictionaries

A value is a dictionary of values, or something else, a leaf (`Nested`). What a value has at a path
of keys is found by looking the keys up one after the other (`Nested.get`).

The keys of a dictionary are distinct, and so are those of the dictionaries in it (`NestedDict`).
-/

open Json (nodup_assign mem_of_lookup mem_assign)

/-- A dictionary, or something else. -/
inductive Nested (κ α : Type)
  | leaf (x : α)
  | dict (members : List (κ × Nested κ α))

namespace Nested

variable {κ α : Type}

/-- The keys of all dictionaries are distinct. -/
inductive Unique : Nested κ α → Prop
  | leaf (x : α) : Unique (.leaf x)
  | dict {members : List (κ × Nested κ α)} (nodup : (members.map Prod.fst).Nodup)
    (values : ∀ m ∈ members, Unique m.2) : Unique (.dict members)

theorem Unique.nodup {members : List (κ × Nested κ α)} (h : (Nested.dict members).Unique) :
    (members.map Prod.fst).Nodup := by
  cases h with
  | dict nodup _ => exact nodup

theorem Unique.value {members : List (κ × Nested κ α)} (h : (Nested.dict members).Unique)
    {m : κ × Nested κ α} (hm : m ∈ members) : m.2.Unique := by
  cases h with
  | dict _ values => exact values m hm

variable [DecidableEq κ]

theorem Unique.lookup {members : List (κ × Nested κ α)} (h : (Nested.dict members).Unique) {k : κ}
    {x : Nested κ α} (hk : members.lookup k = some x) : x.Unique := h.value (mem_of_lookup hk)

theorem Unique.assign {members : List (κ × Nested κ α)} (h : (Nested.dict members).Unique) (k : κ)
    {x : Nested κ α} (hx : x.Unique) : (Nested.dict (Json.assign k x members)).Unique := by
  refine .dict (nodup_assign h.nodup k x) fun m hm => ?_
  obtain rfl | hm := mem_assign hm
  · exact hx
  · exact h.value hm

/-! ## Paths -/

/-- What is found at a path. -/
def get : Nested κ α → List κ → Option (Nested κ α)
  | x, [] => some x
  | .leaf _, _ :: _ => none
  | .dict members, k :: path => (members.lookup k).bind (get · path)

@[simp] theorem get_nil (x : Nested κ α) : x.get [] = some x := by rw [get]

@[simp] theorem get_leaf_cons (x : α) (k : κ) (path : List κ) :
    (leaf x : Nested κ α).get (k :: path) = none := by rw [get]

theorem get_dict_cons (members : List (κ × Nested κ α)) (k : κ) (path : List κ) :
    (dict members).get (k :: path) = (members.lookup k).bind (get · path) := by rw [get]

theorem get_dict_cons_of_lookup {members : List (κ × Nested κ α)} {k : κ} {x : Nested κ α}
    (h : members.lookup k = some x) (path : List κ) :
    (dict members).get (k :: path) = x.get path := by
  rw [get_dict_cons, h, Option.bind_some]

/-- There are dictionaries above what is found at a path. -/
theorem exists_get_eq_dict {x y : Nested κ α} {q path : List κ} (h : x.get path = some y)
    (hq : q <+: path) (hne : q ≠ path) : ∃ members, x.get q = some (.dict members) := by
  induction path generalizing x q with
  | nil => exact absurd (List.prefix_nil.1 hq) hne
  | cons k path ih =>
    cases x with
    | leaf x => simp at h
    | dict members =>
      cases q with
      | nil => exact ⟨members, get_nil _⟩
      | cons l q =>
        obtain ⟨rfl, hpath⟩ := List.cons_prefix_cons.1 hq
        rw [get_dict_cons, Option.bind_eq_some_iff] at h
        obtain ⟨z, hz, h⟩ := h
        rw [get_dict_cons_of_lookup hz]
        exact ih h hpath fun heq => hne (congrArg (l :: ·) heq)

/-- The value, unless it is a dictionary. -/
def held : Nested κ α → Option α
  | .leaf x => some x
  | .dict _ => none

end Nested

/-- A dictionary of which the keys are distinct, at every depth. -/
structure NestedDict (κ α : Type) where
  members : List (κ × Nested κ α)
  unique : (Nested.dict members).Unique

namespace NestedDict

variable {κ α : Type}

theorem ext_members {d e : NestedDict κ α} (h : d.members = e.members) : d = e := by
  cases d
  cases e
  cases h
  rfl

/-- A dictionary without dictionaries in it. -/
def ofLeaves (leaves : List (κ × α)) (h : (leaves.map Prod.fst).Nodup) : NestedDict κ α where
  members := leaves.map fun m => (m.1, .leaf m.2)
  unique := by
    refine .dict ?_ fun m hm => ?_
    · rwa [List.map_map]
    · obtain ⟨m, -, rfl⟩ := List.mem_map.1 hm
      exact .leaf m.2

variable [DecidableEq κ]

/-- A dictionary is put under a key. -/
def insertDict (d : NestedDict κ α) (k : κ) (e : NestedDict κ α) : NestedDict κ α where
  members := Json.assign k (.dict e.members) d.members
  unique := d.unique.assign k e.unique

def get (d : NestedDict κ α) (path : List κ) : Option (Nested κ α) :=
  (Nested.dict d.members).get path

theorem get_insertDict (d e : NestedDict κ α) (k l : κ) (path : List κ) :
    (d.insertDict k e).get (l :: path) = if k = l then e.get path else d.get (l :: path) := by
  rw [get, insertDict, Nested.get_dict_cons, Json.lookup_assign]
  split_ifs
  · rw [Option.bind_some, get]
  · rw [get, Nested.get_dict_cons]

/-- The paths to the leaves of a dictionary without dictionaries in it. -/
theorem get_ofLeaves_eq_leaf {leaves : List (κ × α)} (h : (leaves.map Prod.fst).Nodup)
    {path : List κ} {x : α} :
    (ofLeaves leaves h).get path = some (.leaf x) ↔ ∃ k, path = [k] ∧ leaves.lookup k = some x := by
  have hlookup (k : κ) : (ofLeaves leaves h).members.lookup k = (leaves.lookup k).map .leaf :=
    Json.lookup_map_values (fun _ => Nested.leaf) k leaves
  rcases path with _ | ⟨k, path⟩
  · simp [get]
  · rw [get, Nested.get_dict_cons, hlookup]
    cases hk : leaves.lookup k with
    | none => simp [hk]
    | some y =>
      cases path with
      | nil => simp [hk]
      | cons l path => simp

end NestedDict
