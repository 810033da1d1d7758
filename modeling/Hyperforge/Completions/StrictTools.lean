import Hyperforge.Library.JsonSchema.Inline
import Hyperforge.Library.JsonSchema.Nesting
import Hyperforge.Completions.ConvertSchema

/-!
# The parameters of strict tools

A tool is given to a provider with a copy of its parameters (`normalizeTools`), a schema of which
the objects are made strict where the provider asks for it: without additional properties, and
with all properties required.

The code goes down from the parameters through some nestings of objects, arrays and combinators,
one inside the other, and not through others. What a schema is to the code is told by where it
stands (`Role`), and what the code does to it by what it is there (`Shape`).

* `reaches_amend_iff`: the schemas of the result are those of the parameters, each amended in its
  role;
* `erase_amend`: nothing else changes;
* `amend_amend`: what has been amended is not changed by it.
-/

namespace Hyperforge.Completions

open Json hiding Tree
open JsonSchema (Nesting Within Reaches)

variable {F : Type}

def itemsKey : Str := .ofString "items"

/-- How the keywords have schemas. -/
def nesting (k : Str) : Nesting :=
  if k ∈ ["properties", "$defs"].map Str.ofString then .map
  else if k = itemsKey then .schema
  else if k ∈ ["anyOf", "oneOf", "allOf"].map Str.ofString then .list
  else .data

/-! ## The code -/

/-- What a schema is to the code: the parameters of a call, a property or a definition of such
    parameters, a variant of a combinator, or what it does not come to. -/
inductive Role
  | parameters
  | entry
  | variant
  | kept
  deriving DecidableEq

/-- What is done to a schema: to its properties and definitions and to itself, to its items, to
    the variants of its combinators, or nothing. -/
inductive Shape
  | object
  | arrayOfObjects
  | combined
  | kept
  deriving DecidableEq

def isArrayOfObjects (ms : Dict F) : Bool :=
  match ms.lookup typeKey, ms.lookup itemsKey with
  | some type, some (.obj items) => isText (.ofString "array") type && isObjectType items
  | _, _ => false

def Role.shape (ms : Dict F) : Role → Shape
  | .parameters => if isObjectType ms then .object else .kept
  | .entry =>
    if isObjectType ms then .object else if isArrayOfObjects ms then .arrayOfObjects else .combined
  | .variant =>
    if isObjectType ms then .object else if isArrayOfObjects ms then .arrayOfObjects else .kept
  | .kept => .kept

/-- What the schemas of a keyword are to the code. -/
def Shape.under (k : Str) : Shape → Role
  | .object => if k ∈ ["properties", "$defs"].map Str.ofString then .entry else .kept
  | .arrayOfObjects => if k = itemsKey then .parameters else .kept
  | .combined => if k ∈ ["anyOf", "oneOf", "allOf"].map Str.ofString then .variant else .kept
  | .kept => .kept

/-- `parameters.setdefault("properties", {})` -/
def setDefaultProperties (parameters : Dict F) : Dict F :=
  if (parameters.lookup propertiesKey).isSome then parameters
  else assign propertiesKey (.obj []) parameters

/-- The additional properties are disabled, and all properties required: `none` where the
    properties are not a dictionary. -/
def close (parameters : Dict F) : Option (Dict F) :=
  let parameters := assign additionalPropertiesKey (.bool false) (setDefaultProperties parameters)
  match parameters.lookup propertiesKey with
  | some (.obj properties) =>
    some (assign requiredKey (.arr (properties.map fun m => .str m.1)) parameters)
  | _ => none

def Shape.finish (ms : Dict F) : Shape → Option (Dict F)
  | .object => close ms
  | _ => some ms

mutual

/-- What is done to a schema in a role: `none` where an exception is raised. -/
def amend (role : Role) : Json.Tree F → Option (Json.Tree F)
  | .obj ms =>
    (amendMembers (role.shape ms) ms).bind fun ms' => ((role.shape ms).finish ms').map .obj
  | x => some x

/-- The members of a schema after the recursion into those that have schemas. -/
def amendMembers (shape : Shape) : Dict F → Option (Dict F)
  | [] => some []
  | (k, x) :: ms =>
    (match nesting k with
      | .map => amendEntries (shape.under k) x
      | .schema => amend (shape.under k) x
      | .list => amendVariants (shape.under k) x
      | .data => some x).bind fun x => (amendMembers shape ms).map ((k, x) :: ·)

def amendEntries (role : Role) : Json.Tree F → Option (Json.Tree F)
  | .obj entries => (amendEachEntry role entries).map .obj
  | x => some x

def amendEachEntry (role : Role) : Dict F → Option (Dict F)
  | [] => some []
  | (k, x) :: entries =>
    (amend role x).bind fun x => (amendEachEntry role entries).map ((k, x) :: ·)

def amendVariants (role : Role) : Json.Tree F → Option (Json.Tree F)
  | .arr variants => (amendEachVariant role variants).map .arr
  | x => some x

def amendEachVariant (role : Role) : List (Json.Tree F) → Option (List (Json.Tree F))
  | [] => some []
  | x :: xs => (amend role x).bind fun x => (amendEachVariant role xs).map (x :: ·)

end

/-- An object of its type goes through the recursion, and any other gets properties only. -/
def addAdditionalPropertiesAndRequired (parameters : Dict F) : Option (Dict F) :=
  if isObjectType parameters then
    (amendMembers .object parameters).bind close
  else some (setDefaultProperties parameters)

/-- A tool, with a reference to its parameters. -/
structure Tool where
  name : Str
  description : Str
  parameters : ℕ
  deriving DecidableEq

structure NormalizedTool where
  name : Str
  description : Str
  parameters : ℕ
  deriving DecidableEq

/-- `name.replace(" ", "_")` -/
def normalizeToolName (name : Str) : Str := underscores name

/-- Dictionaries in memory. -/
abbrev Memory (F : Type) := List (Dict F)

/-- `deepcopy(parameters)`: a reference to a new dictionary, that has the same members. -/
def deepcopy (memory : Memory F) (ref : ℕ) : Option (ℕ × Memory F) :=
  memory[ref]?.map fun parameters => (memory.length, memory ++ [parameters])

/-- `add_additional_properties_and_required(parameters)`, in place. -/
def makeStrict (memory : Memory F) (ref : ℕ) : Option (Memory F) :=
  memory[ref]?.bind fun parameters =>
    (addAdditionalPropertiesAndRequired parameters).map fun parameters => memory.set ref parameters

def normalizeTool (ensureOpenaiStrictSchema : Bool) (memory : Memory F) (tool : Tool) :
    Option (NormalizedTool × Memory F) :=
  (deepcopy memory tool.parameters).bind fun (ref, memory) =>
  (if ensureOpenaiStrictSchema then makeStrict memory ref else some memory).map fun memory =>
    ({ name := normalizeToolName tool.name, description := tool.description,
       parameters := ref }, memory)

def normalizeTools (ensureOpenaiStrictSchema : Bool) (memory : Memory F) :
    List Tool → Option (List NormalizedTool × Memory F)
  | [] => some ([], memory)
  | tool :: tools =>
    (normalizeTool ensureOpenaiStrictSchema memory tool).bind fun (normalized, memory) =>
    (normalizeTools ensureOpenaiStrictSchema memory tools).map fun (rest, memory) =>
      (normalized :: rest, memory)

/-! ## What is asked for -/

/-- The properties of a schema, if it has some, are a dictionary. -/
def HasPropertiesMap (ms : Dict F) : Prop :=
  ∀ x, ms.lookup propertiesKey = some x → ∃ properties, x = .obj properties

/-- A schema of objects is strict: without additional properties, and with those required that
    it has. -/
structure Strict (ms : Dict F) : Prop where
  closed : ms.lookup additionalPropertiesKey = some (.bool false)
  required : ∃ (properties : Dict F) (names : List Str),
    ms.lookup propertiesKey = some (.obj properties) ∧
    ms.lookup requiredKey = some (.arr (names.map .str)) ∧
    ∀ name, name ∈ names ↔ name ∈ properties.map Prod.fst

/-- All the schemas of objects that are reached are strict. -/
def StrictThroughout (t : Json.Tree F) : Prop :=
  ∀ ms, Reaches nesting t (.obj ms) → isObjectType ms → Strict ms

def isEmptyObject : Json.Tree F → Bool
  | .obj [] => true
  | _ => false

/-- The member is one that a schema of objects may be given. -/
def added (m : Str × Json.Tree F) : Bool :=
  m.1 = additionalPropertiesKey || m.1 = requiredKey || m.1 = propertiesKey && isEmptyObject m.2

mutual

/-- A schema without what its schemas of objects may be given. -/
def erase : Json.Tree F → Json.Tree F
  | .obj ms =>
    .obj (if isObjectType ms then (eraseMembers ms).filter (!added ·) else eraseMembers ms)
  | x => x

def eraseMembers : Dict F → Dict F
  | [] => []
  | (k, x) :: ms =>
    (k, match nesting k with
      | .map => eraseEntries x
      | .schema => erase x
      | .list => eraseVariants x
      | .data => x) :: eraseMembers ms

def eraseEntries : Json.Tree F → Json.Tree F
  | .obj entries => .obj (eraseEachEntry entries)
  | x => x

def eraseEachEntry : Dict F → Dict F
  | [] => []
  | (k, x) :: entries => (k, erase x) :: eraseEachEntry entries

def eraseVariants : Json.Tree F → Json.Tree F
  | .arr variants => .arr (eraseEachVariant variants)
  | x => x

def eraseEachVariant : List (Json.Tree F) → List (Json.Tree F)
  | [] => []
  | x :: xs => erase x :: eraseEachVariant xs

end

/-- What the schemas of a keyword of a schema in a role are to the code. -/
def Role.under (k : Str) (role : Role) : Json.Tree F → Role
  | .obj ms => (role.shape ms).under k
  | _ => .kept

/-- From a schema in a role the code goes, or does not go, to another that is reached from it. -/
def Comes : Role × Json.Tree F → Role × Json.Tree F → Prop :=
  Relation.ReflTransGen fun a b => ∃ k, Within nesting a.2 k b.2 ∧ b.1 = a.1.under k a.2

/-- The schemas of objects that are reached are those that the code comes to, unless they are
    strict, and have their properties in a dictionary. -/
def Handled (parameters : Dict F) : Prop :=
  ∀ role ms, Comes (.parameters, .obj parameters) (role, .obj ms) → isObjectType ms →
    role ≠ .kept ∧ HasPropertiesMap ms ∨ Strict ms

/-! ## One schema -/

variable {role : Role} {shape : Shape} {ms ms' : Dict F} {t t' x y s : Json.Tree F} {k : Str}

/-- What a schema is amended to in a role. -/
abbrev Amends (role : Role) (x y : Json.Tree F) : Prop := amend role x = some y

theorem amendEachEntry_eq_some : amendEachEntry role ms = some ms' ↔
    List.Forall₂ (fun m m' => m.1 = m'.1 ∧ Amends role m.2 m'.2) ms ms' := by
  induction ms generalizing ms' with
  | nil => simp [amendEachEntry, eq_comm]
  | cons m ms ih =>
    obtain ⟨k, x⟩ := m
    rw [amendEachEntry, Option.bind_eq_some_iff]
    constructor
    · rintro ⟨y, hy, h⟩
      obtain ⟨ns, hns, rfl⟩ := Option.map_eq_some_iff.1 h
      exact .cons ⟨rfl, hy⟩ (ih.1 hns)
    · rintro (_ | @⟨_, ⟨_, y⟩, _, ns, ⟨rfl, hy⟩, hns⟩)
      exact ⟨y, hy, Option.map_eq_some_iff.2 ⟨ns, ih.2 hns, rfl⟩⟩

theorem amendEachVariant_eq_some {xs ys : List (Json.Tree F)} :
    amendEachVariant role xs = some ys ↔ List.Forall₂ (Amends role) xs ys := by
  induction xs generalizing ys with
  | nil => simp [amendEachVariant, eq_comm]
  | cons x xs ih =>
    rw [amendEachVariant, Option.bind_eq_some_iff]
    constructor
    · rintro ⟨y, hy, h⟩
      obtain ⟨zs, hzs, rfl⟩ := Option.map_eq_some_iff.1 h
      exact .cons hy (ih.1 hzs)
    · rintro (_ | @⟨_, y, _, zs, hy, hzs⟩)
      exact ⟨y, hy, Option.map_eq_some_iff.2 ⟨zs, ih.2 hzs, rfl⟩⟩

theorem amendEntries_eq_some :
    amendEntries role x = some y ↔ Nesting.map.Lift (Amends role) x y := by
  constructor
  · intro h
    cases x with
    | obj entries =>
      obtain ⟨ns, hns, rfl⟩ := Option.map_eq_some_iff.1 h
      exact .map (amendEachEntry_eq_some.1 hns)
    | _ =>
      cases h
      exact .kept fun s hs => by cases hs
  · intro h
    cases h with
    | map h => exact Option.map_eq_some_iff.2 ⟨_, amendEachEntry_eq_some.2 h, rfl⟩
    | kept h =>
      cases x with
      | obj entries =>
        rw [List.eq_nil_iff_forall_not_mem.2 fun m hm => h m.2 (.map hm)]
        rfl
      | _ => rfl

theorem amendVariants_eq_some :
    amendVariants role x = some y ↔ Nesting.list.Lift (Amends role) x y := by
  constructor
  · intro h
    cases x with
    | arr xs =>
      obtain ⟨ys, hys, rfl⟩ := Option.map_eq_some_iff.1 h
      exact .list (amendEachVariant_eq_some.1 hys)
    | _ =>
      cases h
      exact .kept fun s hs => by cases hs
  · intro h
    cases h with
    | list h => exact Option.map_eq_some_iff.2 ⟨_, amendEachVariant_eq_some.2 h, rfl⟩
    | kept h =>
      cases x with
      | arr xs =>
        rw [List.eq_nil_iff_forall_not_mem.2 fun x hx => h x (.list hx)]
        rfl
      | _ => rfl

/-- The members of a schema are amended each by itself, as the keyword tells. -/
abbrev Member (shape : Shape) (m m' : Str × Json.Tree F) : Prop :=
  m.1 = m'.1 ∧ (nesting m.1).Lift (Amends (shape.under m.1)) m.2 m'.2

theorem amendMembers_eq_some :
    amendMembers shape ms = some ms' ↔ List.Forall₂ (Member shape) ms ms' := by
  have hvalue (k : Str) (x y : Json.Tree F) : (match nesting k with
      | .map => amendEntries (shape.under k) x
      | .schema => amend (shape.under k) x
      | .list => amendVariants (shape.under k) x
      | .data => some x) = some y ↔ (nesting k).Lift (Amends (shape.under k)) x y := by
    cases nesting k with
    | map => exact amendEntries_eq_some
    | schema =>
      refine ⟨fun h => .schema h, fun h => ?_⟩
      cases h with
      | schema h => exact h
      | kept h => exact absurd (.schema x) (h x)
    | list => exact amendVariants_eq_some
    | data =>
      refine ⟨fun h => ?_, fun h => ?_⟩
      · cases h
        exact .kept fun s hs => by cases hs
      · cases h with
        | kept => rfl
  induction ms generalizing ms' with
  | nil => simp [amendMembers, eq_comm]
  | cons m ms ih =>
    obtain ⟨k, x⟩ := m
    rw [amendMembers, Option.bind_eq_some_iff]
    simp only [hvalue]
    constructor
    · rintro ⟨y, hy, h⟩
      obtain ⟨ns, hns, rfl⟩ := Option.map_eq_some_iff.1 h
      exact .cons ⟨rfl, hy⟩ (ih.1 hns)
    · rintro (_ | @⟨_, ⟨_, y⟩, _, ns, ⟨rfl, hy⟩, hns⟩)
      exact ⟨y, hy, Option.map_eq_some_iff.2 ⟨ns, ih.2 hns, rfl⟩⟩

theorem amend_obj : amend role (.obj ms) = some y ↔ ∃ ms₁ ms', y = .obj ms' ∧
    List.Forall₂ (Member (role.shape ms)) ms ms₁ ∧ (role.shape ms).finish ms₁ = some ms' := by
  rw [amend, Option.bind_eq_some_iff]
  constructor
  · rintro ⟨ms₁, hms, h⟩
    obtain ⟨ms', hms', rfl⟩ := Option.map_eq_some_iff.1 h
    exact ⟨ms₁, ms', rfl, amendMembers_eq_some.1 hms, hms'⟩
  · rintro ⟨ms₁, ms', rfl, hms, hms'⟩
    exact ⟨ms₁, amendMembers_eq_some.2 hms, Option.map_eq_some_iff.2 ⟨ms', hms', rfl⟩⟩

theorem exists_obj_of_amend (h : amend role t = some (.obj ms')) : ∃ ms, t = .obj ms := by
  cases t with
  | obj ms => exact ⟨ms, rfl⟩
  | _ => cases h

theorem lookup_of_data (h : List.Forall₂ (Member shape) ms ms') (hk : nesting k = .data) :
    ms'.lookup k = ms.lookup k := by
  have hrel := JsonSchema.lookup_of_forall₂ (P := fun k => (nesting k).Lift (Amends (shape.under k))) h k
  rw [hk] at hrel
  generalize ms.lookup k = a, ms'.lookup k = b at hrel
  cases hrel with
  | some hlift =>
    cases hlift with
    | kept => rfl
  | none => rfl

/-- Properties are in a dictionary as they were. -/
theorem hasPropertiesMap_of_forall₂ (h : List.Forall₂ (Member shape) ms ms') :
    HasPropertiesMap ms' ↔ HasPropertiesMap ms := by
  have hrel := JsonSchema.lookup_of_forall₂ (P := fun k => (nesting k).Lift (Amends (shape.under k)))
    h propertiesKey
  rw [show nesting propertiesKey = .map by decide] at hrel
  unfold HasPropertiesMap
  generalize ms.lookup propertiesKey = a, ms'.lookup propertiesKey = b at hrel
  cases hrel with
  | some hlift =>
    cases hlift with
    | map => exact ⟨fun _ x hx => ⟨_, (Option.some.inj hx).symm⟩,
        fun _ x hx => ⟨_, (Option.some.inj hx).symm⟩⟩
    | kept => exact Iff.rfl
  | none => exact Iff.rfl

theorem setDefaultProperties_of_lookup (h : ms.lookup propertiesKey = some x) :
    setDefaultProperties ms = ms := by
  rw [setDefaultProperties, h, Option.isSome_some, if_pos rfl]

theorem lookup_setDefaultProperties (hk : k ≠ propertiesKey) :
    (setDefaultProperties ms).lookup k = ms.lookup k := by
  unfold setDefaultProperties
  split_ifs
  · rfl
  · rw [lookup_assign, if_neg hk.symm]

theorem properties_setDefaultProperties : (setDefaultProperties ms).lookup propertiesKey =
    some ((ms.lookup propertiesKey).getD (.obj [])) := by
  unfold setDefaultProperties
  split_ifs with h
  · obtain ⟨x, hx⟩ := Option.isSome_iff_exists.1 h
    rw [hx, Option.getD_some]
  · rw [lookup_assign, if_pos rfl, Option.not_isSome_iff_eq_none.1 h, Option.getD_none]

theorem filter_setDefaultProperties :
    (setDefaultProperties ms).filter (!added ·) = ms.filter (!added ·) := by
  unfold setDefaultProperties
  split_ifs with h
  · rfl
  · refine filter_assign rfl fun m hm hk => absurd hm ?_
    have hnone := lookup_eq_none.1 (Option.not_isSome_iff_eq_none.1 h)
    exact fun hm => hnone (hk ▸ List.mem_map_of_mem hm)

/-- What closing a schema does, and when it can be done. -/
theorem close_eq_some : close ms = some ms' ↔ ∃ properties,
    (ms.lookup propertiesKey).getD (.obj []) = .obj properties ∧
    ms' = assign requiredKey (.arr (properties.map fun m => .str m.1))
      (assign additionalPropertiesKey (.bool false) (setDefaultProperties ms)) := by
  have hlookup : (assign additionalPropertiesKey (.bool false) (setDefaultProperties ms)).lookup
      propertiesKey = some ((ms.lookup propertiesKey).getD (.obj [])) := by
    rw [lookup_assign, if_neg (by decide), properties_setDefaultProperties]
  rw [close]
  simp only [hlookup]
  generalize (ms.lookup propertiesKey).getD (.obj []) = x
  cases x with
  | obj properties => simp [eq_comm]
  | _ => simp

theorem exists_close_iff : (∃ ms', close ms = some ms') ↔ HasPropertiesMap ms := by
  simp only [close_eq_some, HasPropertiesMap]
  cases ms.lookup propertiesKey with
  | none => simp
  | some x => simp

theorem lookup_close (h : close ms = some ms')
    (hk : k ∉ [additionalPropertiesKey, requiredKey, propertiesKey]) :
    ms'.lookup k = ms.lookup k := by
  obtain ⟨properties, -, rfl⟩ := close_eq_some.1 h
  simp only [List.mem_cons, List.not_mem_nil, or_false, not_or] at hk
  rw [lookup_assign, if_neg (Ne.symm hk.2.1), lookup_assign, if_neg (Ne.symm hk.1),
    lookup_setDefaultProperties hk.2.2]

theorem strict_close (h : close ms = some ms') : Strict ms' := by
  obtain ⟨properties, hproperties, rfl⟩ := close_eq_some.1 h
  refine ⟨?_, properties, properties.map Prod.fst, ?_, ?_, fun _ => Iff.rfl⟩
  · rw [lookup_assign, if_neg (by decide), lookup_assign, if_pos rfl]
  · rw [lookup_assign, if_neg (by decide), lookup_assign, if_neg (by decide),
      properties_setDefaultProperties, hproperties]
  · rw [lookup_assign, if_pos rfl, List.map_map]
    rfl

/-- A schema that has been closed stays as it is. -/
theorem close_close (h : close ms = some ms') : close ms' = some ms' := by
  obtain ⟨properties, hproperties, rfl⟩ := close_eq_some.1 h
  set required : Json.Tree F := .arr (properties.map fun m => .str m.1)
  set closed := assign additionalPropertiesKey (.bool false) (setDefaultProperties ms)
  have hlookup : (assign requiredKey required closed).lookup propertiesKey =
      some (.obj properties) := by
    rw [lookup_assign, if_neg (by decide), lookup_assign, if_neg (by decide),
      properties_setDefaultProperties, hproperties]
  have hclosed : (assign requiredKey required closed).lookup additionalPropertiesKey =
      some (.bool false) := by
    rw [lookup_assign, if_neg (by decide), lookup_assign, if_pos rfl]
  have hrequired : (assign requiredKey required closed).lookup requiredKey = some required := by
    rw [lookup_assign, if_pos rfl]
  refine close_eq_some.2 ⟨properties, by rw [hlookup, Option.getD_some], ?_⟩
  rw [setDefaultProperties_of_lookup hlookup, assign_of_lookup hclosed,
    assign_of_lookup hrequired]

theorem filter_close (h : close ms = some ms') :
    ms'.filter (!added ·) = ms.filter (!added ·) := by
  obtain ⟨properties, -, rfl⟩ := close_eq_some.1 h
  have hadded {m : Str × Json.Tree F} (hk : m.1 = additionalPropertiesKey ∨ m.1 = requiredKey) :
      (!added m) = false := by
    rcases hk with hk | hk <;> simp [added, hk]
  rw [filter_assign (hadded (.inr rfl)) fun m _ hk => hadded (.inr hk),
    filter_assign (hadded (.inl rfl)) fun m _ hk => hadded (.inl hk),
    filter_setDefaultProperties]

theorem shape_eq_object : role.shape ms = .object ↔ isObjectType ms ∧ role ≠ .kept := by
  cases role with
  | kept => simp [Role.shape]
  | _ =>
    rw [Role.shape]
    split_ifs <;> simp_all

theorem finish_of_ne (h : shape ≠ .object) : shape.finish ms = some ms := by
  cases shape with
  | object => exact absurd rfl h
  | _ => rfl

theorem filter_finish (h : shape.finish ms = some ms') :
    ms'.filter (!added ·) = ms.filter (!added ·) := by
  cases shape with
  | object => exact filter_close h
  | _ =>
    cases h
    rfl

theorem isObjectType_finish (h : shape.finish ms = some ms') :
    isObjectType ms' = isObjectType ms := by
  cases shape with
  | object => rw [isObjectType, isObjectType, lookup_close h (by decide)]
  | _ =>
    cases h
    rfl

/-- A schema is of the type of objects as it was. -/
theorem isObjectType_of_amend (h : amend role (.obj ms) = some (.obj ms')) :
    isObjectType ms' = isObjectType ms := by
  obtain ⟨ms₁, ms', heq, hmembers, hfinish⟩ := amend_obj.1 h
  cases heq
  rw [isObjectType_finish hfinish, isObjectType, isObjectType,
    lookup_of_data hmembers (by decide)]

/-! ## The schemas of the result -/

/-- A member that may be added has no schemas. -/
theorem not_has_of_added {m : Str × Json.Tree F} (h : added m) : ¬(nesting m.1).Has m.2 s := by
  obtain ⟨k, x⟩ := m
  simp only [added, Bool.or_eq_true, Bool.and_eq_true, decide_eq_true_eq] at h
  rcases h with (rfl | rfl) | ⟨rfl, h⟩
  · rintro (_ | _)
  · rintro (_ | _)
  · intro hs
    rw [show nesting propertiesKey = .map by decide] at hs
    cases hs with
    | map hm =>
      cases hm <;> cases h

theorem within_congr (h : ms'.filter (!added ·) = ms.filter (!added ·)) :
    Within nesting (.obj ms') k s ↔ Within nesting (.obj ms) k s := by
  have hfilter (ms : Dict F) : Within nesting (.obj ms) k s ↔
      Within nesting (.obj (ms.filter (!added ·))) k s := by
    constructor
    · rintro ⟨hx, hs⟩
      have hadded := fun hadded => not_has_of_added (m := (k, _)) hadded hs
      exact ⟨List.mem_filter.2 ⟨hx, by simpa using hadded⟩, hs⟩
    · rintro ⟨hx, hs⟩
      exact ⟨List.mem_of_mem_filter hx, hs⟩
  rw [hfilter, h, ← hfilter]

/-- The schemas within what a schema is amended to are what those within it are amended to. -/
theorem within_amend (h : amend role t = some t') (hs : Within nesting t' k s) :
    ∃ s₀, Within nesting t k s₀ ∧ amend (role.under k t) s₀ = some s := by
  cases t with
  | obj ms =>
    obtain ⟨ms₁, ms', rfl, hmembers, hfinish⟩ := amend_obj.1 h
    obtain ⟨hx, hs⟩ := (within_congr (filter_finish hfinish)).1 hs
    obtain ⟨⟨l, x⟩, hm, hl, hlift⟩ := JsonSchema.exists_of_mem_forall₂ hmembers hx
    obtain rfl : l = k := hl
    obtain ⟨s₀, hs₀, hamend⟩ := hlift.exists_left hs
    exact ⟨s₀, ⟨hm, hs₀⟩, hamend⟩
  | _ =>
    cases h
    cases hs

theorem within_of_amend (h : amend role t = some t') (hs : Within nesting t k s) :
    ∃ s', Within nesting t' k s' ∧ amend (role.under k t) s = some s' := by
  cases hs with
  | intro hx hs =>
    obtain ⟨ms₁, ms', rfl, hmembers, hfinish⟩ := amend_obj.1 h
    obtain ⟨⟨l, y⟩, hm, hl, hlift⟩ := JsonSchema.exists_of_mem_forall₂ hmembers.flip hx
    obtain rfl : k = l := hl
    obtain ⟨s', hs', hamend⟩ := hlift.exists_right hs
    exact ⟨s', (within_congr (filter_finish hfinish)).2 ⟨hm, hs'⟩, hamend⟩

/-- The schemas that are reached from the result are what the code has made of those that are
    reached from what it was given, each in the role in which it comes to it. -/
theorem reaches_amend (h : amend role t = some t') (hs : Reaches nesting t' s) :
    ∃ role' s₀, Comes (role, t) (role', s₀) ∧ amend role' s₀ = some s := by
  induction hs with
  | refl => exact ⟨role, t, .refl, h⟩
  | tail _ hstep ih =>
    obtain ⟨role', s₀, hcomes, hamend⟩ := ih
    obtain ⟨k, hk⟩ := hstep
    obtain ⟨s₁, hs₁, hamend⟩ := within_amend hamend hk
    exact ⟨_, s₁, hcomes.tail ⟨k, hs₁, rfl⟩, hamend⟩

theorem reaches_of_comes {b : Role × Json.Tree F} (h : amend role t = some t')
    (hs : Comes (role, t) b) : ∃ s', Reaches nesting t' s' ∧ amend b.1 b.2 = some s' := by
  induction hs with
  | refl => exact ⟨t', .refl, h⟩
  | tail _ hstep ih =>
    obtain ⟨c, hc, hamend⟩ := ih
    obtain ⟨k, hk, hrole⟩ := hstep
    obtain ⟨s', hs', hamend⟩ := within_of_amend hamend hk
    exact ⟨s', hc.tail ⟨k, hs'⟩, hrole ▸ hamend⟩

/-- What the code does not come to is kept. -/
theorem amend_kept (t : Json.Tree F) : amend .kept t = some t := by
  induction t using Within.induction nesting with
  | h t ih =>
    cases t with
    | obj ms =>
      refine amend_obj.2 ⟨ms, ms, rfl, List.forall₂_same.2 fun m hm => ⟨rfl, .refl fun s hs => ?_⟩,
        rfl⟩
      exact ih m.1 s ⟨hm, hs⟩
    | _ => rfl

/-- A schema can be amended if the schemas of objects that the code comes to have their
    properties in a dictionary. -/
theorem exists_amend (h : ∀ role' ms, Comes (role, t) (role', .obj ms) → isObjectType ms →
    role' ≠ .kept → HasPropertiesMap ms) : ∃ t', amend role t = some t' := by
  induction t using Within.induction nesting generalizing role with
  | h t ih =>
    cases t with
    | obj ms =>
      have hmember (m : Str × Json.Tree F) (hm : m ∈ ms) :
          ∃ m', Member (role.shape ms) m m' := by
        obtain ⟨y, hy⟩ := Nesting.Lift.exists_of_has (n := nesting m.1) (x := m.2)
          (R := Amends ((role.shape ms).under m.1)) fun s hs => ih m.1 s ⟨hm, hs⟩
            fun role' ms' hcomes => h role' ms' (.head ⟨m.1, ⟨hm, hs⟩, rfl⟩ hcomes)
        exact ⟨(m.1, y), rfl, hy⟩
      choose! f hf using hmember
      have hmembers : List.Forall₂ (Member (role.shape ms)) ms (ms.map f) :=
        List.forall₂_map_right_iff.2 (List.forall₂_same.2 hf)
      obtain ⟨ms', hms'⟩ : ∃ ms', (role.shape ms).finish (ms.map f) = some ms' := by
        by_cases hshape : role.shape ms = .object
        · obtain ⟨htype, hrole⟩ := shape_eq_object.1 hshape
          rw [hshape]
          exact exists_close_iff.2
            ((hasPropertiesMap_of_forall₂ hmembers).2 (h role ms .refl htype hrole))
        · exact ⟨_, finish_of_ne hshape⟩
      exact ⟨.obj ms', amend_obj.2 ⟨_, _, rfl, hmembers, hms'⟩⟩
    | _ => exact ⟨_, rfl⟩

theorem isArrayOfObjects_of_forall₂ (h : List.Forall₂ (Member shape) ms ms') :
    isArrayOfObjects ms' = isArrayOfObjects ms := by
  have hrel := JsonSchema.lookup_of_forall₂ (P := fun k => (nesting k).Lift (Amends (shape.under k)))
    h itemsKey
  rw [show nesting itemsKey = .schema by decide] at hrel
  unfold isArrayOfObjects
  rw [lookup_of_data h (by decide : nesting typeKey = .data)]
  generalize ms.lookup itemsKey = a, ms'.lookup itemsKey = b at hrel
  cases hrel with
  | none => rfl
  | @some x y hlift =>
    cases hlift with
    | kept => rfl
    | schema hamend =>
      cases x with
      | obj items =>
        obtain ⟨_, items', rfl, -⟩ := amend_obj.1 hamend
        cases ms.lookup typeKey with
        | none => rfl
        | some type => simp only [isObjectType_of_amend hamend]
      | _ =>
        cases hamend
        rfl

theorem shape_of_amend (h : amend role (.obj ms) = some (.obj ms')) :
    role.shape ms' = role.shape ms := by
  have htype := isObjectType_of_amend h
  obtain ⟨ms₁, _, heq, hmembers, hfinish⟩ := amend_obj.1 h
  cases heq
  by_cases hshape : role.shape ms = .object
  · rw [hshape]
    obtain ⟨hobject, hrole⟩ := shape_eq_object.1 hshape
    exact shape_eq_object.2 ⟨htype.trans hobject, hrole⟩
  · rw [finish_of_ne hshape] at hfinish
    cases hfinish
    unfold Role.shape
    rw [htype, isArrayOfObjects_of_forall₂ hmembers]

/-- What has been amended in a role is not changed by it. -/
theorem amend_amend (h : amend role t = some t') : amend role t' = some t' := by
  induction t using Within.induction nesting generalizing role t' with
  | h t ih =>
    cases t with
    | obj ms =>
      obtain ⟨ms₁, ms', rfl, -, hfinish⟩ := amend_obj.1 h
      have hshape := shape_of_amend h
      refine amend_obj.2 ⟨ms', ms', rfl, List.forall₂_same.2 fun m hm =>
        ⟨rfl, .refl fun s hs => ?_⟩, ?_⟩
      · -- a schema within is what one has been amended to
        obtain ⟨s₀, hs₀, hamend⟩ := within_amend h ⟨hm, hs⟩
        rw [hshape]
        exact ih m.1 s₀ hs₀ hamend
      · rw [hshape]
        cases hcase : role.shape ms with
        | object =>
          rw [hcase] at hfinish
          exact close_close hfinish
        | _ => rfl
    | _ =>
      cases h
      rfl

/-! ## What does not change -/

theorem eraseEachEntry_eq_map (entries : Dict F) :
    eraseEachEntry entries = entries.map fun m => (m.1, erase m.2) := by
  induction entries with
  | nil => rfl
  | cons m entries ih => rw [eraseEachEntry, ih, List.map_cons]

theorem eraseEachVariant_eq_map (variants : List (Json.Tree F)) :
    eraseEachVariant variants = variants.map erase := by
  induction variants with
  | nil => rfl
  | cons x xs ih => rw [eraseEachVariant, ih, List.map_cons]

theorem eraseMembers_eq_map (ms : Dict F) :
    eraseMembers ms = ms.map fun m => (m.1, (nesting m.1).mapSchemas erase m.2) := by
  induction ms with
  | nil => rfl
  | cons m ms ih =>
    obtain ⟨k, x⟩ := m
    rw [eraseMembers, ih, List.map_cons]
    congr 2
    cases nesting k with
    | map =>
      cases x with
      | obj entries => exact congrArg Json.Tree.obj (eraseEachEntry_eq_map entries)
      | _ => rfl
    | list =>
      cases x with
      | arr variants => exact congrArg Json.Tree.arr (eraseEachVariant_eq_map variants)
      | _ => rfl
    | _ => rfl

/-- A member may be added as much as it may with what is in it. -/
theorem added_erased (m : Str × Json.Tree F) :
    added (m.1, (nesting m.1).mapSchemas erase m.2) = added m := by
  obtain ⟨k, x⟩ := m
  simp only [added]
  by_cases hk : k = propertiesKey
  · rw [hk, show nesting propertiesKey = .map by decide]
    congr 2
    cases x with
    | obj entries => cases entries <;> rfl
    | _ => rfl
  · rw [decide_eq_false hk, Bool.false_and, Bool.false_and]

theorem filter_eraseMembers (ms : Dict F) : (eraseMembers ms).filter (!added ·) =
    eraseMembers (ms.filter (!added ·)) := by
  rw [eraseMembers_eq_map, eraseMembers_eq_map, List.filter_map]
  congr 2
  funext m
  exact congrArg not (added_erased m)

/-- An amended schema is the one that it was, but for what is added to schemas of objects. -/
theorem erase_amend (h : amend role t = some t') : erase t' = erase t := by
  induction t using Within.induction nesting generalizing role t' with
  | h t ih =>
    cases t with
    | obj ms =>
      have hobj := h
      obtain ⟨ms₁, ms', rfl, hmembers, hfinish⟩ := amend_obj.1 h
      have hsame : eraseMembers ms₁ = eraseMembers ms := by
        replace ih (m : Str × Json.Tree F) (hm : m ∈ ms) (y : Json.Tree F)
            (hy : (nesting m.1).Lift (Amends ((role.shape ms).under m.1)) m.2 y) :
            (nesting m.1).mapSchemas erase y = (nesting m.1).mapSchemas erase m.2 :=
          hy.mapSchemas_eq fun s s' hs hamend => ih m.1 s ⟨hm, hs⟩ hamend
        rw [eraseMembers_eq_map, eraseMembers_eq_map]
        clear h hobj hfinish
        generalize role.shape ms = shape at hmembers ih
        induction hmembers with
        | nil => rfl
        | @cons m m' _ _ hm _ ih' =>
          rw [List.map_cons, List.map_cons, ← hm.1, ih m List.mem_cons_self _ hm.2,
            ih' fun m hm => ih m (List.mem_cons_of_mem _ hm)]
      rw [erase, erase, isObjectType_of_amend hobj]
      split_ifs with htype
      · rw [filter_eraseMembers, filter_finish hfinish, ← filter_eraseMembers, hsame]
      · rw [finish_of_ne fun hshape => htype (shape_eq_object.1 hshape).1] at hfinish
        cases hfinish
        rw [hsame]
    | _ =>
      cases h
      rfl

/-! ## The parameters of a tool -/

theorem addAdditionalPropertiesAndRequired_of_object {parameters normalized : Dict F}
    (h : isObjectType parameters) :
    addAdditionalPropertiesAndRequired parameters = some normalized ↔
      amend .parameters (.obj parameters) = some (.obj normalized) := by
  rw [addAdditionalPropertiesAndRequired, if_pos h, amend,
    show Role.parameters.shape parameters = .object from if_pos h]
  simp only [Option.bind_eq_some_iff, Option.map_eq_some_iff, Json.Tree.obj.injEq,
    exists_eq_right]
  rfl

/-- What the parameters are normalized to is not changed by it. -/
theorem addAdditionalPropertiesAndRequired_self {parameters normalized : Dict F}
    (h : addAdditionalPropertiesAndRequired parameters = some normalized) :
    addAdditionalPropertiesAndRequired normalized = some normalized := by
  by_cases htype : isObjectType parameters
  · have hamend := (addAdditionalPropertiesAndRequired_of_object htype).1 h
    exact (addAdditionalPropertiesAndRequired_of_object
      ((isObjectType_of_amend hamend).trans htype)).2 (amend_amend hamend)
  · rw [addAdditionalPropertiesAndRequired, if_neg htype, Option.some.injEq] at h
    subst h
    rw [addAdditionalPropertiesAndRequired, isObjectType, lookup_setDefaultProperties (by decide),
      ← isObjectType, if_neg htype, setDefaultProperties_of_lookup properties_setDefaultProperties]

/-- The parameters become strict throughout if and only if the code handles them. -/
theorem strictThroughout_iff {parameters : Dict F} (htype : isObjectType parameters) :
    (∃ normalized, addAdditionalPropertiesAndRequired parameters = some normalized ∧
      StrictThroughout (.obj normalized)) ↔ Handled parameters := by
  constructor
  · rintro ⟨normalized, h, hstrict⟩ role ms hcomes hobject
    obtain ⟨s', hs', hamend⟩ :=
      reaches_of_comes ((addAdditionalPropertiesAndRequired_of_object htype).1 h) hcomes
    obtain ⟨ms₁, ms', rfl, hmembers, hfinish⟩ := amend_obj.1 hamend
    have hms' := hstrict ms' hs' ((isObjectType_of_amend hamend).trans hobject)
    by_cases hrole : role = .kept
    · rw [hrole] at hamend
      cases (amend_kept _).symm.trans hamend
      exact .inr hms'
    · rw [shape_eq_object.2 ⟨hobject, hrole⟩] at hmembers hfinish
      exact .inl ⟨hrole, (hasPropertiesMap_of_forall₂ hmembers).1 (exists_close_iff.1 ⟨_, hfinish⟩)⟩
  · intro hhandled
    obtain ⟨t', h⟩ : ∃ t', amend .parameters (.obj parameters) = some t' :=
      exists_amend fun role ms hcomes hobject _ => by
        rcases hhandled role ms hcomes hobject with ⟨-, hproperties⟩ | hstrict
        · exact hproperties
        · obtain ⟨properties, _, hproperties, -⟩ := hstrict.required
          exact fun x hx => ⟨properties, Option.some.inj (hx.symm.trans hproperties)⟩
    obtain ⟨_, normalized, rfl, -⟩ := amend_obj.1 h
    refine ⟨normalized, (addAdditionalPropertiesAndRequired_of_object htype).2 h, ?_⟩
    intro ms' hreaches hobject
    obtain ⟨role, s₀, hcomes, hamend⟩ := reaches_amend h hreaches
    obtain ⟨ms, rfl⟩ := exists_obj_of_amend hamend
    rw [isObjectType_of_amend hamend] at hobject
    by_cases hrole : role = .kept
    · rw [hrole, amend_kept] at hamend
      cases hamend
      exact (hhandled role _ hcomes hobject).resolve_left fun h => h.1 hrole
    · obtain ⟨_, _, heq, -, hfinish⟩ := amend_obj.1 hamend
      cases heq
      rw [shape_eq_object.2 ⟨hobject, hrole⟩] at hfinish
      exact strict_close hfinish

/-! ## The tools of a request -/

def NormalizedTool.toTool (t : NormalizedTool) : Tool where
  name := t.name
  description := t.description
  parameters := t.parameters

/-- Tools, with the memory that their parameters are in. -/
structure ToolList (F : Type) where
  memory : Memory F
  tools : List Tool
  valid : ∀ tool ∈ tools, tool.parameters < memory.length

/-- A tool as it should be normalized, by what is in memory before and after. -/
structure NormalizesTool (memory memory' : Memory F) (tool : Tool) (result : NormalizedTool) :
    Prop where
  name : result.name = normalizeToolName tool.name
  description : result.description = tool.description
  strict : ∀ parameters, memory[tool.parameters]? = some parameters → isObjectType parameters →
    ∃ normalized, memory'[result.parameters]? = some normalized ∧
      StrictThroughout (.obj normalized) ∧ erase (.obj normalized) = erase (.obj parameters)

/-- What a normalized tool is, its parameters read from memory. -/
def NormalizedTool.read (memory : Memory F) (t : NormalizedTool) : Str × Str × Option (Dict F) :=
  (t.name, t.description, memory[t.parameters]?)

/-- Tools as they should be normalized: each of them, with what was in memory left as it was, and
    to what is normalized to the same again. -/
structure NormalizesTools (l : ToolList F) (result : List NormalizedTool × Memory F) : Prop where
  unmodified : l.memory <+: result.2
  tools : List.Forall₂ (NormalizesTool l.memory result.2) l.tools result.1
  again : ∃ again, normalizeTools true result.2 (result.1.map NormalizedTool.toTool) = some again ∧
    again.1.map (NormalizedTool.read again.2) = result.1.map (NormalizedTool.read result.2)

/-- What a tool is normalized to. -/
structure Normalized (memory memory' : Memory F) (tool : Tool) (result : NormalizedTool) :
    Prop where
  name : result.name = normalizeToolName tool.name
  description : result.description = tool.description
  parameters : ∃ parameters normalized, memory[tool.parameters]? = some parameters ∧
    addAdditionalPropertiesAndRequired parameters = some normalized ∧
    memory'[result.parameters]? = some normalized

section

variable {memory memory' : Memory F} {tool : Tool} {tools : List Tool}
  {results : List NormalizedTool}

/-- A tool is normalized in a copy of its parameters, at the end of the memory. -/
theorem normalizeTool_eq_some {result : NormalizedTool} :
    normalizeTool true memory tool = some (result, memory') ↔ ∃ parameters normalized,
      memory[tool.parameters]? = some parameters ∧
      addAdditionalPropertiesAndRequired parameters = some normalized ∧
      result = ⟨normalizeToolName tool.name, tool.description, memory.length⟩ ∧
      memory' = memory ++ [normalized] := by
  simp only [normalizeTool, deepcopy, makeStrict, if_true]
  cases memory[tool.parameters]? with
  | none => simp
  | some parameters =>
    simp only [Option.map_some, Option.bind_some, List.getElem?_concat_length, Option.map_map,
      Option.map_eq_some_iff, Function.comp_apply, Prod.mk.injEq, Option.some.injEq,
      List.set_append_right _ _ (Nat.le_refl _), Nat.sub_self, List.set_cons_zero]
    constructor
    · rintro ⟨normalized, h, hresult, hmemory⟩
      exact ⟨parameters, normalized, rfl, h, hresult.symm, hmemory.symm⟩
    · rintro ⟨_, normalized, rfl, h, hresult, hmemory⟩
      exact ⟨normalized, h, hresult.symm, hmemory.symm⟩

theorem getElem?_of_isPrefix {i : ℕ} {ms : Dict F} (h : memory <+: memory')
    (hi : memory[i]? = some ms) : memory'[i]? = some ms := by
  obtain ⟨new, rfl⟩ := h
  rw [List.getElem?_append_left (List.getElem?_eq_some_iff.1 hi).1, hi]

/-- Normalization adds to the memory, and each tool is normalized by itself. -/
theorem normalizeTools_spec (hvalid : ∀ tool ∈ tools, tool.parameters < memory.length)
    (h : normalizeTools true memory tools = some (results, memory')) :
    memory <+: memory' ∧ List.Forall₂ (Normalized memory memory') tools results := by
  induction tools generalizing memory results with
  | nil =>
    cases h
    exact ⟨List.prefix_rfl, .nil⟩
  | cons tool tools ih =>
    obtain ⟨⟨result, memory₁⟩, hone, h⟩ := Option.bind_eq_some_iff.1 h
    obtain ⟨⟨rest, _⟩, hrest, h⟩ := Option.map_eq_some_iff.1 h
    cases h
    obtain ⟨parameters, normalized, hparameters, hnormalized, rfl, rfl⟩ :=
      normalizeTool_eq_some.1 hone
    obtain ⟨-, hvalid⟩ := List.forall_mem_cons.1 hvalid
    obtain ⟨hinit, hall⟩ := ih (fun tool htool => by
      rw [List.length_append]
      exact Nat.lt_add_right _ (hvalid tool htool)) hrest
    refine ⟨(List.prefix_append _ _).trans hinit, .cons ⟨rfl, rfl, parameters, normalized,
      hparameters, hnormalized, getElem?_of_isPrefix hinit List.getElem?_concat_length⟩ ?_⟩
    -- the other tools have been normalized with the copy in memory, which they do not refer to
    refine List.Forall₂.imp (fun tool _ h => ⟨h.2.name, h.2.description, ?_⟩)
      ((List.forall₂_and_left tools rest).2 ⟨hvalid, hall⟩)
    obtain ⟨htool, hname, hdescription, parameters, normalized, hparameters, hrest⟩ := h
    rw [List.getElem?_append_left htool] at hparameters
    exact ⟨parameters, normalized, hparameters, hrest⟩

theorem exists_normalizeTools (h : ∀ tool ∈ tools, ∃ parameters normalized,
    memory[tool.parameters]? = some parameters ∧
      addAdditionalPropertiesAndRequired parameters = some normalized) :
    ∃ result, normalizeTools true memory tools = some result := by
  induction tools generalizing memory with
  | nil => exact ⟨_, rfl⟩
  | cons tool tools ih =>
    obtain ⟨⟨parameters, normalized, hparameters, hnormalized⟩, htools⟩ :=
      List.forall_mem_cons.1 h
    have hone := normalizeTool_eq_some.2 ⟨parameters, normalized, hparameters, hnormalized,
      rfl, rfl⟩
    obtain ⟨rest, hrest⟩ : ∃ rest, normalizeTools true (memory ++ [normalized]) tools =
        some rest := ih fun tool htool => by
      obtain ⟨parameters, normalized, hparameters, hnormalized⟩ := htools tool htool
      exact ⟨parameters, normalized, getElem?_of_isPrefix (List.prefix_append _ _) hparameters,
        hnormalized⟩
    exact ⟨_, Option.bind_eq_some_iff.2 ⟨_, hone, Option.map_eq_some_iff.2 ⟨rest, hrest, rfl⟩⟩⟩

theorem normalizeToolName_self (name : Str) :
    normalizeToolName (normalizeToolName name) = normalizeToolName name := by
  rw [normalizeToolName, normalizeToolName, underscores, underscores, List.map_map]
  refine List.map_congr_left fun c _ => ?_
  rw [Function.comp_apply]
  split_ifs <;> simp_all

/-- What tools are normalized to is normalized to the same again. -/
theorem normalizeTools_again (hall : List.Forall₂ (Normalized memory memory') tools results) :
    ∃ again, normalizeTools true memory' (results.map NormalizedTool.toTool) = some again ∧
      again.1.map (NormalizedTool.read again.2) = results.map (NormalizedTool.read memory') := by
  have hself (result : NormalizedTool) (hresult : result ∈ results) : ∃ normalized,
      memory'[result.parameters]? = some normalized ∧
        normalizeToolName result.name = result.name ∧
        addAdditionalPropertiesAndRequired normalized = some normalized := by
    obtain ⟨tool, -, hname, -, parameters, normalized, -, h, hread⟩ :=
      JsonSchema.exists_of_mem_forall₂ hall hresult
    exact ⟨normalized, hread, by rw [hname, normalizeToolName_self],
      addAdditionalPropertiesAndRequired_self h⟩
  obtain ⟨⟨again, memory''⟩, hagain⟩ : ∃ again,
      normalizeTools true memory' (results.map NormalizedTool.toTool) = some again := by
    refine exists_normalizeTools (List.forall_mem_map.2 fun result hresult => ?_)
    obtain ⟨normalized, hread, -, h⟩ := hself result hresult
    exact ⟨normalized, normalized, hread, h⟩
  refine ⟨_, hagain, ?_⟩
  have hvalid : ∀ tool ∈ results.map NormalizedTool.toTool, tool.parameters < memory'.length := by
    refine List.forall_mem_map.2 fun result hresult => ?_
    obtain ⟨normalized, hread, -⟩ := hself result hresult
    exact (List.getElem?_eq_some_iff.1 hread).1
  obtain ⟨-, hall⟩ := normalizeTools_spec hvalid hagain
  rw [List.forall₂_map_left_iff] at hall
  have hread : List.Forall₂ (fun result again => NormalizedTool.read memory'' again =
      result.read memory') results again := by
    refine List.Forall₂.imp (fun result again h => ?_)
      ((List.forall₂_and_left results again).2 ⟨hself, hall⟩)
    obtain ⟨⟨_, hread, hname, h⟩, hagain, hdescription, _, normalized, hparameters, hnormalized,
      hread'⟩ := h
    obtain rfl := Option.some.inj (hread.symm.trans hparameters)
    obtain rfl := Option.some.inj (h.symm.trans hnormalized)
    rw [NormalizedTool.read, NormalizedTool.read, hread, hread', hagain, hdescription]
    exact congrArg (·, _) hname
  exact JsonSchema.eq_of_forall₂_eq
    (List.forall₂_map_left_iff.2 (List.forall₂_map_right_iff.2 hread.flip))

end

/-- A table, as an array of rows that are arrays of objects. -/
def table : Dict Empty :=
  [(typeKey, .str (.ofString "object")),
    (propertiesKey, .obj [(.ofString "rows", .obj [(typeKey, .str (.ofString "array")),
      (itemsKey, .obj [(typeKey, .str (.ofString "array")),
        (itemsKey, .obj [(typeKey, .str (.ofString "object"))])])])])]

def tableTool : ToolList Empty where
  memory := [table]
  tools := [{ name := .ofString "show table", description := [], parameters := 0 }]
  valid := by decide

end Hyperforge.Completions
