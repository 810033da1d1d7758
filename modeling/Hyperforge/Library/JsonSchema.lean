import Hyperforge.Library.Json.Dict
import Mathlib.Data.List.Forall2
import Mathlib.Data.Rat.Defs
import Mathlib.Data.Option.Defs
import Mathlib.Logic.Relation

/-!
# JSON Schema

The values that are valid under a schema (`JsonSchema.Valid`), for the keywords that
bound a value itself (its type, its size, ...), those that apply schemas to
parts of it (`Applicator`), and references to schemas. The meaning of the keywords of an
object is given with respect to the meaning of other schemas (`Holds`), of which `Valid`
is the least solution: a schema that refers back to itself is valid for those values
only that need the reference finitely often. Keywords with values of other kinds than
they are meant to have say nothing.
-/

namespace JsonSchema

open Json hiding Tree

/-- What the meaning of schemas depends on: the numbers that floats are, when values are
    equal, which texts match a pattern, and which values are of a format. -/
structure Interpretation (F : Type) where
  value : F → ℚ
  Equal : Json.Tree F → Json.Tree F → Prop
  Matches : (pattern text : Str) → Prop
  Formatted : (format : Str) → Json.Tree F → Prop

/-- The keywords that bound a value itself. -/
inductive Assertion
  | type
  | enum
  | required
  | minimum
  | maximum
  | minLength
  | maxLength
  | minItems
  | maxItems
  | minProperties
  | maxProperties
  | pattern
  | format
  deriving DecidableEq

def Assertion.keyword : Assertion → Str
  | type => .ofString "type"
  | enum => .ofString "enum"
  | required => .ofString "required"
  | minimum => .ofString "minimum"
  | maximum => .ofString "maximum"
  | minLength => .ofString "minLength"
  | maxLength => .ofString "maxLength"
  | minItems => .ofString "minItems"
  | maxItems => .ofString "maxItems"
  | minProperties => .ofString "minProperties"
  | maxProperties => .ofString "maxProperties"
  | pattern => .ofString "pattern"
  | format => .ofString "format"

/-- The keywords that apply schemas. -/
inductive Applicator
  | properties
  | items
  | additionalProperties
  | anyOf
  deriving DecidableEq

variable {F : Type}

namespace Applicator

def keyword : Applicator → Str
  | properties => .ofString "properties"
  | items => .ofString "items"
  | additionalProperties => .ofString "additionalProperties"
  | anyOf => .ofString "anyOf"

/-- The schemas that the value of the keyword has, but for schemas `true` and `false`. -/
def subschemas : Applicator → Json.Tree F → List (Json.Tree F)
  | properties, .obj members => members.map Prod.snd
  | items, schema => [schema]
  | additionalProperties, .bool _ => []
  | additionalProperties, schema => [schema]
  | anyOf, .arr schemas => schemas
  | _, _ => []

/-- The meaning of the keyword, `names` being those of the properties of the schema. -/
def Holds (V : Json.Tree F → Json.Tree F → Prop) (names : List Str) :
    Applicator → (schemas value : Json.Tree F) → Prop
  | properties, .obj schemas, .obj members =>
    ∀ s ∈ schemas, ∀ m ∈ members, m.1 = s.1 → V s.2 m.2
  | items, schema, .arr values => ∀ value ∈ values, V schema value
  | additionalProperties, schema, .obj members => ∀ m ∈ members, m.1 ∉ names → V schema m.2
  | anyOf, .arr schemas, value => ∃ schema ∈ schemas, V schema value
  | _, _, _ => True

end Applicator

section Meaning

variable (I : Interpretation F)

/-- The number that a value is. -/
def number : Json.Tree F → Option ℚ
  | .int i => some i
  | .float x => some (I.value x)
  | _ => none

/-- The type of a value, by its name. -/
def HasType (name : Str) : Json.Tree F → Prop
  | .null => name = .ofString "null"
  | .bool _ => name = .ofString "boolean"
  | .int _ => name = .ofString "integer" ∨ name = .ofString "number"
  | .float x => name = .ofString "number" ∨ name = .ofString "integer" ∧ (I.value x).isInt
  | .str _ => name = .ofString "string"
  | .arr _ => name = .ofString "array"
  | .obj _ => name = .ofString "object"

/-- The meaning of a keyword that bounds the value itself. -/
def Assertion.Holds : Assertion → (bound value : Json.Tree F) → Prop
  | type, .str name, value => HasType I name value
  | type, .arr names, value => ∃ name, .str name ∈ names ∧ HasType I name value
  | enum, .arr values, value => ∃ x ∈ values, I.Equal x value
  | required, .arr names, .obj members =>
    ∀ name, .str name ∈ names → name ∈ members.map Prod.fst
  | minimum, bound, value => ∀ m n, number I bound = some m → number I value = some n → m ≤ n
  | maximum, bound, value => ∀ m n, number I bound = some m → number I value = some n → n ≤ m
  | minLength, .int n, .str text => n ≤ text.length
  | maxLength, .int n, .str text => text.length ≤ n
  | minItems, .int n, .arr values => n ≤ values.length
  | maxItems, .int n, .arr values => values.length ≤ n
  | minProperties, .int n, .obj members => n ≤ members.length
  | maxProperties, .int n, .obj members => members.length ≤ n
  | pattern, .str p, .str text => I.Matches p text
  | format, .str f, value => I.Formatted f value
  | _, _, _ => True

/-- The names of the properties of a schema. -/
def propertyNames (schema : List (Str × Json.Tree F)) : List Str :=
  match schema.lookup (.ofString "properties") with
  | some (.obj properties) => properties.map Prod.fst
  | _ => []

def refKeyword : Str := .ofString "$ref"

variable (resolve : Str → Option (Json.Tree F))

/-- The meaning of a schema, given that of those it applies or refers to. -/
structure Holds (V : Json.Tree F → Json.Tree F → Prop) (schema : List (Str × Json.Tree F))
    (value : Json.Tree F) : Prop where
  assertion : ∀ a : Assertion, ∀ x, schema.lookup a.keyword = some x → a.Holds I x value
  applicator : ∀ a : Applicator, ∀ x, schema.lookup a.keyword = some x →
    a.Holds V (propertyNames schema) x value
  reference : ∀ reference, schema.lookup refKeyword = some (.str reference) →
    ∃ target, resolve reference = some target ∧ V target value

/-- The value is valid under the schema. -/
inductive Valid : (schema value : Json.Tree F) → Prop
  | accept (value : Json.Tree F) : Valid (.bool true) value
  | keywords (V : Json.Tree F → Json.Tree F → Prop) (hV : ∀ s v, V s v → Valid s v)
    {schema : List (Str × Json.Tree F)} {value : Json.Tree F}
    (h : Holds I resolve V schema value) : Valid (.obj schema) value

/-- A schema refers to another, or applies it. -/
inductive Child : Json.Tree F → Json.Tree F → Prop
  | reference {schema : List (Str × Json.Tree F)} {reference : Str} {target : Json.Tree F}
    (h : schema.lookup refKeyword = some (.str reference)) (ht : resolve reference = some target) :
    Child (.obj schema) target
  | subschema {schema : List (Str × Json.Tree F)} (a : Applicator) {x s : Json.Tree F}
    (h : schema.lookup a.keyword = some x) (hs : s ∈ a.subschemas x) : Child (.obj schema) s

/-- The schemas at the positions of a schema, through references too. -/
def Reached : Json.Tree F → Json.Tree F → Prop := Relation.ReflTransGen (Child resolve)

end Meaning

variable {I : Interpretation F} {resolve : Str → Option (Json.Tree F)}

theorem Applicator.Holds.mono {V V' : Json.Tree F → Json.Tree F → Prop} {names : List Str}
    {a : Applicator} {x value : Json.Tree F} (h : a.Holds V names x value)
    (hV : ∀ s v, V s v → V' s v) : a.Holds V' names x value := by
  cases a with
  | properties =>
    rcases x with _ | _ | _ | _ | _ | _ | schemas
    case obj =>
      rcases value with _ | _ | _ | _ | _ | _ | members
      case obj => exact fun s hs m hm hn => hV _ _ (h s hs m hm hn)
      all_goals trivial
    all_goals trivial
  | items =>
    rcases value with _ | _ | _ | _ | _ | values | _
    case arr => exact fun y hy => hV _ _ (h y hy)
    all_goals trivial
  | additionalProperties =>
    rcases value with _ | _ | _ | _ | _ | _ | members
    case obj => exact fun m hm hn => hV _ _ (h m hm hn)
    all_goals trivial
  | anyOf =>
    rcases x with _ | _ | _ | _ | _ | schemas | _
    case arr => exact h.imp fun s hs => ⟨hs.1, hV _ _ hs.2⟩
    all_goals trivial

theorem Holds.mono {V V' : Json.Tree F → Json.Tree F → Prop} {schema : List (Str × Json.Tree F)}
    {value : Json.Tree F} (h : Holds I resolve V schema value) (hV : ∀ s v, V s v → V' s v) :
    Holds I resolve V' schema value where
  assertion := h.assertion
  applicator a x hx := (h.applicator a x hx).mono hV
  reference r hr := (h.reference r hr).imp fun _ ht => ⟨ht.1, hV _ _ ht.2⟩

/-- A value is valid under a schema when the schema holds of it. -/
theorem valid_obj {schema : List (Str × Json.Tree F)} {value : Json.Tree F} :
    Valid I resolve (.obj schema) value ↔ Holds I resolve (Valid I resolve) schema value := by
  constructor
  · rintro (_ | ⟨V, hV, h⟩)
    exact h.mono hV
  · exact .keywords _ fun _ _ h => h

theorem valid_bool {b : Bool} {value : Json.Tree F} :
    Valid I resolve (.bool b) value ↔ b = true := by
  constructor
  · rintro ⟨⟩
    rfl
  · rintro rfl
    exact .accept value

/-- What holds of all the schemas at the positions of one holds of it and of all those at the
    positions of the schemas that it applies or refers to. -/
theorem forall_reached {P : Json.Tree F → Prop} {t : Json.Tree F} :
    (∀ s, Reached resolve t s → P s) ↔
      P t ∧ ∀ c, Child resolve t c → ∀ s, Reached resolve c s → P s := by
  constructor
  · exact fun h => ⟨h t .refl, fun c hc s hs => h s (.head hc hs)⟩
  · rintro ⟨ht, h⟩ s hs
    rcases Relation.ReflTransGen.cases_head hs with rfl | ⟨c, hc, hs⟩
    · exact ht
    · exact h c hc s hs

/-! ## Schemas that correspond -/

theorem exists_of_mem_forall₂ {α β : Type*} {r : α → β → Prop} {xs : List α} {ys : List β}
    (h : List.Forall₂ r xs ys) {y : β} (hy : y ∈ ys) : ∃ x ∈ xs, r x y := by
  induction h with
  | nil => exact absurd hy List.not_mem_nil
  | cons hxy _ ih =>
    rcases List.mem_cons.1 hy with rfl | hy
    · exact ⟨_, List.mem_cons_self, hxy⟩
    · obtain ⟨x, hx, hr⟩ := ih hy
      exact ⟨x, List.mem_cons_of_mem _ hx, hr⟩

/-- Two values of a keyword apply schemas that correspond. -/
inductive Applicator.Related (Q : Json.Tree F → Json.Tree F → Prop) :
    Applicator → Json.Tree F → Json.Tree F → Prop
  | properties {ps qs : List (Str × Json.Tree F)}
    (h : List.Forall₂ (fun p q => p.1 = q.1 ∧ Q p.2 q.2) ps qs) :
    Related Q properties (.obj ps) (.obj qs)
  | items {x y : Json.Tree F} (h : Q x y) : Related Q items x y
  | additionalProperties {x y : Json.Tree F} (h : Q x y) : Related Q additionalProperties x y
  | anyOf {xs ys : List (Json.Tree F)} (h : List.Forall₂ Q xs ys) :
    Related Q anyOf (.arr xs) (.arr ys)
  | noProperties : Related Q properties .null .null
  | noAlternatives : Related Q anyOf .null .null

theorem Applicator.Related.flip {Q : Json.Tree F → Json.Tree F → Prop} {a : Applicator}
    {x y : Json.Tree F} (h : a.Related Q x y) : a.Related (fun t s => Q s t) y x := by
  cases h with
  | properties h => exact .properties (h.flip.imp fun _ _ h => ⟨h.1.symm, h.2⟩)
  | items h => exact .items h
  | additionalProperties h => exact .additionalProperties h
  | anyOf h => exact .anyOf h.flip
  | noProperties => exact .noProperties
  | noAlternatives => exact .noAlternatives

theorem Applicator.Related.names_eq {Q : Json.Tree F → Json.Tree F → Prop}
    {ps qs : List (Str × Json.Tree F)}
    (h : List.Forall₂ (fun p q => p.1 = q.1 ∧ Q p.2 q.2) ps qs) :
    ps.map Prod.fst = qs.map Prod.fst := by
  induction h with
  | nil => rfl
  | cons hpq _ ih => rw [List.map_cons, List.map_cons, hpq.1, ih]

/-- A keyword still holds when the schemas it applies are replaced by weaker ones. -/
theorem Applicator.Holds.of_related {Q V V' : Json.Tree F → Json.Tree F → Prop}
    {names : List Str} {a : Applicator} {x y value : Json.Tree F} (h : a.Holds V names x value)
    (hxy : a.Related Q x y) (hV : ∀ s t v, Q s t → V s v → V' t v) :
    a.Holds V' names y value := by
  cases hxy with
  | properties hps =>
    rcases value with _ | _ | _ | _ | _ | _ | members
    case obj =>
      intro q hq m hm hn
      obtain ⟨p, hp, hname, hQ⟩ := exists_of_mem_forall₂ hps hq
      exact hV _ _ _ hQ (h p hp m hm (hn.trans hname.symm))
    all_goals trivial
  | items hQ =>
    rcases value with _ | _ | _ | _ | _ | values | _
    case arr => exact fun v hv => hV _ _ _ hQ (h v hv)
    all_goals trivial
  | additionalProperties hQ =>
    rcases value with _ | _ | _ | _ | _ | _ | members
    case obj => exact fun m hm hn => hV _ _ _ hQ (h m hm hn)
    all_goals trivial
  | anyOf hxs =>
    obtain ⟨x, hx, hv⟩ := h
    obtain ⟨y, hy, hQ⟩ := exists_of_mem_forall₂ hxs.flip hx
    exact ⟨y, hy, hV _ _ _ hQ hv⟩
  | noProperties => trivial
  | noAlternatives => trivial

/-- A schema holds still when some of what it asserts is left out, and the schemas that its
    keywords apply are replaced by weaker ones. -/
theorem Holds.of_related {Q V V' : Json.Tree F → Json.Tree F → Prop}
    {resolve' : Str → Option (Json.Tree F)} {schema schema' : List (Str × Json.Tree F)}
    {value : Json.Tree F} (h : Holds I resolve V schema value)
    (hassertion : ∀ a : Assertion, ∀ x,
      schema'.lookup a.keyword = some x → schema.lookup a.keyword = some x)
    (happlicator : ∀ a : Applicator, Option.Rel (a.Related Q)
      (schema.lookup a.keyword) (schema'.lookup a.keyword))
    (hreference : ∀ reference, schema'.lookup refKeyword ≠ some (.str reference))
    (hV : ∀ s t v, Q s t → V s v → V' t v) : Holds I resolve' V' schema' value where
  assertion a x hx := h.assertion a x (hassertion a x hx)
  applicator a y hy := by
    have hnames : propertyNames schema' = propertyNames schema := by
      have hrel := happlicator .properties
      rw [Applicator.keyword] at hrel
      rw [propertyNames, propertyNames]
      generalize schema.lookup (.ofString "properties") = x,
        schema'.lookup (.ofString "properties") = y at hrel
      rcases hrel with hps | _
      · cases hps with
        | properties hps => exact (Applicator.Related.names_eq hps).symm
        | noProperties => rfl
      · rfl
    have hrel := happlicator a
    rw [hy] at hrel
    rcases hx : schema.lookup a.keyword with _ | x
    · rw [hx] at hrel
      cases hrel
    · rw [hx] at hrel
      rw [hnames]
      cases hrel with
      | some hxy => exact (h.applicator a x hx).of_related hxy hV
  reference reference hr := absurd hr (hreference reference)

/-- The meaning of a schema is that of its keywords. -/
theorem Holds.congr {V : Json.Tree F → Json.Tree F → Prop}
    {schema schema' : List (Str × Json.Tree F)} {value : Json.Tree F}
    (hassertion : ∀ a : Assertion, schema'.lookup a.keyword = schema.lookup a.keyword)
    (happlicator : ∀ a : Applicator, schema'.lookup a.keyword = schema.lookup a.keyword)
    (hreference : schema'.lookup refKeyword = schema.lookup refKeyword) :
    Holds I resolve V schema' value ↔ Holds I resolve V schema value := by
  have hnames : propertyNames schema' = propertyNames schema := by
    have hproperties := happlicator .properties
    rw [Applicator.keyword] at hproperties
    rw [propertyNames, propertyNames, hproperties]
  constructor
  · rintro ⟨ha, hs, hr⟩
    simp only [hassertion, happlicator, hreference, hnames] at ha hs hr
    exact ⟨ha, hs, hr⟩
  · rintro ⟨ha, hs, hr⟩
    refine ⟨?_, ?_, ?_⟩
    · simpa only [hassertion] using ha
    · simpa only [happlicator, hnames] using hs
    · simpa only [hreference] using hr

end JsonSchema
