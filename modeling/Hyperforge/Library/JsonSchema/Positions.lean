import Hyperforge.Library.Json.Dict

/-!
# The positions of a schema

The schemas within a schema, each at its path (`JsonSchema.At`), as far as they are values
of keywords of which the value is a schema, a map of schemas or a list of schemas
(`Keywords`).

What is done to a schema, or is not, at one level after another, is told by what it does
to the schemas one step away (`At.simulation`).
-/

namespace JsonSchema

open Json hiding Tree

/-- The keywords that have schemas: one, some by their names, and a list of them. -/
structure Keywords where
  schema : List Str
  map : List Str
  list : List Str

inductive Segment
  | key (k : Str)
  | index (i : ℕ)
  deriving DecidableEq

variable {F : Type} (K : Keywords)

/-- A schema that is a value of a keyword of another, with the path to it. -/
inductive Subschema : Json.Tree F → List Segment → Json.Tree F → Prop
  | schema {ms : List (Str × Json.Tree F)} {k : Str} {s : Json.Tree F} (hk : k ∈ K.schema)
    (h : ms.lookup k = some s) : Subschema (.obj ms) [.key k] s
  | map {ms entries : List (Str × Json.Tree F)} {k name : Str} {s : Json.Tree F}
    (hk : k ∈ K.map) (h : ms.lookup k = some (.obj entries)) (hs : entries.lookup name = some s) :
    Subschema (.obj ms) [.key k, .key name] s
  | list {ms : List (Str × Json.Tree F)} {xs : List (Json.Tree F)} {k : Str} {i : ℕ}
    {s : Json.Tree F} (hk : k ∈ K.list) (h : ms.lookup k = some (.arr xs)) (hs : xs[i]? = some s) :
    Subschema (.obj ms) [.key k, .index i] s

/-- A schema within another, at a path. -/
inductive At : Json.Tree F → List Segment → Json.Tree F → Prop
  | here (t : Json.Tree F) : At t [] t
  | there {t u s : Json.Tree F} {segments path : List Segment} (h : Subschema K t segments u)
    (hs : At u path s) : At t (segments ++ path) s

variable {K} {t t' s : Json.Tree F} {path : List Segment}

/-- What is at a path. -/
def follow : Json.Tree F → List Segment → Option (Json.Tree F)
  | t, [] => some t
  | .obj ms, .key k :: path => (ms.lookup k).bind (follow · path)
  | .arr xs, .index i :: path => xs[i]?.bind (follow · path)
  | _, _ :: _ => none

theorem Subschema.follow {u : Json.Tree F} {segments : List Segment} (h : Subschema K t segments u)
    (path : List Segment) : JsonSchema.follow t (segments ++ path) = JsonSchema.follow u path := by
  cases h with
  | schema _ h => simp [JsonSchema.follow, h]
  | map _ h hs => simp [JsonSchema.follow, h, hs]
  | list _ h hs => simp [JsonSchema.follow, h, hs]

theorem At.follow (h : At K t path s) : JsonSchema.follow t path = some s := by
  induction h with
  | here => rw [JsonSchema.follow]
  | there h _ ih => rw [h.follow, ih]

/-- There is one schema at a path. -/
theorem At.unique {s' : Json.Tree F} (h : At K t path s) (h' : At K t path s') : s = s' :=
  Option.some.inj (h.follow.symm.trans h'.follow)

/-- If a relation carries each step, among those with some segments, from one schema over to
    another, it carries the paths of such segments. -/
theorem At.simulation {R : Json.Tree F → Json.Tree F → Prop} {P : Segment → Prop}
    (hstep : ∀ t t' segments s, R t t' → Subschema K t segments s → (∀ x ∈ segments, P x) →
      ∃ s', Subschema K t' segments s' ∧ R s s')
    (h : At K t path s) (hP : ∀ x ∈ path, P x) (hR : R t t') : ∃ s', At K t' path s' ∧ R s s' := by
  induction h generalizing t' with
  | here => exact ⟨t', .here t', hR⟩
  | there hs _ ih =>
    rw [List.forall_mem_append] at hP
    obtain ⟨u', hu, hR⟩ := hstep _ _ _ _ hR hs hP.1
    obtain ⟨s', hs', hR⟩ := ih hP.2 hR
    exact ⟨s', .there hu hs', hR⟩

/-- What is within a schema that is not an object, is it. -/
theorem At.eq_of_not_obj (h : At K t path s) (ht : ∀ ms, t ≠ .obj ms) : path = [] ∧ s = t := by
  cases h with
  | here => exact ⟨rfl, rfl⟩
  | there h => cases h <;> exact absurd rfl (ht _)

/-- Two schemas say the same with the keywords that have schemas. -/
def SameSchemas (K : Keywords) (ms ms' : List (Str × Json.Tree F)) : Prop :=
  ∀ k, k ∈ K.schema ∨ k ∈ K.map ∨ k ∈ K.list → ms'.lookup k = ms.lookup k

theorem SameSchemas.symm {ms ms' : List (Str × Json.Tree F)} (h : SameSchemas K ms ms') :
    SameSchemas K ms' ms := fun k hk => (h k hk).symm

theorem SameSchemas.step {ms ms' : List (Str × Json.Tree F)} {segments : List Segment}
    (h : SameSchemas K ms ms') (hs : Subschema K (.obj ms) segments s) :
    Subschema K (.obj ms') segments s := by
  cases hs with
  | schema hk hx => exact .schema hk ((h _ (.inl hk)).trans hx)
  | map hk hx hs => exact .map hk ((h _ (.inr (.inl hk))).trans hx) hs
  | list hk hx hs => exact .list hk ((h _ (.inr (.inr hk))).trans hx) hs

/-- What is strictly within a schema depends on these keywords only. -/
theorem SameSchemas.at {ms ms' : List (Str × Json.Tree F)} (h : SameSchemas K ms ms')
    (hs : At K (.obj ms) path s) : path = [] ∧ s = .obj ms ∨ At K (.obj ms') path s := by
  cases hs with
  | here => exact .inl ⟨rfl, rfl⟩
  | there hstep hs => exact .inr (.there (h.step hstep) hs)

end JsonSchema
