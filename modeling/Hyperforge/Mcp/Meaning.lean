import Hyperforge.Mcp.NormalForm

/-!
# The meaning of normalized schemas

What is valid under the normalized schema of a tool is valid under the schema that the
server has given, whatever patterns and formats mean
(`normalizeToolSchema_valid`). The normalized schema says no more, if every schema there is
says its type or gives alternatives.
-/

namespace Hyperforge.Mcp

open Json hiding Tree
open Crash JsonSchema

variable {F : Type}

/-- The schema declares a type or alternatives, if it does not refer to another. -/
def Declares (t : Json.Tree F) : Prop :=
  ∀ schema : Members F, t = .obj schema → (∃ reference, schema.lookup refKeyword =
    some (.str reference)) ∨ (schema.lookup (.ofString "type")).isSome ∨
      (schema.lookup (.ofString "anyOf")).isSome

/-- The schemas of a keyword correspond to what they are replaced by. -/
theorem Rewritten.related {R : Json.Tree F → Members F → Prop}
    {Q : Json.Tree F → Json.Tree F → Prop} {a : Applicator} {x y : Json.Tree F}
    (h : Rewritten R a x y)
    (hQ : ∀ c ∈ a.subschemas x, ∀ m, R c m → Q c (.obj m)) (hbool : ∀ b, Q (.bool b) (.bool b)) :
    a.Related Q x y := by
  cases a with
  | properties =>
    rcases h with ⟨rfl, rfl⟩ | ⟨ps, qs, rfl, rfl, hps⟩
    · exact .noProperties
    · refine .properties
        (((List.forall₂_and_left (p := (· ∈ ps)) _ _).2 ⟨fun _ h => h, hps⟩).imp ?_)
      rintro p ⟨name, value⟩ ⟨hp, rfl, m, rfl, hR⟩
      exact ⟨rfl, hQ _ (List.mem_map_of_mem hp) m hR⟩
  | items =>
    obtain ⟨m, rfl, hR⟩ := h
    exact .items (hQ x (List.mem_singleton_self x) m hR)
  | additionalProperties =>
    rcases h with ⟨b, rfl, rfl⟩ | ⟨hx, m, rfl, hR⟩
    · exact .additionalProperties (hbool b)
    · refine .additionalProperties (hQ x ?_ m hR)
      rw [Applicator.subschemas]
      · exact List.mem_singleton_self x
      · exact hx
  | anyOf =>
    rcases h with ⟨rfl, rfl⟩ | ⟨xs, ys, rfl, rfl, -, hxs⟩
    · exact .noAlternatives
    · refine .anyOf (((List.forall₂_and_left (p := (· ∈ xs)) _ _).2 ⟨fun _ h => h, hxs⟩).imp ?_)
      rintro x _ ⟨hx, m, rfl, hR⟩
      exact hQ x hx m hR

theorem Normalized.related {R : Json.Tree F → Members F → Prop}
    {Q : Json.Tree F → Json.Tree F → Prop} {schema r : Members F}
    (h : Normalized R (kept schema) r)
    (hQ : ∀ a : Applicator, ∀ x, schema.lookup a.keyword = some x →
      ∀ c ∈ a.subschemas x, ∀ m, R c m → Q c (.obj m))
    (hbool : ∀ b, Q (.bool b) (.bool b)) (a : Applicator) :
    Option.Rel (a.Related Q) (schema.lookup a.keyword) (r.lookup a.keyword) := by
  have hrel := h.applicator a
  rw [lookup_kept (by cases a <;> decide) (by cases a <;> decide)] at hrel
  rcases hx : schema.lookup a.keyword with _ | x
  · rw [hx] at hrel
    generalize r.lookup a.keyword = y at hrel
    cases hrel
    exact .none
  · rw [hx] at hrel
    generalize r.lookup a.keyword = y at hrel
    cases hrel with
    | some hxy => exact .some (hxy.related (hQ a x hx) hbool)

/-- A normalized schema asserts what the schema does. -/
theorem Normalized.assertion {R : Json.Tree F → Members F → Prop} {schema r : Members F}
    (h : Normalized R (kept schema) r) {a : Assertion} {x : Json.Tree F}
    (hx : schema.lookup a.keyword = some x) : r.lookup a.keyword = some x := by
  have hkept : (kept schema).lookup a.keyword = some x := by
    rw [lookup_kept (by cases a <;> decide) (by cases a <;> decide), hx]
  by_cases ha : a = .type
  · subst ha
    rcases h.type with heq | ⟨⟨hnone, -⟩, -⟩
    · exact heq.trans hkept
    · exact absurd (hkept.symm.trans hnone) nofun
  · rw [h.other _ (fun b => by cases a <;> cases b <;> decide) (by revert ha; cases a <;> decide)
      (by cases a <;> decide) (by cases a <;> decide), hkept]

/-- A normalized schema asserts no more, if there is no type to infer. -/
theorem Normalized.assertion_of_declares {R : Json.Tree F → Members F → Prop}
    {schema r : Members F} (h : Normalized R (kept schema) r)
    (hdeclares : (schema.lookup (.ofString "type")).isSome ∨
      (schema.lookup (.ofString "anyOf")).isSome) {a : Assertion} {x : Json.Tree F}
    (hx : r.lookup a.keyword = some x) : schema.lookup a.keyword = some x := by
  rw [← lookup_kept (by cases a <;> decide) (by cases a <;> decide), ← hx]
  by_cases ha : a = .type
  · subst ha
    rcases h.type with heq | ⟨⟨hnone, hnone'⟩, -⟩
    · exact heq.symm
    · rw [lookup_kept (by decide) (by decide)] at hnone hnone'
      rw [hnone, hnone'] at hdeclares
      exact hdeclares.elim nofun nofun
  · rw [h.other _ (fun b => by cases a <;> cases b <;> decide) (by revert ha; cases a <;> decide)
      (by cases a <;> decide) (by cases a <;> decide)]

theorem noReference_of_lookup {schema : Members F}
    (h : schema.lookup refKeyword = none ∨ schema.lookup refKeyword = some .null)
    (reference : Str) : schema.lookup refKeyword ≠ some (.str reference) := by
  rcases h with h | h <;> rw [h] <;> nofun

theorem assertion_notMem (a : Assertion) : a.keyword ∉ annotationKeywords := by
  cases a <;> decide

variable {I : Interpretation F} {resolve : Str → Option (Json.Tree F)}

/-- Annotations do not change the meaning of a schema. -/
theorem valid_annotated {resolved annotations : Members F}
    (ha : ∀ k ∈ annotations.map Prod.fst, k ∈ annotationKeywords) (v : Json.Tree F) :
    Valid I resolve (.obj (update resolved annotations)) v ↔ Valid I resolve (.obj resolved) v := by
  have hreference : refKeyword ∉ annotationKeywords := by decide
  rw [valid_obj, valid_obj]
  exact Holds.congr (fun a => lookup_annotated ha (assertion_notMem a))
    (fun a => lookup_annotated ha (applicator_notMem a)) (lookup_annotated ha hreference)

/-- A schema with nothing but a reference, annotations and definitions means what it refers
    to. -/
theorem valid_reference {schema : Members F} {reference : Str} {target : Json.Tree F}
    (hlookup : schema.lookup refKeyword = some (.str reference))
    (htarget : resolve reference = some target)
    (hsiblings : ∀ k ∈ schema.map Prod.fst, k ∈ ignoredAnnotationKeywords ∨ k = refKeyword ∨
      k ∈ annotationKeywords ∨ k = .ofString "$defs" ∨ k = .ofString "definitions")
    (v : Json.Tree F) : Valid I resolve (.obj schema) v ↔ Valid I resolve target v := by
  have hassertion (a : Assertion) : schema.lookup a.keyword = none :=
    lookup_sibling hsiblings (by cases a <;> decide)
  have happlicator (a : Applicator) : schema.lookup a.keyword = none :=
    lookup_sibling hsiblings (by cases a <;> decide)
  rw [valid_obj]
  constructor
  · intro h
    obtain ⟨target', htarget', hv⟩ := h.reference reference hlookup
    rw [htarget] at htarget'
    cases htarget'
    exact hv
  · intro hv
    refine ⟨fun a x hx => ?_, fun a x hx => ?_, fun reference' href => ⟨target, ?_, hv⟩⟩
    · rw [hassertion] at hx
      cases hx
    · rw [happlicator] at hx
      cases hx
    · rw [hlookup] at href
      cases href
      exact htarget

/-- What is valid under a normalized schema is valid under the schema, and conversely if there is
    no type to infer. -/
theorem normalizeSchema_valid {root : Members F} {n : ℕ} {s : Json.Tree F}
    {path resolving : List Str} {r : Members F}
    (h : normalizeSchema root n s path resolving = .ok r) :
    (∀ v, Valid I resolve (.obj r) v → Valid I (localReference root) s v) ∧
      ((∀ t, Reached (localReference root) s t → Declares t) →
        ∀ v, Valid I (localReference root) s v → Valid I resolve (.obj r) v) := by
  induction n generalizing s path resolving r with
  | zero => cases h
  | succ n ih =>
    obtain ⟨schema, rfl, hr⟩ := normalizeSchema_cases h
    cases hr with
    | reference hlookup htarget hresolved hsiblings ha hr =>
      obtain ⟨hof, hto⟩ := ih hresolved
      subst hr
      simp only [valid_annotated ha, valid_reference hlookup htarget hsiblings]
      exact ⟨hof, fun hdeclares => hto fun t ht =>
        hdeclares t (.head (.reference hlookup htarget) ht)⟩
    | keywords hlookup hnormalized =>
      constructor
      · intro v hv
        -- the schemas that the keywords apply are weaker than what they become
        have hrelated := hnormalized.related
          (Q := fun c d => ∀ v, Valid I resolve d v → Valid I (localReference root) c v)
          (fun a x _ c _ m ⟨_, _, hm⟩ => (ih hm).1)
          (fun b v hb => valid_bool.2 (valid_bool.1 hb))
        rw [valid_obj] at hv ⊢
        refine hv.of_related
          (Q := fun d c => ∀ v, Valid I resolve d v → Valid I (localReference root) c v)
          (fun a x hx => hnormalized.assertion hx) (fun a => ?_)
          (noReference_of_lookup hlookup) fun d c v hQ => hQ v
        have hrel := hrelated a
        generalize schema.lookup a.keyword = x, r.lookup a.keyword = y at hrel ⊢
        cases hrel with
        | none => exact .none
        | some hxy => exact .some hxy.flip
      · intro hdeclares v hv
        have hdeclared : (schema.lookup (.ofString "type")).isSome ∨
            (schema.lookup (.ofString "anyOf")).isSome := by
          rcases hdeclares _ .refl schema rfl with ⟨reference, href⟩ | hdeclared
          · exact absurd href (noReference_of_lookup hlookup reference)
          · exact hdeclared
        have hrelated := hnormalized.related
          (Q := fun c d => ∀ v, Valid I (localReference root) c v → Valid I resolve d v)
          (fun a x hx c hc m ⟨_, _, hm⟩ => (ih hm).2 fun t ht =>
            hdeclares t (.head (.subschema a hx hc) ht))
          (fun b v hb => valid_bool.2 (valid_bool.1 hb))
        rw [valid_obj] at hv ⊢
        refine hv.of_related (fun a x hx => hnormalized.assertion_of_declares hdeclared hx)
          hrelated (fun reference href => ?_) fun c d v hQ => hQ v
        have hstable := normalizeSchema_stable h
        rw [Stable] at hstable
        rw [hstable.noReference] at href
        cases href

/-- A value that is valid under the normalized schema of a tool is valid under its schema, and
    they accept the same values if every schema that does not refer to another declares a type or
    alternatives. -/
theorem normalizeToolSchema_valid (I : Interpretation F) (levels : ℕ) (schema : Json.Tree F)
    (r : Members F) (h : normalizeToolSchema levels schema = .ok r) :
    (∀ v, Valid I (references (.obj r)) (.obj r) v → Valid I (references schema) schema v) ∧
      ((∀ s, Reached (references schema) schema s → Declares s) →
        ∀ v, Valid I (references (.obj r)) (.obj r) v ↔ Valid I (references schema) schema v) := by
  rcases normalizeToolSchema_cases h with ⟨members, rfl, -, hr, -⟩ | ⟨rfl, rfl⟩
  · obtain ⟨hof, hto⟩ : (∀ v, Valid I (references (.obj r)) (.obj r) v → _) ∧ _ :=
      normalizeSchema_valid hr
    exact ⟨hof, fun hdeclares v => ⟨hof v, hto hdeclares v⟩⟩
  · refine ⟨fun v _ => valid_obj.2 ⟨nofun, nofun, nofun⟩, fun hdeclares => ?_⟩
    rcases hdeclares _ .refl [] rfl with ⟨_, h⟩ | h | h <;> cases h

/-- Floats are integers, and patterns and formats say nothing. -/
def integral : Interpretation ℤ where
  value x := x
  Equal := Eq
  Matches _ _ := True
  Formatted _ _ := True

theorem valid_searchArguments :
    (∀ v, Valid integral (references (.obj searchArguments)) (.obj searchArguments) v →
      Valid integral (references (.obj searchSchema)) (.obj searchSchema) v) ∧
    ((∀ s, Reached (references (.obj searchSchema)) (.obj searchSchema) s → Declares s) →
      ∀ v, Valid integral (references (.obj searchArguments)) (.obj searchArguments) v ↔
        Valid integral (references (.obj searchSchema)) (.obj searchSchema) v) :=
  normalizeToolSchema_valid integral 3 (.obj searchSchema) searchArguments rfl

end Hyperforge.Mcp
