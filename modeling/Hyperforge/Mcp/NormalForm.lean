import Hyperforge.Mcp.Stable

/-!
# The normal form of schemas

The schema of a tool is normalized to one where every position has a supported type or
alternatives, and supported keywords only, if no position of the input lacks its properties,
or its alternatives and its type, by having `null` in their place: then, and
only then (`normalizeToolSchema_normalForm`), as a `null` is taken for a missing keyword and left
where it is.
-/

namespace Hyperforge.Mcp

open Json hiding Tree
open Crash JsonSchema

variable {F : Type}

/-- A position of a schema in normal form. -/
structure NormalNode (schema : Members F) : Prop where
  noReference : refKeyword ∉ schema.map Prod.fst
  noDefinitions : .ofString "$defs" ∉ schema.map Prod.fst ∧
    .ofString "definitions" ∉ schema.map Prod.fst
  noIgnored : ∀ k ∈ ignoredAnnotationKeywords, k ∉ schema.map Prod.fst
  supported : ∀ k ∈ schema.map Prod.fst, k ∈ nuaCommonKeywords
  typed : (∃ x, schema.lookup (.ofString "type") = some x ∧ isSupportedType x) ∨
    ∃ xs, schema.lookup (.ofString "anyOf") = some (.arr xs) ∧ xs ≠ []
  properties : ∀ x, schema.lookup (.ofString "properties") = some x → ∃ ps, x = .obj ps

/-- Every position of the schema, which is an object, is in normal form. -/
def InNormalForm (t : Json.Tree F) : Prop :=
  ∀ s, Reached (fun _ => none) t s → ∃ schema, s = .obj schema ∧ NormalNode schema

/-- The schema has `null` for its properties, or for its alternatives without having a type. -/
def NullKeyword (t : Json.Tree F) : Prop :=
  ∃ schema : Members F, t = .obj schema ∧
    (schema.lookup (.ofString "properties") = some .null ∨
      schema.lookup (.ofString "anyOf") = some .null ∧ schema.lookup (.ofString "type") = none)

/-- No position of the schema has such a `null`. -/
def NoNull (resolve : Str → Option (Json.Tree F)) (t : Json.Tree F) : Prop :=
  ∀ s, Reached resolve t s → ¬NullKeyword s

theorem nullKeyword_obj {schema : Members F} : NullKeyword (.obj schema) ↔
    schema.lookup (.ofString "properties") = some .null ∨
      schema.lookup (.ofString "anyOf") = some .null ∧
        schema.lookup (.ofString "type") = none := by
  constructor
  · rintro ⟨_, ⟨rfl⟩, h⟩
    exact h
  · exact fun h => ⟨schema, rfl, h⟩

/-! ## Stable schemas in normal form -/

theorem StableValue.mem {S : Json.Tree F → Prop} {a : Applicator} {x s : Json.Tree F}
    (h : StableValue S a x) (hs : s ∈ a.subschemas x) : S s := by
  cases a with
  | properties =>
    rcases h with rfl | ⟨ps, rfl, hps⟩
    · exact absurd hs List.not_mem_nil
    · obtain ⟨p, hp, rfl⟩ := List.mem_map.1 hs
      exact hps p hp
  | items =>
    rw [Applicator.subschemas, List.mem_singleton] at hs
    exact hs ▸ h
  | additionalProperties =>
    rcases h with ⟨b, rfl⟩ | ⟨hx, h⟩
    · exact absurd hs List.not_mem_nil
    · rw [Applicator.subschemas, List.mem_singleton] at hs
      · exact hs ▸ h
      · exact hx
  | anyOf =>
    rcases h with rfl | ⟨xs, rfl, -, hxs⟩
    · exact absurd hs List.not_mem_nil
    · exact hxs s hs

/-- The positions of a stable schema are stable. -/
theorem Stable.reached {n : ℕ} {t s : Json.Tree F} (h : Stable n t)
    (hs : Reached (fun _ => none) t s) : ∃ m, Stable m s := by
  induction hs with
  | refl => exact ⟨n, h⟩
  | tail _ hc ih =>
    obtain ⟨m, hm⟩ := ih
    rcases m with _ | m
    · exact hm.elim
    cases hc with
    | reference _ ht => cases ht
    | subschema a hx hs =>
      rw [Stable] at hm
      exact ⟨m, (hm.applicator a _ hx).mem hs⟩

theorem StableNode.normalNode_iff {S : Json.Tree F → Prop} {schema : Members F}
    (h : StableNode S schema) : NormalNode schema ↔ ¬NullKeyword (.obj schema) := by
  rw [nullKeyword_obj]
  constructor
  · rintro hn (hp | ⟨ha, ht⟩)
    · obtain ⟨ps, hps⟩ := hn.properties _ hp
      cases hps
    · rcases hn.typed with ⟨x, hx, -⟩ | ⟨xs, hxs, -⟩
      · rw [ht] at hx
        cases hx
      · rw [ha] at hxs
        cases hxs
  · intro hn
    rw [not_or] at hn
    refine ⟨lookup_eq_none.1 h.noReference,
      ⟨lookup_eq_none.1 h.definitions.1, lookup_eq_none.1 h.definitions.2⟩,
      fun k hk hks => (h.keywords k hks).2 hk, fun k hk => (h.keywords k hk).1, ?_, fun x hx => ?_⟩
    · rcases ht : schema.lookup (.ofString "type") with _ | x
      · -- without a type, there are alternatives
        right
        have hsome := h.typed
        rw [ht] at hsome
        obtain ⟨x, hx⟩ := Option.isSome_iff_exists.1 (hsome.resolve_left nofun)
        rcases h.applicator .anyOf x hx with rfl | ⟨xs, rfl, hne, -⟩
        · exact absurd ⟨hx, ht⟩ hn.2
        · exact ⟨xs, hx, hne⟩
      · exact .inl ⟨x, ht, h.supported x ht⟩
    · rcases h.applicator .properties x hx with rfl | ⟨ps, rfl, -⟩
      · exact absurd hx hn.1
      · exact ⟨ps, rfl⟩

/-- A stable schema is in normal form when it has no `null` in place of a keyword. -/
theorem Stable.inNormalForm_iff {n : ℕ} {t : Json.Tree F} (h : Stable n t) :
    InNormalForm t ↔ NoNull (fun _ => none) t := by
  refine forall₂_congr fun s hs => ?_
  obtain ⟨m, hm⟩ := h.reached hs
  obtain ⟨schema, rfl⟩ := hm.exists_obj
  rcases m with _ | m
  · exact hm.elim
  rw [Stable] at hm
  rw [← hm.normalNode_iff]
  constructor
  · rintro ⟨_, ⟨rfl⟩, hn⟩
    exact hn
  · exact fun hn => ⟨schema, rfl, hn⟩

/-! ## The positions of a schema and of what it becomes -/

theorem forall_mem_iff_of_forall₂ {α β : Type*} {r : α → β → Prop} {P : α → Prop} {Q : β → Prop}
    {xs : List α} {ys : List β} (h : List.Forall₂ r xs ys) (hPQ : ∀ x y, r x y → (Q y ↔ P x)) :
    (∀ y ∈ ys, Q y) ↔ ∀ x ∈ xs, P x := by
  induction h with
  | nil => simp
  | cons hxy _ ih => rw [List.forall_mem_cons, List.forall_mem_cons, ih, hPQ _ _ hxy]

theorem Rewritten.subschemas {R : Json.Tree F → Members F → Prop} {a : Applicator}
    {x y : Json.Tree F} (h : Rewritten R a x y) :
    List.Forall₂ (fun c c' => ∃ m, c' = .obj m ∧ R c m) (a.subschemas x) (a.subschemas y) := by
  cases a with
  | properties =>
    rcases h with ⟨rfl, rfl⟩ | ⟨ps, qs, rfl, rfl, hqs⟩
    · exact .nil
    · refine List.forall₂_map_left_iff.2 (List.forall₂_map_right_iff.2 (hqs.imp ?_))
      exact fun _ _ h => h.2
  | items =>
    obtain ⟨m, rfl, hR⟩ := h
    exact .cons ⟨m, rfl, hR⟩ .nil
  | additionalProperties =>
    rcases h with ⟨b, rfl, rfl⟩ | ⟨hx, m, rfl, hR⟩
    · exact .nil
    · rw [Applicator.subschemas, Applicator.subschemas]
      · exact .cons ⟨m, rfl, hR⟩ .nil
      · exact nofun
      · exact hx
  | anyOf =>
    rcases h with ⟨rfl, rfl⟩ | ⟨xs, ys, rfl, rfl, -, hys⟩
    · exact .nil
    · exact hys

theorem Rewritten.null_iff {R : Json.Tree F → Members F → Prop} {a : Applicator}
    (ha : a = .properties ∨ a = .anyOf) {x y : Json.Tree F} (h : Rewritten R a x y) :
    y = .null ↔ x = .null := by
  rcases ha with rfl | rfl
  · rcases h with ⟨rfl, rfl⟩ | ⟨ps, qs, rfl, rfl, -⟩ <;> simp
  · rcases h with ⟨rfl, rfl⟩ | ⟨xs, ys, rfl, rfl, -, -⟩ <;> simp

theorem Normalized.null_iff {R : Json.Tree F → Members F → Prop} {schema r : Members F}
    (h : Normalized R schema r) {a : Applicator} (ha : a = .properties ∨ a = .anyOf) :
    r.lookup a.keyword = some .null ↔ schema.lookup a.keyword = some .null := by
  have hrel := h.applicator a
  generalize schema.lookup a.keyword = x, r.lookup a.keyword = y at hrel
  cases hrel with
  | none => simp
  | some hxy => simpa using hxy.null_iff ha

theorem Normalized.nullKeyword_iff {R : Json.Tree F → Members F → Prop} {schema r : Members F}
    (h : Normalized R (kept schema) r) :
    NullKeyword (.obj r) ↔ NullKeyword (.obj schema) := by
  have hp := h.null_iff (.inl rfl)
  have ha := h.null_iff (.inr rfl)
  have ht := h.type
  simp only [Applicator.keyword] at hp ha
  rw [lookup_kept (by decide) (by decide)] at hp ha
  simp only [lookup_kept (k := .ofString "type") (by decide) (by decide),
    lookup_kept (k := .ofString "anyOf") (by decide) (by decide)] at ht
  rw [nullKeyword_obj, nullKeyword_obj, hp, ha]
  rcases ht with ht | ⟨⟨-, hnone⟩, -⟩
  · rw [ht]
  · simp [hnone]

/-- A schema applies or refers to others. -/
theorem forall_child {resolve : Str → Option (Json.Tree F)} {schema : Members F}
    {P : Json.Tree F → Prop} : (∀ c, Child resolve (.obj schema) c → P c) ↔
      (∀ a : Applicator, ∀ x, schema.lookup a.keyword = some x → ∀ c ∈ a.subschemas x, P c) ∧
        ∀ reference target, schema.lookup refKeyword = some (.str reference) →
          resolve reference = some target → P target := by
  constructor
  · exact fun h => ⟨fun a x hx c hc => h c (.subschema a hx hc),
      fun _ _ hr ht => h _ (.reference hr ht)⟩
  · rintro ⟨h, h'⟩ c hc
    cases hc with
    | reference hr ht => exact h' _ _ hr ht
    | subschema a hx hs => exact h a _ hx c hs

theorem noNull_iff {resolve : Str → Option (Json.Tree F)} {schema : Members F} :
    NoNull resolve (.obj schema) ↔ ¬NullKeyword (.obj schema) ∧
      (∀ a : Applicator, ∀ x, schema.lookup a.keyword = some x →
        ∀ c ∈ a.subschemas x, NoNull resolve c) ∧
      ∀ reference target, schema.lookup refKeyword = some (.str reference) →
        resolve reference = some target → NoNull resolve target := by
  rw [NoNull, forall_reached, forall_child]
  rfl

/-- Next to a reference, there are no keywords but annotations and definitions. -/
theorem lookup_sibling {schema : Members F}
    (h : ∀ k ∈ schema.map Prod.fst, k ∈ ignoredAnnotationKeywords ∨ k = refKeyword ∨
      k ∈ annotationKeywords ∨ k = .ofString "$defs" ∨ k = .ofString "definitions") {k : Str}
    (hk : ¬(k ∈ ignoredAnnotationKeywords ∨ k = refKeyword ∨
      k ∈ annotationKeywords ∨ k = .ofString "$defs" ∨ k = .ofString "definitions")) :
    schema.lookup k = none :=
  lookup_eq_none.2 fun hmem => hk (h k hmem)

theorem noNull_annotated {resolved annotations : Members F}
    (ha : ∀ k ∈ annotations.map Prod.fst, k ∈ annotationKeywords) :
    NoNull (fun _ => none) (.obj (update resolved annotations)) ↔
      NoNull (fun _ => none) (.obj resolved) := by
  rw [noNull_iff, noNull_iff, nullKeyword_obj, nullKeyword_obj]
  rw [lookup_annotated ha (by decide), lookup_annotated ha (by decide),
    lookup_annotated ha (by decide)]
  simp [lookup_annotated ha (applicator_notMem _)]

/-- No `null` is in place of a keyword in a normalized schema exactly when none is in the
    input. -/
theorem normalizeSchema_noNull {root : Members F} {n : ℕ} {s : Json.Tree F}
    {path resolving : List Str} {r : Members F}
    (h : normalizeSchema root n s path resolving = .ok r) :
    NoNull (fun _ => none) (.obj r) ↔ NoNull (localReference root) s := by
  induction n generalizing s path resolving r with
  | zero => cases h
  | succ n ih =>
    obtain ⟨schema, rfl, hr⟩ := normalizeSchema_cases h
    cases hr with
    | reference hlookup htarget hresolved hsiblings ha hr =>
      have hnone (a : Applicator) : schema.lookup a.keyword = none :=
        lookup_sibling hsiblings (by cases a <;> decide)
      have hschema : ¬NullKeyword (.obj schema) := by
        have hp := hnone .properties
        have ha := hnone .anyOf
        simp only [Applicator.keyword] at hp ha
        rw [nullKeyword_obj, hp, ha]
        simp
      rw [hr, noNull_annotated ha, ih hresolved]
      refine Iff.trans ⟨fun h => ⟨hschema, by simp [hnone], ?_⟩,
        fun h => h.2.2 _ _ hlookup htarget⟩ noNull_iff.symm
      intro reference target href ht
      rw [hlookup] at href
      cases href
      rw [htarget] at ht
      cases ht
      exact h
    | keywords hlookup hnormalized =>
      rw [noNull_iff, noNull_iff]
      refine and_congr (not_congr hnormalized.nullKeyword_iff) (and_congr ?_ ?_)
      · refine forall_congr' fun a => ?_
        have hrel := hnormalized.applicator a
        rw [lookup_kept (by cases a <;> decide) (by cases a <;> decide)] at hrel
        generalize schema.lookup a.keyword = x, r.lookup a.keyword = y at hrel
        cases hrel with
        | none => simp
        | some hxy =>
          simp only [Option.some.injEq, forall_eq']
          refine forall_mem_iff_of_forall₂ hxy.subschemas ?_
          rintro c _ ⟨m, rfl, path, resolving, hm⟩
          exact ih hm
      · refine iff_of_true (by simp) fun reference target href => ?_
        rcases hlookup with hnone | hnone <;> rw [hnone] at href <;> cases href

/-! ## The schemas of tools -/

/-- The references of a schema, an object, are to positions within it. -/
def references : Json.Tree F → Str → Option (Json.Tree F)
  | .obj schema => localReference schema
  | _ => fun _ => none

/-- What the schema of a tool becomes. -/
theorem normalizeToolSchema_cases {levels : ℕ} {schema : Json.Tree F} {r : Members F}
    (h : normalizeToolSchema levels schema = .ok r) :
    (∃ members, schema = .obj members ∧ members ≠ [] ∧
      normalizeSchema members (levels + 1) (.obj members) [] [] = .ok r ∧
      r.lookup (.ofString "type") = some (.str (.ofString "object"))) ∨
    schema = .obj [] ∧
      r = [(.ofString "type", .str (.ofString "object")), (.ofString "properties", .obj [])] := by
  rcases schema with _ | _ | _ | _ | _ | _ | members
  case obj =>
    rcases members with _ | ⟨m, members⟩
    · cases h
      exact .inr ⟨rfl, rfl⟩
    · obtain ⟨normalized, hnormalized, h⟩ := bind_eq_ok.1 h
      split at h
      · next name hname =>
        split_ifs at h with hobject
        cases h
        exact .inl ⟨_, rfl, List.cons_ne_nil _ _, hnormalized, hobject ▸ hname⟩
      · cases h
  all_goals cases h

/-- The schema of tools without arguments. -/
def noArguments : Members F :=
  [(.ofString "type", .str (.ofString "object")), (.ofString "properties", .obj [])]

theorem stable_noArguments (n : ℕ) : Stable (n + 1) (.obj (noArguments : Members F)) := by
  have h : normalizeSchema [] (n + 1) (.obj (noArguments : Members F)) [] [] =
      .ok noArguments := rfl
  exact normalizeSchema_stable h

/-- A normalized schema is normalized again to itself. -/
theorem Stable.normalizeToolSchema_eq {levels : ℕ} {r : Members F}
    (h : Stable (levels + 1) (.obj r))
    (ht : r.lookup (.ofString "type") = some (.str (.ofString "object"))) :
    normalizeToolSchema levels (.obj r) = .ok r := by
  rcases r with _ | ⟨m, r⟩
  · cases ht
  · refine bind_eq_ok.2 ⟨_, h.normalizeSchema_eq _ _ _, ?_⟩
    simp only [ht, if_true]

theorem noNull_noArguments (resolve : Str → Option (Json.Tree F)) :
    NoNull resolve (.obj (noArguments : Members F)) := by
  have hkeys : ∀ a : Applicator, a ≠ .properties →
      (noArguments : Members F).lookup a.keyword = none := by
    intro a ha
    cases a <;> first | rfl | exact absurd rfl ha
  have hproperties : (noArguments : Members F).lookup Applicator.properties.keyword =
      some (.obj []) := rfl
  have hreference : (noArguments : Members F).lookup refKeyword = none := rfl
  refine noNull_iff.2 ⟨?_, fun a x hx c hc => ?_, fun reference target href => ?_⟩
  · rw [nullKeyword_obj]
    rintro (h | ⟨h, -⟩) <;> cases h
  · by_cases ha : a = .properties
    · subst ha
      rw [hproperties] at hx
      cases hx
      exact absurd hc List.not_mem_nil
    · rw [hkeys a ha] at hx
      cases hx
  · rw [hreference] at href
    cases href

/-- A schema that is accepted becomes one in normal form, which stays as it is when it is
    normalized again, if and only if it has no `null` in place of properties, nor of alternatives
    where there is no type. -/
theorem normalizeToolSchema_normalForm (levels : ℕ) (schema : Json.Tree F) (r : Members F)
    (h : normalizeToolSchema levels schema = .ok r) :
    (InNormalForm (.obj r) ∧ normalizeToolSchema levels (.obj r) = .ok r) ↔
      NoNull (references schema) schema := by
  obtain ⟨hstable, hnull, ht⟩ : Stable (levels + 1) (.obj r) ∧
      (NoNull (fun _ => none) (.obj r) ↔ NoNull (references schema) schema) ∧
        r.lookup (.ofString "type") = some (.str (.ofString "object")) := by
    rcases normalizeToolSchema_cases h with ⟨members, rfl, -, hr, ht⟩ | ⟨rfl, rfl⟩
    · exact ⟨normalizeSchema_stable hr, normalizeSchema_noNull hr, ht⟩
    · refine ⟨stable_noArguments levels, ?_, rfl⟩
      refine iff_of_true (noNull_noArguments _) (noNull_iff.2 ?_)
      simp [nullKeyword_obj]
  rw [hstable.inNormalForm_iff, hnull]
  exact and_iff_left (hstable.normalizeToolSchema_eq ht)

/-- A tool with an argument, whose schema is referred to. -/
def searchSchema : Members ℤ :=
  [(.ofString "type", .str (.ofString "object")),
    (.ofString "properties", .obj [(.ofString "query",
      .obj [(.ofString "$ref", .str (.ofString "#/$defs/query"))])]),
    (.ofString "$defs", .obj [(.ofString "query", .obj [(.ofString "enum",
      .arr [.str (.ofString "all")])])])]

/-- The schema `searchSchema`, normalized. -/
def searchArguments : Members ℤ :=
  [(.ofString "type", .str (.ofString "object")),
    (.ofString "properties", .obj [(.ofString "query",
      .obj [(.ofString "enum", .arr [.str (.ofString "all")]),
        (.ofString "type", .str (.ofString "string"))])])]

theorem normalForm_searchArguments :
    (InNormalForm (.obj searchArguments) ∧
        normalizeToolSchema 3 (.obj searchArguments) = .ok searchArguments) ↔
      NoNull (references (.obj searchSchema)) (.obj searchSchema) :=
  normalizeToolSchema_normalForm 3 (.obj searchSchema) searchArguments rfl

/-- The schema of a tool whose properties are `null`. -/
def nullProperties : Members ℤ :=
  [(.ofString "type", .str (.ofString "object")), (.ofString "properties", .null)]

theorem normalizeToolSchema_nullProperties :
    ¬∀ (levels : ℕ) (schema : Json.Tree ℤ) (r : Members ℤ),
      normalizeToolSchema levels schema = .ok r →
        InNormalForm (.obj r) ∧ normalizeToolSchema levels (.obj r) = .ok r := by
  intro h
  obtain ⟨hform, -⟩ := h 0 (.obj nullProperties) nullProperties rfl
  obtain ⟨schema, hschema, hnode⟩ := hform _ .refl
  cases hschema
  obtain ⟨ps, hps⟩ := hnode.properties .null rfl
  cases hps

end Hyperforge.Mcp
