import Hyperforge.Library.Crash
import Hyperforge.Mcp.ToolSchema
import Mathlib.Data.List.Forall2
import Mathlib.Data.Option.Defs

/-!
# What normalizing a schema does

Normalizing the keywords of a schema without a reference keeps those that say something
about the value itself, up to a type that is inferred, and replaces the schemas that
its other keywords apply by normalized ones (`Normalized`).
-/

namespace Hyperforge.Mcp

open Json hiding Tree
open Crash JsonSchema

variable {F : Type}

/-- The values of a keyword that applies schemas, before and after these are replaced. -/
def Rewritten (R : Json.Tree F → Members F → Prop) : Applicator → (x y : Json.Tree F) → Prop
  | .properties, x, y => x = .null ∧ y = .null ∨ ∃ ps qs, x = .obj ps ∧ y = .obj qs ∧
    List.Forall₂ (fun p q => q.1 = p.1 ∧ ∃ m, q.2 = .obj m ∧ R p.2 m) ps qs
  | .items, x, y => ∃ m, y = .obj m ∧ R x m
  | .additionalProperties, x, y => (∃ b, x = .bool b ∧ y = .bool b) ∨
    (∀ b, x ≠ .bool b) ∧ ∃ m, y = .obj m ∧ R x m
  | .anyOf, x, y => x = .null ∧ y = .null ∨ ∃ xs ys, x = .arr xs ∧ y = .arr ys ∧ xs ≠ [] ∧
    List.Forall₂ (fun x y => ∃ m, y = .obj m ∧ R x m) xs ys

/-- The value of a keyword has been replaced, if it has one. -/
structure Replaced (R : Json.Tree F → Members F → Prop) (a : Applicator)
    (schema schema' : Members F) : Prop where
  keyword : Option.Rel (Rewritten R a) (schema.lookup a.keyword) (schema'.lookup a.keyword)
  other : ∀ k ≠ a.keyword, schema'.lookup k = schema.lookup k

theorem Replaced.assign {R : Json.Tree F → Members F → Prop} {a : Applicator} {schema : Members F}
    {x y : Json.Tree F} (hx : schema.lookup a.keyword = some x) (h : Rewritten R a x y) :
    Replaced R a schema (assign a.keyword y schema) where
  keyword := by
    rw [hx, lookup_assign, if_pos rfl]
    exact .some h
  other k hk := by rw [lookup_assign, if_neg (Ne.symm hk)]

variable {normalize : Json.Tree F → List Str → Except IncompatibleToolSchema (Members F)}
  {R : Json.Tree F → Members F → Prop} {path : List Str} {schema schema' : Members F}

theorem normalizeSchemaMap_replaced (hR : ∀ x p m, normalize x p = .ok m → R x m)
    (h : normalizeSchemaMap normalize (.ofString "properties") path schema = .ok schema') :
    Replaced R .properties schema schema' := by
  rw [normalizeSchemaMap] at h
  split at h
  · next hnone =>
    cases h
    refine ⟨?_, fun _ _ => rfl⟩
    rw [Applicator.keyword, hnone]
    exact .none
  · next hnull =>
    cases h
    refine ⟨?_, fun _ _ => rfl⟩
    rw [Applicator.keyword, hnull]
    exact .some (.inl ⟨rfl, rfl⟩)
  · next values hvalues =>
    obtain ⟨values', hmap, h⟩ := bind_eq_ok.1 h
    cases h
    refine .assign hvalues (.inr ⟨values, values', rfl, rfl, (mapM_eq_ok.1 hmap).imp ?_⟩)
    rintro ⟨name, value⟩ q hq
    obtain ⟨m, hm, hq⟩ := bind_eq_ok.1 hq
    cases hq
    exact ⟨rfl, m, rfl, hR _ _ _ hm⟩
  · cases h

theorem normalizeSchemaValue_replaced (hR : ∀ x p m, normalize x p = .ok m → R x m)
    {a : Applicator} (ha : ∀ x m, schema.lookup a.keyword = some x → R x m →
      Rewritten R a x (.obj m))
    (h : normalizeSchemaValue normalize a.keyword path schema = .ok schema') :
    Replaced R a schema schema' := by
  rw [normalizeSchemaValue] at h
  split at h
  · next hnone =>
    cases h
    refine ⟨?_, fun _ _ => rfl⟩
    rw [hnone]
    exact .none
  · next value hvalue =>
    obtain ⟨m, hm, h⟩ := bind_eq_ok.1 h
    cases h
    exact .assign hvalue (ha _ _ hvalue (hR _ _ _ hm))

theorem normalizeAdditionalProperties_replaced (hR : ∀ x p m, normalize x p = .ok m → R x m)
    (h : normalizeAdditionalProperties normalize path schema = .ok schema') :
    Replaced R .additionalProperties schema schema' := by
  rw [normalizeAdditionalProperties] at h
  split at h
  · next b hb =>
    cases h
    refine ⟨?_, fun _ _ => rfl⟩
    rw [Applicator.keyword, hb]
    exact .some (.inl ⟨b, rfl, rfl⟩)
  · next hb =>
    refine normalizeSchemaValue_replaced hR (fun x m hx hm => .inr ⟨?_, m, rfl, hm⟩) h
    rintro b rfl
    exact hb b hx

theorem normalizeSchemaList_replaced (hR : ∀ x p m, normalize x p = .ok m → R x m)
    (h : normalizeSchemaList normalize (.ofString "anyOf") path schema = .ok schema') :
    Replaced R .anyOf schema schema' := by
  rw [normalizeSchemaList] at h
  split at h
  · next hnone =>
    cases h
    refine ⟨?_, fun _ _ => rfl⟩
    rw [Applicator.keyword, hnone]
    exact .none
  · next hnull =>
    cases h
    refine ⟨?_, fun _ _ => rfl⟩
    rw [Applicator.keyword, hnull]
    exact .some (.inl ⟨rfl, rfl⟩)
  · next xs hxs =>
    split_ifs at h with hne
    obtain ⟨ys, hmap, h⟩ := bind_eq_ok.1 h
    cases h
    refine .assign hxs (.inr ⟨xs, ys, rfl, rfl, hne, ?_⟩)
    have hys : List.Forall₂ (fun x y => ∃ m, y = .obj m ∧ R x m) (xs.zipIdx.map Prod.fst) ys := by
      refine List.forall₂_map_left_iff.2 ((mapM_eq_ok.1 hmap).imp ?_)
      rintro ⟨x, index⟩ y hy
      obtain ⟨m, hm, hy⟩ := bind_eq_ok.1 hy
      cases hy
      exact ⟨m, rfl, hR _ _ _ hm⟩
    rwa [List.zipIdx_map_fst] at hys
  · cases h

/-! ## The checks -/

/-- The checks of the values of keywords. -/
def keywordChecks : List (String × (Json.Tree F → Bool)) :=
  [("required", nullOr areUniqueStrings), ("enum", nullOr areStrings)] ++
    ["title", "description", "format", "pattern", "$schema"].map
      (·, fun x => (asString x).isSome) ++
    ["minItems", "maxItems", "minLength", "maxLength", "minProperties", "maxProperties"].map
      (·, isCount) ++
    ["minimum", "maximum"].map (·, isNumber)

theorem checkKeyword_eq_ok {check : Json.Tree F → Bool} {reason : Reason} {keyword : String} :
    checkKeyword schema path check reason keyword = .ok () ↔
      ∀ x, schema.lookup (.ofString keyword) = some x → check x := by
  rw [checkKeyword]
  split
  · next x hx =>
    rw [hx]
    split_ifs with hcheck
    · simp [hcheck]
    · simp [hcheck]
  · next hx => simp [hx]

theorem seq_eq_ok {ε : Type} {x y : Except ε Unit} :
    (do x; y) = .ok () ↔ x = .ok () ∧ y = .ok () :=
  bind_eq_ok.trans ⟨fun ⟨(), hx, hy⟩ => ⟨hx, hy⟩, fun h => ⟨(), h⟩⟩

/-- A loop of checks. -/
theorem forIn_eq_ok {α ε : Type} {f : α → Except ε Unit} {xs : List α} :
    forIn xs PUnit.unit (fun x _ => do f x; pure (ForInStep.yield PUnit.unit)) = .ok PUnit.unit ↔
      ∀ x ∈ xs, f x = .ok () := by
  induction xs with
  | nil => simp [pure, Except.pure]
  | cons x xs ih =>
    rw [List.forIn_cons, List.forall_mem_cons, ← ih]
    rcases f x with error | ⟨⟩
    · exact iff_of_false (fun h => by cases h) fun h => by cases h.1
    · exact ⟨fun h => ⟨rfl, h⟩, And.right⟩

theorem validateKeywordValues_eq_ok : validateKeywordValues schema path = .ok () ↔
    ∀ c ∈ keywordChecks, ∀ x, schema.lookup (.ofString c.1) = some x → c.2 x := by
  have hdone : (pure () : Except IncompatibleToolSchema Unit) = .ok () ↔ True := iff_true_intro rfl
  rw [validateKeywordValues]
  simp only [seq_eq_ok, checkKeyword_eq_ok, forIn_eq_ok, keywordChecks, List.forall_mem_append,
    List.forall_mem_map, List.forall_mem_cons, List.not_mem_nil, false_imp_iff, forall_true_iff,
    and_true, hdone, and_assoc]

theorem keywordChecks_ne (c : String × (Json.Tree F → Bool)) (hc : c ∈ keywordChecks) :
    (.ofString c.1 : Str) ≠ .ofString "type" ∧ (.ofString c.1 : Str) ≠ .ofString "$defs" ∧
      (.ofString c.1 : Str) ≠ .ofString "definitions" := by
  have hkeywords : ∀ k ∈ ["required", "enum", "title", "description", "format", "pattern",
      "$schema", "minItems", "maxItems", "minLength", "maxLength", "minProperties",
      "maxProperties", "minimum", "maximum"], (.ofString k : Str) ≠ .ofString "type" ∧
        (.ofString k : Str) ≠ .ofString "$defs" ∧
        (.ofString k : Str) ≠ .ofString "definitions" := by
    decide
  exact hkeywords c.1 (List.mem_map_of_mem hc)

theorem validateDeclaredType_eq_ok : validateDeclaredType schema path = .ok () ↔
    ∀ x, schema.lookup (.ofString "type") = some x → isSupportedType x := by
  rw [validateDeclaredType]
  split
  · next x hx =>
    rw [hx, validateType]
    split_ifs with hcheck
    · simp [hcheck]
    · simp [hcheck]
  · next hx => simp [hx]

/-! ## One level -/

theorem keyword_injective : Function.Injective Applicator.keyword := by
  intro a b h
  cases a <;> cases b <;> first | rfl | exact absurd h (by decide)

/-- A keyword that a step for another leaves. -/
theorem Replaced.lookup_of_ne {a b : Applicator} (h : Replaced R a schema schema') (hb : b ≠ a) :
    schema'.lookup b.keyword = schema.lookup b.keyword :=
  h.other _ (keyword_injective.ne hb)

theorem isSome_eq_of_rel {α β : Type} {r : α → β → Prop} {x : Option α} {y : Option β}
    (h : Option.Rel r x y) : x.isSome = y.isSome := by
  cases h <;> rfl

theorem none_iff_of_rel {α β : Type} {r : α → β → Prop} {x : Option α} {y : Option β}
    (h : Option.Rel r x y) : x = none ↔ y = none := by
  cases h <;> simp

/-- What normalizing the keywords of a schema does. -/
structure Normalized (R : Json.Tree F → Members F → Prop) (schema r : Members F) : Prop where
  applicator : ∀ a : Applicator,
    Option.Rel (Rewritten R a) (schema.lookup a.keyword) (r.lookup a.keyword)
  type : r.lookup (.ofString "type") = schema.lookup (.ofString "type") ∨
    (schema.lookup (.ofString "type") = none ∧ schema.lookup (.ofString "anyOf") = none) ∧
      ∃ name, inferType schema = some name ∧ r.lookup (.ofString "type") = some (.str name)
  typed : (r.lookup (.ofString "type")).isSome ∨ (r.lookup (.ofString "anyOf")).isSome
  supported : ∀ x, r.lookup (.ofString "type") = some x → isSupportedType x
  values : ∀ c ∈ keywordChecks, ∀ x, r.lookup (.ofString c.1) = some x → c.2 x
  definitions : r.lookup (.ofString "$defs") = none ∧ r.lookup (.ofString "definitions") = none
  other : ∀ k, (∀ a : Applicator, k ≠ a.keyword) → k ≠ .ofString "type" →
    k ≠ .ofString "$defs" → k ≠ .ofString "definitions" → r.lookup k = schema.lookup k

theorem inferType_congr (h : ∀ a : Applicator,
    (schema.lookup a.keyword).isSome = (schema'.lookup a.keyword).isSome)
    (henum : schema.lookup (.ofString "enum") = schema'.lookup (.ofString "enum")) :
    inferType schema = inferType schema' := by
  have hp := h .properties
  have ha := h .additionalProperties
  have hi := h .items
  simp only [Applicator.keyword] at hp ha hi
  rw [inferType, inferType]
  simp only [hp, ha, hi, henum]

theorem inferType_supported {name : Str} (h : inferType schema = some name) :
    isSupportedType (.str name : Json.Tree F) := by
  rw [inferType] at h
  split_ifs at h <;> cases h <;> rw [isSupportedType] <;> decide

theorem withInferredType_cases (h : withInferredType path schema = .ok schema') :
    ((schema.lookup (.ofString "type")).isSome ∨ (schema.lookup (.ofString "anyOf")).isSome) ∧
      schema' = schema ∨
    (schema.lookup (.ofString "type") = none ∧ schema.lookup (.ofString "anyOf") = none) ∧
      ∃ name, inferType schema = some name ∧
        schema' = assign (.ofString "type") (.str name) schema := by
  rw [withInferredType] at h
  split_ifs at h with hnone
  · simp only [Bool.and_eq_true, Option.isNone_iff_eq_none] at hnone
    split at h
    · cases h
    · next name hname =>
      cases h
      exact .inr ⟨hnone, name, hname, rfl⟩
  · cases h
    refine .inl ⟨?_, rfl⟩
    by_contra hall
    rw [not_or, Option.not_isSome_iff_eq_none, Option.not_isSome_iff_eq_none] at hall
    exact hnone (by rw [hall.1, hall.2]; rfl)

theorem normalizeKeywords_normalized {r : Members F}
    (hR : ∀ x p m, normalize x p = .ok m → R x m)
    (h : normalizeKeywords normalize path schema = .ok r) : Normalized R schema r := by
  rw [normalizeKeywords] at h
  obtain ⟨s₁, h₁, h⟩ := bind_eq_ok.1 h
  obtain ⟨s₂, h₂, h⟩ := bind_eq_ok.1 h
  obtain ⟨s₃, h₃, h⟩ := bind_eq_ok.1 h
  obtain ⟨s₄, h₄, h⟩ := bind_eq_ok.1 h
  obtain ⟨⟨⟩, hvalues, h⟩ := bind_eq_ok.1 h
  obtain ⟨⟨⟩, htype, h⟩ := bind_eq_ok.1 h
  obtain ⟨s₅, h₅, h⟩ := bind_eq_ok.1 h
  cases h
  have h₁ := normalizeSchemaMap_replaced hR h₁
  have h₂ : Replaced R .items s₁ s₂ :=
    normalizeSchemaValue_replaced hR (fun x m _ hm => ⟨m, rfl, hm⟩) h₂
  have h₃ := normalizeAdditionalProperties_replaced hR h₃
  have h₄ := normalizeSchemaList_replaced hR h₄
  -- each keyword is replaced by one of the four steps
  have happlicator : ∀ a : Applicator,
      Option.Rel (Rewritten R a) (schema.lookup a.keyword) (s₄.lookup a.keyword) := by
    intro a
    cases a with
    | properties =>
      rw [h₄.lookup_of_ne (by decide), h₃.lookup_of_ne (by decide), h₂.lookup_of_ne (by decide)]
      exact h₁.keyword
    | items =>
      rw [h₄.lookup_of_ne (by decide), h₃.lookup_of_ne (by decide),
        ← h₁.lookup_of_ne (by decide)]
      exact h₂.keyword
    | additionalProperties =>
      rw [h₄.lookup_of_ne (by decide), ← h₁.lookup_of_ne (by decide),
        ← h₂.lookup_of_ne (by decide)]
      exact h₃.keyword
    | anyOf =>
      rw [← h₁.lookup_of_ne (by decide), ← h₂.lookup_of_ne (by decide),
        ← h₃.lookup_of_ne (by decide)]
      exact h₄.keyword
  have hother : ∀ k, (∀ a : Applicator, k ≠ a.keyword) → s₄.lookup k = schema.lookup k := by
    intro k hk
    rw [h₄.other k (hk _), h₃.other k (hk _), h₂.other k (hk _), h₁.other k (hk _)]
  have htypeKey : ∀ a : Applicator, .ofString "type" ≠ a.keyword := by
    intro a
    cases a <;> decide
  have hanyOf := none_iff_of_rel (happlicator .anyOf)
  -- what is left of the definitions and of the inferred type
  obtain ⟨htyped, hinferred, hkept⟩ : ((s₅.lookup (.ofString "type")).isSome ∨
        (s₅.lookup (.ofString "anyOf")).isSome) ∧
      (s₅.lookup (.ofString "type") = schema.lookup (.ofString "type") ∨
        (schema.lookup (.ofString "type") = none ∧ schema.lookup (.ofString "anyOf") = none) ∧
          ∃ name, inferType schema = some name ∧
            s₅.lookup (.ofString "type") = some (.str name)) ∧
      ∀ k ≠ .ofString "type", s₅.lookup k = s₄.lookup k := by
    rcases withInferredType_cases h₅ with ⟨hsome, rfl⟩ | ⟨⟨hnone, hnone'⟩, name, hname, rfl⟩
    · exact ⟨hsome, .inl (hother _ htypeKey), fun _ _ => rfl⟩
    · have hself := lookup_assign (.ofString "type") (.ofString "type") (.str name) s₄
      rw [if_pos rfl] at hself
      refine ⟨.inl (by rw [hself]; rfl), .inr ⟨⟨hother _ htypeKey ▸ hnone, hanyOf.2 hnone'⟩, name,
        ?_, hself⟩, fun k hk => by rw [lookup_assign, if_neg (Ne.symm hk)]⟩
      rw [← hname]
      exact inferType_congr (fun a => isSome_eq_of_rel (happlicator a))
        (hother _ fun a => by cases a <;> decide).symm
  have hpop : ∀ k ≠ .ofString "$defs", k ≠ .ofString "definitions" →
      (pop (.ofString "definitions") (pop (.ofString "$defs") s₅)).lookup k = s₅.lookup k := by
    intro k hk hk'
    rw [lookup_pop, if_neg hk', lookup_pop, if_neg hk]
  have htype' := hpop (.ofString "type") (by decide) (by decide)
  refine ⟨fun a => ?_, ?_, ?_, ?_, ?_, ⟨by simp, by simp⟩, fun k ha ht hd hd' => ?_⟩
  · rw [hpop _ (by cases a <;> decide) (by cases a <;> decide), hkept _ (htypeKey a).symm]
    exact happlicator a
  · rw [htype']
    exact hinferred
  · rw [htype', hpop _ (by decide) (by decide)]
    exact htyped
  · intro x hx
    rw [htype'] at hx
    rcases hinferred with heq | ⟨-, name, hname, heq⟩
    · rw [heq, ← hother _ htypeKey] at hx
      exact validateDeclaredType_eq_ok.1 htype x hx
    · rw [heq] at hx
      cases hx
      exact inferType_supported hname
  · intro c hc x hx
    obtain ⟨hct, hcd, hcd'⟩ := keywordChecks_ne c hc
    rw [hpop _ hcd hcd', hkept _ hct] at hx
    exact validateKeywordValues_eq_ok.1 hvalues c hc x hx
  · rw [hpop k hd hd', hkept k ht, hother k ha]

end Hyperforge.Mcp
