import Hyperforge.Mcp.Rewrite

/-!
# Stable schemas

A schema that has been normalized is stable (`normalizeSchema_stable`), so that normalizing
it again changes nothing (`Stable.normalizeSchema_eq`). It follows that a schema with a
reference becomes exactly what is referred to, normalized, with its annotations, and
any other schema is normalized keyword by keyword (`normalizeSchema_cases`).
-/

namespace Hyperforge.Mcp

open Json hiding Tree
open Crash JsonSchema

variable {F : Type}

/-! ## Stable schemas -/

/-- The schemas that a keyword applies all satisfy `S`. -/
def StableValue (S : Json.Tree F → Prop) : Applicator → Json.Tree F → Prop
  | .properties, x => x = .null ∨ ∃ ps, x = .obj ps ∧ ∀ p ∈ ps, S p.2
  | .items, x => S x
  | .additionalProperties, x => (∃ b, x = .bool b) ∨ (∀ b, x ≠ .bool b) ∧ S x
  | .anyOf, x => x = .null ∨ ∃ xs, x = .arr xs ∧ xs ≠ [] ∧ ∀ y ∈ xs, S y

/-- A schema that normalizing does not change, if it does not change those it applies. -/
structure StableNode (S : Json.Tree F → Prop) (schema : Members F) : Prop where
  applicator : ∀ a : Applicator, ∀ x, schema.lookup a.keyword = some x → StableValue S a x
  typed : (schema.lookup (.ofString "type")).isSome ∨ (schema.lookup (.ofString "anyOf")).isSome
  supported : ∀ x, schema.lookup (.ofString "type") = some x → isSupportedType x
  values : ∀ c ∈ keywordChecks, ∀ x, schema.lookup (.ofString c.1) = some x → c.2 x
  definitions : schema.lookup (.ofString "$defs") = none ∧
    schema.lookup (.ofString "definitions") = none
  keywords : ∀ k ∈ schema.map Prod.fst, k ∈ nuaCommonKeywords ∧ k ∉ ignoredAnnotationKeywords
  noReference : schema.lookup refKeyword = none

/-- Normalizing does not change a schema of at most so many levels. -/
def Stable : ℕ → Json.Tree F → Prop
  | n + 1, .obj schema => StableNode (Stable n) schema
  | _, _ => False

theorem StableValue.imp {S S' : Json.Tree F → Prop} (hS : ∀ x, S x → S' x) {a : Applicator}
    {x : Json.Tree F} (h : StableValue S a x) : StableValue S' a x := by
  cases a with
  | properties => exact h.imp_right fun ⟨ps, hx, hps⟩ => ⟨ps, hx, fun p hp => hS _ (hps p hp)⟩
  | items => exact hS _ h
  | additionalProperties => exact h.imp_right fun ⟨hx, hs⟩ => ⟨hx, hS _ hs⟩
  | anyOf =>
    exact h.imp_right fun ⟨xs, hx, hne, hxs⟩ => ⟨xs, hx, hne, fun y hy => hS _ (hxs y hy)⟩

theorem StableNode.imp {S S' : Json.Tree F → Prop} (hS : ∀ x, S x → S' x) {schema : Members F}
    (h : StableNode S schema) : StableNode S' schema :=
  { h with applicator := fun a x hx => (h.applicator a x hx).imp hS }

theorem Stable.succ {n : ℕ} {t : Json.Tree F} (h : Stable n t) : Stable (n + 1) t := by
  induction n generalizing t with
  | zero => exact h.elim
  | succ n ih =>
    rcases t with _ | _ | _ | _ | _ | _ | schema
    case obj =>
      rw [Stable] at h ⊢
      exact h.imp fun _ => ih
    all_goals exact h.elim

theorem Stable.exists_obj {n : ℕ} {t : Json.Tree F} (h : Stable n t) : ∃ m, t = .obj m := by
  rcases n with _ | n
  · exact h.elim
  rcases t with _ | _ | _ | _ | _ | _ | m
  case obj => exact ⟨m, rfl⟩
  all_goals exact h.elim

section Fixed

variable {normalize : Json.Tree F → List Str → Except IncompatibleToolSchema (Members F)}
  {path : List Str} {schema : Members F}

/-- Normalizing does not change the schema. -/
def Fixed (normalize : Json.Tree F → List Str → Except IncompatibleToolSchema (Members F))
    (x : Json.Tree F) : Prop :=
  ∃ m, x = .obj m ∧ ∀ path, normalize x path = .ok m

theorem normalizeSchemaMap_fixed (h : ∀ x, schema.lookup (.ofString "properties") = some x →
    StableValue (Fixed normalize) .properties x) :
    normalizeSchemaMap normalize (.ofString "properties") path schema = .ok schema := by
  rw [normalizeSchemaMap]
  split
  · rfl
  · rfl
  · next values hvalues =>
    rcases h _ hvalues with hx | ⟨ps, hx, hps⟩
    · cases hx
    cases hx
    refine bind_eq_ok.2 ⟨values, mapM_eq_ok.2 (List.forall₂_same.2 ?_), ?_⟩
    · rintro ⟨name, value⟩ hp
      obtain ⟨m, hm, hfixed⟩ := hps _ hp
      refine bind_eq_ok.2 ⟨m, hfixed _, ?_⟩
      exact congrArg (fun x => Except.ok (name, x)) hm.symm
    · rw [assign_of_lookup hvalues]
  · next x hnull hobj hx =>
    rcases h _ hx with rfl | ⟨ps, rfl, -⟩
    · exact (hnull rfl).elim
    · exact (hobj ps rfl).elim

theorem normalizeSchemaValue_fixed {keyword : Str}
    (h : ∀ x, schema.lookup keyword = some x → Fixed normalize x) :
    normalizeSchemaValue normalize keyword path schema = .ok schema := by
  rw [normalizeSchemaValue]
  split
  · rfl
  · next x hx =>
    obtain ⟨m, rfl, hfixed⟩ := h x hx
    refine bind_eq_ok.2 ⟨m, hfixed _, ?_⟩
    rw [assign_of_lookup hx]

theorem normalizeAdditionalProperties_fixed
    (h : ∀ x, schema.lookup (.ofString "additionalProperties") = some x →
      StableValue (Fixed normalize) .additionalProperties x) :
    normalizeAdditionalProperties normalize path schema = .ok schema := by
  rw [normalizeAdditionalProperties]
  split
  · rfl
  · next hb =>
    refine normalizeSchemaValue_fixed fun x hx => ?_
    rcases h x hx with ⟨b, rfl⟩ | ⟨-, hfixed⟩
    · exact absurd hx (hb b)
    · exact hfixed

theorem normalizeSchemaList_fixed (h : ∀ x, schema.lookup (.ofString "anyOf") = some x →
    StableValue (Fixed normalize) .anyOf x) :
    normalizeSchemaList normalize (.ofString "anyOf") path schema = .ok schema := by
  rw [normalizeSchemaList]
  split
  · rfl
  · rfl
  · next alternatives halternatives =>
    rcases h _ halternatives with hx | ⟨xs, hx, hne, hxs⟩
    · cases hx
    cases hx
    rw [if_neg hne]
    refine bind_eq_ok.2 ⟨alternatives, mapM_eq_ok.2 ?_, ?_⟩
    · -- the loop has the items with their indices
      have hitems : List.Forall₂ (fun p y => p.1 = y ∧ Fixed normalize p.1) alternatives.zipIdx
          (alternatives.zipIdx.map Prod.fst) := by
        rw [List.forall₂_map_right_iff, List.forall₂_same]
        exact fun p hp => ⟨rfl, hxs p.1 (List.fst_mem_of_mem_zipIdx hp)⟩
      rw [List.zipIdx_map_fst] at hitems
      refine hitems.imp ?_
      rintro ⟨x, index⟩ y ⟨rfl, m, hm, hfixed⟩
      refine bind_eq_ok.2 ⟨m, hfixed _, ?_⟩
      rw [← hm]
    · rw [assign_of_lookup halternatives]
  · next x hnull harr hx =>
    rcases h _ hx with rfl | ⟨xs, rfl, -⟩
    · exact (hnull rfl).elim
    · exact (harr xs rfl).elim

/-- What remains of the normalization of a schema whose parts are fixed: the checks. -/
theorem normalizeKeywords_fixed
    (h : ∀ a : Applicator, ∀ x, schema.lookup a.keyword = some x →
      StableValue (Fixed normalize) a x)
    (ht : (schema.lookup (.ofString "type")).isSome ∨ (schema.lookup (.ofString "anyOf")).isSome)
    (hd : schema.lookup (.ofString "$defs") = none ∧
      schema.lookup (.ofString "definitions") = none) :
    normalizeKeywords normalize path schema = (do
      validateKeywordValues schema path
      validateDeclaredType schema path
      .ok schema) := by
  have hinferred : withInferredType path schema = .ok schema := by
    rw [withInferredType, if_neg]
    rw [Bool.and_eq_true, Option.isNone_iff_eq_none, Option.isNone_iff_eq_none]
    intro h
    rw [h.1, h.2] at ht
    exact ht.elim Bool.false_ne_true Bool.false_ne_true
  have hpop : pop (.ofString "definitions") (pop (.ofString "$defs") schema) = schema := by
    rw [pop_of_lookup_eq_none hd.1, pop_of_lookup_eq_none hd.2]
  have hitems : normalizeSchemaValue normalize (.ofString "items") path schema = .ok schema :=
    normalizeSchemaValue_fixed (h .items)
  have hbind (f : Members F → Except IncompatibleToolSchema (Members F)) :
      (Except.ok schema >>= f) = f schema := rfl
  simp only [normalizeKeywords, normalizeSchemaMap_fixed (h .properties), hitems,
    normalizeAdditionalProperties_fixed (h .additionalProperties),
    normalizeSchemaList_fixed (h .anyOf), hinferred, hbind, hpop]

end Fixed

theorem filter_ignored {schema : Members F}
    (h : ∀ k ∈ schema.map Prod.fst, k ∈ nuaCommonKeywords ∧ k ∉ ignoredAnnotationKeywords) :
    schema.filter (·.1 ∉ ignoredAnnotationKeywords) = schema := by
  rw [List.filter_eq_self]
  exact fun m hm => decide_eq_true (h m.1 (List.mem_map_of_mem hm)).2

theorem checkSupported_eq_ok {schema : Members F} {path : List Str} :
    checkSupported schema path = .ok () ↔ ∀ k ∈ schema.map Prod.fst, k ∈ nuaCommonKeywords := by
  rw [checkSupported]
  split
  · next k x hk =>
    refine iff_of_false (fun h => by cases h) fun h => ?_
    have := List.find?_some hk
    rw [decide_eq_true_eq] at this
    exact this (h k (List.mem_map_of_mem (List.mem_of_find?_eq_some hk)))
  · next hnone =>
    simpa [List.find?_eq_none] using hnone

/-- Normalizing a stable schema does not change it. -/
theorem Stable.normalizeSchema_eq (root : Members F) {n : ℕ} {schema : Members F}
    (h : Stable n (.obj schema)) (path resolving : List Str) :
    normalizeSchema root n (.obj schema) path resolving = .ok schema := by
  induction n generalizing schema path with
  | zero => exact h.elim
  | succ n ih =>
    rw [Stable] at h
    have hfixed (x : Json.Tree F) (hx : Stable n x) :
        Fixed (fun value path => normalizeSchema root n value path resolving) x := by
      obtain ⟨m, rfl⟩ := hx.exists_obj
      exact ⟨m, rfl, ih hx⟩
    have hsupported : checkSupported schema path = .ok () :=
      checkSupported_eq_ok.2 fun k hk => (h.keywords k hk).1
    have hinline (f) : inlineReference root f schema path resolving = .ok schema := by
      rw [inlineReference]
      have hnone : schema.lookup (.ofString "$ref") = none := h.noReference
      simp only [hnone, pop_of_lookup_eq_none hnone]
    have hvalues : validateKeywordValues schema path = .ok () :=
      validateKeywordValues_eq_ok.2 h.values
    have htype : validateDeclaredType schema path = .ok () :=
      validateDeclaredType_eq_ok.2 h.supported
    rw [normalizeSchema, filter_ignored h.keywords]
    refine bind_eq_ok.2 ⟨(), hsupported, bind_eq_ok.2 ⟨schema, hinline _, ?_⟩⟩
    rw [normalizeKeywords_fixed (fun a x hx => (h.applicator a x hx).imp hfixed) h.typed
      h.definitions, hvalues, htype]
    rfl

theorem Stable.fixed (root : Members F) {n : ℕ} {x : Json.Tree F} (h : Stable n x)
    (resolving : List Str) :
    Fixed (fun value path => normalizeSchema root n value path resolving) x := by
  obtain ⟨m, rfl⟩ := h.exists_obj
  exact ⟨m, rfl, fun path => h.normalizeSchema_eq root path resolving⟩

/-! ## References -/

/-- What a local reference refers to. -/
def localReference (root : Members F) (reference : Str) : Option (Json.Tree F) :=
  match localPointer (.str reference : Json.Tree F) [] with
  | .ok (reference, pointer) =>
    match resolveReference root reference pointer [] with
    | .ok target => some (.obj target)
    | .error _ => none
  | .error _ => none

theorem localPointer_eq_ok {reference : Json.Tree F} {path : List Str} {r : Str × Str}
    (h : localPointer reference path = .ok r) :
    reference = .str r.1 ∧ ∀ path', localPointer reference path' = .ok r := by
  unfold localPointer at h ⊢
  split at h
  · next fragment =>
    split_ifs at h with hescape
    split at h
    · cases h
    · next pointer hpointer =>
      split_ifs at h with hslash
      cases h
      refine ⟨rfl, fun path' => ?_⟩
      simp [hescape, hslash]
  · cases h

theorem resolvePart_eq_ok {reference encodedPart : Str} {path path' : List Str}
    {target target' : Json.Tree F}
    (h : resolvePart reference path target encodedPart = .ok target') :
    resolvePart reference path' target encodedPart = .ok target' := by
  unfold resolvePart at h ⊢
  split_ifs at h ⊢ with hescape
  rcases target with _ | _ | _ | _ | _ | items | members
  case arr =>
    simp only at h ⊢
    split at h
    · next hitem => simpa [hitem] using h
    · cases h
  case obj =>
    simp only at h ⊢
    split at h
    · next hmember => simpa [hmember] using h
    · cases h
  all_goals cases h

theorem resolveReference_eq_ok {root : Members F} {reference pointer : Str} {path path' : List Str}
    {target : Members F} (h : resolveReference root reference pointer path = .ok target) :
    resolveReference root reference pointer path' = .ok target := by
  obtain ⟨t, hfold, h⟩ := bind_eq_ok.1 h
  refine bind_eq_ok.2 ⟨t, ?_, ?_⟩
  · clear h
    generalize Tree.obj root = start at hfold ⊢
    generalize pointer.tail.splitOn (.scalar '/') = parts at hfold ⊢
    induction parts generalizing start with
    | nil => exact hfold
    | cons part parts ih =>
      obtain ⟨next, hnext, hfold⟩ := bind_eq_ok.1 hfold
      exact bind_eq_ok.2 ⟨next, resolvePart_eq_ok hnext, ih next hfold⟩
  · rcases t with _ | _ | _ | _ | _ | _ | members
    case obj => exact h
    all_goals cases h

/-- A schema without a reference stays as it is; else it becomes what is referred to, normalized,
    with annotations. -/
theorem inlineReference_cases {root : Members F}
    {normalize : Json.Tree F → List Str → Except IncompatibleToolSchema (Members F)}
    {current current' : Members F} {path resolving : List Str}
    (h : inlineReference root normalize current path resolving = .ok current') :
    (current.lookup refKeyword = none ∨ current.lookup refKeyword = some .null) ∧
      current' = pop refKeyword current ∨
    ∃ reference target resolving' resolved, current.lookup refKeyword = some (.str reference) ∧
      localReference root reference = some (.obj target) ∧
      normalize (.obj target) resolving' = .ok resolved ∧
      (∀ k ∈ current.map Prod.fst, k = refKeyword ∨ k ∈ annotationKeywords ∨
        k = .ofString "$defs" ∨ k = .ofString "definitions") ∧
      current' = update resolved ((pop refKeyword current).filter (·.1 ∈ annotationKeywords)) := by
  rw [inlineReference] at h
  split at h
  · next hnone =>
    cases h
    exact .inl ⟨.inl hnone, rfl⟩
  · next hnull =>
    cases h
    exact .inl ⟨.inr hnull, rfl⟩
  · next reference hnull hreference =>
    obtain ⟨⟨text, pointer⟩, hpointer, h⟩ := bind_eq_ok.1 h
    dsimp only at h
    split_ifs at h with hcycle hsiblings hsiblings
    · cases h
    · cases h
    · obtain ⟨target, -, h⟩ := bind_eq_ok.1 h
      obtain ⟨resolved, -, h⟩ := bind_eq_ok.1 h
      cases h
    obtain ⟨target, htarget, h⟩ := bind_eq_ok.1 h
    obtain ⟨resolved, hresolved, h⟩ := bind_eq_ok.1 h
    cases h
    obtain ⟨rfl, hpointer⟩ := localPointer_eq_ok hpointer
    refine .inr ⟨text, target, _, resolved, hreference, ?_, hresolved, fun k hk => ?_, rfl⟩
    · rw [localReference, hpointer]
      simp only [resolveReference_eq_ok htarget]
    · -- what is neither an annotation nor definitions has been refused
      rw [not_not] at hsiblings
      by_contra hother
      simp only [not_or] at hother
      have hleft : k ∈ (pop (.ofString "definitions") (pop (.ofString "$defs")
          ((pop refKeyword current).filter (·.1 ∉ annotationKeywords)))).map Prod.fst := by
        obtain ⟨m, hm, rfl⟩ := List.mem_map.1 hk
        refine mem_keys_pop.2 ⟨hother.2.2.2, mem_keys_pop.2 ⟨hother.2.2.1, ?_⟩⟩
        refine List.mem_map.2 ⟨m, List.mem_filter.2 ⟨?_, decide_eq_true hother.2.1⟩, rfl⟩
        exact List.mem_filter.2 ⟨hm, decide_eq_true hother.1⟩
      have hnil : pop (.ofString "definitions") (pop (.ofString "$defs")
        ((pop refKeyword current).filter (·.1 ∉ annotationKeywords))) = [] := hsiblings
      rw [hnil] at hleft
      exact List.not_mem_nil hleft

/-! ## Normalized schemas are stable -/

theorem Rewritten.stable {S : Json.Tree F → Prop} {a : Applicator} {x y : Json.Tree F}
    (h : Rewritten (fun _ m => S (.obj m)) a x y) : StableValue S a y := by
  cases a with
  | properties =>
    rcases h with ⟨-, rfl⟩ | ⟨ps, qs, -, rfl, hqs⟩
    · exact .inl rfl
    · refine .inr ⟨qs, rfl, fun q hq => ?_⟩
      obtain ⟨p, -, -, m, hm, hs⟩ := exists_of_mem_forall₂ hqs hq
      exact hm ▸ hs
  | items =>
    obtain ⟨m, rfl, hs⟩ := h
    exact hs
  | additionalProperties =>
    rcases h with ⟨b, -, rfl⟩ | ⟨-, m, rfl, hs⟩
    · exact .inl ⟨b, rfl⟩
    · exact .inr ⟨nofun, hs⟩
  | anyOf =>
    rcases h with ⟨-, rfl⟩ | ⟨xs, ys, -, rfl, hne, hys⟩
    · exact .inl rfl
    · refine .inr ⟨ys, rfl, ?_, fun y hy => ?_⟩
      · rintro rfl
        exact hne (List.forall₂_nil_right_iff.1 hys)
      · obtain ⟨x, -, m, hm, hs⟩ := exists_of_mem_forall₂ hys hy
        exact hm ▸ hs

theorem Normalized.stable {S : Json.Tree F → Prop} {schema r : Members F}
    (h : Normalized (fun _ m => S (.obj m)) schema r)
    (hk : ∀ k ∈ schema.map Prod.fst, k ∈ nuaCommonKeywords ∧ k ∉ ignoredAnnotationKeywords)
    (hr : schema.lookup refKeyword = none) : StableNode S r where
  applicator a y hy := by
    have hrel := h.applicator a
    rw [hy] at hrel
    rcases hx : schema.lookup a.keyword with _ | x
    · rw [hx] at hrel
      cases hrel
    · rw [hx] at hrel
      cases hrel with
      | some hxy => exact hxy.stable
  typed := h.typed
  supported := h.supported
  values := h.values
  definitions := h.definitions
  keywords k hkr := by
    have hsome : r.lookup k ≠ none := mt lookup_eq_none.1 (not_not.2 hkr)
    by_cases ha : ∃ a : Applicator, k = a.keyword
    · obtain ⟨a, rfl⟩ := ha
      cases a <;> decide
    rw [not_exists] at ha
    by_cases ht : k = .ofString "type"
    · rw [ht]
      decide
    by_cases hd : k = .ofString "$defs"
    · rw [hd, h.definitions.1] at hsome
      exact absurd rfl hsome
    by_cases hd' : k = .ofString "definitions"
    · rw [hd', h.definitions.2] at hsome
      exact absurd rfl hsome
    rw [h.other k ha ht hd hd', ne_eq, lookup_eq_none, not_not] at hsome
    exact hk k hsome
  noReference := by
    rw [h.other _ (fun a => by cases a <;> decide) (by decide) (by decide) (by decide), hr]

/-- Annotations do not change what else a schema says. -/
theorem lookup_annotated {resolved annotations : Members F}
    (ha : ∀ k ∈ annotations.map Prod.fst, k ∈ annotationKeywords) {k : Str}
    (hk : k ∉ annotationKeywords) : (update resolved annotations).lookup k = resolved.lookup k :=
  lookup_update_of_notMem _ _ fun h => hk (ha k h)

theorem applicator_notMem (a : Applicator) : a.keyword ∉ annotationKeywords := by
  cases a <;> decide

theorem StableNode.annotate {S : Json.Tree F → Prop} {resolved annotations : Members F}
    (h : StableNode S resolved) (ha : ∀ k ∈ annotations.map Prod.fst, k ∈ annotationKeywords)
    (hv : ∀ c ∈ keywordChecks, ∀ x,
      (update resolved annotations).lookup (.ofString c.1) = some x → c.2 x) :
    StableNode S (update resolved annotations) where
  applicator a x hx := h.applicator a x (lookup_annotated ha (applicator_notMem a) ▸ hx)
  typed := by
    rw [lookup_annotated ha (by decide), lookup_annotated ha (by decide)]
    exact h.typed
  supported x hx := by
    rw [lookup_annotated ha (by decide)] at hx
    exact h.supported x hx
  values := hv
  definitions := by
    rw [lookup_annotated ha (by decide), lookup_annotated ha (by decide)]
    exact h.definitions
  keywords k hk := by
    rcases (mem_keys_update _ _).1 hk with hk | hk
    · exact h.keywords k hk
    · have hannotation : ∀ k ∈ annotationKeywords,
          k ∈ nuaCommonKeywords ∧ k ∉ ignoredAnnotationKeywords := by decide
      exact hannotation k (ha k hk)
  noReference := by
    have hne : refKeyword ∉ annotationKeywords := by decide
    rw [lookup_annotated ha hne]
    exact h.noReference

theorem Stable.node {n : ℕ} {schema : Members F} (h : Stable n (.obj schema)) :
    StableNode (Stable n) schema := by
  rcases n with _ | n
  · exact h.elim
  · rw [Stable] at h
    exact h.imp fun _ => Stable.succ

/-- As the parts of a stable schema are stable, only the checks are left when it has been
    annotated. -/
theorem Stable.normalizeKeywords_annotated (root : Members F) {n : ℕ}
    {resolved annotations : Members F} (h : Stable n (.obj resolved))
    (ha : ∀ k ∈ annotations.map Prod.fst, k ∈ annotationKeywords) (path resolving : List Str) :
    normalizeKeywords (fun value path => normalizeSchema root n value path resolving) path
      (update resolved annotations) = (do
        validateKeywordValues (update resolved annotations) path
        validateDeclaredType (update resolved annotations) path
        .ok (update resolved annotations)) := by
  have hnode := h.node
  refine normalizeKeywords_fixed (fun a x hx => ?_) ?_ ?_
  · rw [lookup_annotated ha (applicator_notMem a)] at hx
    exact (hnode.applicator a x hx).imp fun y hy => hy.fixed root _
  · rw [lookup_annotated ha (by decide), lookup_annotated ha (by decide)]
    exact hnode.typed
  · rw [lookup_annotated ha (by decide), lookup_annotated ha (by decide)]
    exact hnode.definitions

/-- What is left of a schema for its keywords to be normalized. -/
def kept (schema : Members F) : Members F :=
  pop refKeyword (schema.filter (·.1 ∉ ignoredAnnotationKeywords))

theorem lookup_kept {k : Str} (hk : k ∉ ignoredAnnotationKeywords) (hr : k ≠ refKeyword)
    (schema : Members F) : (kept schema).lookup k = schema.lookup k := by
  rw [kept, lookup_pop, if_neg hr, lookup_filter (fun k => k ∉ ignoredAnnotationKeywords),
    if_pos (decide_eq_true hk)]

/-- How a schema is normalized: as what it refers to, with annotations, or else keyword by
    keyword. -/
inductive NormalizedAs (root : Members F) (n : ℕ) (schema r : Members F) : Prop
  | reference {reference : Str} {target resolved : Members F} {path resolving : List Str}
    (hlookup : schema.lookup refKeyword = some (.str reference))
    (htarget : localReference root reference = some (.obj target))
    (hresolved : normalizeSchema root n (.obj target) path resolving = .ok resolved)
    (hsiblings : ∀ k ∈ schema.map Prod.fst, k ∈ ignoredAnnotationKeywords ∨ k = refKeyword ∨
      k ∈ annotationKeywords ∨ k = .ofString "$defs" ∨ k = .ofString "definitions")
    {annotations : Members F} (ha : ∀ k ∈ annotations.map Prod.fst, k ∈ annotationKeywords)
    (hr : r = update resolved annotations)
  | keywords (hlookup : schema.lookup refKeyword = none ∨ schema.lookup refKeyword = some .null)
    (hnormalized : Normalized (fun x m => ∃ path resolving,
      normalizeSchema root n x path resolving = .ok m) (kept schema) r)

/-- What normalizing a schema does, given that what it applies becomes stable. -/
theorem normalizeSchema_cases' {root : Members F} {n : ℕ} {s : Json.Tree F}
    {path resolving : List Str} {r : Members F}
    (hstable : ∀ s path resolving m, normalizeSchema root n s path resolving = .ok m →
      Stable n (.obj m))
    (h : normalizeSchema root (n + 1) s path resolving = .ok r) :
    ∃ schema, s = .obj schema ∧ NormalizedAs root n schema r ∧ Stable (n + 1) (.obj r) := by
  rcases s with _ | _ | _ | _ | _ | _ | schema
  case obj =>
    refine ⟨schema, rfl, ?_⟩
    rw [normalizeSchema] at h
    obtain ⟨⟨⟩, hsupported, h⟩ := bind_eq_ok.1 h
    obtain ⟨current, hinline, h⟩ := bind_eq_ok.1 h
    have hlookup : (schema.filter (·.1 ∉ ignoredAnnotationKeywords)).lookup refKeyword =
        schema.lookup refKeyword := by
      rw [lookup_filter (fun k => k ∉ ignoredAnnotationKeywords), if_pos (by decide)]
    rcases inlineReference_cases hinline with ⟨hnone, rfl⟩ |
      ⟨reference, target, resolving', resolved, href, htarget, hresolved, hsiblings, rfl⟩
    · rw [hlookup] at hnone
      refine ⟨.keywords hnone (normalizeKeywords_normalized
        (fun x p m hm => ⟨p, resolving, hm⟩) h), ?_⟩
      have hnormalized := normalizeKeywords_normalized
        (R := fun _ m => Stable n (.obj m)) (fun x p m hm => hstable _ _ _ _ hm) h
      refine hnormalized.stable (fun k hk => ?_) (by simp)
      have hk := (mem_keys_pop.1 hk).2
      refine ⟨checkSupported_eq_ok.1 hsupported k hk, ?_⟩
      obtain ⟨m, hm, rfl⟩ := List.mem_map.1 hk
      exact of_decide_eq_true (List.mem_filter.1 hm).2
    · rw [hlookup] at href
      have hresolved' := hstable _ _ _ _ hresolved
      have ha : ∀ k ∈ ((pop refKeyword (schema.filter (·.1 ∉ ignoredAnnotationKeywords))).filter
          (·.1 ∈ annotationKeywords)).map Prod.fst, k ∈ annotationKeywords := by
        intro k hk
        obtain ⟨m, hm, rfl⟩ := List.mem_map.1 hk
        exact of_decide_eq_true (List.mem_filter.1 hm).2
      rw [hresolved'.normalizeKeywords_annotated root ha] at h
      obtain ⟨⟨⟩, hvalues, h⟩ := bind_eq_ok.1 h
      obtain ⟨⟨⟩, -, h⟩ := bind_eq_ok.1 h
      cases h
      refine ⟨.reference href htarget hresolved (fun k hk => ?_) ha rfl,
        hresolved'.node.annotate ha (validateKeywordValues_eq_ok.1 hvalues)⟩
      by_cases hki : k ∈ ignoredAnnotationKeywords
      · exact .inl hki
      · obtain ⟨m, hm, rfl⟩ := List.mem_map.1 hk
        exact .inr (hsiblings m.1 (List.mem_map_of_mem
          (List.mem_filter.2 ⟨hm, decide_eq_true hki⟩)))
  all_goals cases h

/-- A normalized schema is stable. -/
theorem normalizeSchema_stable {root : Members F} {n : ℕ} {s : Json.Tree F}
    {path resolving : List Str} {r : Members F}
    (h : normalizeSchema root n s path resolving = .ok r) : Stable n (.obj r) := by
  induction n generalizing s path resolving r with
  | zero => cases h
  | succ n ih =>
    obtain ⟨_, -, -, hr⟩ := normalizeSchema_cases' (fun _ _ _ _ hm => ih hm) h
    exact hr

theorem normalizeSchema_cases {root : Members F} {n : ℕ} {s : Json.Tree F}
    {path resolving : List Str} {r : Members F}
    (h : normalizeSchema root (n + 1) s path resolving = .ok r) :
    ∃ schema, s = .obj schema ∧ NormalizedAs root n schema r := by
  obtain ⟨schema, hs, hr, -⟩ := normalizeSchema_cases'
    (fun _ _ _ _ hm => normalizeSchema_stable hm) h
  exact ⟨schema, hs, hr⟩

end Hyperforge.Mcp
