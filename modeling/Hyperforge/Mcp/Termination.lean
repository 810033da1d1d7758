import Hyperforge.Library.Json.Nodes
import Hyperforge.Library.Results
import Hyperforge.Mcp.Stable
import Mathlib.Data.Finset.Card
import Mathlib.Data.Finset.Dedup
import Mathlib.Logic.Relation

/-!
# Normalizing a schema ends

Normalizing a schema calls itself on what the schema refers to, with one more pointer being
resolved, and on its parts (`Calls`). There is a bound on how deep the calls are nested
(`Call.depth`), which decreases from a call to those it makes: either a pointer that the schemas
mention is added to those being resolved, or the schema gets smaller. The result of normalizing
what a schema refers to, which is normalized once more, is stable, so that this does not go
deeper. With so many levels, or more, the stack is enough (`run_of_depth_le`).

A schema is refused as cyclic only if calls lead to one that refers to a pointer that is being
resolved, and that either was to begin with, or has been followed on the way there
(`normalizeSchema_terminates`).
-/

namespace Hyperforge.Mcp

open Json hiding Tree
open Crash JsonSchema Relation

variable {F : Type}

/-! ## Calls -/

/-- A call of `_normalize_schema`. -/
structure Call (F : Type) where
  value : Json.Tree F
  path : List Str
  resolving : List Str

/-- The result of the call, with so many levels left of the stack. -/
def Call.run (root : Members F) (levels : ℕ) (c : Call F) :
    Except IncompatibleToolSchema (Members F) :=
  normalizeSchema root levels c.value c.path c.resolving

/-- The schemas that the value of a keyword has, with the paths to them. -/
def parts : Applicator → Json.Tree F → List (List Str × Json.Tree F)
  | .properties, .obj values => values.map fun m => ([Applicator.properties.keyword, m.1], m.2)
  | .items, x => [([Applicator.items.keyword], x)]
  | .additionalProperties, .bool _ => []
  | .additionalProperties, x => [([Applicator.additionalProperties.keyword], x)]
  | .anyOf, .arr xs => xs.zipIdx.map fun p =>
    ([Applicator.anyOf.keyword, chars (Nat.toDigits 10 p.2)], p.1)
  | _, _ => []

/-- The pointer of a value, as a reference. -/
def pointerOf (x : Json.Tree F) : Option Str :=
  match localPointer x [] with
  | .ok r => some r.2
  | .error _ => none

/-- The schema of a call refers to a pointer. -/
def Call.Refers (c : Call F) (pointer : Str) : Prop :=
  ∃ schema reference, c.value = .obj schema ∧ schema.lookup refKeyword = some reference ∧
    pointerOf reference = some pointer

/-- A call goes on with what its schema refers to. -/
inductive Follows (root : Members F) (pointer : Str) : Call F → Call F → Prop
  | intro {schema target : Members F} {reference : Str} {path resolving : List Str}
    (href : schema.lookup refKeyword = some (.str reference))
    (hpointer : pointerOf (.str reference : Json.Tree F) = some pointer)
    (hnew : pointer ∉ resolving)
    (htarget : resolveReference root reference pointer [] = .ok target) :
    Follows root pointer ⟨.obj schema, path, resolving⟩
      ⟨.obj target, path, resolving ++ [pointer]⟩

/-- A call makes another. -/
inductive Calls (root : Members F) : Call F → Call F → Prop
  | reference {pointer : Str} {c c' : Call F} (h : Follows root pointer c c') : Calls root c c'
  | part {schema : Members F} {path resolving : List Str} {a : Applicator} {x : Json.Tree F}
    {p : List Str × Json.Tree F}
    (hnone : schema.lookup refKeyword = none ∨ schema.lookup refKeyword = some .null)
    (hx : schema.lookup a.keyword = some x) (hp : p ∈ parts a x) :
    Calls root ⟨.obj schema, path, resolving⟩ ⟨p.2, path ++ p.1, resolving⟩

/-! ## The depth of calls -/

/-- The pointers that a tree mentions. -/
def mentioned (t : Json.Tree F) : List Str := t.nodes.filterMap pointerOf

/-- The pointers that may still have to be resolved. -/
def Call.unresolved (root : Members F) (c : Call F) : Finset Str :=
  (mentioned c.value ++ mentioned (.obj root)).toFinset \ c.resolving.toFinset

/-- A bound on how deep the calls that a call leads to are nested. -/
def Call.depth (root : Members F) (c : Call F) : ℕ :=
  (c.unresolved root).card * (Json.Tree.obj root).nodes.length + c.value.nodes.length

theorem mentioned_subset {x y : Json.Tree F} (h : x.nodes ⊆ y.nodes) :
    mentioned x ⊆ mentioned y := by
  intro p hp
  obtain ⟨z, hz, hzp⟩ := List.mem_filterMap.1 hp
  exact List.mem_filterMap.2 ⟨z, h hz, hzp⟩

theorem part_of_lookup {schema : Members F} {k : Str} {x : Json.Tree F}
    (h : schema.lookup k = some x) : x.Part (.obj schema) :=
  .member (m := (k, x)) (mem_of_lookup h)

/-- The schemas of a keyword are among the nodes of its value. -/
theorem mem_nodes_of_mem_parts {a : Applicator} {x : Json.Tree F} {p : List Str × Json.Tree F}
    (hp : p ∈ parts a x) : p.2 ∈ x.nodes := by
  cases a with
  | properties =>
    rcases x with _ | _ | _ | _ | _ | _ | values
    case obj =>
      obtain ⟨m, hm, rfl⟩ := List.mem_map.1 hp
      exact (Json.Tree.Part.member hm).nodes_subset (Json.Tree.mem_nodes_self _)
    all_goals exact absurd hp List.not_mem_nil
  | items =>
    rw [parts, List.mem_singleton] at hp
    rw [hp]
    exact Json.Tree.mem_nodes_self _
  | additionalProperties =>
    rcases x with _ | b | _ | _ | _ | _ | _
    case bool => exact absurd hp List.not_mem_nil
    all_goals
      rw [parts, List.mem_singleton] at hp
      · rw [hp]
        exact Json.Tree.mem_nodes_self _
      · exact nofun
  | anyOf =>
    rcases x with _ | _ | _ | _ | _ | xs | _
    case arr =>
      obtain ⟨q, hq, rfl⟩ := List.mem_map.1 hp
      exact (Json.Tree.Part.item (List.fst_mem_of_mem_zipIdx hq)).nodes_subset
        (Json.Tree.mem_nodes_self _)
    all_goals exact absurd hp List.not_mem_nil

theorem resolvePart_part {reference encodedPart : Str} {path : List Str} {x y : Json.Tree F}
    (h : resolvePart reference path x encodedPart = .ok y) : y.Part x := by
  rw [resolvePart] at h
  split_ifs at h
  rcases x with _ | _ | _ | _ | _ | items | members
  case arr =>
    dsimp only at h
    split at h
    · next hitem =>
      cases h
      obtain ⟨i, -, hi⟩ := Option.bind_eq_some_iff.1 hitem
      exact .item (List.mem_of_getElem? hi)
    · cases h
  case obj =>
    dsimp only at h
    split at h
    · next hmember =>
      cases h
      exact part_of_lookup hmember
    · cases h
  all_goals cases h

theorem mem_nodes_of_foldlM {reference : Str} {path encodedParts : List Str} {x y : Json.Tree F}
    (h : encodedParts.foldlM (resolvePart reference path) x = .ok y) : y ∈ x.nodes := by
  induction encodedParts generalizing x with
  | nil =>
    cases h
    exact Json.Tree.mem_nodes_self _
  | cons encodedPart encodedParts ih =>
    obtain ⟨z, hz, h⟩ := bind_eq_ok.1 h
    exact (resolvePart_part hz).nodes_subset (ih h)

/-- What a pointer leads to is within the root. -/
theorem mem_nodes_of_resolveReference {root target : Members F} {reference pointer : Str}
    {path : List Str} (h : resolveReference root reference pointer path = .ok target) :
    .obj target ∈ (Json.Tree.obj root).nodes := by
  obtain ⟨t, hfold, h⟩ := bind_eq_ok.1 h
  rcases t with _ | _ | _ | _ | _ | _ | members
  case obj =>
    cases h
    exact mem_nodes_of_foldlM hfold
  all_goals cases h

theorem unresolved_subset (root : Members F) (c c' : Call F)
    (hvalue : c'.value.nodes ⊆ c.value.nodes ∨ c'.value.nodes ⊆ (Json.Tree.obj root).nodes)
    (hresolving : c.resolving ⊆ c'.resolving) : c'.unresolved root ⊆ c.unresolved root := by
  intro p hp
  simp only [Call.unresolved, Finset.mem_sdiff, List.mem_toFinset, List.mem_append] at hp ⊢
  refine ⟨?_, fun h => hp.2 (hresolving h)⟩
  rcases hp.1 with h | h
  · exact hvalue.imp (mentioned_subset · h) (mentioned_subset · h)
  · exact .inr h

theorem Follows.depth_lt {root : Members F} {pointer : Str} {c c' : Call F}
    (h : Follows root pointer c c') : c'.depth root < c.depth root := by
  obtain ⟨href, hpointer, hnew, htarget⟩ := h
  rename_i schema target reference path resolving
  have hnodes := Json.Tree.nodes_sublist (mem_nodes_of_resolveReference htarget)
  -- the pointer is not among those that may still have to be resolved any more
  have hcard : (Call.unresolved root ⟨.obj target, path, resolving ++ [pointer]⟩).card <
      (Call.unresolved root ⟨.obj schema, path, resolving⟩).card := by
    refine Finset.card_lt_card ((Finset.ssubset_iff_of_subset ?_).2 ⟨pointer, ?_, ?_⟩)
    · exact unresolved_subset _ _ _ (.inr hnodes.subset) (List.subset_append_left _ _)
    · simp only [Call.unresolved, Finset.mem_sdiff, List.mem_toFinset, List.mem_append]
      refine ⟨.inl (List.mem_filterMap.2 ⟨_, ?_, hpointer⟩), hnew⟩
      exact (part_of_lookup href).nodes_subset (Json.Tree.mem_nodes_self _)
    · simp [Call.unresolved]
  have hlength := hnodes.length_le
  have hpos := List.length_pos_of_mem (Json.Tree.mem_nodes_self (Json.Tree.obj schema))
  have hmul := Nat.mul_le_mul_right (Json.Tree.obj root).nodes.length (Nat.succ_le_of_lt hcard)
  rw [Nat.succ_mul] at hmul
  rw [Call.depth, Call.depth]
  dsimp only
  omega

/-- A call is nested deeper than those it makes. -/
theorem Calls.depth_lt {root : Members F} {c c' : Call F} (h : Calls root c c') :
    c'.depth root < c.depth root := by
  cases h with
  | reference h => exact h.depth_lt
  | @part schema path resolving a x p hnone hx hp =>
    have hx := part_of_lookup hx
    have hnodes := Json.Tree.nodes_sublist (mem_nodes_of_mem_parts hp)
    have hcard := Finset.card_le_card (unresolved_subset root ⟨.obj schema, path, resolving⟩
      ⟨p.2, path ++ p.1, resolving⟩ (.inl fun y hy => hx.nodes_subset (hnodes.subset hy))
      (List.Subset.refl _))
    have hlength := hnodes.length_le.trans_lt hx.length_lt
    have hmul := Nat.mul_le_mul_right (Json.Tree.obj root).nodes.length hcard
    rw [Call.depth, Call.depth]
    dsimp only at hmul hlength ⊢
    omega

/-! ## Errors -/

/-- The reason is neither the stack nor a cycle. -/
def Reason.plain : Reason → Bool
  | tooDeep | cyclicReference => false
  | _ => true

def IncompatibleToolSchema.Plain (e : IncompatibleToolSchema) : Prop := e.reason.plain

theorem IncompatibleToolSchema.Plain.ne {e : IncompatibleToolSchema} (h : e.Plain) :
    e.reason ≠ .tooDeep ∧ e.reason ≠ .cyclicReference := by
  constructor <;>
  · intro he
    rw [Plain, he] at h
    cases h

section Errors

open IncompatibleToolSchema

variable {schema : Members F} {path : List Str}

theorem localPointer_plain (reference : Json.Tree F) : RaisesOnly Plain
    (localPointer reference path) := by
  unfold localPointer
  split
  · split_ifs
    · exact .error rfl
    · split
      · exact .error rfl
      · split_ifs
        · exact .ok _
        · exact .error rfl
  · exact .error rfl

theorem resolvePart_plain (reference : Str) (x : Json.Tree F) (encodedPart : Str) :
    RaisesOnly Plain (resolvePart reference path x encodedPart) := by
  rw [resolvePart]
  split_ifs
  · exact .error rfl
  · dsimp only
    split
    · split
      · exact .ok _
      · exact .error rfl
    · split
      · exact .ok _
      · exact .error rfl
    · exact .error rfl

theorem resolveReference_plain (root : Members F) (reference pointer : Str) :
    RaisesOnly Plain (resolveReference root reference pointer path) := by
  refine .bind (.foldlM (fun x part _ => resolvePart_plain reference x part) _) fun x _ => ?_
  split
  · exact .ok _
  · exact .error rfl

theorem checkSupported_plain : RaisesOnly Plain (checkSupported schema path) := by
  rw [checkSupported]
  split
  · exact .error rfl
  · exact .ok _

theorem checkKeyword_plain {check : Json.Tree F → Bool} {reason : Reason} (keyword : String)
    (h : reason.plain) :
    RaisesOnly Plain (checkKeyword schema path check reason keyword) := by
  rw [checkKeyword]
  split
  · split_ifs
    · exact .ok _
    · exact .error h
  · exact .ok _

theorem validateKeywordValues_plain : RaisesOnly Plain (validateKeywordValues schema path) := by
  refine .bind (checkKeyword_plain _ rfl) fun _ _ => ?_
  refine .bind (checkKeyword_plain _ rfl) fun _ _ => ?_
  refine .bind (.forIn fun k _ => checkKeyword_plain k rfl) fun _ _ => ?_
  refine .bind (.forIn fun k _ => checkKeyword_plain k rfl) fun _ _ => ?_
  exact .bind (.forIn fun k _ => checkKeyword_plain k rfl) fun _ _ => .ok _

theorem validateDeclaredType_plain : RaisesOnly Plain (validateDeclaredType schema path) := by
  rw [validateDeclaredType]
  split
  · rw [validateType]
    split_ifs
    · exact .ok _
    · exact .error rfl
  · exact .ok _

theorem withInferredType_plain : RaisesOnly Plain (withInferredType path schema) := by
  rw [withInferredType]
  split_ifs
  · split
    · exact .error rfl
    · exact .ok _
  · exact .ok _

end Errors

/-! ## Parts -/

section Parts

variable {normalize normalize' : Json.Tree F → List Str → Except IncompatibleToolSchema (Members F)}
  {P : IncompatibleToolSchema → Prop} {schema schema' : Members F} {path : List Str}

/-- The parts of a schema that are the value of a keyword all satisfy `Q`. -/
def AtParts (schema : Members F) (Q : List Str × Json.Tree F → Prop) (a : Applicator) : Prop :=
  ∀ x, schema.lookup a.keyword = some x → ∀ p ∈ parts a x, Q p

/-- Normalizing the part does the same either way. -/
def PartAgree (P : IncompatibleToolSchema → Prop)
    (normalize normalize' : Json.Tree F → List Str → Except IncompatibleToolSchema (Members F))
    (path : List Str) (p : List Str × Json.Tree F) : Prop :=
  Agree P (normalize p.2 (path ++ p.1)) (normalize' p.2 (path ++ p.1))

/-- The parts that a step for another keyword leaves. -/
theorem AtParts.replaced {R : Json.Tree F → Members F → Prop} {Q : List Str × Json.Tree F → Prop}
    {a b : Applicator} (h : AtParts schema Q b) (hr : Replaced R a schema schema') (hb : b ≠ a) :
    AtParts schema' Q b := fun x hx => h x (hr.lookup_of_ne hb ▸ hx)

theorem normalizeSchemaMap_agree (hP : ∀ e : IncompatibleToolSchema, e.Plain → P e)
    (h : AtParts schema (PartAgree P normalize normalize' path) .properties) :
    Agree P (normalizeSchemaMap normalize (.ofString "properties") path schema)
      (normalizeSchemaMap normalize' (.ofString "properties") path schema) := by
  rw [normalizeSchemaMap, normalizeSchemaMap]
  split
  · exact .ok _
  · exact .ok _
  · next values hvalues =>
    refine .bind (.mapM fun m hm => ?_) fun _ _ => .ok _
    exact .bind (h _ hvalues _ (List.mem_map_of_mem hm)) fun _ _ => .ok _
  · exact .refl (.error (hP _ rfl))

theorem normalizeSchemaValue_agree {keyword : Str} (h : ∀ x, schema.lookup keyword = some x →
      Agree P (normalize x (path ++ [keyword])) (normalize' x (path ++ [keyword]))) :
    Agree P (normalizeSchemaValue normalize keyword path schema)
      (normalizeSchemaValue normalize' keyword path schema) := by
  rw [normalizeSchemaValue, normalizeSchemaValue]
  split
  · exact .ok _
  · next x hx => exact .bind (h x hx) fun _ _ => .ok _

theorem mem_parts_additionalProperties {x : Json.Tree F} (hx : ∀ b, x ≠ .bool b) :
    ([.ofString "additionalProperties"], x) ∈ parts .additionalProperties x := by
  rcases x with _ | b | _ | _ | _ | _ | _
  case bool => exact absurd rfl (hx b)
  all_goals exact List.mem_singleton_self _

theorem normalizeAdditionalProperties_agree
    (h : AtParts schema (PartAgree P normalize normalize' path) .additionalProperties) :
    Agree P (normalizeAdditionalProperties normalize path schema)
      (normalizeAdditionalProperties normalize' path schema) := by
  rw [normalizeAdditionalProperties, normalizeAdditionalProperties]
  split
  · exact .ok _
  · next hb =>
    refine normalizeSchemaValue_agree fun x hx => ?_
    refine h x hx _ (mem_parts_additionalProperties ?_)
    rintro b rfl
    exact hb b hx

theorem normalizeSchemaList_agree (hP : ∀ e : IncompatibleToolSchema, e.Plain → P e)
    (h : AtParts schema (PartAgree P normalize normalize' path) .anyOf) :
    Agree P (normalizeSchemaList normalize (.ofString "anyOf") path schema)
      (normalizeSchemaList normalize' (.ofString "anyOf") path schema) := by
  rw [normalizeSchemaList, normalizeSchemaList]
  split
  · exact .ok _
  · exact .ok _
  · next xs hxs =>
    split_ifs
    · exact .refl (.error (hP _ rfl))
    · refine .bind (.mapM fun p hp => ?_) fun _ _ => .ok _
      exact .bind (h _ hxs _ (List.mem_map_of_mem hp)) fun _ _ => .ok _
  · exact .refl (.error (hP _ rfl))

/-- Normalizing the keywords of a schema does what normalizing its parts does, and raises what
    this raises, or a plain error. -/
theorem normalizeKeywords_agree (hP : ∀ e : IncompatibleToolSchema, e.Plain → P e)
    (h : ∀ a, AtParts schema (PartAgree P normalize normalize' path) a) :
    Agree P (normalizeKeywords normalize path schema)
      (normalizeKeywords normalize' path schema) := by
  rw [normalizeKeywords, normalizeKeywords]
  -- each step leaves the parts of the others
  refine (normalizeSchemaMap_agree hP (h .properties)).bind fun s₁ h₁ => ?_
  have h₁ := normalizeSchemaMap_replaced (R := fun _ _ => True) (fun _ _ _ _ => trivial) h₁
  have hitems := (h .items).replaced h₁ (by decide)
  refine (normalizeSchemaValue_agree fun x hx => hitems x hx _
    (List.mem_singleton_self _)).bind fun s₂ h₂ => ?_
  have h₂ : Replaced _ .items s₁ s₂ := normalizeSchemaValue_replaced (R := fun _ _ => True)
    (fun _ _ _ _ => trivial) (fun x m _ hm => ⟨m, rfl, hm⟩) h₂
  refine (normalizeAdditionalProperties_agree (((h .additionalProperties).replaced h₁
    (by decide)).replaced h₂ (by decide))).bind fun s₃ h₃ => ?_
  have h₃ := normalizeAdditionalProperties_replaced (R := fun _ _ => True)
    (fun _ _ _ _ => trivial) h₃
  refine (normalizeSchemaList_agree hP ((((h .anyOf).replaced h₁ (by decide)).replaced h₂
    (by decide)).replaced h₃ (by decide))).bind fun s₄ _ => ?_
  refine .refl ((validateKeywordValues_plain.mono hP).bind fun _ _ => ?_)
  refine (validateDeclaredType_plain.mono hP).bind fun _ _ => ?_
  exact (withInferredType_plain.mono hP).bind fun _ _ => .ok _

end Parts

/-! ## Calls agree -/

variable {root : Members F} {P : IncompatibleToolSchema → Prop}

theorem exists_pointerOf {reference : Json.Tree F} {path : List Str} {r : Str × Str}
    (h : localPointer reference path = .ok r) :
    reference = .str r.1 ∧ pointerOf reference = some r.2 := by
  obtain ⟨hreference, hpath⟩ := localPointer_eq_ok h
  refine ⟨hreference, ?_⟩
  rw [pointerOf, hpath]

theorem inlineReference_agree
    {normalize normalize' : Json.Tree F → List Str → Except IncompatibleToolSchema (Members F)}
    {current : Members F} {path resolving : List Str}
    (hP : ∀ e : IncompatibleToolSchema, e.Plain → P e)
    (hcyclic : ∀ reference pointer, current.lookup refKeyword = some reference →
      pointerOf reference = some pointer → pointer ∈ resolving →
      P ⟨path ++ [refKeyword], .cyclicReference⟩)
    (hcall : ∀ reference pointer target, current.lookup refKeyword = some (.str reference) →
      pointerOf (.str reference : Json.Tree F) = some pointer → pointer ∉ resolving →
      resolveReference root reference pointer [] = .ok target →
      Agree P (normalize (.obj target) (resolving ++ [pointer]))
        (normalize' (.obj target) (resolving ++ [pointer]))) :
    Agree P (inlineReference root normalize current path resolving)
      (inlineReference root normalize' current path resolving) := by
  rw [inlineReference, inlineReference]
  split
  · exact .ok _
  · exact .ok _
  · next reference _ hreference =>
    refine .bind (.refl ((localPointer_plain _).mono hP)) ?_
    rintro ⟨text, pointer⟩ hpointer
    obtain ⟨rfl, hpointer⟩ := exists_pointerOf hpointer
    dsimp only
    by_cases hresolving : pointer ∈ resolving
    · rw [if_pos hresolving, if_pos hresolving]
      exact .error_bind (hcyclic _ _ hreference hpointer hresolving) _ _
    rw [if_neg hresolving, if_neg hresolving]
    refine .bind (.refl ((resolveReference_plain _ _ _).mono hP)) fun target htarget => ?_
    refine .bind (hcall _ _ _ hreference hpointer hresolving (resolveReference_eq_ok htarget)) ?_
    intro resolved _
    split_ifs
    · exact .error_bind (hP ⟨path, .referenceSiblings⟩ rfl) _ _
    · exact .ok _

/-- A call does what the calls that it makes do, and raises what these raise, or that a
    reference is cyclic, or a plain error. -/
theorem run_agree {n m : ℕ} {c : Call F} (hP : ∀ e : IncompatibleToolSchema, e.Plain → P e)
    (hcyclic : ∀ pointer ∈ c.resolving, c.Refers pointer →
      P ⟨c.path ++ [refKeyword], .cyclicReference⟩)
    (hcalls : ∀ c', Calls root c c' → Agree P (c'.run root n) (c'.run root m)) :
    Agree P (c.run root (n + 1)) (c.run root (m + 1)) := by
  obtain ⟨value, path, resolving⟩ := c
  rcases value with _ | _ | _ | _ | _ | _ | schema
  case obj =>
    rw [Call.run, Call.run, normalizeSchema, normalizeSchema]
    refine .bind (.refl (checkSupported_plain.mono hP)) fun _ _ => ?_
    have hlookup : (schema.filter (·.1 ∉ ignoredAnnotationKeywords)).lookup refKeyword =
        schema.lookup refKeyword := by
      rw [lookup_filter (fun k => k ∉ ignoredAnnotationKeywords), if_pos (by decide)]
    have hinline : Agree P
        (inlineReference root (fun target resolving => normalizeSchema root n target path resolving)
          (schema.filter (·.1 ∉ ignoredAnnotationKeywords)) path resolving)
        (inlineReference root (fun target resolving => normalizeSchema root m target path resolving)
          (schema.filter (·.1 ∉ ignoredAnnotationKeywords)) path resolving) :=
      inlineReference_agree hP
      (fun reference pointer href hpointer hmem =>
        hcyclic pointer hmem ⟨schema, reference, rfl, hlookup ▸ href, hpointer⟩)
      fun reference pointer target href hpointer hnew htarget =>
        hcalls _ (.reference (.intro (hlookup ▸ href) hpointer hnew htarget))
    refine hinline.bind fun current hcurrent => ?_
    have hcurrent' := hinline.1 ▸ hcurrent
    rcases inlineReference_cases hcurrent with ⟨hnone, rfl⟩ |
      ⟨reference, _, _, resolved, href, -, hresolved, -, heq⟩
    · rw [hlookup] at hnone
      refine normalizeKeywords_agree hP fun a x hx p hp => ?_
      rw [← kept, lookup_kept (by cases a <;> decide) (by cases a <;> decide)] at hx
      exact hcalls _ (.part hnone hx hp)
    · -- what is referred to is stable at both levels, so that only the checks are left
      have hannotations : ∀ k ∈ ((pop refKeyword (schema.filter
          (·.1 ∉ ignoredAnnotationKeywords))).filter (·.1 ∈ annotationKeywords)).map Prod.fst,
          k ∈ annotationKeywords := by
        intro k hk
        obtain ⟨m, hm, rfl⟩ := List.mem_map.1 hk
        exact of_decide_eq_true (List.mem_filter.1 hm).2
      rcases inlineReference_cases hcurrent' with ⟨hnone, -⟩ |
        ⟨_, _, _, resolved', -, -, hresolved', -, heq'⟩
      · rcases hnone with hnone | hnone <;> rw [hnone] at href <;> cases href
      have hn := (normalizeSchema_stable hresolved).normalizeKeywords_annotated root
        hannotations path resolving
      have hm := (normalizeSchema_stable hresolved').normalizeKeywords_annotated root
        hannotations path resolving
      rw [← heq] at hn
      rw [← heq'] at hm
      rw [hn, hm]
      refine .refl ((validateKeywordValues_plain.mono hP).bind fun _ _ => ?_)
      exact (validateDeclaredType_plain.mono hP).bind fun _ _ => .ok _
  all_goals exact .refl (.error (hP _ rfl))

/-- With as many levels of the stack as the depth of a call, or more, its result does not depend
    on how many there are, and is not that the schema is too deep. -/
theorem run_of_depth_le {n m : ℕ} {c : Call F} (hn : c.depth root ≤ n) (hm : c.depth root ≤ m) :
    Agree (fun e => e.reason ≠ .tooDeep) (c.run root n) (c.run root m) := by
  have hpos : 0 < c.depth root := Nat.add_pos_right _
    (List.length_pos_of_mem (Json.Tree.mem_nodes_self c.value))
  induction n generalizing m c with
  | zero => exact absurd hn (not_le.2 hpos)
  | succ n ih =>
    rcases m with _ | m
    · exact absurd hm (not_le.2 hpos)
    refine run_agree (fun e he => he.ne.1) (fun _ _ _ => by simp) fun c' hc => ?_
    have hlt := hc.depth_lt
    exact ih (by omega) (by omega) (Nat.add_pos_right _
      (List.length_pos_of_mem (Json.Tree.mem_nodes_self c'.value)))

/-! ## Cycles -/

/-- Calls lead to one that refers to a pointer that is being resolved. -/
inductive Call.Cycle (root : Members F) (c : Call F) (path : List Str) : Prop
  | intro {c' : Call F} {pointer : Str} (hcalls : ReflTransGen (Calls root) c c')
    (href : c'.Refers pointer) (hresolving : pointer ∈ c'.resolving)
    (hpath : path = c'.path ++ [refKeyword])

theorem run_cyclic {n : ℕ} {c : Call F} : RaisesOnly
    (fun e => e.reason = .cyclicReference → c.Cycle root e.path) (c.run root n) := by
  induction n generalizing c with
  | zero => exact .error (by simp)
  | succ n ih =>
    refine (run_agree (m := n) (fun e he h => absurd h he.ne.2) (fun pointer hmem href _ =>
      .intro .refl href hmem rfl) fun c' hc => .refl (ih.mono fun e he h => ?_)).2
    obtain ⟨hcalls, href, hmem, hpath⟩ := he h
    exact .intro (.head hc hcalls) href hmem hpath

/-- A pointer that is being resolved was to begin with, or has been followed since. -/
theorem exists_follows {c c' : Call F} (h : ReflTransGen (Calls root) c c') {pointer : Str}
    (hmem : pointer ∈ c'.resolving) : pointer ∈ c.resolving ∨ ∃ c₁ c₂,
      ReflTransGen (Calls root) c c₁ ∧ Follows root pointer c₁ c₂ ∧
        ReflTransGen (Calls root) c₂ c' := by
  induction h with
  | refl => exact .inl hmem
  | @tail b d hb hd ih =>
    have hstep : pointer ∈ b.resolving ∨ Follows root pointer b d := by
      cases hd with
      | @reference pointer' _ _ h =>
        obtain ⟨href, hpointer, hnew, htarget⟩ := h
        rcases List.mem_append.1 hmem with hmem | hmem
        · exact .inl hmem
        · rw [List.mem_singleton.1 hmem]
          exact .inr (.intro href hpointer hnew htarget)
      | part => exact .inl hmem
    rcases hstep with hmem | hfollows
    · refine (ih hmem).imp_right ?_
      rintro ⟨c₁, c₂, h₁, hfollows, h₂⟩
      exact ⟨c₁, c₂, h₁, hfollows, h₂.tail hd⟩
    · exact .inr ⟨b, d, hb, hfollows, .refl⟩

/-! ## Normalizing ends -/

/-- Calls do not go on for ever. -/
theorem wellFounded_calls (root : Members F) :
    WellFounded fun c' c : Call F => Calls root c c' :=
  Subrelation.wf (fun h => h.depth_lt) (measure (Call.depth root)).wf

/-- The schema of a tool is normalized, or refused for what it says, if the stack has enough
    levels. -/
theorem normalizeToolSchema_agree {schema : Members F} {n m : ℕ}
    (hn : Call.depth schema ⟨.obj schema, [], []⟩ ≤ n)
    (hm : Call.depth schema ⟨.obj schema, [], []⟩ ≤ m) : Agree (fun e => e.reason ≠ .tooDeep)
      (normalizeToolSchema n (.obj schema)) (normalizeToolSchema m (.obj schema)) := by
  rcases schema with _ | ⟨p, schema⟩
  · exact .ok _
  · refine (run_of_depth_le (c := ⟨_, [], []⟩) (Nat.le_succ_of_le hn)
      (Nat.le_succ_of_le hm)).bind fun normalized _ => ?_
    split
    · split_ifs
      · exact .ok _
      · exact .refl (.error (by decide))
    · exact .refl (.error (by decide))

/-- Normalizing a schema ends: the calls that it makes are well founded, and there is a bound on
    the levels of the stack they take, from which on the result stays the same, and is not that
    the schema is too deep. It is refused as cyclic only where, following references, one finds
    a pointer that is being resolved: that was so from the start, or the pointer has been
    followed on the way. -/
theorem normalizeSchema_terminates (root : Members F) :
    (WellFounded fun c' c : Call F => Calls root c c') ∧
    (∀ c : Call F, ∃ r, (∀ e, r = .error e → e.reason ≠ .tooDeep) ∧
      ∀ levels ≥ c.depth root, c.run root levels = r) ∧
    (∀ schema : Json.Tree F, ∃ depth r, (∀ e, r = .error e → e.reason ≠ .tooDeep) ∧
      ∀ levels ≥ depth, normalizeToolSchema levels schema = r) ∧
    ∀ (c : Call F) (levels : ℕ) (path : List Str),
      c.run root levels = .error ⟨path, .cyclicReference⟩ →
      ∃ c' pointer, ReflTransGen (Calls root) c c' ∧ path = c'.path ++ [refKeyword] ∧
        c'.Refers pointer ∧ pointer ∈ c'.resolving ∧
        (pointer ∈ c.resolving ∨ ∃ c₁ c₂, ReflTransGen (Calls root) c c₁ ∧
          Follows root pointer c₁ c₂ ∧ ReflTransGen (Calls root) c₂ c') := by
  refine ⟨wellFounded_calls root, fun c => ?_, fun schema => ?_, fun c levels path h => ?_⟩
  · have hself : Agree _ (c.run root (c.depth root)) _ := run_of_depth_le le_rfl le_rfl
    exact ⟨_, hself.2, fun levels hle => (run_of_depth_le hle le_rfl).1⟩
  · rcases schema with _ | _ | _ | _ | _ | _ | schema
    case obj =>
      have hself : Agree _ (normalizeToolSchema _ (.obj schema)) _ :=
        normalizeToolSchema_agree le_rfl le_rfl
      exact ⟨_, _, hself.2, fun levels hle => (normalizeToolSchema_agree hle le_rfl).1⟩
    all_goals exact ⟨0, .error ⟨[], .notObject⟩, RaisesOnly.error (by simp), fun _ _ => rfl⟩
  · obtain ⟨hcalls, href, hmem, hpath⟩ := run_cyclic _ h rfl
    exact ⟨_, _, hcalls, hpath, href, hmem, exists_follows hcalls hmem⟩

/-- A list refers to itself for its rest. -/
example : normalizeToolSchema 9 (.obj [(.ofString "type", .str (.ofString "object")),
      (.ofString "properties", .obj [(.ofString "rest",
        .obj [(.ofString "$ref", .str (.ofString "#/properties/rest"))])])] : Json.Tree ℤ) =
    .error ⟨[.ofString "properties", .ofString "rest", .ofString "$ref"], .cyclicReference⟩ := by
  rfl

end Hyperforge.Mcp
