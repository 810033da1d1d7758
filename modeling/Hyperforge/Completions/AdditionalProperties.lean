import Hyperforge.Library.JsonSchema.Inline
import Hyperforge.Library.JsonSchema.Positions
import Hyperforge.Completions.ConvertSchema

/-!
# Additional properties of the schemas that providers are given

What the conversion of a schema does to the schemas at its positions: where additional
properties are unsupported (`RemovesKeyword`), and where they are disabled by default
(`ClosesOpen`).

The conversion does to the root of the schema what it does, but for names, descriptions and
required properties (`Annotated`); and to what is within, position by position, what the
recursion into its values does.
-/

namespace Hyperforge.Completions

open Json hiding Tree
open JsonSchema (Segment At Subschema)

variable {F : Type} {zero : F → Bool} {o : Options} {schema : Dict F}
  {t t' u s result container : Json.Tree F} {ms : Dict F} {path : List Segment} {k name : Str}

/-! ## Roots -/

/-- The schema of the parameters, within the schema that is asked for. -/
def inputRoot (schema : Dict F) : Json.Tree F :=
  if (given schema propertiesKey).isSome then .obj schema
  else (schema.lookup parametersKey).getD .null

/-- The schema of the parameters, within the converted schema. -/
def resultRoot (o : OutputFormat) (result : Json.Tree F) : Json.Tree F :=
  match o, result with
  | .functionCall, .obj ms => (ms.lookup parametersKey).getD .null
  | _, _ => result

def annotations : List Str := [nameKey, titleKey, descriptionKey, requiredKey]

/-- The schemas differ in annotations only. -/
inductive Annotated : Json.Tree F → Json.Tree F → Prop
  | refl (t : Json.Tree F) : Annotated t t
  | obj {ms ms' : Dict F} (h : ∀ k ∉ annotations, ms'.lookup k = ms.lookup k) :
    Annotated (.obj ms) (.obj ms')

theorem Annotated.symm (h : Annotated t t') : Annotated t' t := by
  cases h with
  | refl => exact .refl t
  | obj h => exact .obj fun k hk => (h k hk).symm

theorem Annotated.trans (h : Annotated t t') (h' : Annotated t' u) : Annotated t u := by
  cases h with
  | refl => exact h'
  | obj h =>
    cases h' with
    | refl => exact .obj h
    | obj h' => exact .obj fun k hk => (h' k hk).trans (h k hk)

theorem ne_of_notMem_annotations (hk : k ∉ annotations) (hl : name ∈ annotations) : name ≠ k :=
  fun h => hk (h ▸ hl)

theorem lookup_assign_annotation {x : Json.Tree F} (hk : k ∉ annotations)
    (hl : name ∈ annotations) : (assign name x ms).lookup k = ms.lookup k := by
  rw [lookup_assign, if_neg (ne_of_notMem_annotations hk hl)]

theorem lookup_underscoreName {schema' : Dict F} (h : underscoreName schema = .ok schema')
    (hk : k ∉ annotations) : schema'.lookup k = schema.lookup k := by
  unfold underscoreName at h
  split at h
  · cases h
    exact lookup_assign_annotation hk (by simp [annotations])
  · cases h

theorem lookup_setName {schema' : Dict F} (h : setName schema = .ok schema')
    (hk : k ∉ annotations) : schema'.lookup k = schema.lookup k := by
  unfold setName at h
  split at h
  · rw [lookup_underscoreName h hk,
      lookup_pop, if_neg (ne_of_notMem_annotations hk (by simp [annotations])).symm,
      lookup_assign_annotation hk (by simp [annotations])]
  · exact lookup_underscoreName h hk

theorem lookup_setTitle {schema' : Dict F} (h : setTitle schema = .ok schema')
    (hk : k ∉ annotations) : schema'.lookup k = schema.lookup k := by
  unfold setTitle at h
  split at h
  · cases hname : underscoreName schema with
    | error e => rw [hname] at h; cases h
    | ok named =>
      rw [hname] at h
      cases h
      rw [lookup_pop, if_neg (ne_of_notMem_annotations hk (by simp [annotations])).symm,
        lookup_assign_annotation hk (by simp [annotations]), lookup_underscoreName hname hk]
  · cases h
    rfl

theorem lookup_setDefaultDescription (hk : k ∉ annotations) :
    (setDefaultDescription schema).lookup k = schema.lookup k := by
  unfold setDefaultDescription
  split_ifs
  · rfl
  · exact lookup_assign_annotation hk (by simp [annotations])

theorem lookup_filter_notMem {keys : List Str} (hk : k ∉ keys) :
    (ms.filter (·.1 ∉ keys)).lookup k = ms.lookup k := by
  rw [lookup_filter (· ∉ keys), if_pos (decide_eq_true hk)]

theorem lookup_withAnnotations {title description : Json.Tree F} (hk : k ∉ annotations) :
    (withAnnotations title description ms).lookup k = ms.lookup k := by
  have htitle : titleKey ≠ k := ne_of_notMem_annotations hk (by simp [annotations])
  have hdescription : descriptionKey ≠ k := ne_of_notMem_annotations hk (by simp [annotations])
  rw [withAnnotations, lookup_cons_eq, if_neg htitle, lookup_cons_eq, if_neg hdescription,
    lookup_filter_notMem]
  intro hmem
  simp only [annotations, List.mem_cons, List.not_mem_nil, or_false] at hk hmem
  tauto

theorem given_congr {schema' : Dict F} (h : schema'.lookup k = schema.lookup k) :
    given schema' k = given schema k := by
  rw [given, given, h]

theorem lookup_of_given {x : Json.Tree F} (h : given schema k = some x) :
    schema.lookup k = some x := by
  unfold given at h
  split at h
  · cases h
  · cases h
  · rename_i hx
    rw [hx, Option.some.inj h]

/-! ## The conversion, but for annotations -/

theorem annotated_requireProperties {select : Dict F → Option (Dict F)}
    (h : requireProperties select t = some t') : Annotated t t' := by
  unfold requireProperties at h
  split at h
  · split at h
    · obtain ⟨selected, -, rfl⟩ := Option.map_eq_some_iff.1 h
      exact .obj fun k hk => lookup_assign_annotation hk (by simp [annotations])
    · cases h
  · cases h

theorem annotated_convertRequired {required : Required} (h : convertRequired required t = some t') :
    Annotated t t' := by
  cases required with
  | setIfNoDefault =>
    obtain ⟨declared, -, h⟩ := Option.bind_eq_some_iff.1 h
    cases declared with
    | true => exact Option.some.inj h ▸ .refl t
    | false => exact annotated_requireProperties h
  | force => exact annotated_requireProperties h
  | noop => exact Option.some.inj h ▸ .refl t

/-- Where the parameters are, is not changed by a change of annotations. -/
theorem given_of_annotated {schema' : Dict F}
    (h : ∀ k ∉ annotations, schema'.lookup k = schema.lookup k) :
    given schema' propertiesKey = given schema propertiesKey ∧
      given schema' parametersKey = given schema parametersKey :=
  ⟨given_congr (h _ (by decide)), given_congr (h _ (by decide))⟩

theorem inputRoot_of_parameters (hnone : given schema propertiesKey = none)
    (h : given schema parametersKey = some t) : inputRoot schema = t := by
  rw [inputRoot, hnone, lookup_of_given h]
  rfl

theorem toFunctionCallSchema_spec {converted : Dict F}
    (h : toFunctionCallSchema zero schema = .ok (converted, container)) :
    Annotated (inputRoot schema) container := by
  unfold toFunctionCallSchema at h
  cases hname : setName schema with
  | error e => rw [hname] at h; cases h
  | ok named =>
    have hlookup := fun k hk => lookup_setName (k := k) hname hk
    obtain ⟨hproperties, hparameters⟩ := given_of_annotated hlookup
    rw [hname] at h
    dsimp only [Except.bind] at h
    rw [hproperties, hparameters] at h
    split at h
    · rename_i hgiven
      cases h
      rw [inputRoot, hgiven]
      refine .obj fun k hk => ?_
      rw [lookup_filter_notMem, hlookup k hk]
      intro hmem
      simp only [annotations, List.mem_cons, List.not_mem_nil, or_false] at hk hmem
      tauto
    · rename_i hnone hgiven
      cases h
      rw [inputRoot_of_parameters hnone hgiven]
      exact .refl _
    · cases h

theorem toFlatSchema_spec {converted : Dict F} (h : toFlatSchema zero schema = .ok converted) :
    Annotated (inputRoot schema) (.obj converted) := by
  unfold toFlatSchema at h
  cases htitle : setTitle schema with
  | error e => rw [htitle] at h; cases h
  | ok titled =>
    have hlookup := fun k hk => lookup_setTitle (k := k) htitle hk
    obtain ⟨hproperties, hparameters⟩ := given_of_annotated hlookup
    rw [htitle] at h
    dsimp only [Except.bind] at h
    rw [hproperties, hparameters] at h
    split at h
    · rename_i hgiven
      cases h
      rw [inputRoot, hgiven]
      exact .obj fun k hk => (lookup_setDefaultDescription hk).trans (hlookup k hk)
    · rename_i hnone hgiven
      rw [inputRoot_of_parameters hnone hgiven]
      split at h
      · cases h
      · cases h
        exact .obj fun k hk => lookup_withAnnotations hk
      · cases h
    · cases h

/-- What becomes of the root of an accepted schema. -/
theorem convertJsonSchema_root (hnullable : o.nullable = .noop) (hattrs : o.unsupportedAttrs = [])
    (h : convertJsonSchema zero o schema = .ok result) : ∃ container container',
      Annotated (inputRoot schema) container ∧
      convertAdditionalProperties o.additionalProperties container = some container' ∧
      Annotated container' (resultRoot o.outputFormat result) := by
  have hparse {container result : Json.Tree F} (h : parseContainer o container = .ok result) :
      ∃ container', convertAdditionalProperties o.additionalProperties container =
        some container' ∧ Annotated container' result := by
    unfold parseContainer at h
    split at h
    · rename_i hconvert
      cases h
      obtain ⟨c₁, h₁, hconvert⟩ := Option.bind_eq_some_iff.1 hconvert
      obtain ⟨c₂, h₂, hconvert⟩ := Option.bind_eq_some_iff.1 hconvert
      rw [hnullable, hattrs] at hconvert
      cases hconvert
      exact ⟨c₁, h₁, annotated_convertRequired h₂⟩
    · cases h
  unfold convertJsonSchema at h
  split_ifs at h
  cases hformat : o.outputFormat with
  | functionCall =>
    rw [hformat] at h
    cases hconverted : toFunctionCallSchema zero schema with
    | error e => rw [hconverted] at h; cases h
    | ok converted =>
      cases hcontainer : parseContainer o converted.2 with
      | error e => simp [hconverted, hcontainer, Except.bind, Except.map] at h
      | ok container' =>
        obtain ⟨c, hc, hresult⟩ := hparse hcontainer
        simp only [hconverted, hcontainer, Except.bind, Except.map, Except.ok.injEq] at h
        refine ⟨converted.2, c, toFunctionCallSchema_spec hconverted, hc, ?_⟩
        rwa [← h, resultRoot, lookup_assign, if_pos rfl]
  | flat =>
    rw [hformat] at h
    cases hconverted : toFlatSchema zero schema with
    | error e => rw [hconverted] at h; cases h
    | ok converted =>
      rw [hconverted] at h
      obtain ⟨c, hc, hresult⟩ := hparse h
      exact ⟨.obj converted, c, toFlatSchema_spec hconverted, hc, by cases result <;> exact hresult⟩

/-! ## Positions of the root -/

def declaresAdditionalProperties : Json.Tree F → Bool
  | .obj ms => (ms.lookup additionalPropertiesKey).isSome
  | _ => false

/-- No schema at a position declares additional properties. -/
def NoAdditionalProperties (K : JsonSchema.Keywords) (t : Json.Tree F) : Prop :=
  ∀ path s, At K t path s → declaresAdditionalProperties s = false

/-- A schema at a position has a property of a name. -/
def HasProperty (K : JsonSchema.Keywords) (t : Json.Tree F) (path : List Segment) (name : Str) :
    Prop :=
  ∃ ms properties, At K t path (.obj ms) ∧ ms.lookup propertiesKey = some (.obj properties) ∧
    name ∈ properties.map Prod.fst

variable {K : JsonSchema.Keywords}

/-- The keywords that have schemas are no annotations. -/
abbrev Unannotated (K : JsonSchema.Keywords) : Prop :=
  ∀ k ∈ K.schema ++ (K.map ++ K.list), k ∉ annotations

theorem Annotated.at (hK : Unannotated K) (h : Annotated t t') (hs : At K t path s) :
    ∃ s', At K t' path s' ∧ Annotated s s' := by
  cases h with
  | refl => exact ⟨s, hs, .refl s⟩
  | @obj ms ms' h =>
    have hsame : JsonSchema.SameSchemas K ms ms' := fun k hk => h k (hK k (by simpa using hk))
    rcases hsame.at hs with ⟨rfl, rfl⟩ | hs
    · exact ⟨_, .here _, .obj h⟩
    · exact ⟨s, hs, .refl s⟩

theorem Annotated.declares (h : Annotated t t') :
    declaresAdditionalProperties t' = declaresAdditionalProperties t := by
  cases h with
  | refl => rfl
  | obj h => rw [declaresAdditionalProperties, declaresAdditionalProperties, h _ (by decide)]

theorem Annotated.noAdditionalProperties (hK : Unannotated K) (h : Annotated t t')
    (ht : NoAdditionalProperties K t) : NoAdditionalProperties K t' := fun path s hs => by
  obtain ⟨s', hs', hannotated⟩ := h.symm.at hK hs
  rw [← hannotated.declares, ht path s' hs']

theorem Annotated.hasProperty (hK : Unannotated K) (h : Annotated t t')
    (hname : HasProperty K t path name) : HasProperty K t' path name := by
  obtain ⟨ms, properties, hs, hproperties, hmem⟩ := hname
  obtain ⟨s', hs', hannotated⟩ := h.at hK hs
  cases hannotated with
  | refl => exact ⟨ms, properties, hs', hproperties, hmem⟩
  | obj hsame => exact ⟨_, properties, hs', (hsame _ (by decide)).trans hproperties, hmem⟩

/-! ## Additional properties that are unsupported -/

/-- The keywords that have schemas, other than the one of additional properties. -/
def schemaKeywords : JsonSchema.Keywords where
  schema := ["items", "additionalItems", "contains", "not", "if", "then", "else",
    "propertyNames", "unevaluatedItems", "unevaluatedProperties", "contentSchema"].map .ofString
  map := ["properties", "patternProperties", "$defs", "definitions", "dependentSchemas",
    "dependencies"].map .ofString
  list := ["items", "prefixItems", "anyOf", "oneOf", "allOf"].map .ofString

/-- A conversion removes the keyword of additional properties, and no properties. -/
def RemovesKeyword (input result : Json.Tree F) : Prop :=
  NoAdditionalProperties schemaKeywords result ∧
    ∀ path name, HasProperty schemaKeywords input path name →
      HasProperty schemaKeywords result path name

theorem unannotated_schemaKeywords : Unannotated schemaKeywords := by decide

/-- No object has a member of the name of the keyword. -/
abbrev Free : Json.Tree F → Prop :=
  JsonSchema.Everywhere fun ms => ∀ m ∈ ms, m.1 ≠ additionalPropertiesKey

mutual

theorem free_removeAdditionalProperties :
    ∀ t : Json.Tree F, Free (removeAdditionalProperties t)
  | .obj obj => by
    rw [removeAdditionalProperties]
    exact .obj (fun m hm => (free_removeMembers obj m hm).1)
      fun m hm => (free_removeMembers obj m hm).2
  | .arr items => by
    rw [removeAdditionalProperties]
    exact .arr (free_removeItems items)
  | .null | .bool _ | .int _ | .float _ | .str _ => .scalar rfl

theorem free_removeMembers : ∀ (ms : Dict F), ∀ m ∈ removeMembers ms,
    m.1 ≠ additionalPropertiesKey ∧ Free m.2
  | [], m, hm => absurd hm List.not_mem_nil
  | (k, x) :: ms, m, hm => by
    rw [removeMembers] at hm
    split_ifs at hm with hk
    · exact free_removeMembers ms m hm
    · rcases List.mem_cons.1 hm with rfl | hm
      · exact ⟨hk, free_removeAdditionalProperties x⟩
      · exact free_removeMembers ms m hm

theorem free_removeItems : ∀ (xs : List (Json.Tree F)), ∀ x ∈ removeItems xs, Free x
  | [], x, hx => absurd hx List.not_mem_nil
  | y :: ys, x, hx => by
    rw [removeItems] at hx
    rcases List.mem_cons.1 hx with rfl | hx
    · exact free_removeAdditionalProperties y
    · exact free_removeItems ys x hx

end

theorem Free.lookup {x : Json.Tree F} (h : Free (.obj ms)) (hx : ms.lookup k = some x) :
    k ≠ additionalPropertiesKey ∧ Free x := by
  have hmem := mem_of_lookup hx
  cases h with
  | obj hne h => exact ⟨hne _ hmem, h _ hmem⟩
  | scalar hx => cases hx

theorem Free.subschema {segments : List Segment} (h : Free t) (hs : Subschema K t segments s) :
    .key additionalPropertiesKey ∉ segments ∧ Free s := by
  cases hs with
  | schema _ hs =>
    obtain ⟨hk, hfree⟩ := h.lookup hs
    exact ⟨by simpa using Ne.symm hk, hfree⟩
  | map _ hentries hs =>
    obtain ⟨hk, hfree⟩ := h.lookup hentries
    obtain ⟨hname, hfree⟩ := hfree.lookup hs
    exact ⟨by simpa using ⟨Ne.symm hk, Ne.symm hname⟩, hfree⟩
  | list _ hxs hs =>
    obtain ⟨hk, hfree⟩ := h.lookup hxs
    cases hfree with
    | arr hfree => exact ⟨by simpa using Ne.symm hk, hfree _ (List.mem_of_getElem? hs)⟩
    | scalar hx => cases hx

theorem Free.at (h : Free t) (hs : At K t path s) :
    .key additionalPropertiesKey ∉ path ∧ Free s := by
  induction hs with
  | here => exact ⟨List.not_mem_nil, h⟩
  | there hstep _ ih =>
    obtain ⟨hsegments, hfree⟩ := h.subschema hstep
    obtain ⟨hpath, hfree⟩ := ih hfree
    exact ⟨fun hmem => (List.mem_append.1 hmem).elim hsegments hpath, hfree⟩

theorem Free.declares (h : Free t) : declaresAdditionalProperties t = false := by
  cases t with
  | obj ms =>
    rw [declaresAdditionalProperties, Option.isSome_eq_false_iff, Option.isNone_iff_eq_none]
    by_contra hne
    obtain ⟨x, hx⟩ := Option.ne_none_iff_exists'.1 hne
    exact (h.lookup hx).1 rfl
  | _ => rfl

theorem Free.noAdditionalProperties (h : Free t) : NoAdditionalProperties K t :=
  fun _ _ hs => (h.at hs).2.declares

/-- The name of the keyword is not of a property, nor on the way to one. -/
theorem Free.hasProperty (h : Free t) (hname : HasProperty K t path name) :
    .key additionalPropertiesKey ∉ path ∧ name ≠ additionalPropertiesKey := by
  obtain ⟨ms, properties, hs, hproperties, hmem⟩ := hname
  obtain ⟨hpath, hfree⟩ := h.at hs
  obtain ⟨m, hm, rfl⟩ := List.mem_map.1 hmem
  cases (hfree.lookup hproperties).2 with
  | obj hne _ => exact ⟨hpath, hne m hm⟩
  | scalar hx => cases hx

theorem lookup_removeMembers (hk : k ≠ additionalPropertiesKey) :
    (removeMembers ms).lookup k = (ms.lookup k).map removeAdditionalProperties := by
  induction ms with
  | nil => rfl
  | cons m ms ih =>
    obtain ⟨l, x⟩ := m
    rw [removeMembers, lookup_cons_eq]
    split_ifs with hl hlk hlk
    · exact absurd (hlk.symm.trans hl) hk
    · exact ih
    · rw [lookup_cons_eq, if_pos hlk]
      rfl
    · rw [lookup_cons_eq, if_neg hlk, ih]

theorem removeItems_eq_map (xs : List (Json.Tree F)) :
    removeItems xs = xs.map removeAdditionalProperties := by
  induction xs with
  | nil => rfl
  | cons x xs ih => rw [removeItems, ih, List.map_cons]

/-- What is not under a member of the name of the keyword stays where it is. -/
theorem subschema_removeAdditionalProperties {segments : List Segment}
    (h : Subschema K t segments s) (hne : .key additionalPropertiesKey ∉ segments) :
    Subschema K (removeAdditionalProperties t) segments (removeAdditionalProperties s) := by
  cases h with
  | @schema ms k s hk hs =>
    have hkey : k ≠ additionalPropertiesKey := fun h => hne (by simp [h])
    rw [removeAdditionalProperties]
    exact .schema hk (by rw [lookup_removeMembers hkey, hs]; rfl)
  | @map ms entries k name s hk hentries hs =>
    have hkey : k ≠ additionalPropertiesKey := fun h => hne (by simp [h])
    have hname : name ≠ additionalPropertiesKey := fun h => hne (by simp [h])
    rw [removeAdditionalProperties]
    refine .map hk (?_ : _ = some (Json.Tree.obj (removeMembers entries))) ?_
    · rw [lookup_removeMembers hkey, hentries, Option.map_some,
        removeAdditionalProperties]
    · rw [lookup_removeMembers hname, hs, Option.map_some]
  | @list ms xs k i s hk hxs hs =>
    have hkey : k ≠ additionalPropertiesKey := fun h => hne (by simp [h])
    rw [removeAdditionalProperties]
    refine .list hk (?_ : _ = some (Json.Tree.arr (removeItems xs))) ?_
    · rw [lookup_removeMembers hkey, hxs, Option.map_some,
        removeAdditionalProperties]
    · rw [removeItems_eq_map, List.getElem?_map, hs, Option.map_some]

theorem hasProperty_removeAdditionalProperties (h : HasProperty K t path name)
    (hpath : .key additionalPropertiesKey ∉ path) (hname : name ≠ additionalPropertiesKey) :
    HasProperty K (removeAdditionalProperties t) path name := by
  obtain ⟨ms, properties, hs, hproperties, hmem⟩ := h
  obtain ⟨s', hs', rfl⟩ := hs.simulation
    (R := fun t t' => t' = removeAdditionalProperties t)
    (P := fun x => x ≠ .key additionalPropertiesKey)
    (fun t t' segments s hR hstep hP => ⟨_, hR ▸ subschema_removeAdditionalProperties hstep
      fun hmem => hP _ hmem rfl, rfl⟩) (fun x hx heq => hpath (heq ▸ hx)) rfl
  rw [removeAdditionalProperties] at hs'
  refine ⟨removeMembers ms, removeMembers properties, hs', ?_, ?_⟩
  · rw [lookup_removeMembers (by decide), hproperties, Option.map_some,
      removeAdditionalProperties]
  · rw [← not_not (a := name ∈ _), ← lookup_eq_none] at hmem ⊢
    rwa [lookup_removeMembers hname, Option.map_eq_none_iff]

/-- Removal, of what declares additional properties. -/
theorem removesKeyword_remove : RemovesKeyword t (removeAdditionalProperties t) ↔
    ∀ path name, HasProperty schemaKeywords t path name →
      .key additionalPropertiesKey ∉ path ∧ name ≠ additionalPropertiesKey := by
  have hfree := free_removeAdditionalProperties t
  constructor
  · rintro ⟨-, h⟩ path name hname
    exact hfree.hasProperty (h path name hname)
  · intro h
    refine ⟨hfree.noAdditionalProperties, fun path name hname => ?_⟩
    obtain ⟨hpath, hne⟩ := h path name hname
    exact hasProperty_removeAdditionalProperties hname hpath hne

/-- Nothing is removed from what does not declare additional properties. -/
theorem removesKeyword_self : RemovesKeyword t t ↔ NoAdditionalProperties schemaKeywords t :=
  ⟨And.left, fun h => ⟨h, fun _ _ => id⟩⟩

theorem RemovesKeyword.congr (h : Annotated t t') (hu : Annotated u s) :
    RemovesKeyword t u ↔ RemovesKeyword t' s := by
  have himp {t t' u s : Json.Tree F} (h : Annotated t t') (hu : Annotated u s)
      (hremoves : RemovesKeyword t u) : RemovesKeyword t' s :=
    ⟨hu.noAdditionalProperties unannotated_schemaKeywords hremoves.1, fun path name hname =>
      hu.hasProperty unannotated_schemaKeywords
        (hremoves.2 path name (h.symm.hasProperty unannotated_schemaKeywords hname))⟩
  exact ⟨himp h hu, himp h.symm hu.symm⟩

/-- There are no positions within a list. -/
theorem removesKeyword_arr (items items' : List (Json.Tree F)) :
    RemovesKeyword (.arr items) (.arr items') := by
  refine ⟨fun path s hs => ?_, fun path name ⟨ms, _, hs, _⟩ => ?_⟩
  · rw [(hs.eq_of_not_obj (by simp)).2]
    rfl
  · exact absurd (hs.eq_of_not_obj (by simp)).2 (by simp)

theorem removesKeyword_convert (h : convertAdditionalProperties .unsupported t = some t') :
    RemovesKeyword t t' ↔
      if declaresAdditionalProperties t then ∀ path name, HasProperty schemaKeywords t path name →
        .key additionalPropertiesKey ∉ path ∧ name ≠ additionalPropertiesKey
      else NoAdditionalProperties schemaKeywords t := by
  obtain ⟨declared, hdeclared, rfl⟩ := Option.map_eq_some_iff.1 h
  cases t with
  | obj ms =>
    cases Option.some.inj hdeclared
    cases hms : (ms.lookup additionalPropertiesKey).isSome with
    | true => simpa [declaresAdditionalProperties, hms] using removesKeyword_remove
    | false => simpa [declaresAdditionalProperties, hms] using removesKeyword_self
  | arr items =>
    have hself := removesKeyword_self.1 (removesKeyword_arr items items)
    cases declared with
    | true => simpa [declaresAdditionalProperties, removeAdditionalProperties, hself] using
        removesKeyword_arr items (removeItems items)
    | false => simpa [declaresAdditionalProperties] using removesKeyword_self
  | str s => cases declared <;> exact removesKeyword_self
  | _ => cases hdeclared

/-- Where additional properties are unsupported: the keyword is removed if the root declares
    additional properties, and then with what else is of its name; and it is not removed if the
    root does not. -/
theorem removesKeyword_iff (hunsupported : o.additionalProperties = .unsupported)
    (hnullable : o.nullable = .noop) (hattrs : o.unsupportedAttrs = [])
    (h : convertJsonSchema zero o schema = .ok result) :
    RemovesKeyword (inputRoot schema) (resultRoot o.outputFormat result) ↔
      if declaresAdditionalProperties (inputRoot schema) then
        ∀ path name, HasProperty schemaKeywords (inputRoot schema) path name →
          .key additionalPropertiesKey ∉ path ∧ name ≠ additionalPropertiesKey
      else NoAdditionalProperties schemaKeywords (inputRoot schema) := by
  obtain ⟨container, container', hroot, hconvert, hresult⟩ :=
    convertJsonSchema_root hnullable hattrs h
  rw [hunsupported] at hconvert
  have hK := unannotated_schemaKeywords
  have hproperty (path : List Segment) (name : Str) :
      HasProperty schemaKeywords container path name ↔
        HasProperty schemaKeywords (inputRoot schema) path name :=
    ⟨hroot.symm.hasProperty hK, hroot.hasProperty hK⟩
  have hno : NoAdditionalProperties schemaKeywords container ↔
      NoAdditionalProperties schemaKeywords (inputRoot schema) :=
    ⟨hroot.symm.noAdditionalProperties hK, hroot.noAdditionalProperties hK⟩
  rw [RemovesKeyword.congr hroot hresult.symm, removesKeyword_convert hconvert, hroot.declares, hno]
  simp only [hproperty]

/-- A schema of the parameters of which one has labels of any name. -/
def labels : Dict Empty :=
  [(titleKey, .str (.ofString "labels")),
    (propertiesKey, .obj [(.ofString "labels", .obj [(typeKey, .str (.ofString "object")),
      (additionalPropertiesKey, .obj [(typeKey, .str (.ofString "string"))])])])]

/-- A schema with a parameter of the name of the keyword. -/
def namedParameter : Dict Empty :=
  [(titleKey, .str (.ofString "settings")), (additionalPropertiesKey, .bool false),
    (propertiesKey, .obj [(additionalPropertiesKey, .obj [(typeKey, .str (.ofString "boolean"))])])]

theorem removesKeyword_labels : ∃ result,
    convertJsonSchema (fun _ => false) { additionalProperties := .unsupported } labels =
        .ok result ∧
      (RemovesKeyword (inputRoot labels) (resultRoot .functionCall result) ↔
        NoAdditionalProperties schemaKeywords (inputRoot labels)) :=
  ⟨_, rfl, (removesKeyword_iff (o := { additionalProperties := .unsupported })
    rfl rfl rfl rfl).trans (by rw [if_neg (by decide)])⟩

/-- The keyword stays in a schema within, and a parameter is lost. -/
theorem not_removesKeyword :
    (∃ result, convertJsonSchema (fun _ => false) { additionalProperties := .unsupported }
        labels = .ok result ∧
      ¬ RemovesKeyword (inputRoot labels) (resultRoot .functionCall result)) ∧
    ∃ result, convertJsonSchema (fun _ => false) { additionalProperties := .unsupported }
        namedParameter = .ok result ∧
      ¬ RemovesKeyword (inputRoot namedParameter) (resultRoot .functionCall result) := by
  refine ⟨⟨_, rfl, fun h => ?_⟩, ⟨_, rfl, fun h => ?_⟩⟩
  · have hat := h.1 [.key propertiesKey, .key (.ofString "labels")] _
      (.there (.map (by decide) rfl rfl) (.here _))
    cases hat
  · obtain ⟨ms, properties, hs, hproperties, hmem⟩ :=
      h.2 [] additionalPropertiesKey ⟨_, _, .here _, rfl, by simp⟩
    cases hs.follow
    cases hproperties
    cases hmem

/-! ## Additional properties that are disabled by default -/

/-- The keywords of which the schemas are visited. -/
def visitedKeywords : JsonSchema.Keywords where
  schema := ["items"].map .ofString
  map := ["$defs", "properties"].map .ofString
  list := ["anyOf", "oneOf", "allOf"].map .ofString

/-- The schema is one of objects. -/
def isObjectSchema (ms : Dict F) : Bool := isObjectType ms || (ms.lookup propertiesKey).isSome

/-- A declaration of additional properties: a boolean, or a schema that says something. -/
def isDeclaration : Json.Tree F → Bool
  | .bool _ => true
  | .obj (_ :: _) => true
  | _ => false

/-- The additional properties of a schema are disabled if they are not declared, and else left
    as they are. -/
structure ClosesIfOpen (ms ms' : Dict F) : Prop where
  undeclared : ms.lookup additionalPropertiesKey = none ∨
    ms.lookup additionalPropertiesKey = some (.obj []) →
      ms'.lookup additionalPropertiesKey = some (.bool false)
  declared : ∀ x, ms.lookup additionalPropertiesKey = some x → isDeclaration x →
    ms'.lookup additionalPropertiesKey = some x

/-- A conversion closes the schemas of objects that are open, and no others. -/
def ClosesOpen (input result : Json.Tree F) : Prop :=
  ∀ path ms', At visitedKeywords result path (.obj ms') → isObjectSchema ms' →
    ∃ ms, At visitedKeywords input path (.obj ms) ∧ ClosesIfOpen ms ms'

/-- No schema of the type of objects declares additional properties, other than to disable
    them. -/
def ObjectsClosed (t : Json.Tree F) : Prop :=
  ∀ path ms, At visitedKeywords t path (.obj ms) → isObjectType ms →
    ∀ x, ms.lookup additionalPropertiesKey = some x → isDeclaration x → x = .bool false

theorem unannotated_visitedKeywords : Unannotated visitedKeywords := by decide

theorem lookup_setMembers : (setMembers ms).lookup k = (ms.lookup k).map fun x =>
    if k ∈ ["$defs", "properties"].map Str.ofString then setValues x
    else if k = .ofString "items" then setAdditionalPropertiesFalse x
    else if k ∈ ["anyOf", "oneOf", "allOf"].map Str.ofString then setVariants x
    else x := by
  induction ms with
  | nil => rfl
  | cons m ms ih =>
    obtain ⟨l, x⟩ := m
    rw [setMembers, lookup_cons_eq, lookup_cons_eq, ih]
    by_cases hl : l = k
    · rw [if_pos hl, if_pos hl, hl, Option.map_some]
    · rw [if_neg hl, if_neg hl]

/-- The members of an object after the conversion. -/
theorem setAdditionalPropertiesFalse_obj (ms : Dict F) :
    ∃ ms', setAdditionalPropertiesFalse (.obj ms) = .obj ms' ∧
      (ms'.lookup additionalPropertiesKey = if closes ms then some (.bool false) else
        ms.lookup additionalPropertiesKey) ∧
      ∀ k ≠ additionalPropertiesKey, ms'.lookup k = (setMembers ms).lookup k := by
  have hkey : (setMembers ms).lookup additionalPropertiesKey =
      ms.lookup additionalPropertiesKey := by
    simp only [lookup_setMembers, (by decide : additionalPropertiesKey ∉
      ["$defs", "properties"].map Str.ofString), (by decide : additionalPropertiesKey ≠
      .ofString "items"), (by decide : additionalPropertiesKey ∉
      ["anyOf", "oneOf", "allOf"].map Str.ofString), if_false, Option.map_id_fun']
    rfl
  rw [setAdditionalPropertiesFalse]
  split_ifs with h
  · refine ⟨_, rfl, ?_, fun k hk => ?_⟩
    · rw [lookup_assign, if_pos rfl]
    · rw [lookup_assign, if_neg (Ne.symm hk)]
  · exact ⟨_, rfl, hkey, fun k _ => rfl⟩

theorem lookup_setMembers_schema (hk : k ∈ visitedKeywords.schema) :
    (setMembers ms).lookup k = (ms.lookup k).map setAdditionalPropertiesFalse := by
  obtain rfl : k = .ofString "items" := List.mem_singleton.1 hk
  have hkey : Str.ofString "items" ∉ ["$defs", "properties"].map Str.ofString := by decide
  rw [lookup_setMembers]
  simp only [hkey, if_false, if_true]

theorem lookup_setMembers_map (hk : k ∈ visitedKeywords.map) :
    (setMembers ms).lookup k = (ms.lookup k).map setValues := by
  rw [lookup_setMembers]
  simp only [show k ∈ ["$defs", "properties"].map Str.ofString from hk, if_true]

theorem lookup_setMembers_list (hk : k ∈ visitedKeywords.list) :
    (setMembers ms).lookup k = (ms.lookup k).map setVariants := by
  have hkey : ∀ k ∈ visitedKeywords.list, k ∉ ["$defs", "properties"].map Str.ofString ∧
      k ≠ .ofString "items" := by decide
  rw [lookup_setMembers]
  simp only [hkey k hk, show k ∈ ["anyOf", "oneOf", "allOf"].map Str.ofString from hk,
    if_false, if_true]

theorem lookup_setEntries : (setEntries ms).lookup k =
    (ms.lookup k).map setAdditionalPropertiesFalse := by
  induction ms with
  | nil => rfl
  | cons m ms ih =>
    obtain ⟨l, x⟩ := m
    rw [setEntries, lookup_cons_eq, lookup_cons_eq, ih]
    split_ifs <;> rfl

theorem setItems_eq_map (xs : List (Json.Tree F)) :
    setItems xs = xs.map setAdditionalPropertiesFalse := by
  induction xs with
  | nil => rfl
  | cons x xs ih => rw [setItems, ih, List.map_cons]

theorem eq_obj_of_setValues {entries : Dict F} (h : setValues t = .obj entries) :
    ∃ ms, t = .obj ms ∧ entries = setEntries ms := by
  cases t <;> simp_all [setValues]

theorem eq_arr_of_setVariants {items : List (Json.Tree F)} (h : setVariants t = .arr items) :
    ∃ xs, t = .arr xs ∧ items = setItems xs := by
  cases t <;> simp_all [setVariants]

theorem eq_obj_of_setAdditionalPropertiesFalse {ms' : Dict F}
    (h : setAdditionalPropertiesFalse t = .obj ms') : ∃ ms, t = .obj ms := by
  cases t <;> simp_all [setAdditionalPropertiesFalse]

theorem ne_additionalPropertiesKey
    (hk : k ∈ visitedKeywords.schema ++ (visitedKeywords.map ++ visitedKeywords.list)) :
    k ≠ additionalPropertiesKey := by
  have hkey : ∀ k ∈ visitedKeywords.schema ++ (visitedKeywords.map ++ visitedKeywords.list),
      k ≠ additionalPropertiesKey := by decide
  exact hkey k hk

/-- The schemas that are visited are those that are converted, each at its place. -/
theorem subschema_setAdditionalPropertiesFalse {segments : List Segment} {s' : Json.Tree F} :
    Subschema visitedKeywords (setAdditionalPropertiesFalse t) segments s' ↔
      ∃ s, Subschema visitedKeywords t segments s ∧ s' = setAdditionalPropertiesFalse s := by
  constructor
  · intro h
    generalize hset : setAdditionalPropertiesFalse t = t' at h
    obtain ⟨ms, rfl⟩ : ∃ ms, t = .obj ms := by
      cases h <;> exact eq_obj_of_setAdditionalPropertiesFalse hset
    obtain ⟨ms', heq, -, hlookup⟩ := setAdditionalPropertiesFalse_obj ms
    rw [heq] at hset
    subst hset
    cases h with
    | schema hk hs =>
      rw [hlookup _ (ne_additionalPropertiesKey (by simp [hk])), lookup_setMembers_schema hk,
        Option.map_eq_some_iff] at hs
      obtain ⟨s, hs, rfl⟩ := hs
      exact ⟨s, .schema hk hs, rfl⟩
    | map hk hentries hs =>
      rw [hlookup _ (ne_additionalPropertiesKey (by simp [hk])), lookup_setMembers_map hk,
        Option.map_eq_some_iff] at hentries
      obtain ⟨x, hx, hentries⟩ := hentries
      obtain ⟨entries, rfl, rfl⟩ := eq_obj_of_setValues hentries
      rw [lookup_setEntries, Option.map_eq_some_iff] at hs
      obtain ⟨s, hs, rfl⟩ := hs
      exact ⟨s, .map hk hx hs, rfl⟩
    | list hk hxs hs =>
      rw [hlookup _ (ne_additionalPropertiesKey (by simp [hk])), lookup_setMembers_list hk,
        Option.map_eq_some_iff] at hxs
      obtain ⟨x, hx, hxs⟩ := hxs
      obtain ⟨xs, rfl, rfl⟩ := eq_arr_of_setVariants hxs
      rw [setItems_eq_map, List.getElem?_map, Option.map_eq_some_iff] at hs
      obtain ⟨s, hs, rfl⟩ := hs
      exact ⟨s, .list hk hx hs, rfl⟩
  · rintro ⟨s, h, rfl⟩
    cases h with
    | @schema ms k s hk hs =>
      obtain ⟨ms', heq, -, hlookup⟩ := setAdditionalPropertiesFalse_obj ms
      rw [heq]
      refine .schema hk ?_
      rw [hlookup _ (ne_additionalPropertiesKey (by simp [hk])), lookup_setMembers_schema hk, hs,
        Option.map_some]
    | @map ms entries k name s hk hentries hs =>
      obtain ⟨ms', heq, -, hlookup⟩ := setAdditionalPropertiesFalse_obj ms
      rw [heq]
      refine .map hk (?_ : _ = some (Json.Tree.obj (setEntries entries))) ?_
      · rw [hlookup _ (ne_additionalPropertiesKey (by simp [hk])), lookup_setMembers_map hk,
          hentries, Option.map_some, setValues]
      · rw [lookup_setEntries, hs, Option.map_some]
    | @list ms xs k i s hk hxs hs =>
      obtain ⟨ms', heq, -, hlookup⟩ := setAdditionalPropertiesFalse_obj ms
      rw [heq]
      refine .list hk (?_ : _ = some (Json.Tree.arr (setItems xs))) ?_
      · rw [hlookup _ (ne_additionalPropertiesKey (by simp [hk])), lookup_setMembers_list hk,
          hxs, Option.map_some, setVariants]
      · rw [setItems_eq_map, List.getElem?_map, hs, Option.map_some]

/-- The schemas at positions are converted where they are. -/
theorem at_setAdditionalPropertiesFalse {s' : Json.Tree F} :
    At visitedKeywords (setAdditionalPropertiesFalse t) path s' ↔
      ∃ s, At visitedKeywords t path s ∧ s' = setAdditionalPropertiesFalse s := by
  constructor
  · intro h
    exact h.simulation (R := fun t' t => t' = setAdditionalPropertiesFalse t) (P := fun _ => True)
      (fun t' t segments s' hR hstep _ => subschema_setAdditionalPropertiesFalse.1 (hR ▸ hstep))
      (fun _ _ => trivial) rfl
  · rintro ⟨s, h, rfl⟩
    obtain ⟨s', hs', rfl⟩ := h.simulation (R := fun t t' => t' = setAdditionalPropertiesFalse t)
      (P := fun _ => True) (fun t t' segments s hR hstep _ =>
        ⟨_, hR ▸ subschema_setAdditionalPropertiesFalse.2 ⟨s, hstep, rfl⟩, rfl⟩)
      (fun _ _ => trivial) rfl
    exact hs'

/-- What is done to the additional properties of a schema of objects. -/
theorem closesIfOpen_iff {ms' : Dict F} (hobject : isObjectSchema ms)
    (h : ms'.lookup additionalPropertiesKey = if closes ms then some (.bool false) else
      ms.lookup additionalPropertiesKey) : ClosesIfOpen ms ms' ↔ (isObjectType ms →
        ∀ x, ms.lookup additionalPropertiesKey = some x → isDeclaration x → x = .bool false) := by
  constructor
  · intro hcloses htype x hx hdeclaration
    have hkept := hcloses.declared x hx hdeclaration
    rw [h, if_pos (by simp [closes, htype])] at hkept
    exact (Option.some.inj hkept).symm
  · intro hclosed
    refine ⟨fun hundeclared => ?_, fun x hx hdeclaration => ?_⟩
    · rw [h, if_pos]
      rcases hundeclared with hundeclared | hundeclared
      · rw [closes, hundeclared, Option.isNone_none, Bool.and_true, Bool.or_assoc,
          show (isObjectType ms || _) = true from hobject, Bool.or_true]
      · simp [closes, malformed, hundeclared]
    · rw [h]
      split_ifs with hcloses
      · have hmalformed : malformed ms = false := by
          unfold malformed
          rw [hx]
          split
          · rename_i heq
            cases heq
            cases hdeclaration
          · rfl
        have htype : isObjectType ms := by simpa [closes, hmalformed, hx] using hcloses
        rw [hclosed htype x hx hdeclaration]
      · exact hx

/-- The schemas of objects are closed as they should be, unless one that is of their type
    declares additional properties. -/
theorem closesOpen_setAdditionalPropertiesFalse :
    ClosesOpen t (setAdditionalPropertiesFalse t) ↔ ObjectsClosed t := by
  have hmembers (ms : Dict F) : ∃ ms', setAdditionalPropertiesFalse (.obj ms) = .obj ms' ∧
      isObjectSchema ms' = isObjectSchema ms ∧ (isObjectSchema ms → (ClosesIfOpen ms ms' ↔
        (isObjectType ms → ∀ x, ms.lookup additionalPropertiesKey = some x →
          isDeclaration x → x = .bool false))) := by
    obtain ⟨ms', heq, hadditional, hlookup⟩ := setAdditionalPropertiesFalse_obj ms
    have htype : ms'.lookup typeKey = ms.lookup typeKey := by
      rw [hlookup _ (by decide), lookup_setMembers]
      exact Option.map_id' ..
    have hproperties : (ms'.lookup propertiesKey).isSome = (ms.lookup propertiesKey).isSome := by
      rw [hlookup _ (by decide), lookup_setMembers_map (by decide), Option.isSome_map]
    refine ⟨ms', heq, ?_, fun hobject => closesIfOpen_iff hobject hadditional⟩
    rw [isObjectSchema, isObjectSchema, isObjectType, isObjectType, htype, hproperties]
  constructor
  · intro hcloses path ms hs htype
    obtain ⟨ms', heq, hsame, hiff⟩ := hmembers ms
    have hobject : isObjectSchema ms := by rw [isObjectSchema, htype, Bool.true_or]
    obtain ⟨ms₀, hs₀, hclosed⟩ := hcloses path ms'
      (at_setAdditionalPropertiesFalse.2 ⟨_, hs, heq.symm⟩) (hsame ▸ hobject)
    cases hs.unique hs₀
    exact (hiff hobject).1 hclosed htype
  · intro hclosed path ms₀ hs₀ hobject
    obtain ⟨s, hs, heq₀⟩ := at_setAdditionalPropertiesFalse.1 hs₀
    obtain ⟨ms, rfl⟩ := eq_obj_of_setAdditionalPropertiesFalse heq₀.symm
    obtain ⟨ms', heq, hsame, hiff⟩ := hmembers ms
    cases heq₀.trans heq
    exact ⟨ms, hs, (hiff (hsame ▸ hobject)).2 (hclosed path ms hs)⟩

theorem convertAdditionalProperties_of_undeclared (h : declaresAdditionalProperties t = false)
    (hconvert : convertAdditionalProperties .defaultToFalse t = some t') :
    t' = setAdditionalPropertiesFalse t := by
  obtain ⟨declared, hdeclared, rfl⟩ := Option.map_eq_some_iff.1 hconvert
  cases t with
  | obj ms =>
    rw [← Option.some.inj hdeclared, ← declaresAdditionalProperties, h]
    rfl
  | _ => exact ite_self _

theorem Annotated.objectsClosed (h : Annotated t t') (ht : ObjectsClosed t) :
    ObjectsClosed t' := by
  intro path ms' hs' htype x hx hdeclaration
  obtain ⟨s, hs, hannotated⟩ := h.symm.at unannotated_visitedKeywords hs'
  cases hannotated with
  | refl => exact ht path ms' hs htype x hx hdeclaration
  | obj hsame =>
    rw [isObjectType, ← hsame _ (by decide)] at htype
    exact ht path _ hs htype x ((hsame _ (by decide)).trans hx) hdeclaration

theorem ClosesOpen.congr (h : Annotated t t') (hu : Annotated u s) :
    ClosesOpen t u ↔ ClosesOpen t' s := by
  have himp {t t' u s : Json.Tree F} (h : Annotated t t') (hu : Annotated u s)
      (hcloses : ClosesOpen t u) : ClosesOpen t' s := by
    intro path ms' hs' hobject
    obtain ⟨v, hv, hannotated⟩ := hu.symm.at unannotated_visitedKeywords hs'
    obtain ⟨ms₀, rfl, hobject, hlookup⟩ : ∃ ms₀, v = .obj ms₀ ∧ isObjectSchema ms₀ ∧
        ms'.lookup additionalPropertiesKey = ms₀.lookup additionalPropertiesKey := by
      cases hannotated with
      | refl => exact ⟨ms', rfl, hobject, rfl⟩
      | obj hsame =>
        refine ⟨_, rfl, ?_, (hsame _ (by decide)).symm⟩
        rwa [isObjectSchema, isObjectType, hsame _ (by decide), hsame _ (by decide)]
    obtain ⟨ms, hs, hclosed⟩ := hcloses path ms₀ hv hobject
    obtain ⟨w, hw, hannotated⟩ := h.at unannotated_visitedKeywords hs
    cases hannotated with
    | refl => exact ⟨ms, hw, by rw [hlookup]; exact hclosed.undeclared,
        by rw [hlookup]; exact hclosed.declared⟩
    | obj hsame =>
      refine ⟨_, hw, ?_, ?_⟩
      · rw [hlookup, hsame _ (by decide)]
        exact hclosed.undeclared
      · rw [hlookup, hsame _ (by decide)]
        exact hclosed.declared
  exact ⟨himp h hu, himp h.symm hu.symm⟩

end Hyperforge.Completions
