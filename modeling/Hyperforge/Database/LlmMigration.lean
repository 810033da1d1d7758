import Hyperforge.Library.Json.Ascii
import Hyperforge.Library.Json.Shell
import Hyperforge.Library.JsonSchema.Inline
import Mathlib.Data.List.TakeWhile

/-!
# Migrations of stored model configurations

Stored configurations of agents have models as strings, in fields that an inventory lists by the
module of the agent. A migration wraps them in structured configurations
(`wrapLegacyLlmFields`), going down into the agents that agents have in other fields. Another one
renames models (`walkAndReplace`), wherever a structured configuration is marked as such.

* `ModelField`: the fields that the inventory lists, `MarkedModel`: the models that are marked,
  each at its position;
* `follow_wrap`, `sameAt_wrap`: what wrapping does there, and that it does nothing elsewhere;
* `follow_walk`, `sameAt_walk`: the same of renaming.
-/

namespace Hyperforge.Database.LlmMigration

open Json hiding Tree
open JsonSchema (Segment follow Distinct Everywhere)

abbrev Dict (F : Type) := List (Str × Json.Tree F)

def llmConfigType : Str := .ofString "llm_config"
def typeKey : Str := .ofString "_type"
def modelIdKey : Str := .ofString "model_id"
def moduleKey : Str := .ofString "module"

variable {F : Type}

/-! ## The inventory -/

def contextModules : List Str :=
  ["a2a", "advanced_ask", "ask", "basic_ask", "brave", "context_conditional", "cypher", "google",
    "http", "marklogic", "mcp", "multi_mcp", "pandas", "perplexity", "perplexity_search",
    "restricted", "salesforce", "smart", "snowflake", "sparql", "sql", "static", "static_string",
    "sitefinity", "sync"].map .ofString

def contextFields : List Str :=
  ["context_validation_model", "rephrase_model", "summarize_model"].map .ofString

def contextNestedFields : List Str := ["fallback", "next_agent"].map .ofString

def fieldTable (table : List (String × List String)) : List (Str × List Str) :=
  table.map fun entry => (.ofString entry.1, entry.2.map .ofString)

def modelFieldsByModule : List (Str × List Str) := fieldTable
  [("advanced_ask", ["generative_model"]),
    ("ask", ["configuration_model"]),
    ("basic_ask", ["generative_model"]),
    ("context_conditional", ["model"]),
    ("external", ["model"]),
    ("generate", ["model"]),
    ("generation_conditional", ["model"]),
    ("mcp", ["tool_choice_model", "sampling_model"]),
    ("multi_mcp", ["summarize_model", "tool_choice_model"]),
    ("post_conditional", ["model"]),
    ("pre_conditional", ["model"]),
    ("related", ["model"]),
    ("rephrase", ["model"]),
    ("restart", ["model"]),
    ("restricted", ["decision_model"]),
    ("salesforce", ["tool_choice_model", "sampling_model"]),
    ("smart", ["planner_model", "executor_model"]),
    ("summarize", ["model"]),
    ("sync", ["generative_model"])]

def nestedFieldsByModule : List (Str × List Str) := fieldTable
  [("advanced_generation", ["summarize_config", "data_viz_config"]),
    ("context_conditional", ["then", "else_"]),
    ("generation_conditional", ["then", "else_"]),
    ("multi_mcp", ["configs"]),
    ("post_conditional", ["then", "else_"]),
    ("pre_conditional", ["then", "else_"]),
    ("restricted", ["agents"]),
    ("smart", ["registered_agents"])]

/-- The fields that a table has for a module, with those that all agents with a context have. -/
def fieldsOf (table : List (Str × List Str)) (ofContext : List Str) (module : Str) : List Str :=
  (table.lookup module).getD [] ++ if module ∈ contextModules then ofContext else []

def modelFields : Str → List Str := fieldsOf modelFieldsByModule contextFields

def nestedFields : Str → List Str := fieldsOf nestedFieldsByModule contextNestedFields

/-! ## Wrapping -/

/-- `config.get("module")`, if it is a string. -/
def moduleOf (config : Dict F) : Option Str :=
  match config.lookup moduleKey with
  | some (.str module) => some module
  | _ => none

def structured (modelId : Str) : Json.Tree F :=
  .obj [(typeKey, .str llmConfigType), (modelIdKey, .str modelId)]

/-- The value of a model field, wrapped, and whether it has been changed. -/
def wrapModel : Json.Tree F → Json.Tree F × Bool
  | .str value => (structured value, true)
  | value => (value, false)

mutual

/-- The configuration that is left, and whether it has been changed. -/
def wrapLegacyLlmFields : Json.Tree F → Json.Tree F × Bool
  | .arr items => let wrapped := wrapItems items; (.arr wrapped.1, wrapped.2)
  | .obj config =>
    match moduleOf config with
    | some module => let wrapped := wrapMembers module config; (.obj wrapped.1, wrapped.2)
    | none => (.obj config, false)
  | value => (value, false)

def wrapItems : List (Json.Tree F) → List (Json.Tree F) × Bool
  | [] => ([], false)
  | item :: items =>
    let wrapped := wrapLegacyLlmFields item
    let rest := wrapItems items
    (wrapped.1 :: rest.1, wrapped.2 || rest.2)

/-- The members of an agent: the fields of the one kind are not of the other
    (`notMem_nestedFields`), so that each is looked at once. -/
def wrapMembers (module : Str) : Dict F → Dict F × Bool
  | [] => ([], false)
  | (k, value) :: config =>
    let wrapped :=
      if k ∈ modelFields module then wrapModel value
      else if k ∈ nestedFields module then wrapLegacyLlmFields value
      else (value, false)
    let rest := wrapMembers module config
    ((k, wrapped.1) :: rest.1, wrapped.2 || rest.2)

end

/-! ## Renaming -/

def slash : CodePoint := .scalar '/'

/-- `new_value` or `f"{new_value}/{suffix}"`, if there is a suffix. -/
def withSuffix (newValue suffix : Str) : Str :=
  if suffix.isEmpty then newValue else newValue ++ slash :: suffix

/-- What replaces a model: `none` where its base, up to the first slash, is not replaced. -/
def replacement (replacements : List (Str × Str)) (modelValue : Str) : Option Str :=
  (replacements.lookup (modelValue.takeWhile (· ≠ slash))).map fun newValue =>
    withSuffix newValue (modelValue.dropWhile (· ≠ slash)).tail

/-- `obj.get("_type") == LLM_CONFIG_TYPE` -/
def isMarked (obj : Dict F) : Bool :=
  match obj.lookup typeKey with
  | some (.str type) => type = llmConfigType
  | _ => false

def replaceModel (replacements : List (Str × Str)) (modelValue : Str) : Json.Tree F × Bool :=
  match replacement replacements modelValue with
  | some newValue => (.str newValue, true)
  | none => (.str modelValue, false)

mutual

/-- The structure that is left, and whether it has been modified. -/
def walkAndReplace (replacements : List (Str × Str)) : Json.Tree F → Json.Tree F × Bool
  | .obj obj =>
    let walked := walkMembers replacements (isMarked obj) obj
    (.obj walked.1, walked.2)
  | .arr items => let walked := walkItems replacements items; (.arr walked.1, walked.2)
  | value => (value, false)

def walkItems (replacements : List (Str × Str)) :
    List (Json.Tree F) → List (Json.Tree F) × Bool
  | [] => ([], false)
  | item :: items =>
    let walked := walkAndReplace replacements item
    let rest := walkItems replacements items
    (walked.1 :: rest.1, walked.2 || rest.2)

/-- The members of an object. The walk goes on into the model that it may have replaced, a
    string, in which there is nothing. -/
def walkMembers (replacements : List (Str × Str)) (marked : Bool) : Dict F → Dict F × Bool
  | [] => ([], false)
  | (k, .str value) :: obj =>
    let walked := if marked && k = modelIdKey then replaceModel replacements value
      else (.str value, false)
    let rest := walkMembers replacements marked obj
    ((k, walked.1) :: rest.1, walked.2 || rest.2)
  | (k, value) :: obj =>
    let walked := walkAndReplace replacements value
    let rest := walkMembers replacements marked obj
    ((k, walked.1) :: rest.1, walked.2 || rest.2)

end

/-! ## Loading -/

inductive ReasoningEffort
  | none
  | minimal
  | low
  | medium
  | high
  | xhigh
  deriving DecidableEq

inductive SimpleReasoning
  | disabled
  | enabled
  deriving DecidableEq

structure ReasoningConfig where
  effort : Option ReasoningEffort
  budgetTokens : Option ℤ
  deriving DecidableEq

structure LLMConfig where
  type : Str
  modelId : Str
  reasoning : Option SimpleReasoning
  advancedReasoning : Option ReasoningConfig
  deriving DecidableEq

/-- How the validation of models validates strings and integers: strings are accepted as they are,
    if they can be encoded. -/
structure Validators (F : Type) where
  string : Json.Tree F → Option Str
  integer : Json.Tree F → Option ℤ
  string_str : ∀ s, NoSurrogates s → string (.str s) = some s

/-- A field that may be `None`, as it is by default. -/
def optional {α : Type} (validate : Json.Tree F → Option α) :
    Option (Json.Tree F) → Option (Option α)
  | none | some .null => some none
  | some value => (validate value).map some

/-- A member of an enumeration of strings. -/
def enumeration {α : Type} (values : List (String × α)) : Json.Tree F → Option α
  | .str s => (values.map fun value => (Str.ofString value.1, value.2)).lookup s
  | _ => none

def ReasoningEffort.validate : Json.Tree F → Option ReasoningEffort :=
  enumeration [("none", .none), ("minimal", .minimal), ("low", .low), ("medium", .medium),
    ("high", .high), ("xhigh", .xhigh)]

def SimpleReasoning.validate : Json.Tree F → Option SimpleReasoning :=
  enumeration [("disabled", .disabled), ("enabled", .enabled)]

def ReasoningConfig.validate (v : Validators F) : Json.Tree F → Option ReasoningConfig
  | .obj data =>
    (optional ReasoningEffort.validate (data.lookup (.ofString "effort"))).bind fun effort =>
    (optional v.integer (data.lookup (.ofString "budget_tokens"))).map fun budgetTokens =>
      { effort, budgetTokens }
  | _ => none

/-- The type is given by its alias, or else by its name, and has a default. -/
def validateType (v : Validators F) (data : Dict F) : Option Str :=
  match data.lookup typeKey, data.lookup (.ofString "type") with
  | some type, _ | none, some type => v.string type
  | none, none => some llmConfigType

/-- Validation: `none` where it raises an error. -/
def LLMConfig.validate (v : Validators F) (data : Dict F) : Option LLMConfig :=
  (validateType v data).bind fun type =>
  (data.lookup modelIdKey).bind fun modelId =>
  (v.string modelId).bind fun modelId =>
  (optional SimpleReasoning.validate (data.lookup (.ofString "reasoning"))).bind fun reasoning =>
  (optional (ReasoningConfig.validate v)
    (data.lookup (.ofString "advanced_reasoning"))).map fun advancedReasoning =>
    { type, modelId, reasoning, advancedReasoning }

/-- An `LLMField` is loaded: a string is coerced to `LLMConfig(model_id=value)`, anything else is
    validated. -/
def loadLLMField (v : Validators F) : Json.Tree F → Option LLMConfig
  | .str value => LLMConfig.validate v [(modelIdKey, .str value)]
  | .obj data => LLMConfig.validate v data
  | _ => none

/-! ## Positions -/

/-- A value of a model field that the inventory lists, of an agent that is in a field listed for
    agents, or is a configuration itself, with the path to it. -/
inductive ModelField : Json.Tree F → List Segment → Json.Tree F → Prop
  | field {config : Dict F} {module k : Str} {value : Json.Tree F}
    (hm : moduleOf config = some module) (hk : k ∈ modelFields module)
    (hv : config.lookup k = some value) : ModelField (.obj config) [.key k] value
  | nested {config : Dict F} {module k : Str} {x value : Json.Tree F} {path : List Segment}
    (hm : moduleOf config = some module) (hk : k ∈ nestedFields module)
    (hx : config.lookup k = some x) (h : ModelField x path value) :
    ModelField (.obj config) (.key k :: path) value
  | item {items : List (Json.Tree F)} {i : ℕ} {x value : Json.Tree F} {path : List Segment}
    (hx : items[i]? = some x) (h : ModelField x path value) :
    ModelField (.arr items) (.index i :: path) value

/-- A model in an object that is marked, wherever it is, with the path to it. -/
inductive MarkedModel : Json.Tree F → List Segment → Str → Prop
  | here {obj : Dict F} {s : Str} (hm : isMarked obj) (hs : obj.lookup modelIdKey = some (.str s)) :
    MarkedModel (.obj obj) [.key modelIdKey] s
  | member {obj : Dict F} {k s : Str} {x : Json.Tree F} {path : List Segment}
    (hx : obj.lookup k = some x) (h : MarkedModel x path s) :
    MarkedModel (.obj obj) (.key k :: path) s
  | item {items : List (Json.Tree F)} {i : ℕ} {x : Json.Tree F} {path : List Segment} {s : Str}
    (hx : items[i]? = some x) (h : MarkedModel x path s) :
    MarkedModel (.arr items) (.index i :: path) s

/-- The position is that of a model field that is a string, or within it. -/
def Legacy (t : Json.Tree F) (path : List Segment) : Prop :=
  ∃ q s, ModelField t q (.str s) ∧ q <+: path

/-! ## Fields -/

variable {module k : Str} {config obj ms : Dict F} {x t value : Json.Tree F} {path : List Segment}
  {replacements : List (Str × Str)} {s : Str}

theorem mem_fieldsOf {table : List (Str × List Str)} {ofContext : List Str}
    (h : k ∈ fieldsOf table ofContext module) : k ∈ table.flatMap Prod.snd ++ ofContext := by
  rw [fieldsOf, List.mem_append] at h
  rcases h with h | h
  · refine List.mem_append_left _ (List.mem_flatMap.2 ?_)
    cases hfields : table.lookup module with
    | none =>
      rw [hfields] at h
      cases h
    | some fields =>
      rw [hfields] at h
      exact ⟨_, mem_of_lookup hfields, h⟩
  · split_ifs at h
    · exact List.mem_append_right _ h
    · cases h

/-- Model fields are not fields of agents, and neither are those that a migration looks at. -/
theorem fields_disjoint :
    (∀ k ∈ modelFieldsByModule.flatMap Prod.snd ++ contextFields,
      k ∉ nestedFieldsByModule.flatMap Prod.snd ++ contextNestedFields) ∧
    ∀ k ∈ [moduleKey, typeKey, modelIdKey],
      k ∉ modelFieldsByModule.flatMap Prod.snd ++ contextFields ∧
      k ∉ nestedFieldsByModule.flatMap Prod.snd ++ contextNestedFields := by
  decide

theorem notMem_nestedFields (hk : k ∈ modelFields module) : k ∉ nestedFields module :=
  fun h => fields_disjoint.1 k (mem_fieldsOf hk) (mem_fieldsOf h)

/-- What a migration looks at is not in a field of the inventory. -/
theorem notMem_fields (hk : k ∈ [moduleKey, typeKey, modelIdKey]) :
    k ∉ modelFields module ∧ k ∉ nestedFields module :=
  ⟨fun h => (fields_disjoint.2 k hk).1 (mem_fieldsOf h),
    fun h => (fields_disjoint.2 k hk).2 (mem_fieldsOf h)⟩

/-! ## What wrapping does -/

/-- What is done to a member of an agent. -/
def wrapMember (module k : Str) (value : Json.Tree F) : Json.Tree F × Bool :=
  if k ∈ modelFields module then wrapModel value
  else if k ∈ nestedFields module then wrapLegacyLlmFields value
  else (value, false)

theorem wrapMember_of_model (hk : k ∈ modelFields module) :
    wrapMember module k value = wrapModel value := if_pos hk

theorem wrapMember_of_nested (hk : k ∈ nestedFields module) :
    wrapMember module k value = wrapLegacyLlmFields value := by
  rw [wrapMember, if_neg fun h => notMem_nestedFields h hk, if_pos hk]

theorem wrapMember_of_neither (hk : k ∉ modelFields module ∧ k ∉ nestedFields module) :
    wrapMember module k value = (value, false) := by
  rw [wrapMember, if_neg hk.1, if_neg hk.2]

theorem wrapMembers_eq : wrapMembers module config =
    (config.map fun m => (m.1, (wrapMember module m.1 m.2).1),
      config.any fun m => (wrapMember module m.1 m.2).2) := by
  induction config with
  | nil => rfl
  | cons m config ih =>
    obtain ⟨k, value⟩ := m
    rw [wrapMembers, ih]
    rfl

theorem wrapItems_eq (items : List (Json.Tree F)) : wrapItems items =
    (items.map fun x => (wrapLegacyLlmFields x).1,
      items.any fun x => (wrapLegacyLlmFields x).2) := by
  induction items with
  | nil => rfl
  | cons x items ih =>
    rw [wrapItems, ih]
    rfl

theorem wrap_arr (items : List (Json.Tree F)) : wrapLegacyLlmFields (.arr items) =
    (.arr (items.map fun x => (wrapLegacyLlmFields x).1),
      items.any fun x => (wrapLegacyLlmFields x).2) := by
  rw [wrapLegacyLlmFields, wrapItems_eq]

theorem wrap_obj (hm : moduleOf config = some module) : wrapLegacyLlmFields (.obj config) =
    (.obj (config.map fun m => (m.1, (wrapMember module m.1 m.2).1)),
      config.any fun m => (wrapMember module m.1 m.2).2) := by
  rw [wrapLegacyLlmFields, hm]
  simp only [wrapMembers_eq]

theorem wrap_of_moduleOf_eq_none (hm : moduleOf config = none) :
    wrapLegacyLlmFields (.obj config) = (.obj config, false) := by
  rw [wrapLegacyLlmFields, hm]

theorem lookup_wrapped : (config.map fun m => (m.1, (wrapMember module m.1 m.2).1)).lookup k =
    (config.lookup k).map fun x => (wrapMember module k x).1 :=
  lookup_map_values (fun k x => (wrapMember module k x).1) k config

/-- What a migration looks at stays as it is. -/
theorem lookup_wrapped_kept (hk : k ∈ [moduleKey, typeKey, modelIdKey]) :
    (config.map fun m => (m.1, (wrapMember module m.1 m.2).1)).lookup k = config.lookup k := by
  rw [lookup_wrapped]
  simp only [wrapMember_of_neither (notMem_fields hk), Option.map_id_fun']
  rfl

theorem moduleOf_wrapped :
    moduleOf (config.map fun m => (m.1, (wrapMember module m.1 m.2).1)) = moduleOf config := by
  rw [moduleOf, lookup_wrapped_kept (by decide), moduleOf]

theorem isMarked_wrapped :
    isMarked (config.map fun m => (m.1, (wrapMember module m.1 m.2).1)) = isMarked config := by
  rw [isMarked, lookup_wrapped_kept (by decide), isMarked]

theorem wrapModel_changed : (wrapModel value).2 = true ↔ (wrapModel value).1 ≠ value := by
  cases value <;> simp [wrapModel, structured]

theorem wrapModel_wrapModel : (wrapModel (wrapModel value).1).1 = (wrapModel value).1 := by
  cases value <;> rfl

theorem any_iff_map_ne {α : Type} {f : α → α × Bool} {xs : List α}
    (h : ∀ x ∈ xs, (f x).2 = true ↔ (f x).1 ≠ x) :
    xs.any (fun x => (f x).2) = true ↔ xs.map (fun x => (f x).1) ≠ xs := by
  rw [Ne, map_eq_self_iff, List.any_eq_true]
  simp only [not_forall, exists_prop]
  exact exists_congr fun x => and_congr_right fun hx => h x hx

/-- Wrapping tells whether it has changed anything. -/
theorem wrap_changed (t : Json.Tree F) :
    (wrapLegacyLlmFields t).2 = true ↔ (wrapLegacyLlmFields t).1 ≠ t := by
  induction t using Json.Tree.induction with
  | arr items ih =>
    rw [wrap_arr, Ne, Json.Tree.arr.injEq]
    exact any_iff_map_ne ih
  | obj config ih =>
    cases hm : moduleOf config with
    | none => simp [wrap_of_moduleOf_eq_none hm]
    | some module =>
      have hmember (m : Str × Json.Tree F) (hmem : m ∈ config) :
          (wrapMember module m.1 m.2).2 = true ↔ (m.1, (wrapMember module m.1 m.2).1) ≠ m := by
        simp only [ne_eq, Prod.ext_iff, true_and]
        unfold wrapMember
        split_ifs
        · exact wrapModel_changed
        · exact ih m hmem
        · simp
      rw [wrap_obj hm, Ne, Json.Tree.obj.injEq]
      exact any_iff_map_ne (f := fun m =>
        ((m.1, (wrapMember module m.1 m.2).1), (wrapMember module m.1 m.2).2)) hmember
  | _ => simp [wrapLegacyLlmFields]

/-- What has been wrapped is not changed by it. -/
theorem wrap_wrap_fst (t : Json.Tree F) :
    (wrapLegacyLlmFields (wrapLegacyLlmFields t).1).1 = (wrapLegacyLlmFields t).1 := by
  induction t using Json.Tree.induction with
  | arr items ih =>
    rw [wrap_arr, wrap_arr, List.map_map]
    exact congrArg Json.Tree.arr (List.map_congr_left ih)
  | obj config ih =>
    cases hm : moduleOf config with
    | none => rw [wrap_of_moduleOf_eq_none hm, wrap_of_moduleOf_eq_none hm]
    | some module =>
      rw [wrap_obj hm, wrap_obj (moduleOf_wrapped.trans hm), List.map_map]
      refine congrArg Json.Tree.obj (List.map_congr_left fun m hmem => Prod.ext rfl ?_)
      show (wrapMember module m.1 (wrapMember module m.1 m.2).1).1 = (wrapMember module m.1 m.2).1
      unfold wrapMember
      split_ifs
      · exact wrapModel_wrapModel
      · exact ih m hmem
      · rfl
  | _ => rfl

theorem wrap_wrap (t : Json.Tree F) :
    wrapLegacyLlmFields (wrapLegacyLlmFields t).1 = ((wrapLegacyLlmFields t).1, false) := by
  have hfst := wrap_wrap_fst t
  refine Prod.ext hfst (Bool.eq_false_iff.2 fun h => ?_)
  exact (wrap_changed _).1 h hfst

/-- The model fields are wrapped where they are. -/
theorem modelField_wrap (h : ModelField t path value) :
    ModelField (wrapLegacyLlmFields t).1 path (wrapModel value).1 := by
  induction h with
  | field hm hk hv =>
    rw [wrap_obj hm]
    refine .field (moduleOf_wrapped.trans hm) hk ?_
    rw [lookup_wrapped, hv, Option.map_some, wrapMember_of_model hk]
  | nested hm hk hx _ ih =>
    rw [wrap_obj hm]
    refine .nested (moduleOf_wrapped.trans hm) hk ?_ ih
    rw [lookup_wrapped, hx, Option.map_some, wrapMember_of_nested hk]
  | item hx _ ih =>
    rw [wrap_arr]
    refine .item ?_ ih
    rw [List.getElem?_map, hx, Option.map_some]

theorem ModelField.follow (h : ModelField t path value) : follow t path = some value := by
  induction h with
  | field _ _ hv => rw [JsonSchema.follow, hv, Option.bind_some, JsonSchema.follow]
  | nested _ _ hx _ ih => rw [JsonSchema.follow, hx, Option.bind_some, ih]
  | item hx _ ih => rw [JsonSchema.follow, hx, Option.bind_some, ih]

theorem shell_wrap (t : Json.Tree F) : (wrapLegacyLlmFields t).1.shell = t.shell := by
  cases t with
  | arr items =>
    rw [wrap_arr, Json.Tree.shell, Json.Tree.shell, List.map_map]
    rfl
  | obj config =>
    cases hm : moduleOf config with
    | none => rw [wrap_of_moduleOf_eq_none hm]
    | some module =>
      rw [wrap_obj hm, Json.Tree.shell, Json.Tree.shell, List.map_map]
      rfl
  | _ => rfl

theorem Legacy.nested {p : List Segment} (hm : moduleOf config = some module)
    (hk : k ∈ nestedFields module) (hx : config.lookup k = some x) (h : Legacy x p) :
    Legacy (.obj config) (.key k :: p) := by
  obtain ⟨q, s, hs, hq⟩ := h
  exact ⟨_, s, .nested hm hk hx hs, List.cons_prefix_cons.2 ⟨rfl, hq⟩⟩

theorem Legacy.item {items : List (Json.Tree F)} {i : ℕ} {p : List Segment}
    (hx : items[i]? = some x) (h : Legacy x p) : Legacy (.arr items) (.index i :: p) := by
  obtain ⟨q, s, hs, hq⟩ := h
  exact ⟨_, s, .item hx hs, List.cons_prefix_cons.2 ⟨rfl, hq⟩⟩

/-- A model field that is a string is one, with all that is within. -/
theorem Legacy.field {p : List Segment} (hm : moduleOf config = some module)
    (hk : k ∈ modelFields module) (hx : config.lookup k = some (.str s)) :
    Legacy (.obj config) (.key k :: p) :=
  ⟨_, s, .field hm hk hx, List.cons_prefix_cons.2 ⟨rfl, List.nil_prefix⟩⟩

/-- Wrapping changes nothing elsewhere. -/
theorem sameAt_wrap (h : ¬Legacy t path) : SameAt path t (wrapLegacyLlmFields t).1 := by
  induction path generalizing t with
  | nil => exact sameAt_nil.2 (shell_wrap t)
  | cons segment path ih =>
    cases t with
    | obj config =>
      cases hm : moduleOf config with
      | none => rw [wrap_of_moduleOf_eq_none hm]
      | some module =>
        rw [wrap_obj hm]
        cases segment with
        | index i => rfl
        | key k =>
          refine sameAt_key ?_
          rw [lookup_wrapped]
          cases hx : config.lookup k with
          | none => exact .none
          | some x =>
            refine .some (?_ : SameAt path x (wrapMember module k x).1)
            by_cases hmodel : k ∈ modelFields module
            · rw [wrapMember_of_model hmodel]
              cases x with
              | str s => exact absurd (Legacy.field hm hmodel hx) h
              | _ => rfl
            · by_cases hnested : k ∈ nestedFields module
              · rw [wrapMember_of_nested hnested]
                exact ih fun hlegacy => h (hlegacy.nested hm hnested hx)
              · rw [wrapMember_of_neither ⟨hmodel, hnested⟩]
    | arr items =>
      rw [wrap_arr]
      cases segment with
      | key k => rfl
      | index i =>
        refine sameAt_index ?_
        rw [List.getElem?_map]
        cases hx : items[i]? with
        | none => exact .none
        | some x => exact .some (ih fun hlegacy => h (hlegacy.item hx))
    | _ => rfl

/-- A wrapped model is loaded as the string is. -/
theorem loadLLMField_wrapModel (v : Validators F) (value : Json.Tree F) :
    loadLLMField v (wrapModel value).1 = loadLLMField v value := by
  cases value with
  | str s =>
    have htype : v.string (.str llmConfigType) = some llmConfigType :=
      v.string_str _ (noSurrogates_chars _)
    have hvalidate : validateType v [(typeKey, .str llmConfigType), (modelIdKey, .str s)] =
        validateType v [(modelIdKey, .str s)] := htype
    rw [wrapModel, structured, loadLLMField, loadLLMField, LLMConfig.validate, LLMConfig.validate,
      hvalidate]
    rfl
  | _ => rfl

/-! ## What renaming does -/

/-- The identifier of a model has a base name, and a suffix after a slash, if it has one. -/
inductive ModelId : Str → Str → Str → Prop
  | plain {base : Str} (h : slash ∉ base) : ModelId base base []
  | suffixed {base suffix : Str} (h : slash ∉ base) :
    ModelId (base ++ slash :: suffix) base suffix

theorem modelId_iff {base suffix : Str} : ModelId s base suffix ↔
    base = s.takeWhile (· ≠ slash) ∧ suffix = (s.dropWhile (· ≠ slash)).tail := by
  have hbase {base : Str} (h : slash ∉ base) : ∀ c ∈ base, decide (c ≠ slash) = true :=
    fun c hc => decide_eq_true fun heq => h (heq ▸ hc)
  constructor
  · intro h
    cases h with
    | plain h =>
      rw [List.takeWhile_eq_self_iff.2 (hbase h), List.dropWhile_eq_nil_iff.2 (hbase h)]
      exact ⟨rfl, rfl⟩
    | suffixed h =>
      rw [List.takeWhile_append_of_pos (hbase h), List.dropWhile_append_of_pos (hbase h),
        List.takeWhile_cons_of_neg (by simp), List.dropWhile_cons_of_neg (by simp),
        List.append_nil]
      exact ⟨rfl, rfl⟩
  · rintro ⟨rfl, rfl⟩
    have hnot : slash ∉ s.takeWhile (· ≠ slash) := fun hmem => by
      simpa using List.mem_takeWhile_imp hmem
    have hsplit := List.takeWhile_append_dropWhile (p := (· ≠ slash)) (l := s)
    cases hrest : s.dropWhile (· ≠ slash) with
    | nil =>
      rw [hrest, List.append_nil] at hsplit
      nth_rw 1 [← hsplit]
      exact .plain hnot
    | cons c rest =>
      have hc : c = slash := by
        have hhead := List.head?_dropWhile_not (· ≠ slash) s
        rw [hrest] at hhead
        simpa using hhead
      rw [hrest, hc] at hsplit
      nth_rw 1 [← hsplit]
      exact .suffixed hnot

/-- A model is renamed by its base name, and keeps its suffix unless that is empty. -/
inductive Renamed (replacements : List (Str × Str)) (s : Str) : Str → Prop
  | renamed {base suffix newValue : Str} (hs : ModelId s base suffix) (hsuffix : suffix ≠ [])
    (h : replacements.lookup base = some newValue) :
    Renamed replacements s (newValue ++ slash :: suffix)
  | base {base newValue : Str} (hs : ModelId s base [])
    (h : replacements.lookup base = some newValue) : Renamed replacements s newValue
  | kept {base suffix : Str} (hs : ModelId s base suffix) (h : replacements.lookup base = none) :
    Renamed replacements s s

/-- What a model is called afterwards. -/
def newModel (replacements : List (Str × Str)) (s : Str) : Str :=
  (replacement replacements s).getD s

theorem replaceModel_eq : (replaceModel replacements s : Json.Tree F × Bool) =
    (.str (newModel replacements s), (replacement replacements s).isSome) := by
  unfold replaceModel newModel
  cases replacement replacements s <;> rfl

theorem renamed_newModel (replacements : List (Str × Str)) (s : Str) :
    Renamed replacements s (newModel replacements s) := by
  have hs : ModelId s _ _ := modelId_iff.2 ⟨rfl, rfl⟩
  unfold newModel replacement
  cases h : replacements.lookup (s.takeWhile (· ≠ slash)) with
  | none => exact .kept hs h
  | some newValue =>
    rw [Option.map_some, Option.getD_some, withSuffix]
    split_ifs with hsuffix
    · rw [List.isEmpty_iff] at hsuffix
      exact .base (hsuffix ▸ hs) h
    · exact .renamed hs (fun hnil => hsuffix (List.isEmpty_iff.2 hnil)) h

/-- A model is replaced if and only if its base name is. -/
theorem replacement_isSome : (replacement replacements s).isSome = true ↔
    ∃ base suffix, ModelId s base suffix ∧ base ∈ replacements.map Prod.fst := by
  have hlookup : (replacement replacements s).isSome = true ↔
      s.takeWhile (· ≠ slash) ∈ replacements.map Prod.fst := by
    rw [replacement, Option.isSome_map, ← not_iff_not, ← lookup_eq_none,
      Option.not_isSome_iff_eq_none]
  rw [hlookup]
  constructor
  · exact fun h => ⟨_, _, modelId_iff.2 ⟨rfl, rfl⟩, h⟩
  · rintro ⟨base, suffix, hs, h⟩
    exact (modelId_iff.1 hs).1 ▸ h

/-- What is done to a member of an object, that may be marked. -/
def walkMember (replacements : List (Str × Str)) (marked : Bool) (k : Str) :
    Json.Tree F → Json.Tree F × Bool
  | .str value =>
    if marked && k = modelIdKey then replaceModel replacements value else (.str value, false)
  | value => walkAndReplace replacements value

theorem walkMembers_eq {marked : Bool} : walkMembers replacements marked obj =
    (obj.map fun m => (m.1, (walkMember replacements marked m.1 m.2).1),
      obj.any fun m => (walkMember replacements marked m.1 m.2).2) := by
  induction obj with
  | nil => rfl
  | cons m obj ih =>
    obtain ⟨k, value⟩ := m
    cases value with
    | str s =>
      rw [walkMembers, ih]
      rfl
    | _ =>
      rw [walkMembers, ih]
      · rfl
      · exact fun s h => by cases h

theorem walkItems_eq (items : List (Json.Tree F)) : walkItems replacements items =
    (items.map fun x => (walkAndReplace replacements x).1,
      items.any fun x => (walkAndReplace replacements x).2) := by
  induction items with
  | nil => rfl
  | cons x items ih =>
    rw [walkItems, ih]
    rfl

theorem walk_arr (items : List (Json.Tree F)) : walkAndReplace replacements (.arr items) =
    (.arr (items.map fun x => (walkAndReplace replacements x).1),
      items.any fun x => (walkAndReplace replacements x).2) := by
  rw [walkAndReplace, walkItems_eq]

theorem walk_obj (obj : Dict F) : walkAndReplace replacements (.obj obj) =
    (.obj (obj.map fun m => (m.1, (walkMember replacements (isMarked obj) m.1 m.2).1)),
      obj.any fun m => (walkMember replacements (isMarked obj) m.1 m.2).2) := by
  rw [walkAndReplace, walkMembers_eq]

theorem lookup_walked {marked : Bool} :
    (obj.map fun m => (m.1, (walkMember replacements marked m.1 m.2).1)).lookup k =
      (obj.lookup k).map fun x => (walkMember replacements marked k x).1 :=
  lookup_map_values (fun k x => (walkMember replacements marked k x).1) k obj

theorem walkMember_of_ne {marked : Bool} (h : ∀ s, x ≠ .str s) :
    walkMember replacements marked k x = walkAndReplace replacements x := by
  cases x with
  | str s => exact absurd rfl (h s)
  | _ => rfl

theorem MarkedModel.ne_str (h : MarkedModel t path s) (s' : Str) : t ≠ .str s' := by
  rintro rfl
  cases h

theorem shell_walk (t : Json.Tree F) : (walkAndReplace replacements t).1.shell = t.shell := by
  cases t with
  | arr items =>
    rw [walk_arr, Json.Tree.shell, Json.Tree.shell, List.map_map]
    rfl
  | obj obj =>
    rw [walk_obj, Json.Tree.shell, Json.Tree.shell, List.map_map]
    rfl
  | _ => rfl

/-- The models that are marked are replaced where they are. -/
theorem follow_walk (h : MarkedModel t path s) :
    follow (walkAndReplace replacements t).1 path = some (.str (newModel replacements s)) := by
  induction h with
  | @here obj s hm hs =>
    have hmember : walkMember replacements (isMarked obj) modelIdKey (.str s) =
        (replaceModel replacements s : Json.Tree F × Bool) := by
      simp only [walkMember, hm, decide_true, Bool.and_true, if_true]
    rw [walk_obj, follow, lookup_walked, hs, Option.map_some, hmember, replaceModel_eq]
    rfl
  | member hx h ih =>
    rw [walk_obj, follow, lookup_walked, hx, Option.map_some, Option.bind_some,
      walkMember_of_ne h.ne_str, ih]
  | item hx _ ih =>
    rw [walk_arr, follow, List.getElem?_map, hx, Option.map_some, Option.bind_some, ih]

/-- An object is walked over where it is. -/
theorem follow_walk_obj (h : follow t path = some (.obj obj)) :
    follow (walkAndReplace replacements t).1 path =
      some (walkAndReplace replacements (.obj obj)).1 := by
  induction path generalizing t with
  | nil =>
    rw [follow, Option.some.injEq] at h
    rw [follow, h]
  | cons segment path ih =>
    cases t with
    | obj ms =>
      cases segment with
      | index i => cases h
      | key k =>
        obtain ⟨x, hx, h⟩ := Option.bind_eq_some_iff.1 h
        have hne : ∀ s, x ≠ .str s := by
          rintro s rfl
          cases path with
          | nil => cases h
          | cons segment path =>
            rw [follow_str_cons] at h
            cases h
        rw [walk_obj, follow, lookup_walked, hx, Option.map_some, Option.bind_some,
          walkMember_of_ne hne, ih h]
    | arr items =>
      cases segment with
      | key k => cases h
      | index i =>
        obtain ⟨x, hx, h⟩ := Option.bind_eq_some_iff.1 h
        rw [walk_arr, follow, List.getElem?_map, hx, Option.map_some, Option.bind_some, ih h]
    | _ => cases segment <;> cases h

/-- Renaming changes nothing elsewhere. -/
theorem sameAt_walk (h : ∀ s, ¬MarkedModel t path s) :
    SameAt path t (walkAndReplace replacements t).1 := by
  induction path generalizing t with
  | nil => exact sameAt_nil.2 (shell_walk t)
  | cons segment path ih =>
    cases t with
    | obj obj =>
      rw [walk_obj]
      cases segment with
      | index i => rfl
      | key k =>
        refine sameAt_key ?_
        rw [lookup_walked]
        cases hx : obj.lookup k with
        | none => exact .none
        | some x =>
          refine .some (?_ : SameAt path x (walkMember replacements (isMarked obj) k x).1)
          by_cases hstr : ∃ s, x = .str s
          · obtain ⟨s, rfl⟩ := hstr
            rw [walkMember]
            split_ifs with hmarked
            · rw [Bool.and_eq_true, decide_eq_true_eq] at hmarked
              obtain ⟨hmarked, rfl⟩ := hmarked
              cases path with
              | nil => exact absurd (.here hmarked hx) (h s)
              | cons segment path =>
                -- there is nothing within a string, be it replaced or not
                rw [replaceModel_eq, SameAt, follow_str_cons, follow_str_cons]
            · rfl
          · rw [walkMember_of_ne fun s hs => hstr ⟨s, hs⟩]
            exact ih fun s hs => h s (.member hx hs)
    | arr items =>
      rw [walk_arr]
      cases segment with
      | key k => rfl
      | index i =>
        refine sameAt_index ?_
        rw [List.getElem?_map]
        cases hx : items[i]? with
        | none => exact .none
        | some x => exact .some (ih fun s hs => h s (.item hx hs))
    | _ => rfl

/-- Renaming tells whether there was a model to replace. -/
theorem walk_modified (h : Distinct t) : (walkAndReplace replacements t).2 = true ↔
    ∃ path s, MarkedModel t path s ∧ (replacement replacements s).isSome = true := by
  induction t using Json.Tree.induction with
  | arr items ih =>
    have hitems : ∀ x ∈ items, Distinct x := by
      cases h with
      | arr h => exact h
      | scalar hx => cases hx
    rw [walk_arr, List.any_eq_true]
    constructor
    · rintro ⟨x, hx, hmodified⟩
      obtain ⟨path, s, hs, hsome⟩ := (ih x hx (hitems x hx)).1 hmodified
      obtain ⟨i, hi⟩ := List.getElem?_of_mem hx
      exact ⟨_, s, .item hi hs, hsome⟩
    · rintro ⟨path, s, hs, hsome⟩
      cases hs with
      | item hi hs =>
        have hx := List.mem_of_getElem? hi
        exact ⟨_, hx, (ih _ hx (hitems _ hx)).2 ⟨_, s, hs, hsome⟩⟩
  | obj obj ih =>
    obtain ⟨hnodup, hmembers⟩ : (obj.map Prod.fst).Nodup ∧ ∀ m ∈ obj, Distinct m.2 := by
      cases h with
      | obj hP h => exact ⟨hP, h⟩
      | scalar hx => cases hx
    rw [walk_obj, List.any_eq_true]
    constructor
    · rintro ⟨⟨k, x⟩, hm, hmodified⟩
      have hx := lookup_of_mem hnodup hm
      by_cases hstr : ∃ s, x = .str s
      · obtain ⟨s, rfl⟩ := hstr
        simp only [walkMember] at hmodified
        split_ifs at hmodified with hmarked
        rw [Bool.and_eq_true, decide_eq_true_eq] at hmarked
        obtain ⟨hmarked, rfl⟩ := hmarked
        rw [replaceModel_eq] at hmodified
        exact ⟨_, s, .here hmarked hx, hmodified⟩
      · rw [walkMember_of_ne fun s hs => hstr ⟨s, hs⟩] at hmodified
        obtain ⟨path, s, hs, hsome⟩ := (ih _ hm (hmembers _ hm)).1 hmodified
        exact ⟨_, s, .member hx hs, hsome⟩
    · rintro ⟨path, s, hs, hsome⟩
      cases hs with
      | here hmarked hs =>
        refine ⟨_, mem_of_lookup hs, ?_⟩
        simp only [walkMember, hmarked, decide_true, Bool.and_true, if_true, replaceModel_eq, hsome]
      | member hx hs =>
        have hm := mem_of_lookup hx
        refine ⟨_, hm, ?_⟩
        rw [walkMember_of_ne hs.ne_str]
        exact (ih _ hm (hmembers _ hm)).2 ⟨_, s, hs, hsome⟩
  | _ =>
    constructor
    · intro h
      cases h
    · rintro ⟨path, s, hs, -⟩
      cases hs

/-! ## Renaming what has been wrapped -/

theorem walk_structured (replacements : List (Str × Str)) (s : Str) :
    (walkAndReplace replacements (structured s : Json.Tree F)).1 =
      structured (newModel replacements s) := by
  have hmarked : isMarked ([(typeKey, .str llmConfigType), (modelIdKey, .str s)] : Dict F) = true :=
    rfl
  have htype : typeKey ≠ modelIdKey := by decide
  rw [structured, walk_obj, hmarked]
  simp only [List.map_cons, List.map_nil, walkMember, Bool.true_and, decide_eq_true_eq,
    if_neg htype, if_true, replaceModel_eq, structured]

/-- What is marked stays so when a configuration is wrapped. -/
theorem markedModel_wrap (h : MarkedModel t path s) :
    MarkedModel (wrapLegacyLlmFields t).1 path s := by
  induction h with
  | @here config s hmarked hs =>
    cases hm : moduleOf config with
    | none =>
      rw [wrap_of_moduleOf_eq_none hm]
      exact .here hmarked hs
    | some module =>
      rw [wrap_obj hm]
      exact .here (isMarked_wrapped.trans hmarked) ((lookup_wrapped_kept (by decide)).trans hs)
  | @member config k s x path hx hs ih =>
    cases hm : moduleOf config with
    | none =>
      rw [wrap_of_moduleOf_eq_none hm]
      exact .member hx hs
    | some module =>
      rw [wrap_obj hm]
      refine .member (by rw [lookup_wrapped, hx, Option.map_some])
        (?_ : MarkedModel (wrapMember module k x).1 path s)
      unfold wrapMember
      split_ifs
      · cases x with
        | str s' => exact absurd rfl (hs.ne_str s')
        | _ => exact hs
      · exact ih
      · exact hs
  | item hx _ ih =>
    rw [wrap_arr]
    exact .item (by rw [List.getElem?_map, hx, Option.map_some]) ih

/-- What is marked in a wrapped configuration was marked, or is wrapped. -/
theorem markedModel_of_wrap (h : MarkedModel (wrapLegacyLlmFields t).1 path s) :
    MarkedModel t path s ∨ Legacy t path := by
  induction path generalizing t with
  | nil =>
    generalize (wrapLegacyLlmFields t).1 = t' at h
    cases h
  | cons segment path ih =>
    cases t with
    | obj config =>
      cases hm : moduleOf config with
      | none =>
        rw [wrap_of_moduleOf_eq_none hm] at h
        exact .inl h
      | some module =>
        rw [wrap_obj hm] at h
        cases h with
        | here hmarked hs =>
          rw [isMarked_wrapped] at hmarked
          rw [lookup_wrapped_kept (by decide)] at hs
          exact .inl (.here hmarked hs)
        | @member _ k _ _ _ hx hs =>
          rw [lookup_wrapped, Option.map_eq_some_iff] at hx
          obtain ⟨x, hx, rfl⟩ := hx
          unfold wrapMember at hs
          split_ifs at hs with hmodel hnested
          · cases x with
            | str s' => exact .inr (.field hm hmodel hx)
            | _ => exact .inl (.member hx hs)
          · exact (ih hs).imp (.member hx) (.nested hm hnested hx)
          · exact .inl (.member hx hs)
    | arr items =>
      rw [wrap_arr] at h
      cases h with
      | item hx hs =>
        rw [List.getElem?_map, Option.map_eq_some_iff] at hx
        obtain ⟨x, hx, rfl⟩ := hx
        exact (ih hs).imp (.item hx) (.item hx)
    | _ => exact .inl h

/-! ## The migrations -/

/-- A stored value: the keys of its objects are distinct. -/
structure Stored (F : Type) where
  value : Json.Tree F
  distinct : Distinct value

/-- A configuration is wrapped as it should be. -/
structure Wraps (v : Validators F) (t : Json.Tree F) (wrapped : Json.Tree F × Bool) : Prop where
  changed : wrapped.2 = true ↔ wrapped.1 ≠ t
  again : wrapLegacyLlmFields wrapped.1 = (wrapped.1, false)
  loaded : ∀ path value, ModelField t path value → ∃ value', ModelField wrapped.1 path value' ∧
    loadLLMField v value' = loadLLMField v value
  elsewhere : ∀ path, ¬Legacy t path → SameAt path t wrapped.1

/-- Models are renamed as they should be. -/
structure Replaces (replacements : List (Str × Str)) (t : Json.Tree F)
    (walked : Json.Tree F × Bool) : Prop where
  renamed : ∀ path s, MarkedModel t path s →
    ∃ s', Renamed replacements s s' ∧ follow walked.1 path = some (.str s')
  elsewhere : ∀ path, (∀ s, ¬MarkedModel t path s) → SameAt path t walked.1
  modified : walked.2 = true ↔ ∃ path s base suffix, MarkedModel t path s ∧
    ModelId s base suffix ∧ base ∈ replacements.map Prod.fst

/-- Models are renamed as they should be where they are wrapped, and where they are marked. -/
structure ReplacesWrapped (replacements : List (Str × Str)) (t t' : Json.Tree F) : Prop where
  wrapped : ∀ path s, ModelField t path (.str s) →
    ∃ s', Renamed replacements s s' ∧ follow t' path = some (structured s')
  marked : ∀ path s, MarkedModel t path s →
    ∃ s', Renamed replacements s s' ∧ follow t' path = some (.str s')
  elsewhere : ∀ path, ¬Legacy t path → (∀ s, ¬MarkedModel t path s) → SameAt path t t'

theorem wraps (v : Validators F) (t : Json.Tree F) : Wraps v t (wrapLegacyLlmFields t) where
  changed := wrap_changed t
  again := wrap_wrap t
  loaded _ value h := ⟨_, modelField_wrap h, loadLLMField_wrapModel v value⟩
  elsewhere _ h := sameAt_wrap h

theorem replaces (replacements : List (Str × Str)) (t : Stored F) :
    Replaces replacements t.value (walkAndReplace replacements t.value) where
  renamed _ s h := ⟨_, renamed_newModel replacements s, follow_walk h⟩
  elsewhere _ h := sameAt_walk h
  modified := by
    rw [walk_modified t.distinct]
    simp only [replacement_isSome]
    constructor
    · rintro ⟨path, s, hs, base, suffix, h⟩
      exact ⟨path, s, base, suffix, hs, h⟩
    · rintro ⟨path, s, base, suffix, hs, h⟩
      exact ⟨path, s, hs, base, suffix, h⟩

theorem replacesWrapped (replacements : List (Str × Str)) (t : Json.Tree F) :
    ReplacesWrapped replacements t
      (walkAndReplace replacements (wrapLegacyLlmFields t).1).1 where
  wrapped _ s h := ⟨_, renamed_newModel replacements s,
    (follow_walk_obj (modelField_wrap h).follow).trans
      (congrArg some (walk_structured replacements s))⟩
  marked _ s h := ⟨_, renamed_newModel replacements s, follow_walk (markedModel_wrap h)⟩
  elsewhere _ hlegacy h := (sameAt_wrap hlegacy).trans <| sameAt_walk fun s hs =>
    (markedModel_of_wrap hs).elim (h s) hlegacy

end Hyperforge.Database.LlmMigration
