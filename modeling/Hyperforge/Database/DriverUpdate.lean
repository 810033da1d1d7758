import Hyperforge.Library.Nested

/-!
# Updates of driver configurations

A request to update the configuration of a driver has some of its fields. Its values are put into
the stored configuration, going down into the dictionaries that both have (`deepUpdate`), and a
configuration of the class of the request is made of the result (`updateDriverConfig`).

* `merged_deepUpdate`: the update has its way at its leaves, and the rest stays;
* `deepUpdate_deepUpdate`: updating once more changes nothing;
* `updateDriverConfig_keeps`: a stored field that the request does not set is kept, if the class of
  the request has it.
-/

namespace Hyperforge.Database.DriverUpdate

open Json (assign lookup_assign lookup_eq_none assign_of_lookup lookup_cons_eq mem_of_lookup
  lookup_of_mem)

variable {κ α : Type} [DecidableEq κ]

/-! ## The code -/

mutual

/-- `deep_update`, on the members of dictionaries. -/
def deepUpdateMembers (original : List (κ × Nested κ α)) :
    List (κ × Nested κ α) → List (κ × Nested κ α)
  | [] => original
  | (key, value) :: updates =>
    deepUpdateMembers (assign key (updateValue (original.lookup key) value) original) updates

/-- What a key has after its update: a dictionary that is there is updated in its place. -/
def updateValue (old : Option (Nested κ α)) : Nested κ α → Nested κ α
  | .leaf x => .leaf x
  | .dict updates =>
    match old with
    | some (.dict original) => .dict (deepUpdateMembers original updates)
    -- the dictionary of the update itself
    | _ => .dict updates

end

/-! ## Updates of members -/

@[simp] theorem updateValue_leaf (old : Option (Nested κ α)) (x : α) :
    updateValue old (.leaf x) = .leaf x := by rw [updateValue]

@[simp] theorem updateValue_dict_dict (original updates : List (κ × Nested κ α)) :
    updateValue (some (.dict original)) (.dict updates) =
      .dict (deepUpdateMembers original updates) := by
  rw [updateValue]

/-- A dictionary is updated, or takes the place of something else. -/
theorem updateValue_dict (old : Option (Nested κ α)) (updates : List (κ × Nested κ α)) :
    (∃ original, old = some (.dict original)) ∨
      updateValue old (.dict updates) = .dict updates := by
  rcases old with _ | x | original
  · right
    rw [updateValue]
    rintro _ ⟨⟩
  · right
    rw [updateValue]
    rintro _ ⟨⟩
  · exact .inl ⟨original, rfl⟩

theorem lookup_deepUpdateMembers {updates : List (κ × Nested κ α)}
    (h : (updates.map Prod.fst).Nodup) (original : List (κ × Nested κ α)) (k : κ) :
    (deepUpdateMembers original updates).lookup k =
      match updates.lookup k with
      | some value => some (updateValue (original.lookup k) value)
      | none => original.lookup k := by
  induction updates generalizing original with
  | nil => rw [deepUpdateMembers, List.lookup_nil]
  | cons m updates ih =>
    obtain ⟨key, value⟩ := m
    rw [List.map_cons, List.nodup_cons] at h
    rw [deepUpdateMembers, ih h.2, lookup_assign, lookup_cons_eq]
    by_cases hk : key = k
    · subst hk
      rw [lookup_eq_none.2 h.1, if_pos rfl, if_pos rfl]
    · rw [if_neg hk, if_neg hk]

theorem lookup_deepUpdateMembers_of_some {updates : List (κ × Nested κ α)}
    (h : (updates.map Prod.fst).Nodup) {original : List (κ × Nested κ α)} {k : κ}
    {value : Nested κ α} (hk : updates.lookup k = some value) :
    (deepUpdateMembers original updates).lookup k =
      some (updateValue (original.lookup k) value) := by
  rw [lookup_deepUpdateMembers h, hk]

/-! ### Distinct keys -/

theorem unique_deepUpdateMembers_of_values {updates : List (κ × Nested κ α)}
    (h : ∀ m ∈ updates, ∀ old : Option (Nested κ α), (∀ x ∈ old, x.Unique) →
      (updateValue old m.2).Unique)
    {original : List (κ × Nested κ α)} (ho : (Nested.dict original).Unique) :
    (Nested.dict (deepUpdateMembers original updates)).Unique := by
  induction updates generalizing original with
  | nil => rwa [deepUpdateMembers]
  | cons m updates ih =>
    rw [List.forall_mem_cons] at h
    rw [deepUpdateMembers]
    refine ih h.2 (ho.assign m.1 (h.1 _ fun x hx => ?_))
    exact ho.lookup hx

theorem unique_updateValue {value : Nested κ α} (h : value.Unique) :
    ∀ old : Option (Nested κ α), (∀ x ∈ old, x.Unique) → (updateValue old value).Unique := by
  induction h with
  | leaf x =>
    intro old _
    rw [updateValue_leaf]
    exact .leaf x
  | @dict updates nodup values ih =>
    intro old hold
    obtain ⟨original, rfl⟩ | hnone := updateValue_dict old updates
    · rw [updateValue_dict_dict]
      exact unique_deepUpdateMembers_of_values ih (hold _ rfl)
    · rw [hnone]
      exact .dict nodup values

theorem unique_deepUpdateMembers {original updates : List (κ × Nested κ α)}
    (ho : (Nested.dict original).Unique) (hu : (Nested.dict updates).Unique) :
    (Nested.dict (deepUpdateMembers original updates)).Unique :=
  unique_deepUpdateMembers_of_values (fun _ hm => unique_updateValue (hu.value hm)) ho

/-! ### Updating once more -/

/-- Nothing changes if every value of the update leaves what is there as it is. -/
theorem deepUpdateMembers_eq_self {original updates : List (κ × Nested κ α)}
    (h : ∀ m ∈ updates, ∃ x, original.lookup m.1 = some x ∧ updateValue (some x) m.2 = x) :
    deepUpdateMembers original updates = original := by
  induction updates with
  | nil => rw [deepUpdateMembers]
  | cons m updates ih =>
    rw [List.forall_mem_cons] at h
    obtain ⟨⟨x, hlookup, hx⟩, h⟩ := h
    rw [deepUpdateMembers, hlookup, hx, assign_of_lookup hlookup, ih h]

/-- A dictionary that has been put where there was none is updated with itself. -/
theorem updateValue_self {value : Nested κ α} (h : value.Unique) :
    updateValue (some value) value = value := by
  induction h with
  | leaf x => rw [updateValue_leaf]
  | dict nodup values ih =>
    rw [updateValue_dict_dict,
      deepUpdateMembers_eq_self fun m hm => ⟨m.2, lookup_of_mem nodup hm, ih m hm⟩]

theorem updateValue_updateValue {value : Nested κ α} (h : value.Unique)
    (old : Option (Nested κ α)) :
    updateValue (some (updateValue old value)) value = updateValue old value := by
  induction h generalizing old with
  | leaf x => rw [updateValue_leaf, updateValue_leaf]
  | @dict updates nodup values ih =>
    obtain ⟨original, rfl⟩ | hnone := updateValue_dict old updates
    · rw [updateValue_dict_dict, updateValue_dict_dict, deepUpdateMembers_eq_self]
      intro m hm
      exact ⟨_, lookup_deepUpdateMembers_of_some nodup (lookup_of_mem nodup hm), ih m hm _⟩
    · rw [hnone]
      exact updateValue_self (.dict nodup values)

theorem deepUpdateMembers_deepUpdateMembers {updates : List (κ × Nested κ α)}
    (h : (Nested.dict updates).Unique) (original : List (κ × Nested κ α)) :
    deepUpdateMembers (deepUpdateMembers original updates) updates =
      deepUpdateMembers original updates := by
  have hdict := updateValue_updateValue h (some (.dict original))
  rw [updateValue_dict_dict, updateValue_dict_dict] at hdict
  exact Nested.dict.inj hdict

/-! ### Paths -/

/-- At a path, the update sets a value that is not a dictionary, or puts a dictionary where the
    original has none. -/
def Replaces (original updates : Nested κ α) (path : List κ) : Prop :=
  (∃ x, updates.get path = some (.leaf x)) ∨
    (∃ members, updates.get path = some (.dict members)) ∧
      ¬∃ members, original.get path = some (.dict members)

/-- The leaves of the update are found in what it puts. -/
theorem get_updateValue_of_leaf {value : Nested κ α} (h : value.Unique)
    (old : Option (Nested κ α)) {path : List κ} {x : α} (hx : value.get path = some (.leaf x)) :
    (updateValue old value).get path = some (.leaf x) := by
  induction h generalizing old path with
  | leaf y => rwa [updateValue_leaf]
  | @dict updates nodup values ih =>
    obtain ⟨original, rfl⟩ | hnone := updateValue_dict old updates
    · rw [updateValue_dict_dict]
      cases path with
      | nil => simp at hx
      | cons k path =>
        rw [Nested.get_dict_cons, Option.bind_eq_some_iff] at hx
        obtain ⟨y, hlookup, hx⟩ := hx
        rw [Nested.get_dict_cons_of_lookup (lookup_deepUpdateMembers_of_some nodup hlookup)]
        exact ih _ (mem_of_lookup hlookup) _ hx
    · rwa [hnone]

/-- What is found at a path at which nothing is replaced: it is updated in its place. -/
theorem get_updateValue_of_not_replaces {value : Nested κ α} (h : value.Unique)
    {old x : Nested κ α} {path : List κ} (hx : old.get path = some x)
    (hpath : ∀ q, q <+: path → ¬Replaces old value q) :
    (updateValue (some old) value).get path =
      some ((value.get path).elim x (updateValue (some x))) := by
  induction h generalizing old path with
  | leaf y => exact absurd (.inl ⟨y, Nested.get_nil _⟩) (hpath [] List.nil_prefix)
  | @dict updates nodup values ih =>
    cases path with
    | nil =>
      rw [Nested.get_nil] at hx
      rw [Nested.get_nil, Nested.get_nil, Option.some.inj hx, Option.elim_some]
    | cons k path =>
      cases old with
      | leaf y => simp at hx
      | dict original =>
        rw [Nested.get_dict_cons, Option.bind_eq_some_iff] at hx
        obtain ⟨y, hy, hx⟩ := hx
        rw [updateValue_dict_dict, Nested.get_dict_cons, lookup_deepUpdateMembers nodup, hy,
          Nested.get_dict_cons]
        cases hlookup : updates.lookup k with
        | none => exact hx
        | some z =>
          refine ih (k, z) (mem_of_lookup hlookup) hx fun q hq hreplaces => ?_
          refine hpath (k :: q) (List.cons_prefix_cons.2 ⟨rfl, hq⟩) ?_
          rwa [Replaces, Nested.get_dict_cons_of_lookup hlookup, Nested.get_dict_cons_of_lookup hy]

/-! ## Updates of dictionaries -/

def deepUpdate (original updates : NestedDict κ α) : NestedDict κ α where
  members := deepUpdateMembers original.members updates.members
  unique := unique_deepUpdateMembers original.unique updates.unique

/-- The result of an update: what the update has at its leaves, and elsewhere what the original
    has, a value or a dictionary, unless it is replaced there or above; all that is in the
    dictionary, if the update has nothing there. -/
structure Merged (original updates result : NestedDict κ α) : Prop where
  updated : ∀ path x, updates.get path = some (.leaf x) → result.get path = some (.leaf x)
  unchanged : ∀ path x, original.get path = some x →
    (∀ q, q <+: path → ¬Replaces (.dict original.members) (.dict updates.members) q) →
    (result.get path).map Nested.held = some x.held ∧
      (updates.get path = none → result.get path = some x)

theorem get_deepUpdate {original updates : NestedDict κ α} {path : List κ} {x : Nested κ α}
    (hx : original.get path = some x)
    (hpath : ∀ q, q <+: path → ¬Replaces (.dict original.members) (.dict updates.members) q) :
    (deepUpdate original updates).get path =
      some ((updates.get path).elim x (updateValue (some x))) := by
  have hget := get_updateValue_of_not_replaces updates.unique hx hpath
  rwa [updateValue_dict_dict] at hget

theorem merged_deepUpdate (original updates : NestedDict κ α) :
    Merged original updates (deepUpdate original updates) where
  updated path x hx := by
    have hget := get_updateValue_of_leaf updates.unique (some (.dict original.members)) hx
    rwa [updateValue_dict_dict] at hget
  unchanged path x hx hpath := by
    rw [get_deepUpdate hx hpath, Option.map_some]
    refine ⟨?_, fun hnone => by rw [hnone, Option.elim_none]⟩
    have hreplaces := hpath path (List.prefix_refl path)
    rcases hy : updates.get path with _ | y | members
    · rfl
    · exact absurd (.inl ⟨y, hy⟩) hreplaces
    · -- the original has a dictionary there, too
      have hdict : ∃ ms, original.get path = some (.dict ms) := by
        by_contra hnone
        exact hreplaces (.inr ⟨⟨members, hy⟩, hnone⟩)
      obtain ⟨ms, hms⟩ := hdict
      cases hx.symm.trans hms
      rw [Option.elim_some, updateValue_dict_dict]
      rfl

/-- Updating once more changes nothing. -/
theorem deepUpdate_deepUpdate (original updates : NestedDict κ α) :
    deepUpdate (deepUpdate original updates) updates = deepUpdate original updates :=
  NestedDict.ext_members (deepUpdateMembers_deepUpdateMembers updates.unique original.members)

/-- A value is set at a path: there is something at the path, or a value that is not a dictionary
    above it. -/
def Sets (updates : NestedDict κ α) (path : List κ) : Prop :=
  updates.get path ≠ none ∨ ∃ q x, q <+: path ∧ updates.get q = some (.leaf x)

/-- What is not set stays as it is. -/
theorem get_deepUpdate_of_not_sets {original updates : NestedDict κ α} {path : List κ}
    {x : Nested κ α} (hx : original.get path = some x) (hpath : ¬Sets updates path) :
    (deepUpdate original updates).get path = some x := by
  rw [Sets, not_or, not_not, not_exists] at hpath
  obtain ⟨hnone, hleaf⟩ := hpath
  rw [get_deepUpdate hx, hnone, Option.elim_none]
  rintro q hq (⟨y, hy⟩ | ⟨⟨members, hmembers⟩, hdict⟩)
  · exact hleaf q ⟨y, hq, hy⟩
  · -- the path goes through a dictionary of the original, unless it ends here
    by_cases heq : q = path
    · subst heq
      cases hnone.symm.trans hmembers
    · exact hdict (Nested.exists_get_eq_dict hx hq heq)

/-! ## Updates of configurations -/

/-- A class of configurations of drivers, as pydantic makes it: the configurations are made of
    keyword arguments. -/
structure ConfigClass (κ α C E : Type) where
  construct : NestedDict κ α → Except E C
  modelDump : C → NestedDict κ α
  /-- `model_dump(exclude_unset=True)` -/
  modelDumpSet : C → NestedDict κ α
  /-- There is a field at the path, or a key of a dictionary that is the value of one. -/
  HasField : List κ → Prop

/-- The fields that a class has are given their values, and there are no other ones. -/
structure ConfigClass.Lawful {C E : Type} (K : ConfigClass κ α C E) : Prop where
  given : ∀ d c, K.construct d = .ok c → ∀ path, K.HasField path → ∀ x,
    d.get path = some (.leaf x) → (K.modelDump c).get path = some (.leaf x)
  declared : ∀ c path x, (K.modelDump c).get path = some (.leaf x) → K.HasField path

variable {C C' E : Type} {K : ConfigClass κ α C E} {K' : ConfigClass κ α C' E}

/-- `update_driver_config`, for a configuration of one class and a stored one of another. -/
def updateDriverConfig (K : ConfigClass κ α C E) (K' : ConfigClass κ α C' E) (config : C)
    (previousConfig : C') : Except E C :=
  let desiredConfiguration := K.modelDumpSet config
  let updatedConfiguration := K'.modelDump previousConfig
  K.construct (deepUpdate updatedConfiguration desiredConfiguration)

/-- A stored value that the request does not set is kept if and only if the class of the request
    has a field for it. -/
theorem updateDriverConfig_keeps_iff (hK : K.Lawful) {config : C} {previous : C'} {c : C}
    (hc : updateDriverConfig K K' config previous = .ok c) {path : List κ} {x : α}
    (hx : (K'.modelDump previous).get path = some (.leaf x))
    (hpath : ¬Sets (K.modelDumpSet config) path) :
    (K.modelDump c).get path = some (.leaf x) ↔ K.HasField path := by
  constructor
  · exact hK.declared c path x
  · intro hfield
    exact hK.given _ c hc path hfield x (get_deepUpdate_of_not_sets hx hpath)

/-- Updates merge dictionaries leaf by leaf, and those of configurations keep the stored values
    that the request does not set, for which its class has a field: all of them, if the stored
    configuration is of the same class. -/
theorem updateDriverConfig_keeps (hK : K.Lawful) :
    (∀ original updates : NestedDict κ α,
      Merged original updates (deepUpdate original updates) ∧
        deepUpdate (deepUpdate original updates) updates = deepUpdate original updates) ∧
    (∀ (config : C) (previous : C') (c : C), updateDriverConfig K K' config previous = .ok c →
      ∀ path x, (K'.modelDump previous).get path = some (.leaf x) →
        ¬Sets (K.modelDumpSet config) path →
        ((K.modelDump c).get path = some (.leaf x) ↔ K.HasField path)) ∧
    ∀ config previous c : C, updateDriverConfig K K config previous = .ok c →
      ∀ path x, (K.modelDump previous).get path = some (.leaf x) →
        ¬Sets (K.modelDumpSet config) path → (K.modelDump c).get path = some (.leaf x) := by
  refine ⟨fun original updates => ?_, fun config previous c hc path x hx hpath => ?_,
    fun config previous c hc path x hx hpath => ?_⟩
  · exact ⟨merged_deepUpdate original updates, deepUpdate_deepUpdate original updates⟩
  · exact updateDriverConfig_keeps_iff hK hc hx hpath
  · exact (updateDriverConfig_keeps_iff hK hc hx hpath).2 (hK.declared previous path x hx)

/-! ## A class -/

/-- Values of fields that are not dictionaries. -/
inductive PyValue
  | none
  | bool (value : Bool)
  | str (value : String)
  | list (items : List String)
deriving DecidableEq

/-- Fields with their defaults, if they have one. -/
structure Fields where
  fields : List (String × Option PyValue)
  nodup : (fields.map Prod.fst).Nodup

namespace Fields

/-- The values of the fields that are selected. -/
def dump (F : Fields) (value : String → PyValue) (selected : String → Bool) :
    NestedDict String PyValue :=
  .ofLeaves ((F.fields.filter fun f => selected f.1).map fun f => (f.1, value f.1)) <| by
    rw [List.map_map]
    exact F.nodup.sublist (List.filter_sublist.map Prod.fst)

theorem get_dump (F : Fields) (value : String → PyValue) (selected : String → Bool)
    {path : List String} {x : PyValue} :
    (F.dump value selected).get path = some (.leaf x) ↔
      ∃ k ∈ F.fields.map Prod.fst, path = [k] ∧ selected k ∧ value k = x := by
  rw [dump, NestedDict.get_ofLeaves_eq_leaf]
  constructor
  · rintro ⟨k, rfl, hk⟩
    obtain ⟨f, hf, heq⟩ := List.mem_map.1 (mem_of_lookup hk)
    cases heq
    rw [List.mem_filter] at hf
    exact ⟨f.1, List.mem_map_of_mem hf.1, rfl, hf.2, rfl⟩
  · rintro ⟨k, hk, rfl, hselected, rfl⟩
    obtain ⟨f, hf, rfl⟩ := List.mem_map.1 hk
    refine ⟨f.1, rfl, lookup_of_mem ?_ ?_⟩
    · rw [List.map_map]
      exact F.nodup.sublist (List.filter_sublist.map Prod.fst)
    · exact List.mem_map_of_mem (List.mem_filter.2 ⟨hf, hselected⟩)

end Fields

/-- A class, by its fields and those of its `config`. -/
structure ClassFields where
  outer : Fields
  inner : Fields
  config_notMem : "config" ∉ outer.fields.map Prod.fst

/-- A configuration: the values of its fields, and which ones have been set. -/
structure Instance where
  value : List String → PyValue
  isSet : List String → Bool

namespace ClassFields

variable (K : ClassFields)

/-- The fields, by their paths. -/
def paths : List (List String × Option PyValue) :=
  K.outer.fields.map (fun f => ([f.1], f.2)) ++ K.inner.fields.map fun f => (["config", f.1], f.2)

def dump (c : Instance) (selected : List String → Bool) : NestedDict String PyValue :=
  (K.outer.dump (fun k => c.value [k]) fun k => selected [k]).insertDict "config"
    (K.inner.dump (fun k => c.value ["config", k]) fun k => selected ["config", k])

/-- What a field is given: nothing that is a dictionary. -/
def argument (d : NestedDict String PyValue) (field : List String × Option PyValue) :
    Option PyValue :=
  match d.get field.1 with
  | some x => x.held
  | none => field.2

def construct (d : NestedDict String PyValue) : Except String Instance :=
  match d.get ["config"] with
  | some (.dict _) =>
    if K.paths.all fun field => (argument d field).isSome then
      .ok {
        value path := ((d.get path).bind Nested.held).getD ((K.paths.lookup path).join.getD .none)
        isSet path := (d.get path).isSome }
    else .error "field"
  | _ => .error "config"

def toConfigClass : ConfigClass String PyValue Instance String where
  construct := K.construct
  modelDump c := K.dump c fun _ => true
  modelDumpSet c := K.dump c c.isSet
  HasField path := path ∈ K.paths.map Prod.fst

theorem mem_paths {path : List String} :
    path ∈ K.paths.map Prod.fst ↔ (∃ k ∈ K.outer.fields.map Prod.fst, path = [k]) ∨
      ∃ k ∈ K.inner.fields.map Prod.fst, path = ["config", k] := by
  rw [paths, List.map_append, List.map_map, List.map_map, List.mem_append]
  simp [eq_comm]

/-- The values of the fields are found at their paths, and nothing else. -/
theorem get_dump (c : Instance) {path : List String} {x : PyValue} :
    (K.dump c fun _ => true).get path = some (.leaf x) ↔
      path ∈ K.paths.map Prod.fst ∧ c.value path = x := by
  rw [mem_paths]
  rcases path with _ | ⟨l, path⟩
  · simp [NestedDict.get]
  rw [dump, NestedDict.get_insertDict]
  split_ifs with hl
  · subst hl
    rw [Fields.get_dump]
    constructor
    · rintro ⟨k, hk, rfl, -, rfl⟩
      exact ⟨.inr ⟨k, hk, rfl⟩, rfl⟩
    · rintro ⟨⟨k, hk, heq⟩ | ⟨k, hk, heq⟩, rfl⟩
      · cases heq
        exact absurd hk K.config_notMem
      · cases heq
        exact ⟨k, hk, rfl, rfl, rfl⟩
  · rw [Fields.get_dump]
    constructor
    · rintro ⟨k, hk, heq, -, rfl⟩
      cases heq
      exact ⟨.inl ⟨l, hk, rfl⟩, rfl⟩
    · rintro ⟨⟨k, hk, heq⟩ | ⟨k, hk, heq⟩, rfl⟩
      · cases heq
        exact ⟨l, hk, rfl, rfl, rfl⟩
      · cases heq
        exact absurd rfl hl

theorem lawful : K.toConfigClass.Lawful where
  given d c hc path hpath x hx := by
    refine (K.get_dump c).2 ⟨hpath, ?_⟩
    simp only [toConfigClass, construct] at hc
    split at hc
    · split_ifs at hc
      cases hc
      simp [hx, Nested.held]
    · cases hc
  declared c path x hx := ((K.get_dump c).1 hx).1

end ClassFields

def googleDriverConfig : ClassFields where
  outer := ⟨[("id", some .none), ("identifier", none), ("name", none),
    ("provider", some (.str "google"))], by decide⟩
  inner := ⟨[("api_key", some .none), ("credentials", some .none),
    ("vertexai", some (.bool false)), ("project", some .none), ("location", some .none)], by decide⟩
  config_notMem := by decide

def nucliaDBConfig : ClassFields where
  outer := ⟨[("id", some .none), ("identifier", none), ("name", none), ("provider", none)],
    by decide⟩
  inner := ⟨[("key", some .none), ("url", none), ("manager", none), ("filters", some (.list [])),
    ("filter_expression", some .none), ("catalog_filter_expression", some .none),
    ("description", none), ("kbid", none)], by decide⟩
  config_notMem := by decide

/-- A configuration with values for some of the fields. -/
def ClassFields.configuration (K : ClassFields) (values : List (List String × String)) :
    Instance where
  value path := ((values.lookup path).map PyValue.str).getD ((K.paths.lookup path).join.getD .none)
  isSet path := (values.lookup path).isSome

/-- A request with a new key. -/
def newKey : Instance := googleDriverConfig.configuration [(["identifier"], "model"),
  (["name"], "model"), (["provider"], "google"), (["config", "api_key"], "key")]

def storedGoogle : Instance := googleDriverConfig.configuration [(["id"], "1"),
  (["identifier"], "model"), (["name"], "model"), (["provider"], "google"),
  (["config", "project"], "news")]

def storedNucliaDB : Instance := nucliaDBConfig.configuration [(["id"], "1"),
  (["identifier"], "model"), (["name"], "kb"), (["provider"], "nucliadb"),
  (["config", "url"], "http://nucliadb"), (["config", "manager"], "manager"),
  (["config", "description"], "news"), (["config", "kbid"], "kb")]

theorem not_sets_newKey {k : String} (hk : k = "project" ∨ k = "url") :
    ¬Sets (googleDriverConfig.toConfigClass.modelDumpSet newKey) ["config", k] := by
  rintro (hne | ⟨q, x, hq, hx⟩)
  · rcases hk with rfl | rfl <;> exact hne rfl
  · rcases q with _ | ⟨l, _ | ⟨l', q⟩⟩
    · cases hx
    · obtain ⟨rfl, -⟩ := List.cons_prefix_cons.1 hq
      cases hx
    · obtain ⟨rfl, hk'⟩ := List.cons_prefix_cons.1 hq
      obtain ⟨rfl, hnil⟩ := List.cons_prefix_cons.1 hk'
      cases List.prefix_nil.1 hnil
      rcases hk with rfl | rfl <;> cases hx

/-- The project is kept. -/
theorem updateDriverConfig_newKey :
    ∃ c, updateDriverConfig googleDriverConfig.toConfigClass googleDriverConfig.toConfigClass
        newKey storedGoogle = .ok c ∧
      (googleDriverConfig.toConfigClass.modelDump c).get ["config", "project"] =
        some (.leaf (.str "news")) := by
  have hproject : (googleDriverConfig.toConfigClass.modelDump storedGoogle).get
      ["config", "project"] = some (.leaf (.str "news")) :=
    (googleDriverConfig.get_dump storedGoogle).2 ⟨by decide, rfl⟩
  have hfield : ["config", "project"] ∈ googleDriverConfig.paths.map Prod.fst := by decide
  refine ⟨_, rfl, ?_⟩
  exact ((updateDriverConfig_keeps googleDriverConfig.lawful).2.1 newKey storedGoogle _ rfl _ _
    hproject (not_sets_newKey (.inl rfl))).2 hfield

/-- The address of a knowledge box is not kept by a request for a model. -/
theorem not_updateDriverConfig_keeps :
    ¬∀ K K' : ConfigClass String PyValue Instance String, K.Lawful → K'.Lawful →
      ∀ config previous c, updateDriverConfig K K' config previous = .ok c →
      ∀ path x, (K'.modelDump previous).get path = some (.leaf x) →
        ¬Sets (K.modelDumpSet config) path → (K.modelDump c).get path = some (.leaf x) := by
  intro h
  have hurl : (nucliaDBConfig.toConfigClass.modelDump storedNucliaDB).get ["config", "url"] =
      some (.leaf (.str "http://nucliadb")) :=
    (nucliaDBConfig.get_dump storedNucliaDB).2 ⟨by decide, rfl⟩
  have hkept := h _ _ googleDriverConfig.lawful nucliaDBConfig.lawful newKey storedNucliaDB _ rfl
    _ _ hurl (not_sets_newKey (.inr rfl))
  have hfield : ["config", "url"] ∈ googleDriverConfig.paths.map Prod.fst :=
    googleDriverConfig.lawful.declared _ _ _ hkept
  exact absurd hfield (by decide)

end Hyperforge.Database.DriverUpdate
