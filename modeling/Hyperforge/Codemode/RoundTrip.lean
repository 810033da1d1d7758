import Hyperforge.Codemode.Encoder
import Hyperforge.Library.Crash

/-!
# The round trip of values

A value that is transferred, and that the encoder accepts, is read back by the decoder:
the two agree on the escaped dictionaries, on the markers of models, and on the depths
(`decodeProtocolValue_encodeProtocolValue`). The validation of models is assumed to
restore an instance from what its fields are dumped as (`Pydantic.Revalidates`).
-/

namespace Hyperforge.Codemode.Protocol
open Json hiding Tree
open Crash

/-! ## What values are read back as -/

section ReadBack

variable {F : Type}

theorem sizeOf_snd_lt {α β : Type} [SizeOf α] [SizeOf β] {p : α × β} {items : List (α × β)}
    (h : p ∈ items) : sizeOf p.2 < sizeOf items := by
  have := List.sizeOf_lt_of_mem h
  have : sizeOf p = 1 + sizeOf p.1 + sizeOf p.2 := rfl
  omega

/-- A value with lists for tuples, but for the arguments of tasks. -/
def Value.untuple : Value F → Value F
  | .list items | .tuple items => .list (items.map untuple)
  | .dict items => .dict (items.map fun p => (p.1, p.2.untuple))
  | .restrictedPythonTask function agent args keywordArgs =>
    .restrictedPythonTask function agent (args.map untuple)
      (keywordArgs.map fun p => (p.1, p.2.untuple))
  | .model cls items => .model cls (items.map fun p => (p.1, p.2.untuple))
  | value => value
termination_by value => sizeOf value
decreasing_by
  all_goals simp_wf
  all_goals first
    | have := List.sizeOf_lt_of_mem ‹_ ∈ _›; omega
    | have := sizeOf_snd_lt ‹_ ∈ _›; omega

/-- A value of a field, as a model is validated from: dictionaries for its models. -/
def Value.payload : Value F → Value F
  | .list items | .tuple items => .list (items.map payload)
  | .dict items => .dict (items.map fun p => (p.1, p.2.payload))
  | .model _ items => .dict (items.map fun p => (.str p.1, p.2.payload))
  | value => value.untuple
termination_by value => sizeOf value
decreasing_by
  all_goals simp_wf
  all_goals first
    | have := List.sizeOf_lt_of_mem ‹_ ∈ _›; omega
    | have := sizeOf_snd_lt ‹_ ∈ _›; omega

/-- Validating what the fields of an instance are dumped as restores it. -/
def Pydantic.Revalidates (π : Pydantic F) : Prop := ∀ cls ∈ ModelClass.marked, ∀ items,
  π.IsInstance cls items → π.validate cls (items.map fun p => (p.1, p.2.payload)) =
    .ok (.model cls (items.map fun p => (p.1, p.2.untuple)))

/-- A dictionary of values with keys that are strings, and distinct. -/
def strItems (members : List (Str × Value F)) : List (Key F × Value F) :=
  members.map fun p => (.str p.1, p.2)

/-- The values that are transferred: dictionaries have keys that are strings, floats
    are finite, and models are instances of their classes. -/
inductive Transferable (φ : FloatFormat F) (π : Pydantic F) : Value F → Prop
  | none : Transferable φ π .none
  | bool (b : Bool) : Transferable φ π (.bool b)
  | int (i : ℤ) : Transferable φ π (.int i)
  | float {x : F} (hx : φ.isFinite x) : Transferable φ π (.float x)
  | str (s : Str) : Transferable φ π (.str s)
  | list {items : List (Value F)} (h : ∀ x ∈ items, Transferable φ π x) :
    Transferable φ π (.list items)
  | tuple {items : List (Value F)} (h : ∀ x ∈ items, Transferable φ π x) :
    Transferable φ π (.tuple items)
  | dict {members : List (Str × Value F)} (hn : (members.map Prod.fst).Nodup)
    (h : ∀ p ∈ members, Transferable φ π p.2) : Transferable φ π (.dict (strItems members))
  | restrictedPythonTask (function agent : Str) {args : List (Value F)}
    {members : List (Str × Value F)} (ha : ∀ x ∈ args, Transferable φ π x)
    (hn : (members.map Prod.fst).Nodup) (h : ∀ p ∈ members, Transferable φ π p.2) :
    Transferable φ π (.restrictedPythonTask function agent args (strItems members))
  | model {cls : ModelClass} {items : List (Str × Value F)} (hi : π.IsInstance cls items)
    (h : ∀ p ∈ items, Transferable φ π p.2) : Transferable φ π (.model cls items)

/-- The text of a key. -/
def Key.text (φ : FloatFormat F) : Key F → Str
  | .str s => s
  | .none => .ofString "null"
  | .bool true => .ofString "true"
  | .bool false => .ofString "false"
  | .int i => chars (intText i)
  | .float x => chars (φ.repr x)
  | .other _ => []

/-- The tree that a value is written as, with the number of levels left. -/
def wire (φ : FloatFormat F) : (levels : ℕ) → (includeModelMarkers : Bool) → Value F → Json.Tree F
  | 0, _, _ => .null
  | levels + 1, includeModelMarkers, value =>
    match value with
    | .restrictedPythonTask function agent args keywordArgs => .obj
      [(modelKey, wire φ levels true (.str (.ofString "RestrictedPythonTask"))),
        (.ofString "function", wire φ levels true (.str function)),
        (.ofString "agent", wire φ levels true (.str agent)),
        (.ofString "args", wire φ levels true (.tuple args)),
        (.ofString "keyword_args", wire φ levels true (.dict keywordArgs))]
    | .model cls items => .obj ((items.map fun p => (p.1, wire φ levels false p.2)) ++
      if includeModelMarkers then [(modelKey, wire φ levels false (.str (.ofString cls.name)))]
      else [])
    | .none | .object _ => .null
    | .rawPlainDict items =>
      .obj (items.map fun p => (p.1.text φ, wire φ levels includeModelMarkers p.2))
    | .bool b => .bool b
    | .str s => .str s
    | .int i => .int i
    | .float x => .float x
    | .list items | .tuple items => .arr (items.map (wire φ levels includeModelMarkers))
    | .dict items =>
      if hasModelKey items then .obj
        [(modelKey, wire φ levels includeModelMarkers (.str plainDictModel)),
          (.ofString "value", wire φ levels includeModelMarkers (.rawPlainDict items))]
      else .obj (items.map fun p => (p.1.text φ, wire φ levels includeModelMarkers p.2))

variable {φ : FloatFormat F} {π : Pydantic F}

theorem mapItems_map {α β γ : Type} {f : β → Except PyError γ} {g : α → β} {h : α → γ}
    {xs : List α} (hf : ∀ x ∈ xs, f (g x) = .ok (h x)) :
    mapItems f (xs.map g) = .ok (xs.map h) := by
  induction xs with
  | nil => rfl
  | cons x xs ih =>
    rw [List.map_cons, mapItems, hf x List.mem_cons_self,
      ih fun y hy => hf y (List.mem_cons_of_mem _ hy)]
    rfl

theorem mapMembers_map {α β γ : Type} {f : β → Except PyError γ} {g : α → β} {h : α → γ}
    {xs : List (Str × α)} (hf : ∀ x ∈ xs, f (g x.2) = .ok (h x.2)) :
    mapMembers f (xs.map fun p => (p.1, g p.2)) = .ok (xs.map fun p => (p.1, h p.2)) := by
  induction xs with
  | nil => rfl
  | cons x xs ih =>
    rw [List.map_cons, mapMembers, hf x List.mem_cons_self,
      ih fun y hy => hf y (List.mem_cons_of_mem _ hy)]
    rfl

/-- What a value is read back as, at the top or within the fields of a model. -/
def Value.readBack (includeModelMarkers : Bool) (value : Value F) : Value F :=
  if includeModelMarkers then value.untuple else value.payload

/-- The tree that a value is written as passes the checks, and is read back. -/
structure Wired (φ : FloatFormat F) (π : Pydantic F) (levels : ℕ) (includeModelMarkers : Bool)
    (value : Value F) (tree : Json.Tree F) : Prop where
  wellFormed : tree.WellFormed φ maxDigits
  depth : validateJsonDepth φ levels tree = true
  deserialize : deserialize π levels tree = .ok (value.readBack includeModelMarkers)

variable {levels : ℕ} {m : Bool}

theorem readBack_list (items : List (Value F)) :
    (Value.list items).readBack m = .list (items.map (Value.readBack m)) := by
  cases m <;> simp [Value.readBack, Value.untuple, Value.payload]

theorem readBack_tuple (items : List (Value F)) :
    (Value.tuple items).readBack m = .list (items.map (Value.readBack m)) := by
  cases m <;> simp [Value.readBack, Value.untuple, Value.payload]

theorem readBack_dict (members : List (Str × Value F)) :
    (Value.dict (strItems members)).readBack m =
      strDict (members.map fun p => (p.1, p.2.readBack m)) := by
  cases m <;> simp [Value.readBack, Value.untuple, Value.payload, strItems, strDict]

theorem Wired.arr {items : List (Value F)} {f : Value F → Json.Tree F}
    (h : ∀ x ∈ items, Wired φ π levels m x (f x)) :
    Wired φ π (levels + 1) m (.list items) (.arr (items.map f)) where
  wellFormed := by
    rw [Json.Tree.WellFormed, itemsWellFormed_iff, List.forall_mem_map]
    exact fun x hx => (h x hx).wellFormed
  depth := by
    rw [validateJsonDepth, List.all_map, List.all_eq_true]
    exact fun x hx => (h x hx).depth
  deserialize := by
    rw [Protocol.deserialize, mapItems_map fun x hx => (h x hx).deserialize, readBack_list]
    rfl

theorem Wired.arr_tuple {items : List (Value F)} {f : Value F → Json.Tree F}
    (h : ∀ x ∈ items, Wired φ π levels m x (f x)) :
    Wired φ π (levels + 1) m (.tuple items) (.arr (items.map f)) := by
  obtain ⟨h1, h2, h3⟩ := Wired.arr h
  exact ⟨h1, h2, by rw [h3, readBack_list, readBack_tuple]⟩

theorem mapItems_mono {α β : Type} {f g : α → Except PyError β}
    (h : ∀ x y, f x = .ok y → g x = .ok y) {xs : List α} {ys : List β}
    (hf : mapItems f xs = .ok ys) : mapItems g xs = .ok ys := by
  induction xs generalizing ys with
  | nil => exact hf
  | cons x xs ih =>
    simp only [mapItems, bind_eq_ok] at hf ⊢
    obtain ⟨y, hx, ys', hxs, hys⟩ := hf
    exact ⟨y, h x y hx, ys', ih hxs, hys⟩

theorem mapMembers_mono {α β : Type} {f g : α → Except PyError β}
    (h : ∀ x y, f x = .ok y → g x = .ok y) {ms : List (Str × α)} {ys : List (Str × β)}
    (hf : mapMembers f ms = .ok ys) : mapMembers g ms = .ok ys := by
  induction ms generalizing ys with
  | nil => exact hf
  | cons p ms ih =>
    obtain ⟨k, x⟩ := p
    simp only [mapMembers, bind_eq_ok] at hf ⊢
    obtain ⟨y, hx, ys', hxs, hys⟩ := hf
    exact ⟨y, h x y hx, ys', ih hxs, hys⟩

/-- More levels do no harm. -/
theorem deserialize_succ (π : Pydantic F) {levels : ℕ} {msg : Json.Tree F} {value : Value F}
    (h : deserialize π levels msg = .ok value) : deserialize π (levels + 1) msg = .ok value := by
  induction levels generalizing msg value with
  | zero =>
    rw [deserialize] at h
    cases h
  | succ n ih =>
    have ih : ∀ x y, deserialize π n x = .ok y → deserialize π (n + 1) x = .ok y := fun _ _ => ih
    rcases msg with _ | b | i | x | s | items | ms
    case arr =>
      rw [deserialize, map_eq_ok] at h ⊢
      obtain ⟨ys, hxs, hys⟩ := h
      exact ⟨ys, mapItems_mono ih hxs, hys⟩
    case obj =>
      have hdict : ∀ ms' : List (Str × Json.Tree F), strDict <$> mapMembers (deserialize π n) ms' =
          .ok value → strDict <$> mapMembers (deserialize π (n + 1)) ms' = .ok value := by
        intro ms' h
        rw [map_eq_ok] at h ⊢
        obtain ⟨ys, hxs, hys⟩ := h
        exact ⟨ys, mapMembers_mono ih hxs, hys⟩
      rw [deserialize] at h ⊢
      split at h
      · split_ifs at h with h1 h2
        · rw [if_pos h1]
          split at h
          · exact hdict _ h
          · cases h
        · rw [if_neg h1, if_pos h2]
          simp only [bind_eq_ok] at h ⊢
          obtain ⟨args, hargs, keywordArgs, hkeywordArgs, h⟩ := h
          exact ⟨args, ih _ _ hargs, keywordArgs, ih _ _ hkeywordArgs, h⟩
        · rw [if_neg h1, if_neg h2]
          split at h
          · simp only [bind_eq_ok] at h ⊢
            obtain ⟨payload, hpayload, h⟩ := h
            exact ⟨payload, mapMembers_mono ih hpayload, h⟩
          · exact hdict _ h
      · cases h
      · exact hdict _ h
    all_goals simpa [deserialize] using h

theorem get_eq_none {α : Type} {ms : List (Str × α)} {key : Str} (h : key ∉ ms.map Prod.fst) :
    get ms key = none := by
  rw [get, Option.map_eq_none_iff, List.find?_eq_none]
  rintro p hp heq
  exact h (List.mem_map.2 ⟨p, hp, by simpa using heq⟩)

theorem map_fst_map {α β : Type} (f : α → β) (ms : List (Str × α)) :
    (ms.map fun p => (p.1, f p.2)).map Prod.fst = ms.map Prod.fst := by
  rw [List.map_map]
  rfl

/-- The members of an object pass the checks if their values do. -/
theorem Wired.members {ms : List (Str × Value F)} {f : Value F → Json.Tree F}
    (hn : (ms.map Prod.fst).Nodup) (h : ∀ p ∈ ms, Wired φ π levels m p.2 (f p.2)) :
    (Json.Tree.obj (ms.map fun p => (p.1, f p.2))).WellFormed φ maxDigits ∧
      validateJsonDepth φ (levels + 1) (.obj (ms.map fun p => (p.1, f p.2))) = true := by
  constructor
  · rw [Json.Tree.WellFormed, membersWellFormed_iff, map_fst_map, List.forall_mem_map]
    exact ⟨hn, fun p hp => (h p hp).wellFormed⟩
  · rw [validateJsonDepth, List.all_map, List.all_eq_true]
    exact fun p hp => (h p hp).depth

theorem Wired.dict {ms : List (Str × Value F)} {f : Value F → Json.Tree F}
    (hn : (ms.map Prod.fst).Nodup) (hkey : modelKey ∉ ms.map Prod.fst)
    (h : ∀ p ∈ ms, Wired φ π levels m p.2 (f p.2)) :
    Wired φ π (levels + 1) m (.dict (strItems ms)) (.obj (ms.map fun p => (p.1, f p.2))) where
  wellFormed := (Wired.members hn h).1
  depth := (Wired.members hn h).2
  deserialize := by
    have hget : get (ms.map fun p => (p.1, f p.2)) modelKey = none :=
      get_eq_none (by rwa [map_fst_map])
    rw [Protocol.deserialize, hget, readBack_dict]
    simp only [mapMembers_map fun p hp => (h p hp).deserialize]
    rfl

theorem modelKey_ne : modelKey ≠ .ofString "value" := by decide

/-- A dictionary with the key `__model__`, escaped: its items are a level lower. -/
theorem Wired.escape {ms : List (Str × Value F)} {f : Value F → Json.Tree F}
    (hn : (ms.map Prod.fst).Nodup) (h : ∀ p ∈ ms, Wired φ π levels m p.2 (f p.2)) :
    Wired φ π (levels + 2) m (.dict (strItems ms))
      (.obj [(modelKey, .str plainDictModel),
        (.ofString "value", .obj (ms.map fun p => (p.1, f p.2)))]) where
  wellFormed := by
    simp only [Json.Tree.WellFormed, membersWellFormed]
    exact ⟨by simp [modelKey_ne], trivial, (Wired.members hn h).1, trivial⟩
  depth := by
    simp only [validateJsonDepth, List.all_cons, List.all_nil, Bool.and_true, Bool.true_and]
    exact (Wired.members hn h).2
  deserialize := by
    have hmembers : mapMembers (Protocol.deserialize π (levels + 1))
        (ms.map fun p => (p.1, f p.2)) = .ok (ms.map fun p => (p.1, p.2.readBack m)) :=
      mapMembers_map fun p hp => deserialize_succ π (h p hp).deserialize
    rw [Protocol.deserialize, readBack_dict]
    simp [Protocol.get, modelKey_ne, hmembers]

theorem get_cons {α : Type} (key : Str) (x : α) (ms : List (Str × α)) :
    get ((key, x) :: ms) key = some x := by
  simp [get]

theorem get_append_of_notMem {α : Type} {ms : List (Str × α)} {key : Str} {x : α}
    (h : key ∉ ms.map Prod.fst) : get (ms ++ [(key, x)]) key = some x := by
  have hnone : ms.find? (·.1 = key) = none := by
    simpa [get] using get_eq_none h
  rw [get, List.find?_append, hnone]
  simp

theorem ModelClass.workerModel_name {cls : ModelClass} (h : cls ∈ marked) :
    (.ofString cls.name : Str) ≠ plainDictModel ∧
      (.ofString cls.name : Str) ≠ .ofString "RestrictedPythonTask" ∧
      workerModel (.ofString cls.name) = some cls := by
  simp only [marked, List.mem_cons, List.not_mem_nil, or_false] at h
  rcases h with rfl | rfl | rfl <;> decide

theorem filter_append_marker {α : Type} {ms : List (Str × α)} {x : α}
    (h : modelKey ∉ ms.map Prod.fst) :
    (ms ++ [(modelKey, x)]).filter (·.1 ≠ modelKey) = ms := by
  rw [List.filter_append, List.filter_eq_self.2]
  · simp
  · intro p hp
    simp only [ne_eq, decide_eq_true_eq]
    rintro heq
    exact h (List.mem_map.2 ⟨p, hp, heq⟩)

theorem Wired.pos {value : Value F} {tree : Json.Tree F} (h : Wired φ π levels m value tree) :
    ∃ n, levels = n + 1 := by
  rcases levels with _ | n
  · exact absurd h.depth (by simp [validateJsonDepth])
  · exact ⟨n, rfl⟩

/-- A model with a marker is validated from its members. -/
theorem Wired.marked {cls : ModelClass} (hcls : cls ∈ ModelClass.marked)
    {items : List (Str × Value F)} {f : Value F → Json.Tree F} (hπ : π.Revalidates)
    (hi : π.IsInstance cls items) (h : ∀ p ∈ items, Wired φ π (levels + 1) false p.2 (f p.2)) :
    Wired φ π (levels + 2) true (.model cls items)
      (.obj ((items.map fun p => (p.1, f p.2)) ++ [(modelKey, .str (.ofString cls.name))])) := by
  have hn := π.nodup hi
  have hkey : modelKey ∉ (items.map fun p => (p.1, f p.2)).map Prod.fst := by
    rw [map_fst_map]
    exact π.noMarker hi
  obtain ⟨hwf, hdepth⟩ := Wired.members hn h
  rw [Json.Tree.WellFormed, membersWellFormed_iff] at hwf
  refine ⟨?_, ?_, ?_⟩
  · rw [Json.Tree.WellFormed, membersWellFormed_iff, List.map_append, List.map_singleton,
      ← List.concat_eq_append, List.nodup_concat]
    refine ⟨⟨hkey, hwf.1⟩, List.forall_mem_append.2 ⟨hwf.2, ?_⟩⟩
    simp [Json.Tree.WellFormed]
  · rw [validateJsonDepth, List.all_append, Bool.and_eq_true]
    exact ⟨hdepth, rfl⟩
  · obtain ⟨hplain, htask, hmodel⟩ := ModelClass.workerModel_name hcls
    rw [Protocol.deserialize, get_append_of_notMem hkey]
    simp only [hplain, htask, if_false, hmodel, filter_append_marker hkey,
      mapMembers_map fun p hp => (h p hp).deserialize]
    refine bind_eq_ok.2 ⟨_, rfl, ?_⟩
    simpa [Value.readBack, Value.untuple] using hπ cls hcls items hi

/-- A model within the fields of another has no marker. -/
theorem Wired.unmarked {cls : ModelClass} {items : List (Str × Value F)} {f : Value F → Json.Tree F}
    (hi : π.IsInstance cls items) (h : ∀ p ∈ items, Wired φ π levels false p.2 (f p.2)) :
    Wired φ π (levels + 1) false (.model cls items) (.obj (items.map fun p => (p.1, f p.2))) := by
  obtain ⟨h1, h2, h3⟩ := Wired.dict (π.nodup hi) (π.noMarker hi) h
  refine ⟨h1, h2, ?_⟩
  rw [h3, readBack_dict]
  simp [Value.readBack, Value.payload, strDict]

/-- The names of the members of a task are distinct. -/
theorem taskKeys_nodup : [modelKey, .ofString "function", .ofString "agent", .ofString "args",
    .ofString "keyword_args"].Nodup := by decide

/-- A task, whose arguments are read back within a tuple. -/
theorem Wired.restrictedPythonTask (function agent : Str) {args : List (Value F)}
    {keywordArgs : List (Str × Value F)} {a k : Json.Tree F}
    (ha : Wired φ π levels true (.tuple args) a)
    (hk : Wired φ π levels true (.dict (strItems keywordArgs)) k) :
    Wired φ π (levels + 1) m (.restrictedPythonTask function agent args (strItems keywordArgs))
      (.obj [(modelKey, .str (.ofString "RestrictedPythonTask")),
        (.ofString "function", .str function), (.ofString "agent", .str agent),
        (.ofString "args", a), (.ofString "keyword_args", k)]) where
  wellFormed := by
    simp only [Json.Tree.WellFormed, membersWellFormed, List.map_cons, List.map_nil]
    exact ⟨taskKeys_nodup, trivial, trivial, trivial, ha.wellFormed, hk.wellFormed, trivial⟩
  depth := by
    obtain ⟨n, rfl⟩ := ha.pos
    simp only [validateJsonDepth, List.all_cons, List.all_nil, ha.depth, hk.depth, Bool.and_true]
  deserialize := by
    have ha := ha.deserialize
    have hk := hk.deserialize
    rw [readBack_tuple] at ha
    rw [readBack_dict] at hk
    have hplain : (.ofString "RestrictedPythonTask" : Str) ≠ plainDictModel := by decide
    have hmarker := get_cons modelKey (.str (.ofString "RestrictedPythonTask"))
      [(.ofString "function", .str function), (.ofString "agent", .str agent),
        (.ofString "args", a), (.ofString "keyword_args", k)]
    rw [Protocol.deserialize, hmarker]
    simp only [hplain, if_false, if_true]
    refine bind_eq_ok.2 ⟨_, ha, bind_eq_ok.2 ⟨_, hk, ?_⟩⟩
    -- the members are found by their names
    change Except.ok (Value.restrictedPythonTask function agent _ _) = _
    cases m <;> simp [Value.readBack, Value.untuple, Value.payload, strItems]

/-! ## The round trip -/

theorem Wired.scalar {value : Value F} {tree : Json.Tree F} (hw : tree.WellFormed φ maxDigits)
    (hd : validateJsonDepth φ (levels + 1) tree = true)
    (hr : Protocol.deserialize π (levels + 1) tree = .ok value) (hu : value.untuple = value)
    (hp : value.payload = value) : Wired φ π (levels + 1) m value tree :=
  ⟨hw, hd, by cases m <;> simp [hr, Value.readBack, hu, hp]⟩

theorem enumerate_map {α β : Type} (body : ℕ → β → Encoder) (f : α → β) (i : ℕ) (xs : List α) :
    enumerate body i (xs.map f) = enumerate (fun i x => body i (f x)) i xs := by
  induction xs generalizing i with
  | nil => rfl
  | cons x xs ih => rw [List.map_cons, enumerate, enumerate, ih]

theorem hasModelKey_strItems (ms : List (Str × Value F)) :
    hasModelKey (strItems ms) = true ↔ modelKey ∈ ms.map Prod.fst := by
  simp [hasModelKey, strItems]

variable {maxBytes : ℕ} {strictWorkerValue : Bool}

theorem wire_str (s : Str) : wire φ (levels + 1) m (.str s) = .str s := by
  rw [wire]

/-- The encoder writes a value with its levels left as its tree. -/
def Encodes (φ : FloatFormat F) (π : Pydantic F) (maxBytes : ℕ) (strictWorkerValue : Bool)
    (levels : ℕ) (value : Value F) : Prop :=
  ∀ m, (iterJsonBytes φ π maxBytes strictWorkerValue levels m value).Writes
    ((wire φ levels m value).text φ) (Wired φ π levels m value (wire φ levels m value))

theorem Encodes.zero (value : Value F) : Encodes φ π maxBytes strictWorkerValue 0 value :=
  fun _ => .fail _

theorem encodes_str (s : Str) : ∀ levels,
    Encodes φ π maxBytes strictWorkerValue levels (.str s)
  | 0 => .zero _
  | levels + 1 => by
    intro m
    rw [iterJsonBytes, wire, Json.Tree.text]
    refine (Encoder.Writes.iterJsonStringBytes maxBytes s).imp fun _ => ?_
    exact .scalar trivial rfl (by rw [deserialize]) (by simp [Value.untuple])
      (by simp [Value.payload, Value.untuple])

theorem encodes_int (i : ℤ) : Encodes φ π maxBytes strictWorkerValue (levels + 1) (.int i) := by
  intro m
  rw [iterJsonBytes, wire, Json.Tree.text, intBytes]
  refine .ite (fun _ => .fail _) fun _ => .ite (fun _ => .fail _) fun h => ?_
  refine (Encoder.Writes.textBytes maxBytes).imp fun _ => ?_
  exact .scalar (not_lt.1 h) rfl (by rw [deserialize]) (by simp [Value.untuple])
    (by simp [Value.payload, Value.untuple])

theorem encodes_float {x : F} (hx : φ.isFinite x) :
    Encodes φ π maxBytes strictWorkerValue (levels + 1) (.float x) := by
  intro m
  rw [iterJsonBytes, wire, Json.Tree.text, if_pos hx]
  refine (Encoder.Writes.textBytes maxBytes).imp fun _ => ?_
  exact .scalar hx hx (by rw [deserialize]) (by simp [Value.untuple])
    (by simp [Value.payload, Value.untuple])

theorem encodes_none : Encodes φ π maxBytes strictWorkerValue (levels + 1) .none := by
  intro m
  rw [iterJsonBytes, wire, Json.Tree.text]
  refine (Encoder.Writes.ascii maxBytes "null").imp fun _ => ?_
  exact .scalar trivial rfl (by rw [deserialize]) (by simp [Value.untuple])
    (by simp [Value.payload, Value.untuple])

theorem encodes_bool (b : Bool) :
    Encodes φ π maxBytes strictWorkerValue (levels + 1) (.bool b) := by
  intro m
  have h : Wired φ π (levels + 1) m (.bool b) (.bool b) :=
    .scalar trivial rfl (by rw [deserialize]) (by simp [Value.untuple])
      (by simp [Value.payload, Value.untuple])
  cases b
  · exact (Encoder.Writes.ascii maxBytes "false").imp fun _ => h
  · exact (Encoder.Writes.ascii maxBytes "true").imp fun _ => h

theorem encodes_list {items : List (Value F)}
    (h : ∀ x ∈ items, Encodes φ π maxBytes strictWorkerValue levels x) :
    Encodes φ π maxBytes strictWorkerValue (levels + 1) (.list items) := by
  intro m
  rw [iterJsonBytes, wire]
  exact (Encoder.Writes.items maxBytes fun x hx => h x hx m).imp .arr

theorem encodes_tuple {items : List (Value F)}
    (h : ∀ x ∈ items, Encodes φ π maxBytes strictWorkerValue levels x) :
    Encodes φ π maxBytes strictWorkerValue (levels + 1) (.tuple items) := by
  intro m
  rw [iterJsonBytes, wire]
  exact (Encoder.Writes.items maxBytes fun x hx => h x hx m).imp .arr_tuple

/-- The items of a dictionary are written as the members of an object. -/
theorem writes_dict {members : List (Str × Value F)}
    (h : ∀ p ∈ members, Encodes φ π maxBytes strictWorkerValue levels p.2) :
    (ascii maxBytes "\x7b" ++ enumerate (fun index item => dictMember φ maxBytes index item.1
      (iterJsonBytes φ π maxBytes strictWorkerValue levels m item.2)) 0 (strItems members) ++
      ascii maxBytes "\x7d").Writes
      ((Json.Tree.obj (members.map fun p => (p.1, wire φ levels m p.2))).text φ)
      (∀ p ∈ members, Wired φ π levels m p.2 (wire φ levels m p.2)) := by
  rw [strItems, enumerate_map, Json.Tree.text]
  have hmember (i : ℕ) (p : Str × Value F) (hp : p ∈ members) :=
    Encoder.Writes.dictMember φ maxBytes (h p hp m) i p.1
  have hloop := Encoder.Writes.members hmember
  exact (((Encoder.Writes.ascii maxBytes "\x7b").append hloop).append
    (Encoder.Writes.ascii maxBytes "\x7d")).imp fun hP => hP.1.2

/-- An object of two members. -/
theorem writes_obj₂ {k k' : Str} {e e' : Encoder} {t t' : Json.Tree F} {P P' Q : Prop}
    (h : e.Writes (t.text φ) P) (h' : e'.Writes (t'.text φ) P') (hQ : P' → Q) :
    (ascii maxBytes "\x7b" ++ member maxBytes 0 k e ++ member maxBytes 1 k' e' ++
      ascii maxBytes "\x7d").Writes ((Json.Tree.obj [(k, t), (k', t')]).text φ) Q := by
  have := (((Encoder.Writes.ascii maxBytes "\x7b").append (h.member maxBytes 0 k)).append
    (h'.member maxBytes 1 k')).append (Encoder.Writes.ascii maxBytes "\x7d")
  have htext : (Json.Tree.obj [(k, t), (k', t')]).text φ = .ofString "\x7b" ++
      (comma 0 ++ quote k ++ .scalar ':' :: t.text φ) ++
      (comma 1 ++ quote k' ++ .scalar ':' :: t'.text φ) ++ .ofString "\x7d" := by
    simp [Json.Tree.text, membersText, comma, Str.ofString]
  rw [htext]
  exact this.imp fun hP => hQ hP.1.2

theorem wire_strItems (members : List (Str × Value F)) :
    (strItems members).map (fun p => (p.1.text φ, wire φ levels m p.2)) =
      members.map fun p => (p.1, wire φ levels m p.2) := by
  simp [strItems, Key.text]

theorem encodes_dict {members : List (Str × Value F)} (hn : (members.map Prod.fst).Nodup)
    (h : ∀ levels' < levels, ∀ p ∈ members,
      Encodes φ π maxBytes strictWorkerValue levels' p.2) :
    Encodes φ π maxBytes strictWorkerValue levels (.dict (strItems members)) := by
  rcases levels with _ | levels
  · exact .zero _
  intro m
  rw [iterJsonBytes, wire]
  by_cases hkey : modelKey ∈ members.map Prod.fst
  · rw [if_pos ((hasModelKey_strItems members).2 hkey),
      if_pos ((hasModelKey_strItems members).2 hkey)]
    refine .ite (fun _ => .fail _) fun _ => ?_
    rcases levels with _ | levels
    · exact writes_obj₂ (encodes_str plainDictModel 0 m) (.fail _) id
    · have hraw : (iterJsonBytes φ π maxBytes strictWorkerValue (levels + 1) m
          (.rawPlainDict (strItems members))).Writes
          ((wire φ (levels + 1) m (.rawPlainDict (strItems members))).text φ)
          (∀ p ∈ members, Wired φ π levels m p.2 (wire φ levels m p.2)) := by
        rw [iterJsonBytes, wire, wire_strItems]
        exact writes_dict (h levels (by omega))
      refine writes_obj₂ (encodes_str plainDictModel _ m) hraw fun hP => ?_
      rw [wire, wire, wire_strItems]
      exact .escape hn hP
  · have hkey' := mt (hasModelKey_strItems members).1 hkey
    rw [if_neg hkey', if_neg hkey', wire_strItems]
    exact (writes_dict (h levels (Nat.lt_succ_self _))).imp (.dict hn hkey)

theorem membersText_append (i : ℕ) (ms ms' : List (Str × Json.Tree F)) :
    membersText φ i (ms ++ ms') = membersText φ i ms ++ membersText φ (i + ms.length) ms' := by
  induction ms generalizing i with
  | nil => rfl
  | cons p ms ih =>
    rw [List.cons_append, membersText, membersText, ih, List.length_cons, Nat.add_assoc,
      Nat.add_comm 1]
    simp only [List.append_assoc, List.cons_append]

theorem encodes_model (hπ : π.Revalidates) {cls : ModelClass} {items : List (Str × Value F)}
    (hi : π.IsInstance cls items)
    (h : ∀ p ∈ items, Encodes φ π maxBytes strictWorkerValue levels p.2) :
    Encodes φ π maxBytes strictWorkerValue (levels + 1) (.model cls items) := by
  intro m
  rw [iterJsonBytes, wire]
  refine .ite (fun _ => .fail _) fun _ => .ite (fun _ => .fail _) fun hcls => ?_
  have hserializers : (if π.hasSerializers cls then .fail .notSerializable else
      .done : Encoder).Writes [] True := .ite (fun _ => .fail _) fun _ => .done
  have hloop := Encoder.Writes.members fun i p hp =>
    (h p hp false).member maxBytes i p.1
  have hopen := ((Encoder.Writes.ascii maxBytes "\x7b").append hserializers).append hloop
  have hclose := Encoder.Writes.ascii maxBytes "\x7d"
  cases m with
  | false =>
    have := (hopen.append .done).append hclose
    simp only [Json.Tree.text, Bool.false_eq_true, if_false, List.append_nil] at this ⊢
    exact this.imp fun hP => .unmarked hi hP.1.1.2
  | true =>
    have hname : Encodes φ π maxBytes strictWorkerValue levels (.str (.ofString cls.name)) :=
      encodes_str _ _
    have := (hopen.append ((hname false).member maxBytes items.length modelKey)).append hclose
    refine this.text ?_ fun hP => ?_
    · simp [Json.Tree.text, membersText_append, membersText, Str.ofString]
    · obtain ⟨k, rfl⟩ := hP.1.2.pos
      rw [wire]
      exact .marked (not_not.1 hcls) hπ hi hP.1.1.2

theorem encodes_restrictedPythonTask (function agent : Str) {args : List (Value F)}
    {members : List (Str × Value F)}
    (ha : Encodes φ π maxBytes strictWorkerValue levels (.tuple args))
    (hk : Encodes φ π maxBytes strictWorkerValue levels (.dict (strItems members))) :
    Encodes φ π maxBytes strictWorkerValue (levels + 1)
      (.restrictedPythonTask function agent args (strItems members)) := by
  intro m
  rw [iterJsonBytes, wire]
  refine .ite (fun _ => .fail _) fun _ => ?_
  have hstr (s : Str) (i : ℕ) (key : Str) : (member maxBytes i key
      (iterJsonBytes φ π maxBytes strictWorkerValue levels true (.str s))).Writes
      (comma i ++ quote key ++ .scalar ':' :: (wire φ levels true (.str s)).text φ) True :=
    ((encodes_str s levels true).member maxBytes i key).imp fun _ => trivial
  have := ((((((Encoder.Writes.ascii maxBytes "\x7b").append
    (hstr (.ofString "RestrictedPythonTask") 0 modelKey)).append
    (hstr function 1 (.ofString "function"))).append
    (hstr agent 2 (.ofString "agent"))).append
    ((ha true).member maxBytes 3 (.ofString "args"))).append
    ((hk true).member maxBytes 4 (.ofString "keyword_args"))).append
    (Encoder.Writes.ascii maxBytes "\x7d")
  refine this.text ?_ fun hP => ?_
  · simp [Json.Tree.text, membersText, comma, Str.ofString]
  · obtain ⟨k, rfl⟩ := hP.1.2.pos
    simp only [wire_str]
    exact .restrictedPythonTask function agent hP.1.1.2 hP.1.2

/-- The encoder writes a value that is transferred as its tree. -/
theorem Transferable.encodes (hπ : π.Revalidates) {value : Value F}
    (hv : Transferable φ π value) : Encodes φ π maxBytes strictWorkerValue levels value := by
  -- by induction on the levels, as tasks write a tuple and a dictionary that they do not have
  induction levels using Nat.strong_induction_on generalizing value with
  | _ levels ih =>
    rcases levels with _ | levels
    · exact .zero value
    have ih' : ∀ {value : Value F}, Transferable φ π value →
        Encodes φ π maxBytes strictWorkerValue levels value := ih levels (Nat.lt_succ_self levels)
    cases hv with
    | none => exact encodes_none
    | bool b => exact encodes_bool b
    | int i => exact encodes_int i
    | float hx => exact encodes_float hx
    | str s => exact encodes_str s _
    | list h => exact encodes_list fun x hx => ih' (h x hx)
    | tuple h => exact encodes_tuple fun x hx => ih' (h x hx)
    | dict hn h => exact encodes_dict hn fun n hn p hp => ih n hn (h p hp)
    | restrictedPythonTask function agent ha hn h =>
      exact encodes_restrictedPythonTask function agent (ih' (.tuple ha)) (ih' (.dict hn h))
    | model hi h => exact encodes_model hπ hi fun p hp => ih' (h p hp)

/-- A value that is transferred is read back, from any encoding of it, with lists for
    tuples but for the arguments of tasks. -/
theorem decodeProtocolValue_encodeProtocolValue (hπ : π.Revalidates) {value : Value F}
    (hv : Transferable φ π value) {label : String} {encoded : ByteArray}
    (h : encodeProtocolValue φ π maxBytes strictWorkerValue value label = .ok encoded)
    (label' : String) :
    decodeProtocolValue φ π maxBytes encoded label' = .ok value.untuple := by
  have hsize := size_encodeProtocolValue_le h
  obtain ⟨⟨bytes, hbytes, rfl⟩, hwired⟩ := hv.encodes hπ true _ _ (encodeProtocolValue_eq_ok.1 h)
  rw [ByteArray.empty_append] at hsize ⊢
  have htext := loads_text hwired.wellFormed
  have hjson : decodeJsonValue φ maxBytes bytes label' =
      .ok (wire φ (maxProtocolDepth + 1) true value) := by
    rw [decodeJsonValue, if_neg (not_lt.2 hsize), decodeUtf8_encodeUtf8 hbytes, Option.bind_eq_bind,
      Option.bind_some, htext]
    exact if_pos hwired.depth
  have hdeserialize := hwired.deserialize
  rw [Value.readBack, if_pos rfl] at hdeserialize
  refine bind_eq_ok.2 ⟨_, hjson, ?_⟩
  simp only [hdeserialize]

end ReadBack

/-- A format with a float `0.5` and one that is not finite. -/
def half : FloatFormat Bool where
  isFinite := id
  repr _ := "0.5".toList
  read _ := true
  literal _ _ := ⟨⟨[], ['0'], ['.', '5'], []⟩, by
    have hzero : IsDigits ['0'] := ⟨List.cons_ne_nil _ _, List.forall_mem_singleton.2 rfl⟩
    have hfive : IsDigits ['5'] := ⟨List.cons_ne_nil _ _, List.forall_mem_singleton.2 rfl⟩
    exact ⟨⟨.inl rfl, hzero, .inl rfl, .inr ⟨['5'], hfive, rfl⟩, .inl rfl⟩, by decide, rfl⟩⟩
  read_repr _ hx := hx.symm

theorem modelKey_ne_text : modelKey ≠ .ofString "text" := by decide

/-- Contexts whose only field is a text. -/
def textContext : Pydantic Bool where
  hasSerializers _ := false
  IsInstance cls items := cls = .context ∧ ∃ s, items = [(.ofString "text", .str s)]
  validate cls items := .ok (.model cls items)
  nodup := by
    rintro _ _ ⟨rfl, s, rfl⟩
    simp
  noMarker := by
    rintro _ _ ⟨rfl, s, rfl⟩
    rw [List.map_singleton, List.mem_singleton]
    exact modelKey_ne_text

theorem textContext_revalidates : textContext.Revalidates := by
  rintro cls hcls _ ⟨rfl, s, rfl⟩
  simp [textContext, Value.payload, Value.untuple]

/-- A value with an escaped dictionary, whose marker is a tuple, and with a model. -/
def escaped : Value Bool := .list
  [.dict [(.str modelKey, .tuple [.int (-7), .float true])],
    .model .context [(.ofString "text", .str (.ofString "a"))]]

theorem escaped_transferable : Transferable half textContext escaped := by
  have htuple : Transferable half textContext (.tuple [.int (-7), .float true]) := .tuple (by
    simp [Transferable.int, Transferable.float, half])
  have hdict : Transferable half textContext
      (.dict (strItems [(modelKey, .tuple [.int (-7), .float true])])) :=
    .dict (by simp) (by simpa using htuple)
  have hmodel : Transferable half textContext
      (.model .context [(.ofString "text", .str (.ofString "a"))]) :=
    .model ⟨rfl, _, rfl⟩ (by simp [Transferable.str])
  exact .list (by simpa using ⟨hdict, hmodel⟩)

theorem decodeProtocolValue_escaped : ∃ encoded,
    encodeProtocolValue half textContext maxProtocolBytes false escaped "value" = .ok encoded ∧
      decodeProtocolValue half textContext maxProtocolBytes encoded "value" = .ok (.list
        [.dict [(.str modelKey, .list [.int (-7), .float true])],
          .model .context [(.ofString "text", .str (.ofString "a"))]]) := by
  have hok :
      (encodeProtocolValue half textContext maxProtocolBytes false escaped "value").isOk := by
    decide +kernel
  rcases h : encodeProtocolValue half textContext maxProtocolBytes false escaped "value" with
    error | encoded
  · rw [h] at hok
    cases hok
  · refine ⟨encoded, rfl, ?_⟩
    have := decodeProtocolValue_encodeProtocolValue textContext_revalidates escaped_transferable h
      "value"
    rw [this]
    simp [escaped, Value.untuple]

end Hyperforge.Codemode.Protocol
