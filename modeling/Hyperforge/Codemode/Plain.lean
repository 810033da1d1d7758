import Hyperforge.Codemode.RoundTrip

/-!
# Plain serialization

Values are also serialized as plain ones (`serialize`), which `json.dumps` writes at once. The JSON
that it writes is the one that the encoder streams (`json_serialize`), if the fields of models are
plain, and have no key `__model__`: those of a model are dumped by it (`Value.modelDump`), with no
markers and nothing escaped, while the encoder walks through them.
-/

namespace Hyperforge.Codemode.Protocol

open Json hiding Tree

/-- The exceptions of `serialize`. -/
inductive SerializeError
  | typeError (message : String)
  | recursionError
  deriving DecidableEq

section Serialize

variable {F : Type}

mutual

/-- What `model_dump` makes of a field: dictionaries of its models. -/
def Value.modelDump : Value F → Value F
  | .list items => .list (dumpItems items)
  | .tuple items => .tuple (dumpItems items)
  | .dict items => .dict (dumpPairs items)
  | .restrictedPythonTask function agent args keywordArgs => .dict
    [(.str (.ofString "function"), .str function), (.str (.ofString "agent"), .str agent),
      (.str (.ofString "args"), .tuple (dumpItems args)),
      (.str (.ofString "keyword_args"), .dict (dumpPairs keywordArgs))]
  | .model _ items => strDict (dumpFields items)
  | .none => .none
  | .bool b => .bool b
  | .int i => .int i
  | .float x => .float x
  | .str s => .str s
  | .rawPlainDict items => .rawPlainDict items
  | .object typeName => .object typeName

def Value.dumpItems : List (Value F) → List (Value F)
  | [] => []
  | x :: xs => modelDump x :: dumpItems xs

def Value.dumpPairs : List (Key F × Value F) → List (Key F × Value F)
  | [] => []
  | (k, x) :: ps => (k, modelDump x) :: dumpPairs ps

def Value.dumpFields : List (Str × Value F) → List (Str × Value F)
  | [] => []
  | (k, x) :: ps => (k, modelDump x) :: dumpFields ps

end

/-- The values of a dictionary, converted. -/
def mapValues {κ α β ε : Type} (f : α → Except ε β) : List (κ × α) → Except ε (List (κ × β))
  | [] => .ok []
  | (k, x) :: ps => do
    let y ← f x
    let rest ← mapValues f ps
    .ok ((k, y) :: rest)

/-- `serialize`, with the number of calls left up to the limit on recursion. -/
def serialize : (calls : ℕ) → Value F → Except SerializeError (Value F)
  | 0, _ => .error .recursionError
  | calls + 1, message =>
    let item := serialize calls
    match message with
    | .restrictedPythonTask function agent args keywordArgs => do
      let args ← item (.tuple args)
      let keywordArgs ← item (.dict keywordArgs)
      .ok (strDict [(modelKey, .str (.ofString "RestrictedPythonTask")),
        (.ofString "function", .str function), (.ofString "agent", .str agent),
        (.ofString "args", args), (.ofString "keyword_args", keywordArgs)])
    | .model cls items =>
      if cls ∉ ModelClass.marked then
        .error (.typeError ("Pydantic model " ++ cls.name ++
          " is not supported by the sandbox protocol"))
      else do
        let converted ← mapValues item (Value.dumpFields items)
        .ok (strDict (setItem converted modelKey (.str (.ofString cls.name))))
    | .list items | .tuple items => .list <$> items.mapM item
    | .dict items => do
      let converted ← mapValues item items
      .ok (if hasModelKey items then
        strDict [(modelKey, .str plainDictModel), (.ofString "value", .dict converted)]
      else .dict converted)
    | message => .ok message

end Serialize

section Dumps

variable {F : Type} (φ : FloatFormat F)

/-- How `json.dumps` writes a key. -/
def Key.json : Key F → Option Str
  | .str s => some s
  | .none => some (.ofString "null")
  | .bool true => some (.ofString "true")
  | .bool false => some (.ofString "false")
  | .int i =>
    if (Nat.toDigits 10 i.natAbs).length > maxDigits then .none else some (chars (intText i))
  | .float x => some (chars (φ.repr x))
  | .other _ => .none

mutual

/-- The JSON that `json.dumps` writes for a value, if it is serializable. -/
def Value.json : Value F → Option (Json.Tree F)
  | .none => some .null
  | .bool b => some (.bool b)
  | .int i => if (Nat.toDigits 10 i.natAbs).length > maxDigits then .none else some (.int i)
  | .float x => some (.float x)
  | .str s => some (.str s)
  | .list items | .tuple items => .arr <$> jsonItems items
  | .dict items => (fun members => .obj (Json.dict members)) <$> jsonMembers items
  | .restrictedPythonTask .. | .model .. | .rawPlainDict _ | .object _ => .none

def Value.jsonItems : List (Value F) → Option (List (Json.Tree F))
  | [] => some []
  | x :: xs => do
    let y ← json x
    let ys ← jsonItems xs
    some (y :: ys)

def Value.jsonMembers : List (Key F × Value F) → Option (List (Str × Json.Tree F))
  | [] => some []
  | (k, x) :: ms => do
    let k ← k.json φ
    let y ← json x
    let ys ← jsonMembers ms
    some ((k, y) :: ys)

end

end Dumps

/-! ## The values that are serialized alike -/

section Streamable

variable {F : Type} {φ : FloatFormat F} {π : Pydantic F}

/-- The plain JSON that the fields of a model hold, with no key `__model__`. -/
inductive PlainField (φ : FloatFormat F) (π : Pydantic F) : Value F → Prop
  | none : PlainField φ π .none
  | bool (b : Bool) : PlainField φ π (.bool b)
  | int (i : ℤ) : PlainField φ π (.int i)
  | float {x : F} (hx : φ.isFinite x) : PlainField φ π (.float x)
  | str (s : Str) : PlainField φ π (.str s)
  | list {items : List (Value F)} (h : ∀ x ∈ items, PlainField φ π x) : PlainField φ π (.list items)
  | tuple {items : List (Value F)} (h : ∀ x ∈ items, PlainField φ π x) :
    PlainField φ π (.tuple items)
  | dict {members : List (Str × Value F)} (hn : (members.map Prod.fst).Nodup)
    (hkey : modelKey ∉ members.map Prod.fst) (h : ∀ p ∈ members, PlainField φ π p.2) :
    PlainField φ π (.dict (strItems members))
  | model {cls : ModelClass} {items : List (Str × Value F)} (hi : π.IsInstance cls items)
    (h : ∀ p ∈ items, PlainField φ π p.2) : PlainField φ π (.model cls items)

/-- The values that are transferred, models having plain fields. -/
inductive Streamable (φ : FloatFormat F) (π : Pydantic F) : Value F → Prop
  | none : Streamable φ π .none
  | bool (b : Bool) : Streamable φ π (.bool b)
  | int (i : ℤ) : Streamable φ π (.int i)
  | float {x : F} (hx : φ.isFinite x) : Streamable φ π (.float x)
  | str (s : Str) : Streamable φ π (.str s)
  | list {items : List (Value F)} (h : ∀ x ∈ items, Streamable φ π x) : Streamable φ π (.list items)
  | tuple {items : List (Value F)} (h : ∀ x ∈ items, Streamable φ π x) :
    Streamable φ π (.tuple items)
  | dict {members : List (Str × Value F)} (hn : (members.map Prod.fst).Nodup)
    (h : ∀ p ∈ members, Streamable φ π p.2) : Streamable φ π (.dict (strItems members))
  | restrictedPythonTask (function agent : Str) {args : List (Value F)}
    {members : List (Str × Value F)} (ha : ∀ x ∈ args, Streamable φ π x)
    (hn : (members.map Prod.fst).Nodup) (h : ∀ p ∈ members, Streamable φ π p.2) :
    Streamable φ π (.restrictedPythonTask function agent args (strItems members))
  | model {cls : ModelClass} {items : List (Str × Value F)} (hi : π.IsInstance cls items)
    (h : ∀ p ∈ items, PlainField φ π p.2) : Streamable φ π (.model cls items)

theorem PlainField.transferable {value : Value F} (h : PlainField φ π value) :
    Transferable φ π value := by
  induction h with
  | none => exact .none
  | bool b => exact .bool b
  | int i => exact .int i
  | float hx => exact .float hx
  | str s => exact .str s
  | list _ ih => exact .list ih
  | tuple _ ih => exact .tuple ih
  | dict hn _ _ ih => exact .dict hn ih
  | model hi _ ih => exact .model hi ih

theorem Streamable.transferable {value : Value F} (h : Streamable φ π value) :
    Transferable φ π value := by
  induction h with
  | none => exact .none
  | bool b => exact .bool b
  | int i => exact .int i
  | float hx => exact .float hx
  | str s => exact .str s
  | list _ ih => exact .list ih
  | tuple _ ih => exact .tuple ih
  | dict hn _ ih => exact .dict hn ih
  | restrictedPythonTask function agent _ hn _ iha ih =>
    exact .restrictedPythonTask function agent iha hn ih
  | model hi h => exact .model hi fun p hp => (h p hp).transferable

/-! ## The JSON that is written -/

theorem dumpItems_eq_map (items : List (Value F)) :
    Value.dumpItems items = items.map Value.modelDump := by
  induction items with
  | nil => rfl
  | cons x xs ih => rw [Value.dumpItems, ih, List.map_cons]

theorem dumpFields_eq_map (items : List (Str × Value F)) :
    Value.dumpFields items = items.map fun p => (p.1, p.2.modelDump) := by
  induction items with
  | nil => rfl
  | cons p ps ih => rw [Value.dumpFields, ih, List.map_cons]

theorem dumpPairs_strItems (members : List (Str × Value F)) :
    Value.dumpPairs (strItems members) =
      strItems (members.map fun p => (p.1, p.2.modelDump)) := by
  induction members with
  | nil => rfl
  | cons p ps ih => exact congrArg (List.cons _) ih

/-- A tree that passes the checks of the reader. -/
structure Checked (φ : FloatFormat F) (levels : ℕ) (tree : Json.Tree F) : Prop where
  wellFormed : tree.WellFormed φ maxDigits
  depth : validateJsonDepth φ levels tree = true

theorem Wired.checked {levels : ℕ} {m : Bool} {value : Value F} {tree : Json.Tree F}
    (h : Wired φ π levels m value tree) : Checked φ levels tree := ⟨h.wellFormed, h.depth⟩

namespace Checked

variable {levels : ℕ} {tree : Json.Tree F}

theorem pos (h : Checked φ levels tree) : ∃ n, levels = n + 1 := by
  rcases levels with _ | n
  · exact absurd h.depth (by simp [validateJsonDepth])
  · exact ⟨n, rfl⟩

theorem item {items : List (Json.Tree F)} (h : Checked φ (levels + 1) (.arr items))
    {x : Json.Tree F} (hx : x ∈ items) : Checked φ levels x := by
  obtain ⟨hwf, hdepth⟩ := h
  rw [Json.Tree.WellFormed, itemsWellFormed_iff] at hwf
  rw [validateJsonDepth, List.all_eq_true] at hdepth
  exact ⟨hwf x hx, hdepth x hx⟩

theorem member {members : List (Str × Json.Tree F)} (h : Checked φ (levels + 1) (.obj members))
    {p : Str × Json.Tree F} (hp : p ∈ members) : Checked φ levels p.2 := by
  obtain ⟨hwf, hdepth⟩ := h
  rw [Json.Tree.WellFormed, membersWellFormed_iff] at hwf
  rw [validateJsonDepth, List.all_eq_true] at hdepth
  exact ⟨hwf.2 p hp, hdepth p hp⟩

theorem nodup {members : List (Str × Json.Tree F)} (h : Checked φ levels (.obj members)) :
    (members.map Prod.fst).Nodup := by
  have hwf := h.wellFormed
  rw [Json.Tree.WellFormed] at hwf
  exact hwf.1

end Checked

/-- What a value is serialized as is written as a tree. -/
def Dumps (calls : ℕ) (φ : FloatFormat F) (value : Value F) (tree : Json.Tree F) : Prop :=
  ∀ w, serialize calls value = .ok w → w.json φ = some tree

theorem jsonMembers_cons (k : Str) {x : Value F} {y : Json.Tree F} {ms : List (Str × Value F)}
    {ys : List (Str × Json.Tree F)} (hx : x.json φ = some y)
    (hms : Value.jsonMembers φ (strItems ms) = some ys) :
    Value.jsonMembers φ (strItems ((k, x) :: ms)) = some ((k, y) :: ys) := by
  rw [strItems, List.map_cons, Value.jsonMembers, hx]
  rw [strItems] at hms
  rw [hms]
  rfl

theorem jsonMembers_concat {ms : List (Str × Value F)} {ys : List (Str × Json.Tree F)}
    (h : Value.jsonMembers φ (strItems ms) = some ys) (k s : Str) :
    Value.jsonMembers φ (strItems (ms ++ [(k, .str s)])) = some (ys ++ [(k, .str s)]) := by
  induction ms generalizing ys with
  | nil =>
    cases h
    rfl
  | cons p ms ih =>
    rw [strItems, List.map_cons, Value.jsonMembers] at h
    obtain ⟨_, ⟨⟩, h⟩ := Option.bind_eq_some_iff.1 h
    obtain ⟨y, hy, h⟩ := Option.bind_eq_some_iff.1 h
    obtain ⟨ys', hys', h⟩ := Option.bind_eq_some_iff.1 h
    cases h
    exact jsonMembers_cons p.1 hy (ih hys')

theorem json_mapM {f : Value F → Except SerializeError (Value F)} {g : Value F → Value F}
    {tree : Value F → Json.Tree F} {xs ys : List (Value F)}
    (h : ∀ x ∈ xs, ∀ w, f (g x) = .ok w → w.json φ = some (tree x))
    (hys : (xs.map g).mapM f = .ok ys) : Value.jsonItems φ ys = some (xs.map tree) := by
  induction xs generalizing ys with
  | nil =>
    cases hys
    rfl
  | cons x xs ih =>
    rw [List.map_cons, List.mapM_cons] at hys
    obtain ⟨y, hy, hys⟩ := Crash.bind_eq_ok.1 hys
    obtain ⟨ys', hys', hys⟩ := Crash.bind_eq_ok.1 hys
    cases hys
    rw [Value.jsonItems, h x List.mem_cons_self y hy,
      ih (fun z hz => h z (List.mem_cons_of_mem _ hz)) hys']
    rfl

theorem json_mapValues {f : Value F → Except SerializeError (Value F)} {g : Value F → Value F}
    {tree : Value F → Json.Tree F} {ms ps : List (Str × Value F)}
    (h : ∀ p ∈ ms, ∀ w, f (g p.2) = .ok w → w.json φ = some (tree p.2))
    (hps : mapValues f (ms.map fun p => (p.1, g p.2)) = .ok ps) :
    ps.map Prod.fst = ms.map Prod.fst ∧
      Value.jsonMembers φ (strItems ps) = some (ms.map fun p => (p.1, tree p.2)) := by
  induction ms generalizing ps with
  | nil =>
    cases hps
    exact ⟨rfl, rfl⟩
  | cons p ms ih =>
    rw [List.map_cons, mapValues] at hps
    obtain ⟨y, hy, hps⟩ := Crash.bind_eq_ok.1 hps
    obtain ⟨ps', hps', hps⟩ := Crash.bind_eq_ok.1 hps
    cases hps
    obtain ⟨hkeys, hjson⟩ := ih (fun q hq => h q (List.mem_cons_of_mem _ hq)) hps'
    refine ⟨by rw [List.map_cons, List.map_cons, hkeys], ?_⟩
    exact jsonMembers_cons p.1 (h p List.mem_cons_self y hy) hjson

theorem mapValues_strItems {f : Value F → Except SerializeError (Value F)}
    {ms : List (Str × Value F)} {ps : List (Key F × Value F)}
    (h : mapValues f (strItems ms) = .ok ps) :
    ∃ qs, mapValues f ms = .ok qs ∧ ps = strItems qs := by
  induction ms generalizing ps with
  | nil =>
    cases h
    exact ⟨[], rfl, rfl⟩
  | cons p ms ih =>
    obtain ⟨y, hy, h⟩ := Crash.bind_eq_ok.1 h
    obtain ⟨ps', hps', h⟩ := Crash.bind_eq_ok.1 h
    cases h
    obtain ⟨qs, hqs, rfl⟩ := ih hps'
    exact ⟨(p.1, y) :: qs, Crash.bind_eq_ok.2 ⟨y, hy, Crash.bind_eq_ok.2 ⟨qs, hqs, rfl⟩⟩, rfl⟩

theorem json_strDict {ps : List (Str × Value F)} {ms : List (Str × Json.Tree F)}
    (h : Value.jsonMembers φ (strItems ps) = some ms) (hn : (ms.map Prod.fst).Nodup) :
    (strDict ps).json φ = some (.obj ms) := by
  change (fun members => Json.Tree.obj (Json.dict members)) <$>
    Value.jsonMembers φ (strItems ps) = _
  rw [h]
  exact congrArg (fun ms => some (Json.Tree.obj ms)) (dict_of_nodup hn)

section

variable {calls levels : ℕ} {m : Bool}

theorem dumps_items {g : Value F → Value F} {items : List (Value F)}
    (h : ∀ x ∈ items, Dumps calls φ (g x) (wire φ levels m x)) :
    Dumps (calls + 1) φ (.list (items.map g)) (.arr (items.map (wire φ levels m))) := by
  intro w hw
  rw [serialize, Crash.map_eq_ok] at hw
  obtain ⟨ys, hys, rfl⟩ := hw
  rw [Value.json, json_mapM h hys]
  rfl

/-- A dictionary without the key `__model__`, or a model without a marker. -/
theorem dumps_members {g : Value F → Value F} {members : List (Str × Value F)}
    (hn : (members.map Prod.fst).Nodup) (hkey : modelKey ∉ members.map Prod.fst)
    (h : ∀ p ∈ members, Dumps calls φ (g p.2) (wire φ levels m p.2)) :
    Dumps (calls + 1) φ (.dict (strItems (members.map fun p => (p.1, g p.2))))
      (.obj (members.map fun p => (p.1, wire φ levels m p.2))) := by
  intro w hw
  have hmodel : ¬hasModelKey (strItems (members.map fun p => (p.1, g p.2))) = true := by
    rwa [hasModelKey_strItems, map_fst_map]
  rw [serialize] at hw
  obtain ⟨ps, hps, hw⟩ := Crash.bind_eq_ok.1 hw
  rw [if_neg hmodel] at hw
  cases hw
  obtain ⟨qs, hqs, rfl⟩ := mapValues_strItems hps
  exact json_strDict (json_mapValues h hqs).2 (by rwa [map_fst_map])

theorem dumps_scalar {value : Value F} {tree : Json.Tree F}
    (hserialize : serialize (calls + 1) value = .ok value) (hjson : value.json φ = some tree) :
    Dumps (calls + 1) φ value tree := by
  intro w hw
  cases hserialize.symm.trans hw
  exact hjson

theorem dumps_int {i : ℤ} (h : Checked φ levels (.int i)) :
    Dumps (calls + 1) φ (.int i) (.int i) := by
  refine dumps_scalar rfl ?_
  rw [Value.json, if_neg (Nat.not_lt.2 h.wellFormed)]

theorem dumps_zero (value : Value F) (tree : Json.Tree F) : Dumps 0 φ value tree := by
  intro w hw
  cases hw

end

/-- A field is dumped, and serialized, as it is streamed. -/
theorem PlainField.dumps {value : Value F} (hv : PlainField φ π value) {calls levels : ℕ}
    (h : Checked φ levels (wire φ levels false value)) :
    Dumps calls φ value.modelDump (wire φ levels false value) := by
  induction hv generalizing calls levels with
  | none | bool b | float hx | str s =>
    rcases calls with _ | calls
    · exact dumps_zero _ _
    obtain ⟨n, rfl⟩ := h.pos
    rw [wire, Value.modelDump]
    exact dumps_scalar rfl (by rw [Value.json])
  | int i =>
    rcases calls with _ | calls
    · exact dumps_zero _ _
    obtain ⟨n, rfl⟩ := h.pos
    rw [wire] at h ⊢
    rw [Value.modelDump]
    exact dumps_int h
  | list _ ih | tuple _ ih =>
    rcases calls with _ | calls
    · exact dumps_zero _ _
    obtain ⟨n, rfl⟩ := h.pos
    rw [wire] at h ⊢
    rw [Value.modelDump, dumpItems_eq_map]
    exact dumps_items fun x hx => ih x hx (h.item (List.mem_map_of_mem hx))
  | dict hn hkey _ ih =>
    rcases calls with _ | calls
    · exact dumps_zero _ _
    obtain ⟨n, rfl⟩ := h.pos
    rw [wire, if_neg (mt (hasModelKey_strItems _).1 hkey), wire_strItems] at h ⊢
    rw [Value.modelDump, dumpPairs_strItems]
    exact dumps_members hn hkey fun p hp => ih p hp (h.member (List.mem_map_of_mem hp))
  | model hi _ ih =>
    rcases calls with _ | calls
    · exact dumps_zero _ _
    obtain ⟨n, rfl⟩ := h.pos
    rw [wire, if_neg Bool.false_ne_true, List.append_nil] at h ⊢
    rw [Value.modelDump, dumpFields_eq_map]
    exact dumps_members (π.nodup hi) (π.noMarker hi) fun p hp =>
      ih p hp (h.member (List.mem_map_of_mem hp))

/-- The arguments of a task, or the items of a list. -/
theorem dumps_list {items : List (Value F)} {calls levels : ℕ}
    (h : Checked φ levels (wire φ levels true (.list items)))
    (ih : ∀ x ∈ items, ∀ {calls levels : ℕ}, Checked φ levels (wire φ levels true x) →
      Dumps calls φ x (wire φ levels true x)) :
    Dumps calls φ (.list items) (wire φ levels true (.list items)) := by
  rcases calls with _ | calls
  · exact dumps_zero _ _
  obtain ⟨n, rfl⟩ := h.pos
  rw [wire] at h ⊢
  have hitems : Dumps (calls + 1) φ (.list (items.map id)) (.arr (items.map (wire φ n true))) :=
    dumps_items fun x hx => ih x hx (h.item (List.mem_map_of_mem hx))
  rwa [List.map_id] at hitems

theorem dumps_dict {members : List (Str × Value F)} (hn : (members.map Prod.fst).Nodup)
    {calls levels : ℕ} (h : Checked φ levels (wire φ levels true (.dict (strItems members))))
    (ih : ∀ p ∈ members, ∀ {calls levels : ℕ}, Checked φ levels (wire φ levels true p.2) →
      Dumps calls φ p.2 (wire φ levels true p.2)) :
    Dumps calls φ (.dict (strItems members)) (wire φ levels true (.dict (strItems members))) := by
  rcases calls with _ | calls
  · exact dumps_zero _ _
  obtain ⟨n, rfl⟩ := h.pos
  have hid : members.map (fun p => (p.1, id p.2)) = members := List.map_id members
  rw [wire] at h ⊢
  by_cases hkey : modelKey ∈ members.map Prod.fst
  · -- both escape the dictionary
    rw [if_pos ((hasModelKey_strItems members).2 hkey)] at h ⊢
    obtain ⟨n, rfl⟩ := (h.member List.mem_cons_self).pos
    have hvalue := h.member (List.mem_cons_of_mem _ List.mem_cons_self)
    rw [wire, wire_strItems] at hvalue
    rw [wire, wire, wire_strItems]
    intro w hw
    rw [serialize] at hw
    obtain ⟨ps, hps, hw⟩ := Crash.bind_eq_ok.1 hw
    rw [if_pos ((hasModelKey_strItems members).2 hkey)] at hw
    cases hw
    obtain ⟨qs, hqs, rfl⟩ := mapValues_strItems hps
    rw [← hid] at hqs
    have hmembers : ∀ p ∈ members, Dumps calls φ (id p.2) (wire φ n true p.2) := fun p hp =>
      ih p hp (hvalue.member (List.mem_map_of_mem hp))
    have hjson := json_strDict (json_mapValues hmembers hqs).2 (by rwa [map_fst_map])
    exact json_strDict (jsonMembers_cons _ rfl (jsonMembers_cons _ hjson rfl)) h.nodup
  · rw [if_neg (mt (hasModelKey_strItems members).1 hkey), wire_strItems] at h ⊢
    have hmembers : Dumps (calls + 1) φ (.dict (strItems (members.map fun p => (p.1, id p.2)))) _ :=
      dumps_members hn hkey fun p hp => ih p hp (h.member (List.mem_map_of_mem hp))
    rwa [hid] at hmembers

/-- A model with a marker, whose fields are dumped. -/
theorem dumps_model {cls : ModelClass} {items : List (Str × Value F)} (hi : π.IsInstance cls items)
    (hf : ∀ p ∈ items, PlainField φ π p.2) {calls levels : ℕ}
    (h : Checked φ levels (wire φ levels true (.model cls items))) :
    Dumps calls φ (.model cls items) (wire φ levels true (.model cls items)) := by
  rcases calls with _ | calls
  · exact dumps_zero _ _
  obtain ⟨n, rfl⟩ := h.pos
  rw [wire, if_pos rfl] at h ⊢
  obtain ⟨k, rfl⟩ := (h.member (List.mem_append_right _ (List.mem_singleton_self _))).pos
  intro w hw
  rw [serialize] at hw
  split_ifs at hw with hcls
  obtain ⟨converted, hconverted, hw⟩ := Crash.bind_eq_ok.1 hw
  cases hw
  rw [dumpFields_eq_map] at hconverted
  have hfields : ∀ p ∈ items, Dumps calls φ p.2.modelDump (wire φ (k + 1) false p.2) := fun p hp =>
    (hf p hp).dumps (h.member (List.mem_append_left _ (List.mem_map_of_mem hp)))
  obtain ⟨hkeys, hjson⟩ := json_mapValues hfields hconverted
  rw [setItem, if_neg (hkeys ▸ π.noMarker hi)]
  exact json_strDict (jsonMembers_concat hjson _ _) h.nodup

theorem serialize_tuple (calls : ℕ) (items : List (Value F)) :
    serialize calls (.tuple items) = serialize calls (.list items) := by
  cases calls <;> rfl

theorem wire_tuple (levels : ℕ) (m : Bool) (items : List (Value F)) :
    wire φ levels m (.tuple items) = wire φ levels m (.list items) := by
  cases levels
  · rfl
  · rw [wire, wire]

theorem dumps_restrictedPythonTask (function agent : Str) {args : List (Value F)}
    {members : List (Str × Value F)} (hn : (members.map Prod.fst).Nodup) {calls levels : ℕ}
    (h : Checked φ levels
      (wire φ levels true (.restrictedPythonTask function agent args (strItems members))))
    (iha : ∀ x ∈ args, ∀ {calls levels : ℕ}, Checked φ levels (wire φ levels true x) →
      Dumps calls φ x (wire φ levels true x))
    (ih : ∀ p ∈ members, ∀ {calls levels : ℕ}, Checked φ levels (wire φ levels true p.2) →
      Dumps calls φ p.2 (wire φ levels true p.2)) :
    Dumps calls φ (.restrictedPythonTask function agent args (strItems members))
      (wire φ levels true (.restrictedPythonTask function agent args (strItems members))) := by
  rcases calls with _ | calls
  · exact dumps_zero _ _
  obtain ⟨n, rfl⟩ := h.pos
  rw [wire] at h ⊢
  obtain ⟨k, rfl⟩ := (h.member List.mem_cons_self).pos
  have hargs := h.member (p := (.ofString "args", wire φ (k + 1) true (.tuple args))) (by simp)
  have hkeywordArgs := h.member
    (p := (.ofString "keyword_args", wire φ (k + 1) true (.dict (strItems members)))) (by simp)
  intro w hw
  rw [serialize] at hw
  obtain ⟨a, ha, hw⟩ := Crash.bind_eq_ok.1 hw
  obtain ⟨d, hd, hw⟩ := Crash.bind_eq_ok.1 hw
  cases hw
  rw [serialize_tuple] at ha
  rw [wire_tuple] at hargs h ⊢
  refine json_strDict ?_ h.nodup
  rw [wire, wire, wire]
  exact jsonMembers_cons _ rfl (jsonMembers_cons _ rfl (jsonMembers_cons _ rfl
    (jsonMembers_cons _ (dumps_list hargs iha a ha)
      (jsonMembers_cons _ (dumps_dict hn hkeywordArgs ih d hd) rfl))))

/-- A value is serialized as it is streamed. -/
theorem Streamable.dumps {value : Value F} (hv : Streamable φ π value) {calls levels : ℕ}
    (h : Checked φ levels (wire φ levels true value)) :
    Dumps calls φ value (wire φ levels true value) := by
  induction hv generalizing calls levels with
  | none | bool b | float hx | str s =>
    rcases calls with _ | calls
    · exact dumps_zero _ _
    obtain ⟨n, rfl⟩ := h.pos
    rw [wire]
    exact dumps_scalar rfl (by rw [Value.json])
  | int i =>
    rcases calls with _ | calls
    · exact dumps_zero _ _
    obtain ⟨n, rfl⟩ := h.pos
    rw [wire] at h ⊢
    exact dumps_int h
  | list _ ih => exact dumps_list h ih
  | tuple _ ih =>
    rw [wire_tuple] at h ⊢
    intro w hw
    rw [serialize_tuple] at hw
    exact dumps_list h ih w hw
  | dict hn _ ih => exact dumps_dict hn h ih
  | restrictedPythonTask function agent _ hn _ iha ih =>
    exact dumps_restrictedPythonTask function agent hn h iha ih
  | model hi hf => exact dumps_model hi hf h

/-- The reader reads what has been streamed as the JSON that `json.dumps` writes. -/
theorem json_serialize (hπ : π.Revalidates) {value : Value F} (hv : Streamable φ π value)
    {maxBytes : ℕ} {strictWorkerValue : Bool} {label : String} {encoded : ByteArray}
    (h : encodeProtocolValue φ π maxBytes strictWorkerValue value label = .ok encoded)
    {calls : ℕ} {w : Value F} (hw : serialize calls value = .ok w) :
    ∃ tree, decodeUtf8 encoded >>= loads φ maxDigits = some tree ∧ w.json φ = some tree := by
  obtain ⟨⟨bytes, hbytes, rfl⟩, hwired⟩ :=
    hv.transferable.encodes hπ true _ _ (encodeProtocolValue_eq_ok.1 h)
  refine ⟨_, ?_, hv.dumps hwired.checked w hw⟩
  rw [ByteArray.empty_append, decodeUtf8_encodeUtf8 hbytes, Option.bind_eq_bind, Option.bind_some]
  exact loads_text hwired.wellFormed

end Streamable

end Hyperforge.Codemode.Protocol
