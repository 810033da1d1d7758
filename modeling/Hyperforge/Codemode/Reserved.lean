import Hyperforge.Codemode.Messages

/-!
# The reserved key in parameters

The parameters of functions are objects of JSON, which may have the key `__model__`. They are
written escaped (`wire_ofTree`), which leaves them as they are if and only if no object has the key
(`escape_eq_self_iff`). They are validated as they are read.
-/

namespace Hyperforge.Codemode.Protocol

open Json hiding Tree

variable {F : Type}

mutual

/-- No object has the key `__model__`, at any depth. -/
def Unreserved : Json.Tree F → Prop
  | .null | .bool _ | .int _ | .float _ | .str _ => True
  | .arr items => itemsUnreserved items
  | .obj members => modelKey ∉ members.map Prod.fst ∧ membersUnreserved members

def itemsUnreserved : List (Json.Tree F) → Prop
  | [] => True
  | x :: xs => Unreserved x ∧ itemsUnreserved xs

def membersUnreserved : List (Str × Json.Tree F) → Prop
  | [] => True
  | (_, x) :: ms => Unreserved x ∧ membersUnreserved ms

end

mutual

/-- A tree, with the objects escaped that have the key `__model__`. -/
def escape : Json.Tree F → Json.Tree F
  | .null => .null
  | .bool b => .bool b
  | .int i => .int i
  | .float x => .float x
  | .str s => .str s
  | .arr items => .arr (escapeItems items)
  | .obj members =>
    if modelKey ∈ members.map Prod.fst then
      .obj [(modelKey, .str plainDictModel), (.ofString "value", .obj (escapeMembers members))]
    else .obj (escapeMembers members)

def escapeItems : List (Json.Tree F) → List (Json.Tree F)
  | [] => []
  | x :: xs => escape x :: escapeItems xs

def escapeMembers : List (Str × Json.Tree F) → List (Str × Json.Tree F)
  | [] => []
  | (k, x) :: ms => (k, escape x) :: escapeMembers ms

end

theorem escapeItems_eq_map (items : List (Json.Tree F)) : escapeItems items = items.map escape := by
  induction items with
  | nil => rfl
  | cons x xs ih => rw [escapeItems, ih, List.map_cons]

theorem escapeMembers_eq_map (members : List (Str × Json.Tree F)) :
    escapeMembers members = members.map fun p => (p.1, escape p.2) := by
  induction members with
  | nil => rfl
  | cons p ps ih => rw [escapeMembers, ih, List.map_cons]

theorem itemsUnreserved_iff {items : List (Json.Tree F)} :
    itemsUnreserved items ↔ ∀ x ∈ items, Unreserved x := by
  induction items with
  | nil => simp [itemsUnreserved]
  | cons x xs ih => simp [itemsUnreserved, ih]

theorem membersUnreserved_iff {members : List (Str × Json.Tree F)} :
    membersUnreserved members ↔ ∀ p ∈ members, Unreserved p.2 := by
  induction members with
  | nil => simp [membersUnreserved]
  | cons p ps ih => simp [membersUnreserved, ih]

theorem sizeOf_map_le {α : Type} [SizeOf α] {f : α → α} {l : List α}
    (h : ∀ x ∈ l, sizeOf x ≤ sizeOf (f x)) : sizeOf l ≤ sizeOf (l.map f) := by
  induction l with
  | nil => exact Nat.le_refl _
  | cons x xs ih =>
    have hx := h x List.mem_cons_self
    have hxs := ih fun y hy => h y (List.mem_cons_of_mem _ hy)
    rw [List.map_cons, List.cons.sizeOf_spec, List.cons.sizeOf_spec]
    omega

theorem sizeOf_members_le {ms : List (Str × Json.Tree F)}
    (h : ∀ p ∈ ms, sizeOf p.2 ≤ sizeOf (escape p.2)) :
    sizeOf ms ≤ sizeOf (ms.map fun p => (p.1, escape p.2)) := by
  refine sizeOf_map_le fun p hp => ?_
  have hp := h p hp
  obtain ⟨k, x⟩ := p
  rw [Prod.mk.sizeOf_spec, Prod.mk.sizeOf_spec]
  exact Nat.add_le_add_left hp _

/-- Escaping makes a tree no smaller. -/
theorem sizeOf_le_escape (x : Json.Tree F) : sizeOf x ≤ sizeOf (escape x) := by
  induction x using Json.Tree.induction with
  | null | bool b | int i | float x | str s => exact Nat.le_refl _
  | arr items ih =>
    have hitems := sizeOf_map_le ih
    rw [escape, escapeItems_eq_map, Json.Tree.arr.sizeOf_spec, Json.Tree.arr.sizeOf_spec]
    omega
  | obj members ih =>
    have hmembers := sizeOf_members_le ih
    rw [escape, escapeMembers_eq_map]
    split_ifs
    · simp only [Json.Tree.obj.sizeOf_spec, List.cons.sizeOf_spec, Prod.mk.sizeOf_spec]
      omega
    · rw [Json.Tree.obj.sizeOf_spec, Json.Tree.obj.sizeOf_spec]
      omega

theorem escape_eq_self_iff (x : Json.Tree F) : escape x = x ↔ Unreserved x := by
  induction x using Json.Tree.induction with
  | null | bool b | int i | float x | str s => exact ⟨fun _ => trivial, fun _ => rfl⟩
  | arr items ih =>
    rw [escape, escapeItems_eq_map, Json.Tree.arr.injEq, map_eq_self_iff, Unreserved,
      itemsUnreserved_iff]
    exact forall₂_congr ih
  | obj members ih =>
    rw [escape, escapeMembers_eq_map, Unreserved, membersUnreserved_iff]
    split_ifs with hkey
    · -- an escaped object is larger
      refine ⟨fun heq => ?_, fun h => absurd hkey h.1⟩
      have hmembers := sizeOf_members_le fun p (_ : p ∈ members) => sizeOf_le_escape p.2
      have hsize := congrArg sizeOf heq
      simp only [Json.Tree.obj.sizeOf_spec, List.cons.sizeOf_spec, Prod.mk.sizeOf_spec] at hsize
      omega
    · rw [Json.Tree.obj.injEq, map_eq_self_iff]
      refine ⟨fun h => ⟨hkey, fun p hp => (ih p hp).1 ?_⟩, fun h p hp => ?_⟩
      · exact congrArg Prod.snd (h p hp)
      · exact Prod.ext rfl ((ih p hp).2 (h.2 p hp))

/-! ## How trees are written -/

theorem ofItems_eq_map (items : List (Json.Tree F)) :
    Value.ofItems items = items.map Value.ofTree := by
  induction items with
  | nil => rfl
  | cons x xs ih => rw [Value.ofItems, ih, List.map_cons]

theorem ofMembers_eq (members : List (Str × Json.Tree F)) :
    Value.ofMembers members = strItems (members.map fun p => (p.1, .ofTree p.2)) := by
  induction members with
  | nil => rfl
  | cons p ps ih => exact congrArg (List.cons _) ih

variable {φ : FloatFormat F} {π : Pydantic F}

/-- A tree can be written, with integers of any length. -/
theorem Transferable.ofTree {n : ℕ} {x : Json.Tree F} (hx : x.WellFormed φ n) :
    Transferable φ π (.ofTree x) := by
  induction x using Json.Tree.induction with
  | null => exact .none
  | bool b => exact .bool b
  | int i => exact .int i
  | float x => exact .float hx
  | str s => exact .str s
  | arr items ih =>
    rw [Json.Tree.WellFormed, itemsWellFormed_iff] at hx
    rw [Value.ofTree, ofItems_eq_map]
    exact .list (List.forall_mem_map.2 fun x hm => ih x hm (hx x hm))
  | obj members ih =>
    rw [Json.Tree.WellFormed, membersWellFormed_iff] at hx
    rw [Value.ofTree, ofMembers_eq]
    refine .dict ?_ (List.forall_mem_map.2 fun p hm => ih p hm (hx.2 p hm))
    rw [map_fst_map]
    exact hx.1

/-- A tree is written escaped. -/
theorem wire_ofTree {levels : ℕ} {m : Bool} {x : Json.Tree F}
    (h : Checked φ levels (wire φ levels m (.ofTree x))) :
    wire φ levels m (.ofTree x) = escape x := by
  induction x using Json.Tree.induction generalizing levels with
  | null | bool b | int i | float x | str s =>
    obtain ⟨n, rfl⟩ := h.pos
    rw [Value.ofTree, wire, escape]
  | arr items ih =>
    obtain ⟨n, rfl⟩ := h.pos
    rw [Value.ofTree, ofItems_eq_map, wire, List.map_map] at h ⊢
    rw [escape, escapeItems_eq_map]
    exact congrArg _ (List.map_congr_left fun x hx => ih x hx (h.item (List.mem_map_of_mem hx)))
  | obj members ih =>
    obtain ⟨n, rfl⟩ := h.pos
    rw [Value.ofTree, ofMembers_eq, wire, wire_strItems, List.map_map] at h ⊢
    rw [escape, escapeMembers_eq_map]
    by_cases hkey : modelKey ∈ members.map Prod.fst
    · have hmodel : hasModelKey (strItems (members.map fun p => (p.1, Value.ofTree p.2))) := by
        rwa [hasModelKey_strItems, map_fst_map]
      rw [if_pos hmodel] at h ⊢
      obtain ⟨k, rfl⟩ := (h.member List.mem_cons_self).pos
      have hvalue := h.member (List.mem_cons_of_mem _ List.mem_cons_self)
      rw [wire, wire_strItems, List.map_map] at hvalue
      rw [if_pos hkey, wire, wire, wire_strItems, List.map_map]
      refine congrArg (fun ms => Json.Tree.obj [(modelKey, .str plainDictModel),
        (.ofString "value", .obj ms)]) (List.map_congr_left fun p hp => Prod.ext rfl ?_)
      exact ih p hp (hvalue.member (List.mem_map_of_mem hp))
    · have hmodel : ¬hasModelKey (strItems (members.map fun p => (p.1, Value.ofTree p.2))) := by
        rwa [hasModelKey_strItems, map_fst_map]
      rw [if_neg hmodel] at h ⊢
      rw [if_neg hkey]
      exact congrArg _ (List.map_congr_left fun p hp =>
        Prod.ext rfl (ih p hp (h.member (List.mem_map_of_mem hp))))

/-! ## How functions are validated -/

/-- No dictionary of a function definition has the key `__model__`. -/
def FunctionDefinition.Unreserved (d : FunctionDefinition F) : Prop :=
  Protocol.Unreserved (.obj d.parameters) ∧ ∀ s ∈ d.inputSchema, Protocol.Unreserved (.obj s)

def UnreservedAgent (functions : List (Str × FunctionDefinition F)) : Prop :=
  modelKey ∉ functions.map Prod.fst ∧ ∀ p ∈ functions, p.2.Unreserved

/-- No dictionary in the functions of a request has the key `__model__`. -/
def WorkerExecutionRequest.Unreserved (r : WorkerExecutionRequest F) : Prop :=
  modelKey ∉ r.functionNames.map Prod.fst ∧ ∀ p ∈ r.functionNames, UnreservedAgent p.2

variable {c : Conversions F}

theorem validateValues_eq_some_iff {α β : Type} {f : α → Option β} {g : β → α}
    {ms : List (Str × β)} :
    validateValues f (ms.map fun p => (p.1, g p.2)) = some ms ↔ ∀ p ∈ ms, f (g p.2) = some p.2 := by
  induction ms with
  | nil => simp [validateValues]
  | cons p ms ih =>
    obtain ⟨k, x⟩ := p
    rw [List.map_cons, validateValues, List.forall_mem_cons, ← ih]
    constructor
    · intro h
      obtain ⟨y, hy, h⟩ := Option.bind_eq_some_iff.1 h
      obtain ⟨ps, hps, h⟩ := Option.bind_eq_some_iff.1 h
      cases h
      exact ⟨hy, hps⟩
    · rintro ⟨hp, hms⟩
      rw [hp, hms]
      rfl

/-- A dictionary of typed values is read back if and only if it is not escaped, and its values
    are read back. -/
theorem validate_strDict_iff {α : Type} {value : α → Value F} {validate : Json.Tree F → Option α}
    {P : α → Prop} {ms : List (Str × α)} (hstr : ∀ s, validate (.str s) = none)
    (hvalidate : ∀ p ∈ ms, ∀ levels, Checked φ levels (wire φ levels false (value p.2)) →
      (validate (wire φ levels false (value p.2)) = some p.2 ↔ P p.2)) {levels : ℕ}
    (h : Checked φ levels (wire φ levels false (strDict (ms.map fun p => (p.1, value p.2))))) :
    (validateDict (wire φ levels false (strDict (ms.map fun p => (p.1, value p.2))))).bind
        (validateValues validate) = some ms ↔ modelKey ∉ ms.map Prod.fst ∧ ∀ p ∈ ms, P p.2 := by
  obtain ⟨n, rfl⟩ := h.pos
  have hdict : strDict (ms.map fun p => (p.1, value p.2)) =
    .dict (strItems (ms.map fun p => (p.1, value p.2))) := rfl
  rw [hdict, wire, wire_strItems, List.map_map] at h ⊢
  by_cases hkey : modelKey ∈ ms.map Prod.fst
  · -- the marker of the escaped dictionary is not one of the values
    have hmodel : hasModelKey (strItems (ms.map fun p => (p.1, value p.2))) = true := by
      rwa [hasModelKey_strItems, map_fst_map]
    rw [if_pos hmodel] at h ⊢
    obtain ⟨k, rfl⟩ := (h.member List.mem_cons_self).pos
    refine iff_of_false (fun hread => ?_) fun hread => hread.1 hkey
    rw [validateDict, Option.bind_some, wire_str, validateValues, hstr] at hread
    cases hread
  · have hmodel : ¬hasModelKey (strItems (ms.map fun p => (p.1, value p.2))) = true := by
      rwa [hasModelKey_strItems, map_fst_map]
    rw [if_neg hmodel] at h ⊢
    rw [validateDict, Option.bind_some]
    refine (validateValues_eq_some_iff (g := fun x => wire φ n false (value x))).trans ?_
    rw [and_iff_right hkey]
    exact forall₂_congr fun p hp => hvalidate p hp n (h.member (List.mem_map_of_mem hp))

theorem escape_obj (members : List (Str × Json.Tree F)) :
    ∃ ms, escape (.obj members) = .obj ms ∧
      (ms = members ↔ Protocol.Unreserved (.obj members)) := by
  have hiff := escape_eq_self_iff (.obj members)
  rw [escape] at hiff ⊢
  split_ifs at hiff ⊢ <;> exact ⟨_, rfl, by rwa [Json.Tree.obj.injEq] at hiff⟩

/-- A function definition that has all its fields. -/
theorem FunctionDefinition.validate_obj (name description parameters method inputSchema lazyLoad :
      Json.Tree F) :
    FunctionDefinition.validate c (.obj [(.ofString "name", name),
      (.ofString "description", description), (.ofString "parameters", parameters),
      (.ofString "method", method), (.ofString "input_schema", inputSchema),
      (.ofString "lazy_load", lazyLoad)]) =
    (validateStr name).bind fun name => (validateStr description).bind fun description =>
      (validateDict parameters).bind fun parameters =>
        (nullable validateStr method).bind fun method =>
          (nullable validateDict inputSchema).bind fun inputSchema =>
            (c.bool lazyLoad).bind fun lazyLoad =>
              some ⟨name, description, parameters, method, inputSchema, lazyLoad⟩ := rfl

theorem nullable_ofOption {α : Type} {validate : Json.Tree F → Option α} {value : α → Value F}
    {o : Option α} {n : ℕ} (h : ∀ x ∈ o, wire φ (n + 1) false (value x) ≠ .null ∧
      validate (wire φ (n + 1) false (value x)) = some x) :
    nullable validate (wire φ (n + 1) false (.ofOption value o)) = some o := by
  rcases o with _ | x
  · rw [Value.ofOption, wire]
    rfl
  · obtain ⟨hnull, hread⟩ := h x rfl
    rw [Value.ofOption, nullable, hread]
    · rfl
    · exact hnull

theorem FunctionDefinition.validate_wire_iff (d : FunctionDefinition F) {levels : ℕ}
    (h : Checked φ levels (wire φ levels false d.value)) :
    FunctionDefinition.validate c (wire φ levels false d.value) = some d ↔ d.Unreserved := by
  obtain ⟨n, rfl⟩ := h.pos
  obtain ⟨name, description, parameters, method, inputSchema, lazyLoad⟩ := d
  rw [FunctionDefinition.value, wire, if_neg Bool.false_ne_true, List.append_nil] at h ⊢
  have hitem {p : Str × Value F}
      (hp : p ∈ FunctionDefinition.items ⟨name, description, parameters, method, inputSchema,
        lazyLoad⟩) : Checked φ n (wire φ n false p.2) := h.member (List.mem_map_of_mem hp)
  obtain ⟨k, rfl⟩ := (hitem List.mem_cons_self).pos
  obtain ⟨ms, hms, hiff⟩ := escape_obj parameters
  have hparameters : wire φ (k + 1) false (.ofTree (.obj parameters)) = .obj ms :=
    (wire_ofTree (hitem (p := (.ofString "parameters", _)) (by simp [items]))).trans hms
  have hmethod : nullable validateStr (wire φ (k + 1) false (.ofOption .str method)) =
      some method :=
    nullable_ofOption fun s _ => by
      rw [wire_str]
      exact ⟨(by simp), rfl⟩
  have hschema : ∃ o, nullable validateDict (wire φ (k + 1) false
      (.ofOption (fun s => .ofTree (.obj s)) inputSchema)) = some o ∧
        (o = inputSchema ↔ ∀ s ∈ inputSchema, Protocol.Unreserved (.obj s)) := by
    have hwire := hitem (p := (.ofString "input_schema",
      .ofOption (fun s => .ofTree (.obj s)) inputSchema)) (by simp [items])
    rcases inputSchema with _ | s
    · exact ⟨none, by rw [Value.ofOption, wire]; rfl, by simp⟩
    · obtain ⟨ms', hms', hiff'⟩ := escape_obj s
      refine ⟨some ms', ?_, by simpa using hiff'⟩
      rw [Value.ofOption, (wire_ofTree hwire).trans hms']
      rfl
  obtain ⟨o, ho, hoiff⟩ := hschema
  have hread : FunctionDefinition.validate c (.obj ((items ⟨name, description, parameters, method,
      inputSchema, lazyLoad⟩).map fun p => (p.1, wire φ (k + 1) false p.2))) =
        some ⟨name, description, ms, method, o, lazyLoad⟩ := by
    simp only [items, List.map_cons, List.map_nil, hparameters, wire_str]
    rw [validate_obj, hmethod, ho, wire, c.bool_bool]
    rfl
  rw [hread, Option.some.injEq, FunctionDefinition.mk.injEq, Unreserved, hiff, hoiff]
  simp

/-- The functions of a request are read back if and only if nothing has been escaped. -/
theorem validateFunctionNames_wire_iff (r : WorkerExecutionRequest F) {levels : ℕ}
    (h : Checked φ levels (wire φ levels false (functionNamesValue r.functionNames))) :
    validateFunctionNames c (wire φ levels false (functionNamesValue r.functionNames)) =
      some r.functionNames ↔ r.Unreserved :=
  validate_strDict_iff (fun _ => rfl) (fun _ _ _ ha =>
    validate_strDict_iff (fun _ => rfl) (fun _ _ _ hd =>
      FunctionDefinition.validate_wire_iff _ hd) ha) h

end Hyperforge.Codemode.Protocol
