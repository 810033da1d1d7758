import Hyperforge.Codemode.Relay

/-!
# Legacy results of callbacks

The results of callbacks may be models of applications, which the protocol does not write: they are
sent as dictionaries with their name (`serializeLegacyCallbackResult`). Models of the protocol are
to keep their own form (`Value.documented`). Those with a marker do, but a task is sent as a
dictionary that has its marker, which the encoder escapes, so that the worker reads a dictionary.
And the models within the fields of an application's model are dumped with it, without their names.
So a result is read as documented if and only if it has no task, and no model within one that has no
marker (`relayed_serializeLegacyCallbackResult_iff`).
-/

namespace Hyperforge.Codemode.Protocol

open Json hiding Tree
open Crash

section Legacy

variable {F : Type}

/-- `serialize_legacy_callback_result`, with the number of calls left up to the limit on
    recursion. -/
def serializeLegacyCallbackResult : (calls : ℕ) → Value F → Except SerializeError (Value F)
  | 0, _ => .error .recursionError
  | calls + 1, value =>
    let item := serializeLegacyCallbackResult calls
    match value with
    | .restrictedPythonTask function agent args keywordArgs => do
      let args ← item (.tuple args)
      let keywordArgs ← item (.dict keywordArgs)
      .ok (strDict [(modelKey, .str (.ofString "RestrictedPythonTask")),
        (.ofString "function", .str function), (.ofString "agent", .str agent),
        (.ofString "args", args), (.ofString "keyword_args", keywordArgs)])
    | .model cls items =>
      if cls ∈ ModelClass.marked then .ok (.model cls items)
      else do
        let converted ← mapValues item (Value.dumpFields items)
        .ok (strDict (setItem converted modelKey (.str (.ofString cls.name))))
    | .list items | .tuple items => .list <$> items.mapM item
    | .dict items => .dict <$> mapValues item items
    | value => .ok value

mutual

/-- What is documented to be read of a result: the models of the protocol, and dictionaries of the
    fields of others, with their name. -/
def Value.documented : Value F → Value F
  | .list items => .list (documentedItems items)
  | .tuple items => .tuple (documentedItems items)
  | .dict items => .dict (documentedPairs items)
  | .restrictedPythonTask function agent args keywordArgs =>
    .restrictedPythonTask function agent (documentedItems args) (documentedPairs keywordArgs)
  | .model cls items =>
    if cls ∈ ModelClass.marked then .model cls items
    else strDict (documentedFields items ++ [(modelKey, .str (.ofString cls.name))])
  | .none => .none
  | .bool b => .bool b
  | .int i => .int i
  | .float x => .float x
  | .str s => .str s
  | .rawPlainDict items => .rawPlainDict items
  | .object typeName => .object typeName

def Value.documentedItems : List (Value F) → List (Value F)
  | [] => []
  | x :: xs => documented x :: documentedItems xs

def Value.documentedPairs : List (Key F × Value F) → List (Key F × Value F)
  | [] => []
  | (k, x) :: ps => (k, documented x) :: documentedPairs ps

def Value.documentedFields : List (Str × Value F) → List (Str × Value F)
  | [] => []
  | (k, x) :: ps => (k, documented x) :: documentedFields ps

end

/-- The results of callbacks: JSON, with models at any depth. -/
inductive CallbackResult (φ : FloatFormat F) (π : Pydantic F) : Value F → Prop
  | none : CallbackResult φ π .none
  | bool (b : Bool) : CallbackResult φ π (.bool b)
  | int (i : ℤ) : CallbackResult φ π (.int i)
  | float {x : F} (hx : φ.isFinite x) : CallbackResult φ π (.float x)
  | str (s : Str) : CallbackResult φ π (.str s)
  | list {items : List (Value F)} (h : ∀ x ∈ items, CallbackResult φ π x) :
    CallbackResult φ π (.list items)
  | dict {members : List (Str × Value F)} (hn : (members.map Prod.fst).Nodup)
    (h : ∀ p ∈ members, CallbackResult φ π p.2) : CallbackResult φ π (.dict (strItems members))
  | restrictedPythonTask (function agent : Str) {args : List (Value F)}
    {members : List (Str × Value F)} (ha : ∀ x ∈ args, CallbackResult φ π x)
    (hn : (members.map Prod.fst).Nodup) (h : ∀ p ∈ members, CallbackResult φ π p.2) :
    CallbackResult φ π (.restrictedPythonTask function agent args (strItems members))
  | model {cls : ModelClass} {items : List (Str × Value F)} (hi : π.IsInstance cls items)
    (h : ∀ p ∈ items, CallbackResult φ π p.2) : CallbackResult φ π (.model cls items)

mutual

/-- A value has no model, at any depth. -/
def Value.Modelless : Value F → Prop
  | .list items | .tuple items => ItemsModelless items
  | .dict items | .rawPlainDict items => PairsModelless items
  | .restrictedPythonTask .. | .model .. => False
  | .none | .bool _ | .int _ | .float _ | .str _ | .object _ => True

def Value.ItemsModelless : List (Value F) → Prop
  | [] => True
  | x :: xs => x.Modelless ∧ ItemsModelless xs

def Value.PairsModelless : List (Key F × Value F) → Prop
  | [] => True
  | (_, x) :: ps => x.Modelless ∧ PairsModelless ps

end

mutual

/-- A result has no task, and no model within one that has no marker. -/
def Value.Kept : Value F → Prop
  | .list items | .tuple items => ItemsKept items
  | .dict items | .rawPlainDict items => PairsKept items
  | .restrictedPythonTask .. => False
  | .model cls items => cls ∈ ModelClass.marked ∨ ∀ p ∈ items, p.2.Modelless
  | .none | .bool _ | .int _ | .float _ | .str _ | .object _ => True

def Value.ItemsKept : List (Value F) → Prop
  | [] => True
  | x :: xs => x.Kept ∧ ItemsKept xs

def Value.PairsKept : List (Key F × Value F) → Prop
  | [] => True
  | (_, x) :: ps => x.Kept ∧ PairsKept ps

end

end Legacy

/-! ## What is sent -/

section Outcome

variable {F : Type} {φ : FloatFormat F} {π : Pydantic F} {calls : ℕ}

theorem documentedItems_eq_map (items : List (Value F)) :
    Value.documentedItems items = items.map Value.documented := by
  induction items with
  | nil => rfl
  | cons x xs ih => rw [Value.documentedItems, ih, List.map_cons]

theorem documentedFields_eq_map (items : List (Str × Value F)) :
    Value.documentedFields items = items.map fun p => (p.1, p.2.documented) := by
  induction items with
  | nil => rfl
  | cons p ps ih => rw [Value.documentedFields, ih, List.map_cons]

theorem documentedPairs_strItems (members : List (Str × Value F)) :
    Value.documentedPairs (strItems members) =
      strItems (members.map fun p => (p.1, p.2.documented)) := by
  induction members with
  | nil => rfl
  | cons p ps ih => exact congrArg (List.cons _) ih

theorem itemsModelless_iff {items : List (Value F)} :
    Value.ItemsModelless items ↔ ∀ x ∈ items, x.Modelless := by
  induction items with
  | nil => simp [Value.ItemsModelless]
  | cons x xs ih => simp [Value.ItemsModelless, ih]

theorem pairsModelless_iff {members : List (Str × Value F)} :
    Value.PairsModelless (strItems members) ↔ ∀ p ∈ members, p.2.Modelless := by
  induction members with
  | nil => simp [strItems, Value.PairsModelless]
  | cons p ps ih =>
    rw [List.forall_mem_cons, ← ih]
    rfl

theorem itemsKept_iff {items : List (Value F)} :
    Value.ItemsKept items ↔ ∀ x ∈ items, x.Kept := by
  induction items with
  | nil => simp [Value.ItemsKept]
  | cons x xs ih => simp [Value.ItemsKept, ih]

theorem pairsKept_iff {members : List (Str × Value F)} :
    Value.PairsKept (strItems members) ↔ ∀ p ∈ members, p.2.Kept := by
  induction members with
  | nil => simp [strItems, Value.PairsKept]
  | cons p ps ih =>
    rw [List.forall_mem_cons, ← ih]
    rfl

theorem strItems_injective : Function.Injective (strItems : List (Str × Value F) → _) :=
  List.map_injective_iff.2 fun p q h => by
    obtain ⟨hkey, hvalue⟩ := Prod.mk.inj h
    exact Prod.ext (Key.str.inj hkey) hvalue

theorem map_id_snd {α : Type} (members : List (Str × α)) :
    (members.map fun p => (p.1, id p.2)) = members := List.map_id members

theorem mapValues_eq_ok {κ α β ε : Type} {f : α → Except ε β} {ps : List (κ × α)}
    {qs : List (κ × β)} : mapValues f ps = .ok qs ↔
      List.Forall₂ (fun p q => p.1 = q.1 ∧ f p.2 = .ok q.2) ps qs := by
  induction ps generalizing qs with
  | nil => simp [mapValues, eq_comm]
  | cons p ps ih =>
    rw [mapValues]
    constructor
    · intro h
      obtain ⟨y, hy, h⟩ := bind_eq_ok.1 h
      obtain ⟨rest, hrest, h⟩ := bind_eq_ok.1 h
      cases h
      exact .cons ⟨rfl, hy⟩ (ih.1 hrest)
    · rintro (_ | ⟨⟨hkey, hy⟩, hrest⟩)
      exact bind_eq_ok.2 ⟨_, hy, bind_eq_ok.2 ⟨_, ih.2 hrest, by rw [hkey]⟩⟩

/-- What a value is serialized as is a result, which is the one documented for another if and only
    if `P` holds. -/
def Outcome (φ : FloatFormat F) (π : Pydantic F) (calls : ℕ) (value original : Value F) (P : Prop) :
    Prop :=
  ∀ w, serializeLegacyCallbackResult calls value = .ok w →
    CallbackResult φ π w ∧ (w = original.documented ↔ P)

theorem outcome_zero {value original : Value F} {P : Prop} : Outcome φ π 0 value original P := by
  intro w hw
  cases hw

theorem Outcome.imp {value original : Value F} {P Q : Prop} (h : Outcome φ π calls value original P)
    (hPQ : P ↔ Q) : Outcome φ π calls value original Q :=
  fun w hw => ⟨(h w hw).1, (h w hw).2.trans hPQ⟩

theorem outcome_scalar {value : Value F} (hvalue : CallbackResult φ π value)
    (hw : serializeLegacyCallbackResult (calls + 1) value = .ok value)
    (hdocumented : value.documented = value) : Outcome φ π (calls + 1) value value True := by
  intro w h
  cases hw.symm.trans h
  exact ⟨hvalue, iff_of_true hdocumented.symm trivial⟩

theorem outcome_mapM {g : Value F → Value F} {P : Value F → Prop} {items ws : List (Value F)}
    (h : ∀ x ∈ items, Outcome φ π calls (g x) x (P x))
    (hws : (items.map g).mapM (serializeLegacyCallbackResult calls) = .ok ws) :
    (∀ w ∈ ws, CallbackResult φ π w) ∧
      (ws = items.map Value.documented ↔ ∀ x ∈ items, P x) := by
  have hrel := List.forall₂_map_left_iff.1 (mapM_eq_ok.1 hws)
  clear hws
  induction hrel with
  | nil => simp
  | cons hw _ ih =>
    obtain ⟨hresult, hiff⟩ := h _ List.mem_cons_self _ hw
    obtain ⟨hresults, hiffs⟩ := ih fun x hx => h x (List.mem_cons_of_mem _ hx)
    refine ⟨List.forall_mem_cons.2 ⟨hresult, hresults⟩, ?_⟩
    rw [List.map_cons, List.cons.injEq, hiff, hiffs, List.forall_mem_cons]

theorem outcome_mapValues {g : Value F → Value F} {P : Value F → Prop}
    {members qs : List (Str × Value F)} (h : ∀ p ∈ members, Outcome φ π calls (g p.2) p.2 (P p.2))
    (hqs : mapValues (serializeLegacyCallbackResult calls) (members.map fun p => (p.1, g p.2)) =
      .ok qs) :
    qs.map Prod.fst = members.map Prod.fst ∧ (∀ q ∈ qs, CallbackResult φ π q.2) ∧
      (qs = (members.map fun p => (p.1, p.2.documented)) ↔ ∀ p ∈ members, P p.2) := by
  have hrel := List.forall₂_map_left_iff.1 (mapValues_eq_ok.1 hqs)
  clear hqs
  induction hrel with
  | nil => simp
  | cons hw _ ih =>
    obtain ⟨hkey, hw⟩ := hw
    obtain ⟨hresult, hiff⟩ := h _ List.mem_cons_self _ hw
    obtain ⟨hkeys, hresults, hiffs⟩ := ih fun p hp => h p (List.mem_cons_of_mem _ hp)
    refine ⟨by rw [List.map_cons, List.map_cons, hkeys, ← hkey],
      List.forall_mem_cons.2 ⟨hresult, hresults⟩, ?_⟩
    rw [List.map_cons, List.cons.injEq, hiffs, List.forall_mem_cons, ← hiff, Prod.ext_iff]
    exact and_congr_left' (and_iff_right hkey.symm)

theorem Outcome.list {g : Value F → Value F} {P : Value F → Prop} {items : List (Value F)}
    (h : ∀ x ∈ items, Outcome φ π calls (g x) x (P x)) :
    Outcome φ π (calls + 1) (.list (items.map g)) (.list items) (∀ x ∈ items, P x) := by
  intro w hw
  obtain ⟨ws, hws, rfl⟩ := map_eq_ok.1 hw
  obtain ⟨hresults, hiff⟩ := outcome_mapM h hws
  rw [Value.documented, documentedItems_eq_map, Value.list.injEq]
  exact ⟨.list hresults, hiff⟩

/-- The arguments of a task are sent as a list. -/
theorem Outcome.tuple {g : Value F → Value F} {P : Value F → Prop} {items : List (Value F)}
    (h : ∀ x ∈ items, Outcome φ π calls (g x) x (P x)) :
    Outcome φ π (calls + 1) (.tuple (items.map g)) (.list items) (∀ x ∈ items, P x) :=
  Outcome.list h

theorem Outcome.dict {g : Value F → Value F} {P : Value F → Prop} {members : List (Str × Value F)}
    (hn : (members.map Prod.fst).Nodup) (h : ∀ p ∈ members, Outcome φ π calls (g p.2) p.2 (P p.2)) :
    Outcome φ π (calls + 1) (.dict (strItems (members.map fun p => (p.1, g p.2))))
      (.dict (strItems members)) (∀ p ∈ members, P p.2) := by
  intro w hw
  obtain ⟨_, hps, rfl⟩ := map_eq_ok.1 hw
  obtain ⟨qs, hqs, rfl⟩ := mapValues_strItems hps
  obtain ⟨hkeys, hresults, hiff⟩ := outcome_mapValues h hqs
  rw [Value.documented, documentedPairs_strItems, Value.dict.injEq, strItems_injective.eq_iff]
  exact ⟨.dict (hkeys ▸ hn) hresults, hiff⟩

/-- What is not a dictionary is never read as documented if a dictionary is sent. -/
theorem Outcome.differs {value dictionary original : Value F} {P : Prop}
    (h : Outcome φ π calls value dictionary P)
    (hne : ∀ w, serializeLegacyCallbackResult calls value = .ok w → w ≠ original.documented) :
    Outcome φ π calls value original False :=
  fun w hw => ⟨(h w hw).1, iff_false_intro (hne w hw)⟩

/-- The fields of a task. -/
def taskFields (function agent : Str) (args keywordArgs : Value F) : List (Str × Value F) :=
  [(.ofString "function", .str function), (.ofString "agent", .str agent),
    (.ofString "args", args), (.ofString "keyword_args", keywordArgs)]

theorem taskFields_nodup (function agent : Str) (args keywordArgs : Value F) :
    ((taskFields function agent args keywordArgs).map Prod.fst).Nodup :=
  (by decide : [(.ofString "function" : Str), .ofString "agent", .ofString "args",
    .ofString "keyword_args"].Nodup)

/-- A value is sent as it is documented. -/
def SentAsDocumented (calls : ℕ) (value : Value F) : Prop :=
  serializeLegacyCallbackResult calls value = .ok value.documented

theorem Outcome.self {value original : Value F} {P : Prop}
    (h : Outcome φ π calls value original P) :
    Outcome φ π calls value value (SentAsDocumented calls value) := by
  refine fun w hw => ⟨(h w hw).1, fun heq => hw.trans (congrArg _ heq), fun hsent => ?_⟩
  exact Except.ok.inj (hw.symm.trans hsent)

/-- A dictionary of values that are sent. -/
theorem CallbackResult.of_dict {members : List (Str × Value F)} (hn : (members.map Prod.fst).Nodup)
    (h : ∀ p ∈ members, ∃ original P, Outcome φ π calls p.2 original P) {w : Value F}
    (hw : serializeLegacyCallbackResult (calls + 1) (.dict (strItems members)) = .ok w) :
    CallbackResult φ π w := by
  have hself (p : Str × Value F) (hp : p ∈ members) :
      Outcome φ π calls (id p.2) p.2 (SentAsDocumented calls p.2) := by
    obtain ⟨original, P, hp⟩ := h p hp
    exact hp.self
  have hdict := Outcome.dict hn hself
  rw [map_id_snd] at hdict
  exact (hdict w hw).1

theorem dictionary_of_serializeLegacy {items : List (Key F × Value F)} {w : Value F}
    (h : serializeLegacyCallbackResult calls (.dict items) = .ok w) : ∃ ps, w = .dict ps := by
  rcases calls with _ | calls
  · cases h
  · obtain ⟨ps, -, rfl⟩ := map_eq_ok.1 h
    exact ⟨ps, rfl⟩

/-- A field of a model is sent as it is dumped, which is what is documented if and only if it has
    no model. -/
theorem CallbackResult.outcome_modelDump {value : Value F} (h : CallbackResult φ π value) :
    ∀ calls, Outcome φ π calls value.modelDump value value.Modelless := by
  induction h with
  | none | bool b | int i | str s =>
    rintro (_ | calls)
    · exact outcome_zero
    · exact outcome_scalar (by constructor) rfl rfl
  | float hx =>
    rintro (_ | calls)
    · exact outcome_zero
    · exact outcome_scalar (.float hx) rfl rfl
  | list _ ih =>
    rintro (_ | calls)
    · exact outcome_zero
    · rw [Value.modelDump, dumpItems_eq_map]
      exact (Outcome.list fun x hx => ih x hx calls).imp itemsModelless_iff.symm
  | dict hn _ ih =>
    rintro (_ | calls)
    · exact outcome_zero
    · rw [Value.modelDump, dumpPairs_strItems]
      exact (Outcome.dict hn fun p hp => ih p hp calls).imp pairsModelless_iff.symm
  | restrictedPythonTask function agent _ hn _ iha ih =>
    rename_i args members _ _
    rintro (_ | _ | calls)
    · exact outcome_zero
    · intro w hw
      cases hw
    have hargs := Outcome.tuple fun x hx => iha x hx calls
    have hkeywordArgs := Outcome.dict hn fun p hp => ih p hp calls
    rw [Value.modelDump, dumpItems_eq_map, dumpPairs_strItems]
    intro w hw
    have hn := taskFields_nodup function agent (.tuple (args.map Value.modelDump))
      (.dict (strItems (members.map fun p => (p.1, p.2.modelDump))))
    refine ⟨.of_dict hn ?_ hw, iff_of_false (fun heq => ?_) id⟩
    · simp only [taskFields, List.forall_mem_cons]
      exact ⟨⟨_, _, outcome_scalar (.str function) rfl rfl⟩,
        ⟨_, _, outcome_scalar (.str agent) rfl rfl⟩, ⟨_, _, hargs⟩, ⟨_, _, hkeywordArgs⟩,
        fun p hp => absurd hp List.not_mem_nil⟩
    · obtain ⟨ps, rfl⟩ := dictionary_of_serializeLegacy hw
      cases heq
  | model hi h ih =>
    rename_i cls items
    rintro (_ | calls)
    · exact outcome_zero
    · have hdict := Outcome.dict (π.nodup hi) fun p hp => ih p hp calls
      rw [Value.modelDump, dumpFields_eq_map]
      refine hdict.differs fun w hw heq => ?_
      obtain ⟨_, hps, rfl⟩ := map_eq_ok.1 hw
      obtain ⟨qs, hqs, rfl⟩ := mapValues_strItems hps
      obtain ⟨hkeys, -⟩ := outcome_mapValues (fun p hp => ih p hp calls) hqs
      rw [Value.documented, documentedFields_eq_map] at heq
      split_ifs at heq
      -- the name of the model is missing
      have hlength := congrArg List.length (strItems_injective (Value.dict.inj heq))
      have hlengths := congrArg List.length hkeys
      simp only [List.length_map, List.length_append, List.length_singleton] at hlength hlengths
      omega

theorem setItem_of_notMem {α : Type} {d : List (Str × α)} {k : Str} {x : α}
    (h : k ∉ d.map Prod.fst) : setItem d k x = d ++ [(k, x)] := if_neg h

/-- A model without a marker is sent as a dictionary of its dumped fields, with its name. -/
theorem outcome_model {cls : ModelClass} {items : List (Str × Value F)}
    (hi : π.IsInstance cls items) (h : ∀ p ∈ items, CallbackResult φ π p.2)
    (hcls : cls ∉ ModelClass.marked) :
    Outcome φ π (calls + 1) (.model cls items) (.model cls items)
      (∀ p ∈ items, p.2.Modelless) := by
  intro w hw
  rw [serializeLegacyCallbackResult, if_neg hcls, dumpFields_eq_map] at hw
  obtain ⟨qs, hqs, hw⟩ := bind_eq_ok.1 hw
  cases hw
  obtain ⟨hkeys, hresults, hiff⟩ :=
    outcome_mapValues (fun p hp => (h p hp).outcome_modelDump calls) hqs
  have hmarker : modelKey ∉ qs.map Prod.fst := hkeys ▸ π.noMarker hi
  rw [setItem_of_notMem hmarker, Value.documented, if_neg hcls, documentedFields_eq_map]
  constructor
  · refine .dict ?_ fun p hp => ?_
    · rw [List.map_append, List.map_singleton, ← List.concat_eq_append, List.nodup_concat]
      exact ⟨hmarker, hkeys ▸ π.nodup hi⟩
    · rcases List.mem_append.1 hp with hp | hp
      · exact hresults p hp
      · rw [List.mem_singleton.1 hp]
        exact .str _
  · rw [← hiff]
    refine ⟨fun heq => ?_, fun heq => congrArg (fun ps => strDict (ps ++ _)) heq⟩
    exact List.append_cancel_right (strItems_injective (Value.dict.inj heq))

/-- A result is sent as documented if and only if it has no task, and no model within one that has
    no marker. -/
theorem CallbackResult.outcome {value : Value F} (h : CallbackResult φ π value) :
    ∀ calls, Outcome φ π calls value value value.Kept := by
  induction h with
  | none | bool b | int i | str s =>
    rintro (_ | calls)
    · exact outcome_zero
    · exact outcome_scalar (by constructor) rfl rfl
  | float hx =>
    rintro (_ | calls)
    · exact outcome_zero
    · exact outcome_scalar (.float hx) rfl rfl
  | list _ ih =>
    rename_i items _
    rintro (_ | calls)
    · exact outcome_zero
    · have hlist := (Outcome.list (g := id) fun x hx => ih x hx calls).imp itemsKept_iff.symm
      rwa [List.map_id] at hlist
  | dict hn _ ih =>
    rintro (_ | calls)
    · exact outcome_zero
    · have hdict := (Outcome.dict (g := id) hn fun p hp => ih p hp calls).imp pairsKept_iff.symm
      rwa [map_id_snd] at hdict
  | restrictedPythonTask function agent _ hn _ iha ih =>
    rename_i args members _ _
    rintro (_ | _ | calls)
    · exact outcome_zero
    · intro w hw
      cases hw
    intro w hw
    obtain ⟨args', hargs', hw⟩ := bind_eq_ok.1 hw
    obtain ⟨keywordArgs', hkeywordArgs', hw⟩ := bind_eq_ok.1 hw
    cases hw
    have hargs := Outcome.tuple (g := id) fun x hx => iha x hx calls
    rw [List.map_id] at hargs
    refine ⟨.dict taskKeys_nodup ?_, iff_of_false (fun heq => ?_) id⟩
    · simp only [List.forall_mem_cons]
      exact ⟨.str _, .str _, .str _, (hargs _ hargs').1,
        .of_dict hn (fun p hp => ⟨_, _, ih p hp calls⟩) hkeywordArgs',
        fun p hp => absurd hp List.not_mem_nil⟩
    · cases heq
  | model hi h ih =>
    rename_i cls items
    rintro (_ | calls)
    · exact outcome_zero
    by_cases hcls : cls ∈ ModelClass.marked
    · refine (outcome_scalar (.model hi h) ?_ ?_).imp (iff_of_true trivial (.inl hcls))
      · exact if_pos hcls
      · exact if_pos hcls
    · exact (outcome_model hi h hcls).imp (or_iff_right hcls).symm

end Outcome

/-! ## Recursion -/

section Terminates

variable {F : Type} {φ : FloatFormat F} {π : Pydantic F}

/-- A value is serialized if enough calls are left. -/
def Terminates (value : Value F) : Prop :=
  ∃ n, ∀ calls, n ≤ calls → ∃ w, serializeLegacyCallbackResult calls value = .ok w

/-- If each of some items needs calls, so many calls are enough for all. -/
theorem exists_calls {α : Type} {P : ℕ → α → Prop} {xs : List α}
    (h : ∀ x ∈ xs, ∃ n, ∀ calls, n ≤ calls → P calls x) :
    ∃ n, ∀ calls, n ≤ calls → ∀ x ∈ xs, P calls x := by
  induction xs with
  | nil => exact ⟨0, fun _ _ x hx => absurd hx List.not_mem_nil⟩
  | cons x xs ih =>
    obtain ⟨n, hn⟩ := h x List.mem_cons_self
    obtain ⟨k, hk⟩ := ih fun y hy => h y (List.mem_cons_of_mem _ hy)
    refine ⟨max n k, fun calls hle => List.forall_mem_cons.2 ⟨?_, ?_⟩⟩
    · exact hn calls ((le_max_left n k).trans hle)
    · exact hk calls ((le_max_right n k).trans hle)

theorem exists_mapValues {κ α β ε : Type} {f : α → Except ε β} {ps : List (κ × α)}
    (h : ∀ p ∈ ps, ∃ w, f p.2 = .ok w) : ∃ qs, mapValues f ps = .ok qs := by
  induction ps with
  | nil => exact ⟨[], rfl⟩
  | cons p ps ih =>
    obtain ⟨w, hw⟩ := h p List.mem_cons_self
    obtain ⟨qs, hqs⟩ := ih fun q hq => h q (List.mem_cons_of_mem _ hq)
    exact ⟨(p.1, w) :: qs, mapValues_eq_ok.2 (.cons ⟨rfl, hw⟩ (mapValues_eq_ok.1 hqs))⟩

theorem terminates_scalar {value w : Value F}
    (h : ∀ calls, serializeLegacyCallbackResult (calls + 1) value = .ok w) : Terminates value := by
  refine ⟨1, fun calls hle => ?_⟩
  obtain ⟨k, rfl⟩ := Nat.exists_eq_add_of_le' hle
  exact ⟨w, h k⟩

theorem terminates_list {items : List (Value F)} (h : ∀ x ∈ items, Terminates x) :
    Terminates (.list items) ∧ Terminates (.tuple items) := by
  obtain ⟨n, hn⟩ := exists_calls h
  have hlist (calls : ℕ) (hle : n + 1 ≤ calls) :
      ∃ w, serializeLegacyCallbackResult calls (.list items) = .ok w := by
    obtain ⟨k, rfl⟩ := Nat.exists_eq_add_of_le' (Nat.le_of_add_left_le hle)
    obtain ⟨ws, hws⟩ := exists_mapM_iff.2 (hn k (by omega))
    exact ⟨_, map_eq_ok.2 ⟨ws, hws, rfl⟩⟩
  refine ⟨⟨n + 1, hlist⟩, n + 1, fun calls hle => ?_⟩
  obtain ⟨w, hw⟩ := hlist calls hle
  obtain ⟨k, rfl⟩ := Nat.exists_eq_add_of_le' (Nat.le_of_add_left_le hle)
  exact ⟨w, hw⟩

theorem terminates_dict {items : List (Key F × Value F)} (h : ∀ p ∈ items, Terminates p.2) :
    Terminates (.dict items) := by
  obtain ⟨n, hn⟩ := exists_calls h
  refine ⟨n + 1, fun calls hle => ?_⟩
  obtain ⟨k, rfl⟩ := Nat.exists_eq_add_of_le' (Nat.le_of_add_left_le hle)
  obtain ⟨qs, hqs⟩ := exists_mapValues (hn k (by omega))
  exact ⟨_, map_eq_ok.2 ⟨qs, hqs, rfl⟩⟩

theorem terminates_strItems {g : Value F → Value F} {members : List (Str × Value F)}
    (h : ∀ p ∈ members, Terminates (g p.2)) :
    Terminates (.dict (strItems (members.map fun p => (p.1, g p.2)))) := by
  refine terminates_dict ?_
  rw [strItems, List.map_map]
  exact List.forall_mem_map.2 h

theorem CallbackResult.terminates_modelDump {value : Value F} (h : CallbackResult φ π value) :
    Terminates value.modelDump := by
  induction h with
  | none | bool b | int i | float hx | str s => exact terminates_scalar fun _ => rfl
  | list _ ih =>
    rw [Value.modelDump, dumpItems_eq_map]
    exact (terminates_list (List.forall_mem_map.2 ih)).1
  | dict _ _ ih =>
    rw [Value.modelDump, dumpPairs_strItems]
    exact terminates_strItems ih
  | restrictedPythonTask function agent _ _ _ iha ih =>
    rw [Value.modelDump, dumpItems_eq_map, dumpPairs_strItems]
    refine terminates_dict ?_
    simp only [List.forall_mem_cons]
    exact ⟨terminates_scalar fun _ => rfl, terminates_scalar fun _ => rfl,
      (terminates_list (List.forall_mem_map.2 iha)).2, terminates_strItems ih,
      fun p hp => absurd hp List.not_mem_nil⟩
  | model _ _ ih =>
    rw [Value.modelDump, dumpFields_eq_map]
    exact terminates_strItems ih

/-- A result is serialized if enough calls are left. -/
theorem CallbackResult.terminates {value : Value F} (h : CallbackResult φ π value) :
    Terminates value := by
  induction h with
  | none | bool b | int i | float hx | str s => exact terminates_scalar fun _ => rfl
  | list _ ih => exact (terminates_list ih).1
  | dict _ _ ih =>
    have hdict := terminates_strItems (g := id) ih
    rwa [map_id_snd] at hdict
  | restrictedPythonTask function agent _ _ _ iha ih =>
    obtain ⟨n, hn⟩ := (terminates_list iha).2
    have hdict := terminates_strItems (g := id) ih
    rw [map_id_snd] at hdict
    obtain ⟨k, hk⟩ := hdict
    refine ⟨max n k + 1, fun calls hle => ?_⟩
    obtain ⟨j, rfl⟩ := Nat.exists_eq_add_of_le' (Nat.le_of_add_left_le hle)
    obtain ⟨args', hargs⟩ := hn j (by omega)
    obtain ⟨keywordArgs', hkeywordArgs⟩ := hk j (by omega)
    exact ⟨_, bind_eq_ok.2 ⟨args', hargs, bind_eq_ok.2 ⟨keywordArgs', hkeywordArgs, rfl⟩⟩⟩
  | model _ h _ =>
    rename_i cls items _ _
    by_cases hcls : cls ∈ ModelClass.marked
    · exact terminates_scalar fun _ => if_pos hcls
    obtain ⟨n, hn⟩ := exists_calls fun p hp => (h p hp).terminates_modelDump
    refine ⟨n + 1, fun calls hle => ?_⟩
    obtain ⟨j, rfl⟩ := Nat.exists_eq_add_of_le' (Nat.le_of_add_left_le hle)
    rw [serializeLegacyCallbackResult, if_neg hcls, dumpFields_eq_map]
    have hfields : ∀ p ∈ items.map fun p => (p.1, p.2.modelDump),
        ∃ w, serializeLegacyCallbackResult j p.2 = .ok w :=
      List.forall_mem_map.2 (hn j (by omega))
    obtain ⟨qs, hqs⟩ := exists_mapValues hfields
    exact ⟨_, bind_eq_ok.2 ⟨qs, hqs, rfl⟩⟩

end Terminates

/-! ## What is read -/

section Read

variable {F : Type} {φ : FloatFormat F} {π : Pydantic F} {c : Conversions F}

theorem CallbackResult.transferable {value : Value F} (h : CallbackResult φ π value) :
    Transferable φ π value := by
  induction h with
  | none => exact .none
  | bool b => exact .bool b
  | int i => exact .int i
  | float hx => exact .float hx
  | str s => exact .str s
  | list _ ih => exact .list ih
  | dict hn _ ih => exact .dict hn ih
  | restrictedPythonTask function agent _ hn _ iha ih =>
    exact .restrictedPythonTask function agent iha hn ih
  | model hi _ ih => exact .model hi ih

theorem map_snd_eq_self {α β : Type} {f : β → β} {ps : List (α × β)}
    (h : ∀ p ∈ ps, f p.2 = p.2) : (ps.map fun p => (p.1, f p.2)) = ps :=
  map_eq_self_iff.2 fun p hp => Prod.ext rfl (h p hp)

/-- The sequences of a result are lists, but for the arguments of tasks. -/
theorem CallbackResult.untuple_eq {value : Value F} (h : CallbackResult φ π value) :
    value.untuple = value := by
  have hitems {members : List (Str × Value F)} (ih : ∀ p ∈ members, p.2.untuple = p.2) :
      ((strItems members).map fun p => (p.1, p.2.untuple)) = strItems members :=
    map_snd_eq_self (List.forall_mem_map.2 ih)
  induction h with
  | none | bool b | int i | float hx | str s => simp [Value.untuple]
  | list _ ih => rw [Value.untuple, map_eq_self_iff.2 ih]
  | dict _ _ ih => rw [Value.untuple, hitems ih]
  | restrictedPythonTask function agent _ _ _ iha ih =>
    rw [Value.untuple, map_eq_self_iff.2 iha, hitems ih]
  | model _ _ ih => rw [Value.untuple, map_snd_eq_self ih]

/-- A result that is serialized and sent is read as documented if and only if it has no task, and no
    model within one that has no marker. -/
theorem relayed_serializeLegacyCallbackResult_iff (hπ : π.Revalidates) {value : Value F}
    (hvalue : CallbackResult φ π value) :
    (∃ n, ∀ calls, n ≤ calls → ∃ w, serializeLegacyCallbackResult calls value = .ok w) ∧
      ∀ calls w encoded, serializeLegacyCallbackResult calls value = .ok w →
        encodeSandboxMessage φ π maxPacketBytes (.response w) "Sandbox message" = .ok encoded →
        (relayed φ π c w = .ok value.documented ↔ value.Kept) := by
  refine ⟨hvalue.terminates, fun calls w encoded hw hencoded => ?_⟩
  obtain ⟨hresult, hiff⟩ := hvalue.outcome calls w hw
  have hrelayed : relayed φ π c w = .ok w :=
    relayed_eq_ok hπ hresult.transferable hresult.untuple_eq hencoded
  rw [hrelayed, Except.ok.injEq]
  exact hiff

end Read

/-- Models of any class, whose only field is a text. -/
def textModels : Pydantic Bool where
  hasSerializers _ := false
  IsInstance _ items := ∃ s, items = [(.ofString "text", .str s)]
  validate cls items := .ok (.model cls items)
  nodup := by
    rintro _ _ ⟨s, rfl⟩
    exact List.nodup_singleton _
  noMarker := by
    rintro _ _ ⟨s, rfl⟩
    rw [List.map_singleton, List.mem_singleton]
    exact modelKey_ne_text

theorem textModels_revalidates : textModels.Revalidates := by
  rintro cls hcls _ ⟨s, rfl⟩
  simp [textModels, Value.payload, Value.untuple]

/-- A model with a text. -/
def textModel (cls : ModelClass) : Value Bool :=
  .model cls [(.ofString "text", .str (.ofString "a"))]

theorem textModel_result (cls : ModelClass) :
    CallbackResult half textModels (textModel cls) :=
  .model ⟨_, rfl⟩ (List.forall_mem_singleton.2 (.str _))

/-- What an application's model is sent as. -/
def applicationResult : Value Bool :=
  strDict [(.ofString "text", .str (.ofString "a")),
    (modelKey, .str (.ofString "ApplicationResult"))]

theorem applicationResult_isOk : (encodeSandboxMessage half textModels maxPacketBytes
    (.response (.list [textModel .context, applicationResult])) "Sandbox message").isOk := by
  decide +kernel

/-- An application's model is read as a dictionary with its name, and a model of the protocol as it
    is. -/
theorem relayed_models :
    serializeLegacyCallbackResult 8
      (.list [textModel .context, textModel (.other "ApplicationResult")]) =
        .ok (.list [textModel .context, applicationResult]) ∧
    relayed half textModels strictly (.list [textModel .context, applicationResult]) =
      .ok (.list [textModel .context, applicationResult]) := by
  have hvalue : CallbackResult half textModels
      (.list [textModel .context, textModel (.other "ApplicationResult")]) :=
    .list (List.forall_mem_cons.2
      ⟨textModel_result _, List.forall_mem_singleton.2 (textModel_result _)⟩)
  have hkept : (Value.list [textModel .context, textModel (.other "ApplicationResult")]).Kept :=
    ⟨.inl (by decide), .inr (List.forall_mem_singleton.2 trivial), trivial⟩
  obtain ⟨encoded, hencoded⟩ := exists_of_isOk applicationResult_isOk
  exact ⟨rfl, ((relayed_serializeLegacyCallbackResult_iff textModels_revalidates hvalue).2 8 _
    encoded rfl hencoded).2 hkept⟩

/-- A task without arguments. -/
def emptyTask : Value Bool := .restrictedPythonTask (.ofString "f") (.ofString "a") [] []

/-- What it is sent as. -/
def taskResult : Value Bool :=
  strDict [(modelKey, .str (.ofString "RestrictedPythonTask")),
    (.ofString "function", .str (.ofString "f")), (.ofString "agent", .str (.ofString "a")),
    (.ofString "args", .list []), (.ofString "keyword_args", .dict [])]

theorem taskResult_isOk : (encodeSandboxMessage half textModels maxPacketBytes
    (.response taskResult) "Sandbox message").isOk := by
  decide +kernel

/-- A task is read as a dictionary. -/
theorem relayed_task : CallbackResult half textModels emptyTask ∧
    serializeLegacyCallbackResult 8 emptyTask = .ok taskResult ∧
    (∃ encoded, encodeSandboxMessage half textModels maxPacketBytes (.response taskResult)
      "Sandbox message" = .ok encoded) ∧
    relayed half textModels strictly taskResult = .ok taskResult ∧
    taskResult ≠ emptyTask.documented := by
  have hn : (([] : List (Str × Value Bool)).map Prod.fst).Nodup := List.nodup_nil
  have hvalue : CallbackResult half textModels emptyTask :=
    .restrictedPythonTask _ _ (List.forall_mem_nil _) hn (List.forall_mem_nil _)
  obtain ⟨encoded, hencoded⟩ := exists_of_isOk taskResult_isOk
  have hresult := (hvalue.outcome 8 taskResult rfl).1
  have hrelayed : relayed half textModels strictly taskResult = .ok taskResult :=
    relayed_eq_ok textModels_revalidates hresult.transferable hresult.untuple_eq hencoded
  refine ⟨hvalue, rfl, ⟨encoded, hencoded⟩, hrelayed, fun heq => ?_⟩
  cases heq

end Hyperforge.Codemode.Protocol
