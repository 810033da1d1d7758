import Hyperforge.Codemode.RunMessages

/-!
# Streamed and plain messages

A message that is streamed is the same JSON as the plain one, but for requests to run code: those
are read back alike if and only if no dictionary in their functions has the key `__model__`
(`streams_alike_iff`). A plain request has its functions as they are, and is always read back.
-/

namespace Hyperforge.Codemode.Protocol

open Json hiding Tree

section

variable {F : Type} {φ : FloatFormat F} {π : Pydantic F} {c : Conversions F}

/-! ## Plain functions -/

theorem modelDump_ofTree (x : Json.Tree F) : (Value.ofTree x).modelDump = .ofTree x := by
  induction x using Json.Tree.induction with
  | null | bool b | int i | float x | str s => rw [Value.ofTree, Value.modelDump]
  | arr items ih =>
    rw [Value.ofTree, Value.modelDump, dumpItems_eq_map, ofItems_eq_map, List.map_map]
    exact congrArg _ (List.map_congr_left ih)
  | obj members ih =>
    rw [Value.ofTree, Value.modelDump, ofMembers_eq, dumpPairs_strItems, List.map_map]
    exact congrArg (fun ms => Value.dict (strItems ms))
      (List.map_congr_left fun p hp => Prod.ext rfl (ih p hp))

theorem jsonMembers_map {α : Type} {value : α → Value F} {tree : α → Json.Tree F}
    {ms : List (Str × α)} (h : ∀ p ∈ ms, (value p.2).json φ = some (tree p.2)) :
    Value.jsonMembers φ (strItems (ms.map fun p => (p.1, value p.2))) =
      some (ms.map fun p => (p.1, tree p.2)) := by
  induction ms with
  | nil => rfl
  | cons p ms ih =>
    exact jsonMembers_cons p.1 (h p List.mem_cons_self)
      (ih fun q hq => h q (List.mem_cons_of_mem _ hq))

theorem json_strDict_map {α : Type} (value : α → Value F) (tree : α → Json.Tree F)
    {ms : List (Str × α)} (hn : (ms.map Prod.fst).Nodup)
    (h : ∀ p ∈ ms, (value p.2).json φ = some (tree p.2)) :
    (strDict (ms.map fun p => (p.1, value p.2))).json φ =
      some (.obj (ms.map fun p => (p.1, tree p.2))) :=
  json_strDict (jsonMembers_map h) (by rwa [map_fst_map])

theorem json_ofTree {x : Json.Tree F} (hx : x.WellFormed φ maxDigits) :
    (Value.ofTree x).json φ = some x := by
  induction x using Json.Tree.induction with
  | null | bool b | float x | str s => rw [Value.ofTree, Value.json]
  | int i => rw [Value.ofTree, Value.json, if_neg (Nat.not_lt.2 hx)]
  | arr items ih =>
    rw [Json.Tree.WellFormed, itemsWellFormed_iff] at hx
    have hitems : ∀ {xs : List (Json.Tree F)}, xs ⊆ items →
        Value.jsonItems φ (xs.map .ofTree) = some xs := by
      intro xs hxs
      induction xs with
      | nil => rfl
      | cons x xs ihxs =>
        obtain ⟨hmem, hxs⟩ := List.cons_subset.1 hxs
        rw [List.map_cons, Value.jsonItems, ih x hmem (hx x hmem), ihxs hxs]
        rfl
    rw [Value.ofTree, Value.json, ofItems_eq_map, hitems (List.Subset.refl _)]
    rfl
  | obj members ih =>
    rw [Json.Tree.WellFormed, membersWellFormed_iff] at hx
    rw [Value.ofTree, ofMembers_eq]
    have hmembers : (strDict (members.map fun p => (p.1, .ofTree p.2))).json φ =
        some (.obj (members.map fun p => (p.1, id p.2))) :=
      json_strDict_map .ofTree id hx.1 fun p hp => ih p hp (hx.2 p hp)
    exact hmembers.trans (congrArg (fun ms => some (Json.Tree.obj ms)) (List.map_id _))

/-- What has been escaped is no more than what there was. -/
theorem wellFormed_of_escape {x : Json.Tree F} {n : ℕ} (hx : (escape x).WellFormed φ n) :
    x.WellFormed φ n := by
  induction x using Json.Tree.induction with
  | null | bool b | int i | float x | str s => exact hx
  | arr items ih =>
    rw [escape, escapeItems_eq_map, Json.Tree.WellFormed, itemsWellFormed_iff,
      List.forall_mem_map] at hx
    rw [Json.Tree.WellFormed, itemsWellFormed_iff]
    exact fun x hm => ih x hm (hx x hm)
  | obj members ih =>
    have hmembers : (Json.Tree.obj (escapeMembers members)).WellFormed φ n := by
      rw [escape] at hx
      split_ifs at hx
      · rw [Json.Tree.WellFormed, membersWellFormed_iff] at hx
        exact hx.2 (.ofString "value", _) (by simp)
      · exact hx
    rw [escapeMembers_eq_map, Json.Tree.WellFormed, membersWellFormed_iff, map_fst_map,
      List.forall_mem_map] at hmembers
    rw [Json.Tree.WellFormed, membersWellFormed_iff]
    exact ⟨hmembers.1, fun p hp => ih p hp (hmembers.2 p hp)⟩

/-- The values of a dictionary pass the checks with it, at some depth. -/
theorem Checked.strDict {ms : List (Str × Value F)} {levels : ℕ}
    (h : Checked φ levels (wire φ levels false (strDict ms))) :
    ∀ p ∈ ms, ∃ n, Checked φ n (wire φ n false p.2) := by
  intro p hp
  obtain ⟨n, rfl⟩ := h.pos
  have hdict : Protocol.strDict ms = .dict (strItems ms) := rfl
  rw [hdict, wire, wire_strItems] at h
  split_ifs at h
  · have hvalue := h.member (List.mem_cons_of_mem _ List.mem_cons_self)
    obtain ⟨k, rfl⟩ := hvalue.pos
    rw [wire, wire_strItems] at hvalue
    exact ⟨k, hvalue.member (List.mem_map_of_mem hp)⟩
  · exact ⟨n, h.member (List.mem_map_of_mem hp)⟩

/-- A function definition, as it is dumped. -/
def FunctionDefinition.tree (d : FunctionDefinition F) : Json.Tree F :=
  .obj [(.ofString "name", .str d.name), (.ofString "description", .str d.description),
    (.ofString "parameters", .obj d.parameters),
    (.ofString "method", (d.method.map .str).getD .null),
    (.ofString "input_schema", (d.inputSchema.map .obj).getD .null),
    (.ofString "lazy_load", .bool d.lazyLoad)]

def agentTree (functions : List (Str × FunctionDefinition F)) : Json.Tree F :=
  .obj (functions.map fun d => (d.1, d.2.tree))

def functionNamesTree (agents : List (Str × List (Str × FunctionDefinition F))) : Json.Tree F :=
  .obj (agents.map fun a => (a.1, agentTree a.2))

theorem FunctionDefinition.validate_tree (d : FunctionDefinition F) :
    FunctionDefinition.validate c d.tree = some d := by
  have hmethod : nullable validateStr ((d.method.map .str).getD .null) = some d.method :=
    nullable_getD fun s => ⟨(by simp), (rfl : validateStr (.str s : Json.Tree F) = some s)⟩
  have hschema : nullable validateDict ((d.inputSchema.map .obj).getD .null) =
      some d.inputSchema := nullable_getD fun s => ⟨(by simp), rfl⟩
  rw [FunctionDefinition.tree, validate_obj, hmethod, hschema, c.bool_bool]
  rfl

/-- Functions that are dumped are read back. -/
theorem validateFunctionNames_tree (agents : List (Str × List (Str × FunctionDefinition F))) :
    validateFunctionNames c (functionNamesTree agents) = some agents := by
  have hagent (functions : List (Str × FunctionDefinition F)) :
      validateAgent c (agentTree functions) = some functions :=
    validateValues_eq_some_iff.2 fun d _ => d.2.validate_tree
  have hagents : validateValues (validateAgent c) (agents.map fun a => (a.1, agentTree a.2)) =
      some agents := validateValues_eq_some_iff.2 fun a _ => hagent a.2
  exact hagents

theorem FunctionDefinition.json_modelDump {d : FunctionDefinition F} {levels : ℕ}
    (h : Checked φ levels (wire φ levels false d.value)) :
    d.value.modelDump.json φ = some d.tree := by
  obtain ⟨n, rfl⟩ := h.pos
  rw [FunctionDefinition.value, wire, if_neg Bool.false_ne_true, List.append_nil] at h
  have htree (name : Str) (x : Json.Tree F) (hx : (name, .ofTree x) ∈ d.items) :
      (Value.ofTree x).modelDump.json φ = some x := by
    have hchecked := h.member (List.mem_map_of_mem hx)
    rw [modelDump_ofTree]
    exact json_ofTree (wellFormed_of_escape (wire_ofTree hchecked ▸ hchecked.wellFormed))
  have hparameters := htree (.ofString "parameters") (.obj d.parameters) (by simp [items])
  have hmethod : (Value.ofOption .str d.method).modelDump.json φ =
      some ((d.method.map .str).getD .null) := by
    rcases d.method with _ | s <;> rfl
  have hschema : (Value.ofOption (fun s => .ofTree (.obj s)) d.inputSchema).modelDump.json φ =
      some ((d.inputSchema.map .obj).getD .null) := by
    rcases hs : d.inputSchema with _ | s
    · rfl
    · exact htree (.ofString "input_schema") (.obj s) (by simp [items, hs, Value.ofOption])
  exact json_strDict (jsonMembers_cons _ rfl (jsonMembers_cons _ rfl (jsonMembers_cons _ hparameters
    (jsonMembers_cons _ hmethod (jsonMembers_cons _ hschema (jsonMembers_cons _ rfl rfl))))))
    functionKeys_nodup

/-- The functions of a request, as they are dumped. -/
theorem json_functionNames {r : WorkerExecutionRequest F} (hr : r.Valid φ π c) {levels : ℕ}
    (h : Checked φ levels (wire φ levels false (functionNamesValue r.functionNames))) :
    (functionNamesValue r.functionNames).modelDump.json φ =
      some (functionNamesTree r.functionNames) := by
  have hstrDict {α : Type} (value : α → Value F) (ms : List (Str × α)) :
      (strDict (ms.map fun p => (p.1, value p.2))).modelDump =
        strDict (ms.map fun p => (p.1, (value p.2).modelDump)) := by
    refine congrArg Value.dict ((dumpPairs_strItems _).trans ?_)
    rw [List.map_map]
    rfl
  rw [functionNamesValue, hstrDict agentValue]
  rw [functionNamesTree]
  refine json_strDict_map (fun a => (agentValue a).modelDump) agentTree hr.agents_nodup
    fun a ha => ?_
  obtain ⟨n, hn⟩ := h.strDict _ (List.mem_map_of_mem ha)
  rw [agentTree, agentValue, hstrDict FunctionDefinition.value]
  refine json_strDict_map (fun d => d.value.modelDump) FunctionDefinition.tree
    (hr.functions_nodup a ha) fun d hd => ?_
  obtain ⟨k, hk⟩ := hn.strDict _ (List.mem_map_of_mem hd)
  exact FunctionDefinition.json_modelDump hk

/-! ## Plain messages -/

theorem json_token (token : Option Str) :
    (Value.ofTree (tokenTree token) : Value F).json φ = some (tokenTree token) := by
  rcases token with _ | s <;> rfl

/-- A plain request has the same variables as one that is streamed, and its functions as they
    are. -/
theorem json_serialize_run {r : WorkerExecutionRequest F} (hr : r.Valid φ π c)
    (hlocal : ∀ p ∈ r.localVars, Streamable φ π p.2)
    (hglobal : ∀ p ∈ r.globalVars, Streamable φ π p.2)
    (h : ∀ item ∈ r.items, Wired φ π 255 item.2.1 item.2.2 (wire φ 255 item.2.1 item.2.2))
    {token : Option Str} {calls : ℕ} {w : Value F}
    (hw : (SandboxMessage.run r (tokenTree token)).serialize calls = .ok w) :
    w.json φ = some (.obj [(.ofString "_", .str (.ofString "run")),
      (.ofString "run", .obj (requestMembers r (wire φ 255 true (strDict r.localVars))
        (wire φ 255 true (strDict r.globalVars)) (functionNamesTree r.functionNames))),
      (.ofString "token", tokenTree token)]) := by
  obtain ⟨l, hl, hw⟩ := Crash.bind_eq_ok.1 hw
  obtain ⟨g, hg, hw⟩ := Crash.bind_eq_ok.1 hw
  cases hw
  have hitem (item : Str × Bool × Value F) (hmem : item ∈ r.items) := (h item hmem).checked
  have hjsonl := (Streamable.dict hr.localVars_nodup hlocal).dumps
    (hitem (.ofString "local_vars", true, strDict r.localVars)
      (by simp [WorkerExecutionRequest.items])) l hl
  have hjsong := (Streamable.dict hr.globalVars_nodup hglobal).dumps
    (hitem (.ofString "global_vars", true, strDict r.globalVars)
      (by simp [WorkerExecutionRequest.items])) g hg
  have hfunctions := json_functionNames hr
    (hitem (.ofString "function_names", false, functionNamesValue r.functionNames)
      (by simp [WorkerExecutionRequest.items]))
  have hruntime : (Value.ofOption .float r.maxRuntimeSeconds).modelDump.json φ =
      some ((r.maxRuntimeSeconds.map .float).getD .null) := by
    rcases r.maxRuntimeSeconds with _ | x <;> rfl
  have hmemory : (Value.ofOption .int r.maxMemoryBytes).modelDump.json φ =
      some ((r.maxMemoryBytes.map .int).getD .null) := by
    have hwf := (hitem (.ofString "max_memory_bytes", false,
      .ofOption .int r.maxMemoryBytes) (by simp [WorkerExecutionRequest.items])).wellFormed
    rcases hn : r.maxMemoryBytes with _ | n
    · rfl
    · rw [hn, Value.ofOption, wire] at hwf
      rw [Value.ofOption, Value.modelDump, Value.json, if_neg (Nat.not_lt.2 hwf)]
      rfl
  have hjson : (strDict (setItem (setItem r.modelDump (.ofString "local_vars") l)
      (.ofString "global_vars") g)).json φ =
        some (.obj (requestMembers r (wire φ 255 true (strDict r.localVars))
          (wire φ 255 true (strDict r.globalVars)) (functionNamesTree r.functionNames))) := by
    refine json_strDict ?_ requestKeys_nodup
    -- the variables take the place of what has been dumped of them
    change Value.jsonMembers φ (strItems [(.ofString "code", .str r.code),
      (.ofString "question", .str r.question), (.ofString "local_vars", l),
      (.ofString "global_vars", g),
      (.ofString "function_names", (functionNamesValue r.functionNames).modelDump),
      (.ofString "max_runtime_seconds", (Value.ofOption .float r.maxRuntimeSeconds).modelDump),
      (.ofString "max_memory_bytes", (Value.ofOption .int r.maxMemoryBytes).modelDump),
      (.ofString "redact_errors", .bool r.redactErrors)]) = _
    exact jsonMembers_cons _ rfl (jsonMembers_cons _ rfl (jsonMembers_cons _ hjsonl
      (jsonMembers_cons _ hjsong (jsonMembers_cons _ hfunctions (jsonMembers_cons _ hruntime
        (jsonMembers_cons _ hmemory (jsonMembers_cons _ rfl rfl)))))))
  exact json_strDict (jsonMembers_cons _ rfl (jsonMembers_cons _ hjson
    (jsonMembers_cons _ (json_token token) rfl))) runKeys_nodup

variable {maxBytes : ℕ}

/-- What is read of a message that has been streamed as a dictionary of values. -/
theorem loads_value (hπ : π.Revalidates) {ms : List (Str × Value F)} {encoded : ByteArray}
    (h : SandboxMessage.iterBytes.value φ π maxBytes ms .empty = .ok encoded)
    (hn : (ms.map Prod.fst).Nodup) (hkey : modelKey ∉ ms.map Prod.fst)
    (hms : ∀ p ∈ ms, Transferable φ π p.2) :
    decodeUtf8 encoded >>= loads φ maxDigits =
        some (.obj (ms.map fun p => (p.1, wire φ maxProtocolDepth true p.2))) ∧
      ∀ p ∈ ms, Checked φ maxProtocolDepth (wire φ maxProtocolDepth true p.2) := by
  have hdict : Encodes φ π maxBytes false (maxProtocolDepth + 1) (.dict (strItems ms)) :=
    (Transferable.dict hn hms).encodes hπ
  obtain ⟨⟨bytes, hbytes, rfl⟩, hwired⟩ := hdict true _ _ h
  rw [wire, if_neg (mt (hasModelKey_strItems ms).1 hkey), wire_strItems] at hbytes hwired
  have hchecked := hwired.checked
  refine ⟨?_, fun p hp => hchecked.member (List.mem_map_of_mem hp)⟩
  rw [ByteArray.empty_append, decodeUtf8_encodeUtf8 hbytes, Option.bind_eq_bind, Option.bind_some]
  exact loads_text hchecked.wellFormed

/-- A message that holds one value. -/
theorem loads_message (hπ : π.Revalidates) (kind : String) {key : String}
    (hn : [(.ofString "_" : Str), .ofString key].Nodup)
    (hkey : modelKey ∉ [(.ofString "_" : Str), .ofString key]) {value w : Value F}
    (hvalue : Streamable φ π value) {encoded : ByteArray}
    (h : SandboxMessage.iterBytes.value φ π maxBytes [(.ofString "_", .str (.ofString kind)),
      (.ofString key, value)] .empty = .ok encoded)
    {calls : ℕ} (hw : serialize calls value = .ok w) :
    ∃ tree, decodeUtf8 encoded >>= loads φ maxDigits = some tree ∧
      (strDict [(.ofString "_", .str (.ofString kind)), (.ofString key, w)]).json φ =
        some tree := by
  obtain ⟨hloads, hchecked⟩ := loads_value hπ h hn hkey
    (List.forall_mem_cons.2 ⟨.str _, List.forall_mem_singleton.2 hvalue.transferable⟩)
  refine ⟨_, hloads, ?_⟩
  have hjson := hvalue.dumps (hchecked _ (List.mem_cons_of_mem _ (List.mem_singleton_self _))) w hw
  exact json_strDict (jsonMembers_cons _ rfl (jsonMembers_cons _ hjson rfl)) hn

/-! ## The comparison -/

/-- The messages that are sent: values are streamed as they are serialized, and the token of a
    request and the text of an error are strings. -/
def SandboxMessage.Sent (φ : FloatFormat F) (π : Pydantic F) (c : Conversions F) :
    SandboxMessage F → Prop
  | .run r token => r.Valid φ π c ∧ (∀ p ∈ r.localVars, Streamable φ π p.2) ∧
      (∀ p ∈ r.globalVars, Streamable φ π p.2) ∧ ∃ t, token = tokenTree t
  | .request function agent args keywordArgs =>
    Streamable φ π (.restrictedPythonTask function agent args keywordArgs)
  | .response result => Streamable φ π result
  | .done => True
  | .error text => ∃ s, text = .str s

/-- No dictionary in the functions of a request has the key `__model__`. -/
def SandboxMessage.Unreserved : SandboxMessage F → Prop
  | .run r _ => r.Unreserved
  | _ => True

/-- A request is read alike of two trees; they are the same for other messages. -/
def SandboxMessage.Alike (φ : FloatFormat F) (π : Pydantic F) (c : Conversions F)
    (tree tree' : Json.Tree F) : SandboxMessage F → Prop
  | .run .. => parseJson φ π c tree = parseJson φ π c tree'
  | _ => tree = tree'

/-- Values are streamed as they are serialized, and so are the messages but requests to run code:
    these are read back alike if and only if no dictionary in their functions has the key
    `__model__`. -/
theorem streams_alike_iff (hπ : π.Revalidates) (hfunctions : π.HasFunctions) :
    (∀ (value w : Value F) (maxBytes : ℕ) (strictWorkerValue : Bool) (label : String)
      (encoded : ByteArray) (calls : ℕ), Streamable φ π value →
        encodeProtocolValue φ π maxBytes strictWorkerValue value label = .ok encoded →
        serialize calls value = .ok w →
          ∃ tree, decodeUtf8 encoded >>= loads φ maxDigits = some tree ∧ w.json φ = some tree) ∧
    ∀ (message : SandboxMessage F) (w : Value F) (maxBytes : ℕ) (label : String)
      (encoded : ByteArray) (calls : ℕ), message.Sent φ π c →
        encodeSandboxMessage φ π maxBytes message label = .ok encoded →
        message.serialize calls = .ok w →
          ∃ tree tree', decodeUtf8 encoded >>= loads φ maxDigits = some tree ∧
            w.json φ = some tree' ∧ (message.Alike φ π c tree tree' ↔ message.Unreserved) := by
  refine ⟨fun value w maxBytes strictWorkerValue label encoded calls hvalue h hw =>
    json_serialize hπ hvalue h hw, fun message w maxBytes label encoded calls hsent h hw => ?_⟩
  have hencoded := encodeSandboxMessage_eq_ok.1 h
  have hsame {tree : Json.Tree F} (hloads : decodeUtf8 encoded >>= loads φ maxDigits = some tree)
      (hjson : w.json φ = some tree) (halike : message.Alike φ π c tree tree)
      (hunreserved : message.Unreserved) :
      ∃ tree tree', decodeUtf8 encoded >>= loads φ maxDigits = some tree ∧
        w.json φ = some tree' ∧ (message.Alike φ π c tree tree' ↔ message.Unreserved) :=
    ⟨tree, tree, hloads, hjson, iff_of_true halike hunreserved⟩
  cases message with
  | run r token =>
    obtain ⟨hr, hlocal, hglobal, token, rfl⟩ := hsent
    obtain ⟨hdecode, hitems⟩ := decodeJsonValue_encodeSandboxMessage hπ hfunctions hr h label
    have hjson := json_serialize_run hr hlocal hglobal hitems hw
    refine ⟨_, _, loads_of_decodeJsonValue hdecode, hjson, ?_⟩
    -- the plain request is always read back
    have hplain := parseJson_requestMembers hr hitems (functionNamesTree r.functionNames)
      (tokenTree token)
    rw [validateFunctionNames_tree] at hplain
    rw [SandboxMessage.Alike, hplain]
    exact parseJson_runTree_iff hr hitems token
  | request function agent args keywordArgs =>
    obtain ⟨task, htask, hw⟩ := Crash.bind_eq_ok.1 hw
    cases hw
    obtain ⟨tree, hloads, hjson⟩ :=
      loads_message hπ "request" (by decide) (by decide) hsent hencoded htask
    exact hsame hloads hjson rfl trivial
  | response result =>
    obtain ⟨result', hresult, hw⟩ := Crash.bind_eq_ok.1 hw
    cases hw
    obtain ⟨tree, hloads, hjson⟩ := loads_message hπ "response" (by decide) (by decide) hsent
      hencoded hresult
    exact hsame hloads hjson rfl trivial
  | done =>
    cases hw
    have hkey : modelKey ≠ .ofString "_" := by decide
    obtain ⟨hloads, -⟩ := loads_value hπ hencoded (List.nodup_singleton _)
      (fun hm => hkey (List.mem_singleton.1 hm)) (List.forall_mem_singleton.2 (.str _))
    exact hsame hloads rfl rfl trivial
  | error text =>
    obtain ⟨s, rfl⟩ := hsent
    cases hw
    obtain ⟨tree, hloads, hjson⟩ :=
      loads_message hπ "error" (by decide) (by decide) (.str s) hencoded
      (rfl : serialize 1 (.str s) = .ok _)
    exact hsame hloads hjson rfl trivial

end

theorem requestFor_sent (property : Str) :
    (SandboxMessage.run (requestFor property) (tokenTree none)).Sent half sandboxModels strictly :=
  ⟨requestFor_valid property,
    List.forall_mem_singleton.2 (.tuple (by simp [Streamable.int])),
    fun _ h => absurd h List.not_mem_nil, none, rfl⟩

theorem streams_alike_text : ∃ encoded w tree tree',
    encodeSandboxMessage half sandboxModels maxPacketBytes
      (.run (requestFor (.ofString "text")) (tokenTree none)) "Sandbox message" = .ok encoded ∧
    (SandboxMessage.run (requestFor (.ofString "text")) (tokenTree none)).serialize 8 = .ok w ∧
    decodeUtf8 encoded >>= loads half maxDigits = some tree ∧ w.json half = some tree' ∧
    parseJson half sandboxModels strictly tree = parseJson half sandboxModels strictly tree' := by
  obtain ⟨encoded, hencoded⟩ := exists_encoded (.ofString "text") List.mem_cons_self
    "Sandbox message"
  obtain ⟨w, hw⟩ := exists_of_isOk (x := (SandboxMessage.run (requestFor (.ofString "text"))
    (tokenTree none)).serialize 8) (by decide +kernel)
  obtain ⟨tree, tree', hloads, hjson, hiff⟩ := (streams_alike_iff sandboxModels_revalidates
    sandboxModels_hasFunctions).2 _ w _ _ encoded 8 (requestFor_sent _) hencoded hw
  exact ⟨encoded, w, tree, tree', hencoded, hw, hloads, hjson,
    hiff.2 (requestFor_unreserved (.ofString "text") (by decide))⟩

/-- A request with a property `__model__` is not read as the plain one is. -/
theorem differing_properties : ∃ encoded w tree tree',
    (SandboxMessage.run (requestFor modelKey) (tokenTree none)).Sent half sandboxModels strictly ∧
    encodeSandboxMessage half sandboxModels maxPacketBytes
      (.run (requestFor modelKey) (tokenTree none)) "Sandbox message" = .ok encoded ∧
    (SandboxMessage.run (requestFor modelKey) (tokenTree none)).serialize 8 = .ok w ∧
    decodeUtf8 encoded >>= loads half maxDigits = some tree ∧ w.json half = some tree' ∧
    parseJson half sandboxModels strictly tree ≠ parseJson half sandboxModels strictly tree' := by
  obtain ⟨encoded, hencoded⟩ := exists_encoded modelKey
    (List.mem_cons_of_mem _ (List.mem_singleton_self _)) "Sandbox message"
  obtain ⟨w, hw⟩ := exists_of_isOk (x := (SandboxMessage.run (requestFor modelKey)
    (tokenTree none)).serialize 8) (by decide +kernel)
  obtain ⟨hr, hlocal, hglobal, -⟩ := requestFor_sent modelKey
  obtain ⟨hdecode, hitems⟩ := decodeJsonValue_encodeSandboxMessage sandboxModels_revalidates
    sandboxModels_hasFunctions hr hencoded "Sandbox message"
  refine ⟨encoded, w, _, _, requestFor_sent _, hencoded, hw, loads_of_decodeJsonValue hdecode,
    json_serialize_run hr hlocal hglobal hitems hw, fun heq => ?_⟩
  -- the plain request is read back, and the other one is not
  rw [parseJson_requestMembers hr hitems, validateFunctionNames_tree] at heq
  exact requestFor_reserved ((parseJson_runTree_iff hr hitems none).1 heq)

end Hyperforge.Codemode.Protocol
