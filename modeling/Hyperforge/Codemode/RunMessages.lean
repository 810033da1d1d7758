import Hyperforge.Codemode.Bounded
import Hyperforge.Codemode.Reserved

/-!
# The round trip of requests

A request to run code is read back if and only if no dictionary in its functions has the key
`__model__` (`parseJson_run_iff`), as that is escaped when the request is streamed, but not restored
when the request is read.
-/

namespace Hyperforge.Codemode.Protocol

open Json hiding Tree

section

variable {F : Type} {φ : FloatFormat F} {π : Pydantic F} {c : Conversions F}

/-- Function definitions are instances of their class. -/
def Pydantic.HasFunctions (π : Pydantic F) : Prop :=
  ∀ d : FunctionDefinition F, π.IsInstance .functionDefinition d.items

/-- The parameters are objects of JSON, with integers of any length. -/
structure FunctionDefinition.Valid (φ : FloatFormat F) (d : FunctionDefinition F) : Prop where
  parameters : ∃ n, (Json.Tree.obj d.parameters).WellFormed φ n
  inputSchema : ∀ s ∈ d.inputSchema, ∃ n, (Json.Tree.obj s).WellFormed φ n

/-- The requests that can be made: variables are values of the protocol, dictionaries have distinct
    keys, and the limits are positive. -/
structure WorkerExecutionRequest.Valid (φ : FloatFormat F) (π : Pydantic F) (c : Conversions F)
    (r : WorkerExecutionRequest F) : Prop where
  localVars_nodup : (r.localVars.map Prod.fst).Nodup
  localVars : ∀ p ∈ r.localVars, Transferable φ π p.2
  globalVars_nodup : (r.globalVars.map Prod.fst).Nodup
  globalVars : ∀ p ∈ r.globalVars, Transferable φ π p.2
  agents_nodup : (r.functionNames.map Prod.fst).Nodup
  functions_nodup : ∀ a ∈ r.functionNames, (a.2.map Prod.fst).Nodup
  functions : ∀ a ∈ r.functionNames, ∀ d ∈ a.2, d.2.Valid φ
  maxRuntimeSeconds : ∀ x ∈ r.maxRuntimeSeconds, φ.isFinite x ∧ c.positive x
  maxMemoryBytes : ∀ n ∈ r.maxMemoryBytes, 0 < n

/-- A request with lists for the tuples of its variables. -/
def WorkerExecutionRequest.untuple (r : WorkerExecutionRequest F) : WorkerExecutionRequest F :=
  { r with
    localVars := r.localVars.map fun p => (p.1, p.2.untuple)
    globalVars := r.globalVars.map fun p => (p.1, p.2.untuple) }

/-! ## How requests are written -/

theorem FunctionDefinition.Valid.transferable (hfunctions : π.HasFunctions)
    {d : FunctionDefinition F} (h : d.Valid φ) : Transferable φ π d.value := by
  refine .model (hfunctions d) fun p hp => ?_
  obtain ⟨n, hn⟩ := h.parameters
  simp only [items, List.mem_cons, List.not_mem_nil, or_false] at hp
  rcases hp with rfl | rfl | rfl | rfl | rfl | rfl
  · exact .str _
  · exact .str _
  · exact .ofTree hn
  · rcases d.method with _ | s
    · exact .none
    · exact .str s
  · rcases hs : d.inputSchema with _ | s
    · exact .none
    · obtain ⟨n, hn⟩ := h.inputSchema s hs
      exact .ofTree hn
  · exact .bool _

theorem transferable_strDict {ms : List (Str × Value F)} (hn : (ms.map Prod.fst).Nodup)
    (h : ∀ p ∈ ms, Transferable φ π p.2) : Transferable φ π (strDict ms) :=
  .dict hn h

namespace WorkerExecutionRequest.Valid

variable {r : WorkerExecutionRequest F}

theorem transferable_functionNames (h : r.Valid φ π c) (hfunctions : π.HasFunctions) :
    Transferable φ π (functionNamesValue r.functionNames) := by
  refine transferable_strDict ?_ (List.forall_mem_map.2 fun a ha => ?_)
  · rw [map_fst_map]
    exact h.agents_nodup
  refine transferable_strDict ?_ (List.forall_mem_map.2 fun d hd => ?_)
  · rw [map_fst_map]
    exact h.functions_nodup a ha
  · exact (h.functions a ha d hd).transferable hfunctions

theorem transferable (h : r.Valid φ π c) (hfunctions : π.HasFunctions) :
    ∀ item ∈ r.items, Transferable φ π item.2.2 := by
  intro item hitem
  simp only [items, List.mem_cons, List.not_mem_nil, or_false] at hitem
  rcases hitem with rfl | rfl | rfl | rfl | rfl | rfl | rfl | rfl
  · exact .str _
  · exact .str _
  · exact transferable_strDict h.localVars_nodup h.localVars
  · exact transferable_strDict h.globalVars_nodup h.globalVars
  · exact h.transferable_functionNames hfunctions
  · rcases hx : r.maxRuntimeSeconds with _ | x
    · exact .none
    · exact .float (h.maxRuntimeSeconds x hx).1
  · rcases r.maxMemoryBytes with _ | n
    · exact .none
    · exact .int n
  · exact .bool _

end WorkerExecutionRequest.Valid

/-- The tree that a request is written as. -/
def requestTree (φ : FloatFormat F) (levels : ℕ) (r : WorkerExecutionRequest F) : Json.Tree F :=
  .obj (r.items.map fun item => (item.1, wire φ levels item.2.1 item.2.2))

/-- The tree that a message with a request is written as. -/
def runTree (φ : FloatFormat F) (levels : ℕ) (r : WorkerExecutionRequest F)
    (token : Json.Tree F) : Json.Tree F :=
  .obj [(.ofString "_", wire φ (levels + 1) true (.str (.ofString "run"))),
    (.ofString "run", requestTree φ levels r),
    (.ofString "token", wire φ (levels + 1) true (.ofTree token))]

variable {maxBytes levels : ℕ} {r : WorkerExecutionRequest F}

/-- The items of a request are written, each with or without markers. -/
theorem writes_request (hπ : π.Revalidates) (hr : ∀ item ∈ r.items, Transferable φ π item.2.2) :
    (iterRequestBytes φ π maxBytes (levels + 1) r).Writes ((requestTree φ levels r).text φ)
      (∀ item ∈ r.items, Wired φ π levels item.2.1 item.2.2 (wire φ levels item.2.1 item.2.2)) := by
  have hencodes (item : Str × Bool × Value F) (hitem : item ∈ r.items) :
    Encodes φ π maxBytes false levels item.2.2 := (hr item hitem).encodes hπ
  have hmember (i : ℕ) (item : Str × Bool × Value F) (hitem : item ∈ r.items) :=
    (hencodes item hitem item.2.1).member maxBytes i item.1
  have hloop := Encoder.Writes.members hmember
  have hobject := ((Encoder.Writes.ascii maxBytes "\x7b").append hloop).append
    (Encoder.Writes.ascii maxBytes "\x7d")
  rw [requestTree, Json.Tree.text]
  exact hobject.imp fun hP => hP.1.2

theorem writes_run (hπ : π.Revalidates) (hr : ∀ item ∈ r.items, Transferable φ π item.2.2)
    {token : Json.Tree F} {n : ℕ} (htoken : token.WellFormed φ n) :
    ((SandboxMessage.run r token).iterBytes φ π maxBytes).Writes ((runTree φ 255 r token).text φ)
      ((∀ item ∈ r.items, Wired φ π 255 item.2.1 item.2.2 (wire φ 255 item.2.1 item.2.2)) ∧
        Wired φ π 256 true (.ofTree token) (wire φ 256 true (.ofTree token))) := by
  have hkind : Encodes φ π maxBytes false 256 (.str (.ofString "run")) := encodes_str _ _
  have hrequest : (iterRequestBytes φ π maxBytes 256 r).Writes _ _ := writes_request hπ hr
  have htree : Encodes φ π maxBytes false 256 (.ofTree token) :=
    (Transferable.ofTree htoken).encodes hπ
  have hobject := ((((Encoder.Writes.ascii maxBytes "\x7b").append
    ((hkind true).member maxBytes 0 (.ofString "_"))).append
    (hrequest.member maxBytes 1 (.ofString "run"))).append
    ((htree true).member maxBytes 2 (.ofString "token"))).append
    (Encoder.Writes.ascii maxBytes "\x7d")
  refine hobject.text ?_ fun hP => ⟨hP.1.1.2, hP.1.2⟩
  simp [runTree, Json.Tree.text, membersText, comma, Str.ofString]

/-! ## How requests are read -/

theorem Checked.obj {ms : List (Str × Json.Tree F)} (hn : (ms.map Prod.fst).Nodup)
    (h : ∀ p ∈ ms, Checked φ levels p.2) : Checked φ (levels + 1) (.obj ms) where
  wellFormed := by
    rw [Json.Tree.WellFormed, membersWellFormed_iff]
    exact ⟨hn, fun p hp => (h p hp).wellFormed⟩
  depth := by
    rw [validateJsonDepth, List.all_eq_true]
    exact fun p hp => (h p hp).depth

/-- The names of the fields of a request are distinct. -/
theorem requestKeys_nodup : [.ofString "code", .ofString "question", .ofString "local_vars",
    .ofString "global_vars", .ofString "function_names", .ofString "max_runtime_seconds",
    .ofString "max_memory_bytes", (.ofString "redact_errors" : Str)].Nodup := by decide

theorem runKeys_nodup : [.ofString "_", .ofString "run", (.ofString "token" : Str)].Nodup := by
  decide

theorem checked_runTree {token : Json.Tree F}
    (h : ∀ item ∈ r.items, Checked φ levels (wire φ levels item.2.1 item.2.2))
    (htoken : Checked φ (levels + 1) (wire φ (levels + 1) true (.ofTree token))) :
    Checked φ (levels + 2) (runTree φ levels r token) := by
  have hrequest : Checked φ (levels + 1) (requestTree φ levels r) :=
    .obj requestKeys_nodup (List.forall_mem_map.2 h)
  refine .obj runKeys_nodup fun p hp => ?_
  simp only [List.mem_cons, List.not_mem_nil, or_false] at hp
  rcases hp with rfl | rfl | rfl
  · rw [wire]
    exact ⟨trivial, rfl⟩
  · exact hrequest
  · exact htoken

/-- A request that has all its fields. -/
theorem WorkerExecutionRequest.validate_obj (code question localVars globalVars functionNames
      maxRuntimeSeconds maxMemoryBytes redactErrors : Json.Tree F) (l g : List (Key F × Value F)) :
    WorkerExecutionRequest.validate c φ [(.ofString "code", code), (.ofString "question", question),
      (.ofString "local_vars", localVars), (.ofString "global_vars", globalVars),
      (.ofString "function_names", functionNames),
      (.ofString "max_runtime_seconds", maxRuntimeSeconds),
      (.ofString "max_memory_bytes", maxMemoryBytes),
      (.ofString "redact_errors", redactErrors)] l g =
    (validateStr code).bind fun code => (validateStr question).bind fun question =>
      (validateKeys l).bind fun l => (validateKeys g).bind fun g =>
        (validateFunctionNames c functionNames).bind fun functionNames =>
          (nullable c.float maxRuntimeSeconds).bind fun maxRuntimeSeconds =>
            (constrained (fun x => φ.isFinite x && c.positive x) maxRuntimeSeconds).bind
              fun maxRuntimeSeconds => (nullable c.int maxMemoryBytes).bind fun maxMemoryBytes =>
                (constrained (fun n : ℤ => 0 < n) maxMemoryBytes).bind fun maxMemoryBytes =>
                  (c.bool redactErrors).bind fun redactErrors =>
                    some ⟨code, question, l, g, functionNames, maxRuntimeSeconds, maxMemoryBytes,
                      redactErrors⟩ := rfl

theorem validateKeys_strItems (ms : List (Str × Value F)) :
    validateKeys (strItems ms) = some ms := by
  induction ms with
  | nil => rfl
  | cons p ms ih =>
    rw [strItems] at ih
    rw [strItems, List.map_cons, validateKeys, ih]
    rfl

theorem constrained_of_forall {α : Type} {constraint : α → Bool} {o : Option α}
    (h : ∀ x ∈ o, constraint x) : constrained constraint o = some o := by
  rcases o with _ | x
  · rfl
  · exact if_pos (h x rfl)

/-- The members of a request, given those that are not scalars. -/
def requestMembers (r : WorkerExecutionRequest F)
    (localVars globalVars functionNames : Json.Tree F) : List (Str × Json.Tree F) :=
  [(.ofString "code", .str r.code), (.ofString "question", .str r.question),
    (.ofString "local_vars", localVars), (.ofString "global_vars", globalVars),
    (.ofString "function_names", functionNames),
    (.ofString "max_runtime_seconds", (r.maxRuntimeSeconds.map .float).getD .null),
    (.ofString "max_memory_bytes", (r.maxMemoryBytes.map .int).getD .null),
    (.ofString "redact_errors", .bool r.redactErrors)]

theorem requestTree_eq (h : ∀ item ∈ r.items, Checked φ levels (wire φ levels item.2.1 item.2.2)) :
    requestTree φ levels r = .obj (requestMembers r (wire φ levels true (strDict r.localVars))
      (wire φ levels true (strDict r.globalVars))
      (wire φ levels false (functionNamesValue r.functionNames))) := by
  obtain ⟨k, rfl⟩ := (h _ List.mem_cons_self).pos
  obtain ⟨code, question, localVars, globalVars, functionNames, maxRuntimeSeconds, maxMemoryBytes,
    redactErrors⟩ := r
  rw [requestTree, requestMembers]
  simp only [WorkerExecutionRequest.items, List.map_cons, List.map_nil, wire_str]
  rcases maxRuntimeSeconds with _ | x <;> rcases maxMemoryBytes with _ | n <;>
    simp [Value.ofOption, wire]

theorem nullable_getD {α : Type} {validate : Json.Tree F → Option α} {tree : α → Json.Tree F}
    {o : Option α} (h : ∀ x, tree x ≠ .null ∧ validate (tree x) = some x) :
    nullable validate ((o.map tree).getD .null) = some o := by
  rcases o with _ | x
  · rfl
  · obtain ⟨hnull, hread⟩ := h x
    rw [Option.map_some, Option.getD_some, nullable, hread]
    · rfl
    · exact hnull

/-- All of a request is read back, but perhaps for its functions. -/
theorem validate_requestMembers (hr : r.Valid φ π c)
    (localVars globalVars functionNames : Json.Tree F) (l g : List (Str × Value F)) :
    WorkerExecutionRequest.validate c φ (requestMembers r localVars globalVars functionNames)
        (strItems l) (strItems g) =
      (validateFunctionNames c functionNames).map fun functionNames => ({ r with
        localVars := l
        globalVars := g
        functionNames := functionNames } : WorkerExecutionRequest F) := by
  have hruntime : nullable c.float ((r.maxRuntimeSeconds.map .float).getD .null) =
      some r.maxRuntimeSeconds := nullable_getD fun x => ⟨(by simp), c.float_float x⟩
  have hmemory : nullable c.int ((r.maxMemoryBytes.map .int).getD .null) =
      some r.maxMemoryBytes := nullable_getD fun x => ⟨(by simp), c.int_int x⟩
  rw [requestMembers, WorkerExecutionRequest.validate_obj, hruntime, hmemory, c.bool_bool,
    validateKeys_strItems, validateKeys_strItems]
  simp only [validateStr, Option.bind_some]
  rw [constrained_of_forall fun x hx => by simpa using hr.maxRuntimeSeconds x hx,
    constrained_of_forall fun n hn => by simpa using hr.maxMemoryBytes n hn]
  rcases validateFunctionNames c functionNames <;> rfl

theorem deserializeMember_strDict {ms : List (Str × Value F)}
    (h : Wired φ π 255 true (strDict ms) (wire φ 255 true (strDict ms))) :
    deserializeMember π (wire φ 255 true (strDict ms)) =
      .ok (.dict (strItems (ms.map fun p => (p.1, p.2.untuple)))) := by
  have hread := deserialize_succ π (deserialize_succ π h.deserialize)
  have hdict : (strDict ms).readBack true = strDict (ms.map fun p => (p.1, p.2.untuple)) :=
    readBack_dict ms
  rw [hdict] at hread
  rw [deserializeMember]
  simp only [maxProtocolDepth, hread]
  rfl

/-- A token, as it is written. -/
def tokenTree (token : Option Str) : Json.Tree F :=
  match token with
  | none => .null
  | some s => .str s

theorem wire_tokenTree (token : Option Str) (m : Bool) :
    wire φ (levels + 1) m (.ofTree (tokenTree token)) = tokenTree token := by
  rcases token with _ | s <;> rw [tokenTree, Value.ofTree, wire]

theorem runVariables_eq {run : List (Str × Json.Tree F)} {name : String} {x : Json.Tree F}
    {items : List (Key F × Value F)} (hget : get run (.ofString name) = some x)
    (hx : deserializeMember π x = .ok (.dict items)) : runVariables π run name = .ok items := by
  rw [runVariables, hget, Option.getD_some, hx]
  rfl

theorem parse_run {run : List (Str × Json.Tree F)} {l g : List (Key F × Value F)}
    (hl : runVariables π run "local_vars" = .ok l) (hg : runVariables π run "global_vars" = .ok g)
    (token : Json.Tree F) :
    parse φ π c [(.ofString "_", .str (.ofString "run")), (.ofString "run", .obj run),
        (.ofString "token", token)] =
      ((WorkerExecutionRequest.validate c φ run l g).map fun r => .run r token).elim
        (.error .validationError) .ok := by
  have hkind : parse φ π c [(.ofString "_", .str (.ofString "run")), (.ofString "run", .obj run),
      (.ofString "token", token)] = parseRun φ π c [(.ofString "_", .str (.ofString "run")),
    (.ofString "run", .obj run), (.ofString "token", token)] := rfl
  have hrun : index [(.ofString "_", .str (.ofString "run")), (.ofString "run", .obj run),
    (.ofString "token", token)] "run" = .ok (.obj run) := rfl
  simp only [hkind, parseRun, hrun, hl, hg, bind, Except.bind]
  rcases WorkerExecutionRequest.validate c φ run l g <;> rfl

/-- What is read of a message with a request, given what is read of the functions. -/
theorem parseJson_requestMembers (hr : r.Valid φ π c)
    (h : ∀ item ∈ r.items, Wired φ π 255 item.2.1 item.2.2 (wire φ 255 item.2.1 item.2.2))
    (functionNames token : Json.Tree F) :
    parseJson φ π c (.obj [(.ofString "_", .str (.ofString "run")),
      (.ofString "run", .obj (requestMembers r (wire φ 255 true (strDict r.localVars))
        (wire φ 255 true (strDict r.globalVars)) functionNames)), (.ofString "token", token)]) =
      ((validateFunctionNames c functionNames).map fun functionNames =>
        .run { r.untuple with functionNames := functionNames } token).elim
          (.error .validationError) .ok := by
  have hlocal := deserializeMember_strDict (h (.ofString "local_vars", true, strDict r.localVars)
    (by simp [WorkerExecutionRequest.items]))
  have hglobal := deserializeMember_strDict (h (.ofString "global_vars", true, strDict r.globalVars)
    (by simp [WorkerExecutionRequest.items]))
  rw [parseJson, parse_run (runVariables_eq rfl hlocal) (runVariables_eq rfl hglobal),
    validate_requestMembers hr, Option.map_map]
  rfl

theorem parseJson_runTree (hr : r.Valid φ π c)
    (h : ∀ item ∈ r.items, Wired φ π 255 item.2.1 item.2.2 (wire φ 255 item.2.1 item.2.2))
    (token : Option Str) :
    parseJson φ π c (runTree φ 255 r (tokenTree token)) =
      ((validateFunctionNames c (wire φ 255 false (functionNamesValue r.functionNames))).map
        fun functionNames => .run { r.untuple with functionNames := functionNames }
          (tokenTree token)).elim (.error .validationError) .ok := by
  rw [runTree, wire_str, wire_tokenTree,
    requestTree_eq fun item hitem => (h item hitem).checked, parseJson_requestMembers hr h]

/-- The message that is read is the one that is written if and only if nothing is escaped in the
    functions of its request. -/
theorem parseJson_runTree_iff (hr : r.Valid φ π c)
    (h : ∀ item ∈ r.items, Wired φ π 255 item.2.1 item.2.2 (wire φ 255 item.2.1 item.2.2))
    (token : Option Str) :
    parseJson φ π c (runTree φ 255 r (tokenTree token)) = .ok (.run r.untuple (tokenTree token)) ↔
      r.Unreserved := by
  have hfunctions := h (.ofString "function_names", false, functionNamesValue r.functionNames)
    (by simp [WorkerExecutionRequest.items])
  rw [parseJson_runTree hr h, ← validateFunctionNames_wire_iff (c := c) r hfunctions.checked]
  rcases validateFunctionNames c (wire φ 255 false (functionNamesValue r.functionNames)) with _ | fs
  · exact iff_of_false (by simp) (by simp)
  · simp [WorkerExecutionRequest.untuple]

theorem functionKeys_nodup : [.ofString "name", .ofString "description", .ofString "parameters",
    .ofString "method", .ofString "input_schema", (.ofString "lazy_load" : Str)].Nodup := by decide

theorem modelKey_notMem_functionKeys : modelKey ∉ [.ofString "name", .ofString "description",
    .ofString "parameters", .ofString "method", .ofString "input_schema",
    (.ofString "lazy_load" : Str)] := by decide

/-! ## The round trip -/

theorem iterRequestBytes_fits (r : WorkerExecutionRequest F) :
    (iterRequestBytes φ π maxBytes levels r).Fits maxBytes := by
  rcases levels with _ | levels
  · exact .fail _
  · exact ((Encoder.Fits.chunk _).append (.enumerate (fun index (item : Str × Bool × Value F) =>
      (iterJsonBytes_fits levels item.2.1 item.2.2).member index item.1) 0 r.items)).append
        (.chunk _)

theorem iterBytes_fits (message : SandboxMessage F) :
    (message.iterBytes φ π maxBytes).Fits maxBytes := by
  cases message with
  | run r token =>
    exact ((((Encoder.Fits.chunk _).append ((iterJsonBytes_fits _ _ _).member 0 _)).append
      ((iterRequestBytes_fits r).member 1 _)).append ((iterJsonBytes_fits _ _ _).member 2 _)).append
        (.chunk _)
  | request | response | done | error => exact iterJsonBytes_fits _ _ _

theorem encodeSandboxMessage_eq_ok {message : SandboxMessage F} {label : String}
    {encoded : ByteArray} : encodeSandboxMessage φ π maxBytes message label = .ok encoded ↔
      message.iterBytes φ π maxBytes .empty = .ok encoded := by
  rw [encodeSandboxMessage]
  rcases message.iterBytes φ π maxBytes .empty with (_ | _ | _ | _) | encoded <;> simp

/-- What is decoded of bytes that have been written as a tree. -/
theorem decodeJsonValue_of_checked {tree : Json.Tree F} {bytes : ByteArray}
    (h : Checked φ (maxProtocolDepth + 1) tree) (hbytes : encodeUtf8 (tree.text φ) = some bytes)
    (hsize : bytes.size ≤ maxBytes) (label : String) :
    decodeJsonValue φ maxBytes bytes label = .ok tree := by
  have htext := loads_text h.wellFormed
  rw [decodeJsonValue, if_neg (Nat.not_lt.2 hsize), decodeUtf8_encodeUtf8 hbytes,
    Option.bind_eq_bind, Option.bind_some, htext]
  exact if_pos h.depth

theorem loads_of_decodeJsonValue {tree : Json.Tree F} {encoded : ByteArray} {label : String}
    (h : decodeJsonValue φ maxBytes encoded label = .ok tree) :
    decodeUtf8 encoded >>= loads φ maxDigits = some tree := by
  rw [decodeJsonValue] at h
  split_ifs at h
  rcases hloads : decodeUtf8 encoded >>= loads φ maxDigits with _ | x
  · rw [hloads] at h
    cases h
  · rw [hloads] at h
    simp only at h
    split_ifs at h
    cases h
    rfl

/-- A request that is streamed is decoded as its tree. -/
theorem decodeJsonValue_encodeSandboxMessage (hπ : π.Revalidates) (hfunctions : π.HasFunctions)
    (hr : r.Valid φ π c) {token : Option Str} {label : String} {encoded : ByteArray}
    (h : encodeSandboxMessage φ π maxBytes (.run r (tokenTree token)) label = .ok encoded)
    (label' : String) :
    decodeJsonValue φ maxBytes encoded label' = .ok (runTree φ 255 r (tokenTree token)) ∧
      ∀ item ∈ r.items, Wired φ π 255 item.2.1 item.2.2 (wire φ 255 item.2.1 item.2.2) := by
  have hencoded := encodeSandboxMessage_eq_ok.1 h
  have htoken : (tokenTree token : Json.Tree F).WellFormed φ 0 := by
    rcases token with _ | s <;> exact trivial
  have hsize := iterBytes_fits _ _ _ hencoded (Nat.zero_le _)
  obtain ⟨⟨bytes, hbytes, rfl⟩, hitems, hwired⟩ :=
    writes_run hπ (hr.transferable hfunctions) htoken _ _ hencoded
  rw [ByteArray.empty_append] at hsize ⊢
  have hchecked := checked_runTree (fun item hitem => (hitems item hitem).checked) hwired.checked
  exact ⟨decodeJsonValue_of_checked hchecked hbytes hsize label', hitems⟩

/-- A request, once encoded, is read back if and only if no dictionary in its functions has the key
    `__model__`, and so is the one that is canonicalized. -/
theorem parseJson_encodeSandboxMessage_iff (hπ : π.Revalidates) (hfunctions : π.HasFunctions)
    (r : WorkerExecutionRequest F) (hr : r.Valid φ π c) :
    (∀ (maxBytes : ℕ) (token : Option Str) (label label' : String) (encoded : ByteArray),
      encodeSandboxMessage φ π maxBytes (.run r (tokenTree token)) label = .ok encoded →
        ∃ tree, decodeJsonValue φ maxBytes encoded label' = .ok tree ∧
          (parseJson φ π c tree = .ok (.run r.untuple (tokenTree token)) ↔ r.Unreserved)) ∧
    ∀ encoded,
      encodeSandboxMessage φ π maxPacketBytes (.run r .null) "Sandbox run request" = .ok encoded →
        (canonicalizeRunRequest φ π c r = .ok r.untuple ↔ r.Unreserved) := by
  constructor
  · intro maxBytes token label label' encoded h
    obtain ⟨hdecode, hitems⟩ := decodeJsonValue_encodeSandboxMessage hπ hfunctions hr h label'
    exact ⟨_, hdecode, parseJson_runTree_iff hr hitems token⟩
  · intro encoded h
    have hnone : encodeSandboxMessage φ π maxPacketBytes (.run r (tokenTree none))
      "Sandbox run request" = .ok encoded := h
    obtain ⟨hdecode, hitems⟩ := decodeJsonValue_encodeSandboxMessage hπ hfunctions hr hnone
      "Sandbox run request"
    rw [← parseJson_runTree_iff hr hitems none]
    have hparse := parseJson_runTree hr hitems none
    simp only [canonicalizeRunRequest, h, hdecode, Except.mapError, bind, Except.bind]
    rw [hparse]
    -- the token that is read is none
    rcases validateFunctionNames c (wire φ 255 false (functionNamesValue r.functionNames)) with
      _ | fs
    · exact iff_of_false (by simp) (by simp)
    · simp

end

/-- Contexts whose only field is a text, and function definitions. -/
def sandboxModels : Pydantic Bool where
  hasSerializers _ := false
  IsInstance cls items := textContext.IsInstance cls items ∨
    cls = .functionDefinition ∧ ∃ d : FunctionDefinition Bool, items = d.items
  validate cls items := .ok (.model cls items)
  nodup := by
    rintro cls items (h | ⟨-, d, rfl⟩)
    · exact textContext.nodup h
    · exact functionKeys_nodup
  noMarker := by
    rintro cls items (h | ⟨-, d, rfl⟩)
    · exact textContext.noMarker h
    · exact modelKey_notMem_functionKeys

theorem sandboxModels_revalidates : sandboxModels.Revalidates := by
  rintro cls hcls items (h | ⟨rfl, -⟩)
  · exact textContext_revalidates cls hcls items h
  · exact absurd hcls (by decide)

theorem sandboxModels_hasFunctions : sandboxModels.HasFunctions := fun d => .inr ⟨rfl, d, rfl⟩

/-- Scalars of other types are refused. -/
def strictly : Conversions Bool where
  bool
    | .bool b => some b
    | _ => none
  int
    | .int i => some i
    | _ => none
  float
    | .float x => some x
    | _ => none
  positive x := x
  bool_bool _ := rfl
  int_int _ := rfl
  float_float _ := rfl

/-- A request with a function, which has one property. -/
def requestFor (property : Str) : WorkerExecutionRequest Bool where
  code := .ofString "output(value)"
  question := []
  localVars := [(modelKey, .tuple [.int 1, .int 2])]
  globalVars := []
  functionNames := [(.ofString "agent", [(.ofString "search", {
    name := .ofString "search"
    description := []
    parameters := [(.ofString "properties", .obj [(property, .str (.ofString "string"))])]
    method := none
    inputSchema := none
    lazyLoad := false })])]
  maxRuntimeSeconds := some true
  maxMemoryBytes := none
  redactErrors := false

theorem requestFor_valid (property : Str) :
    (requestFor property).Valid half sandboxModels strictly where
  localVars_nodup := List.nodup_singleton _
  localVars := by
    simp only [requestFor, List.mem_singleton, forall_eq]
    exact .tuple (by simp [Transferable.int])
  globalVars_nodup := List.nodup_nil
  globalVars _ h := absurd h List.not_mem_nil
  agents_nodup := List.nodup_singleton _
  functions_nodup := by simp [requestFor]
  functions := by
    simp only [requestFor, List.mem_singleton, forall_eq]
    refine ⟨⟨0, ?_⟩, fun s hs => absurd hs (by simp)⟩
    simp [Json.Tree.WellFormed, membersWellFormed]
  maxRuntimeSeconds := by simp [requestFor, half, strictly]
  maxMemoryBytes := by simp [requestFor]

theorem exists_of_isOk {ε α : Type} {x : Except ε α} (h : x.isOk) : ∃ a, x = .ok a := by
  rcases x with _ | a
  · cases h
  · exact ⟨a, rfl⟩

theorem requestFor_items : ∀ property ∈ [.ofString "text", modelKey],
    ∀ item ∈ (requestFor property).items,
      (iterJsonStringBytes maxPacketBytes item.1 .empty).toOption.any (·.size ≤ 50) ∧
      (iterJsonBytes half sandboxModels maxPacketBytes false 255 item.2.1 item.2.2
        .empty).toOption.any (·.size ≤ 400) := by
  decide +kernel

/-- The items of a request are written one by one: together they would take long to run, as what is
    written before an item is counted again. -/
theorem requestFor_takes (property : Str) (h : property ∈ [.ofString "text", modelKey]) :
    ∃ n ≤ maxPacketBytes, ((SandboxMessage.run (requestFor property) (tokenTree none)).iterBytes
      half sandboxModels maxPacketBytes).Takes maxPacketBytes n := by
  have hkey (key : Str) (hroom : (iterJsonStringBytes maxPacketBytes key .empty).toOption.any
      (·.size ≤ 50)) := (Encoder.Cut.iterJsonStringBytes key).takes hroom
  have hvalue (levels : ℕ) (m : Bool) (value : Value Bool)
      (hroom : (iterJsonBytes half sandboxModels maxPacketBytes false levels m value
        .empty).toOption.any (·.size ≤ 400)) :=
    (cut_iterJsonBytes half sandboxModels false levels m value).takes hroom
  have hitems : (enumerate (fun i (item : Str × Bool × Value Bool) =>
      member maxPacketBytes i item.1 (iterJsonBytes half sandboxModels maxPacketBytes false 255
        item.2.1 item.2.2)) 0 (requestFor property).items).Takes maxPacketBytes
      ((requestFor property).items.length * 452) := by
    refine .enumerate (fun i item hmem => ?_) 0
    obtain ⟨hstring, hitem⟩ := requestFor_items property h item hmem
    exact (hvalue _ _ _ hitem).member (hkey _ hstring) i
  have hlength : (requestFor property).items.length = 8 := rfl
  rw [hlength] at hitems
  have hrun : (iterRequestBytes half sandboxModels maxPacketBytes 256 (requestFor property)).Takes
      maxPacketBytes (1 + 8 * 452 + 1) :=
    ((Encoder.Takes.ascii "\x7b").append hitems).append (.ascii "\x7d")
  have htype := (hvalue 256 true (.str (.ofString "run")) (by decide +kernel)).member
    (hkey (.ofString "_") (by decide +kernel)) 0
  have htoken := (hvalue 256 true (.ofTree (tokenTree none)) (by decide +kernel)).member
    (hkey (.ofString "token") (by decide +kernel)) 2
  have hrun := hrun.member (hkey (.ofString "run") (by decide +kernel)) 1
  refine ⟨_, ?_, ((((Encoder.Takes.ascii "\x7b").append htype).append hrun).append htoken).append
    (.ascii "\x7d")⟩
  decide

theorem exists_encoded (property : Str) (h : property ∈ [.ofString "text", modelKey])
    (label : String) : ∃ encoded, encodeSandboxMessage half sandboxModels maxPacketBytes
      (.run (requestFor property) (tokenTree none)) label = .ok encoded := by
  obtain ⟨n, hle, htakes⟩ := requestFor_takes property h
  obtain ⟨encoded, hencoded, -⟩ := htakes .empty ((Nat.zero_add n).trans_le hle)
  exact ⟨encoded, encodeSandboxMessage_eq_ok.2 hencoded⟩

theorem requestFor_unreserved (property : Str) (h : property ≠ modelKey) :
    (requestFor property).Unreserved := by
  have hagent : modelKey ≠ .ofString "agent" := by decide
  have hsearch : modelKey ≠ .ofString "search" := by decide
  have hproperties : modelKey ≠ .ofString "properties" := by decide
  simp [requestFor, WorkerExecutionRequest.Unreserved, UnreservedAgent,
    FunctionDefinition.Unreserved, Unreserved, membersUnreserved, hagent, hsearch, hproperties,
    h.symm]

theorem requestFor_reserved : ¬(requestFor modelKey).Unreserved := by
  simp [requestFor, WorkerExecutionRequest.Unreserved, UnreservedAgent,
    FunctionDefinition.Unreserved, Unreserved, membersUnreserved]

theorem parseJson_encodeSandboxMessage_text :
    ∃ encoded tree, encodeSandboxMessage half sandboxModels maxPacketBytes
        (.run (requestFor (.ofString "text")) (tokenTree none)) "Sandbox run request" =
          .ok encoded ∧
      decodeJsonValue half maxPacketBytes encoded "Sandbox run request" = .ok tree ∧
      parseJson half sandboxModels strictly tree =
        .ok (.run (requestFor (.ofString "text")).untuple (tokenTree none)) ∧
      canonicalizeRunRequest half sandboxModels strictly (requestFor (.ofString "text")) =
        .ok (requestFor (.ofString "text")).untuple := by
  obtain ⟨encoded, hencoded⟩ := exists_encoded (.ofString "text") List.mem_cons_self
    "Sandbox run request"
  have hunreserved := requestFor_unreserved (.ofString "text") (by decide)
  obtain ⟨hparse, hcanonicalize⟩ := parseJson_encodeSandboxMessage_iff sandboxModels_revalidates
    sandboxModels_hasFunctions (requestFor (.ofString "text")) (requestFor_valid _)
  obtain ⟨tree, hdecode, hiff⟩ := hparse _ none _ "Sandbox run request" _ hencoded
  exact ⟨encoded, tree, hencoded, hdecode, hiff.2 hunreserved,
    (hcanonicalize _ hencoded).2 hunreserved⟩

/-- A property with the name `__model__` is lost: the escaped properties are read as they are. -/
theorem escaped_properties :
    (requestFor modelKey).Valid half sandboxModels strictly ∧
    ∃ encoded tree, encodeSandboxMessage half sandboxModels maxPacketBytes
        (.run (requestFor modelKey) (tokenTree none)) "Sandbox run request" = .ok encoded ∧
      decodeJsonValue half maxPacketBytes encoded "Sandbox run request" = .ok tree ∧
      parseJson half sandboxModels strictly tree ≠
        .ok (.run (requestFor modelKey).untuple (tokenTree none)) := by
  obtain ⟨encoded, hencoded⟩ := exists_encoded modelKey
    (List.mem_cons_of_mem _ (List.mem_singleton_self _)) "Sandbox run request"
  obtain ⟨hdecode, hitems⟩ := decodeJsonValue_encodeSandboxMessage sandboxModels_revalidates
    sandboxModels_hasFunctions (requestFor_valid _) hencoded "Sandbox run request"
  refine ⟨requestFor_valid _, encoded, _, hencoded, hdecode, fun hread => ?_⟩
  exact requestFor_reserved ((parseJson_runTree_iff (requestFor_valid _) hitems none).1 hread)

end Hyperforge.Codemode.Protocol
