import Hyperforge.Codemode.Bounded
import Hyperforge.Codemode.RunMessages

/-!
# Relaying results

The result of a callback reaches a worker in two hops: the controller sends it in a message
(`encodeSandboxMessage`), and the session that has parsed it sends it on, alone (`relayed`). What
has been sent in a message can be sent alone: it is written as fewer bytes, and it is less deep
(`encodeProtocolValue_of_response`). So if a result is sent, it reaches the worker, with lists for
tuples (`relayed_eq_ok`).
-/

namespace Hyperforge.Codemode.Protocol

open Json hiding Tree

/-! ## More levels -/

/-- Whenever an encoder succeeds, another one does the same. -/
def Encoder.Extends (e e' : Encoder) : Prop :=
  ∀ encoded encoded', e encoded = .ok encoded' → e' encoded = .ok encoded'

namespace Encoder.Extends

variable {e₁ e₂ e₁' e₂' : Encoder}

theorem refl (e : Encoder) : e.Extends e := fun _ _ h => h

theorem fail (error : EncodeError) (e : Encoder) : (Encoder.fail error).Extends e := by
  intro _ _ h
  cases h

theorem append (h : e₁.Extends e₁') (h' : e₂.Extends e₂') : (e₁ ++ e₂).Extends (e₁' ++ e₂') := by
  intro encoded encoded' he
  obtain ⟨bytes, hbytes, he⟩ := Crash.bind_eq_ok.1 he
  exact Crash.bind_eq_ok.2 ⟨bytes, h _ _ hbytes, h' _ _ he⟩

theorem ite {p : Prop} [Decidable p] (h : e₁.Extends e₁') (h' : e₂.Extends e₂') :
    (if p then e₁ else e₂).Extends (if p then e₁' else e₂') := by
  split_ifs
  · exact h
  · exact h'

theorem enumerate {α : Type} {body body' : ℕ → α → Encoder}
    (h : ∀ i x, (body i x).Extends (body' i x)) (i : ℕ) (xs : List α) :
    (Protocol.enumerate body i xs).Extends (Protocol.enumerate body' i xs) := by
  induction xs generalizing i with
  | nil => exact refl _
  | cons x xs ih => exact (h i x).append (ih (i + 1))

variable (maxBytes : ℕ)

theorem member (h : e₁.Extends e₁') (i : ℕ) (key : Str) :
    (Protocol.member maxBytes i key e₁).Extends (Protocol.member maxBytes i key e₁') :=
  (refl _).append h

theorem dictMember {F : Type} (φ : FloatFormat F) (h : e₁.Extends e₁') (i : ℕ) (key : Key F) :
    (Protocol.dictMember φ maxBytes i key e₁).Extends (Protocol.dictMember φ maxBytes i key e₁') :=
  (refl _).append h

end Encoder.Extends

section

variable {F : Type} {φ : FloatFormat F} {π : Pydantic F} {maxBytes : ℕ} {strictWorkerValue : Bool}

/-- With more levels, a value is encoded as with fewer. -/
theorem iterJsonBytes_succ (levels : ℕ) (m : Bool) (value : Value F) :
    (iterJsonBytes φ π maxBytes strictWorkerValue levels m value).Extends
      (iterJsonBytes φ π maxBytes strictWorkerValue (levels + 1) m value) := by
  induction levels generalizing m value with
  | zero => exact .fail _ _
  | succ levels ih =>
    have hobj {e e' : Encoder} (h : e.Extends e') (left right : String) :
        (ascii maxBytes left ++ e ++ ascii maxBytes right).Extends
          (ascii maxBytes left ++ e' ++ ascii maxBytes right) :=
      (Encoder.Extends.append (.refl _) h).append (.refl _)
    have hdict (items : List (Key F × Value F)) := hobj (.enumerate (fun index item =>
      Encoder.Extends.dictMember maxBytes φ (ih m item.2) index item.1) 0 items)
      "\x7b" "\x7d"
    have hlist (items : List (Value F)) := hobj (.enumerate (fun index value =>
      (Encoder.Extends.refl (separator maxBytes index)).append (ih m value)) 0 items) "[" "]"
    cases value with
    | none => exact .refl _
    | bool b => cases b <;> exact .refl _
    | int i => exact .refl _
    | float x => exact .refl _
    | str s => exact .refl _
    | list items =>
      rw [iterJsonBytes, iterJsonBytes]
      exact hlist items
    | tuple items =>
      rw [iterJsonBytes, iterJsonBytes]
      exact hlist items
    | dict items =>
      rw [iterJsonBytes, iterJsonBytes]
      refine .ite (.ite (.refl _) ?_) (hdict items)
      exact (((Encoder.Extends.refl _).append (.member maxBytes (ih m _) 0 _)).append
        (.member maxBytes (ih m _) 1 _)).append (.refl _)
    | restrictedPythonTask function agent args keywordArgs =>
      rw [iterJsonBytes, iterJsonBytes]
      refine .ite (.refl _) ?_
      exact ((((((Encoder.Extends.refl _).append (.member maxBytes (ih true _) 0 _)).append
        (.member maxBytes (ih true _) 1 _)).append (.member maxBytes (ih true _) 2 _)).append
        (.member maxBytes (ih true _) 3 _)).append (.member maxBytes (ih true _) 4 _)).append
        (.refl _)
    | model cls items =>
      rw [iterJsonBytes, iterJsonBytes]
      refine .ite (.refl _) (.ite (.refl _) ?_)
      have hfields := Encoder.Extends.enumerate (fun index (field : Str × Value F) =>
        Encoder.Extends.member maxBytes (ih false field.2) index field.1) 0 items
      exact ((((Encoder.Extends.refl _).append (.refl _)).append hfields).append
        (.ite (.member maxBytes (ih false _) _ _) (.refl _))).append (.refl _)
    | rawPlainDict items =>
      rw [iterJsonBytes, iterJsonBytes]
      exact hdict items
    | object typeName => exact .fail _ _

end

/-! ## Sending alone -/

/-- What is written after something else can be written alone. -/
theorem Encoder.Cut.alone {e : ℕ → Encoder} (h : Encoder.Cut e) {maxBytes : ℕ}
    {encoded encoded' : ByteArray} (hle : encoded.size ≤ maxBytes)
    (hok : e maxBytes encoded = .ok encoded') : ∃ bytes, e maxBytes .empty = .ok bytes := by
  rcases h with hfails | ⟨bytes, hcut⟩
  · exact absurd hok (hfails maxBytes encoded hle _)
  · rw [hcut maxBytes encoded hle] at hok
    split_ifs at hok with hfit
    have hsize : ByteArray.empty.size + bytes.size ≤ maxBytes := by
      rw [ByteArray.size_empty]
      omega
    exact ⟨_, (hcut maxBytes .empty (Nat.zero_le _)).trans (if_pos hsize)⟩

section

variable {F : Type} {φ : FloatFormat F} {π : Pydantic F} {maxBytes : ℕ}

/-- The dictionary that a response is sent as. -/
def responseItems (result : Value F) : List (Str × Value F) :=
  [(.ofString "_", .str (.ofString "response")), (.ofString "result", result)]

theorem hasModelKey_responseItems (result : Value F) :
    ¬hasModelKey (strItems (responseItems result)) = true := by
  rw [hasModelKey_strItems]
  exact (by decide : modelKey ∉ [(.ofString "_" : Str), .ofString "result"])

/-- A result that is sent in a message is written after something else, a level lower. -/
theorem exists_of_response {result : Value F} {label : String} {encoded : ByteArray}
    (h : encodeSandboxMessage φ π maxBytes (.response result) label = .ok encoded) :
    ∃ before after : ByteArray, before.size ≤ maxBytes ∧
      iterJsonBytes φ π maxBytes false maxProtocolDepth true result before = .ok after := by
  have hmessage : iterJsonBytes φ π maxBytes false (maxProtocolDepth + 1) true
      (.dict (strItems (responseItems result))) .empty = .ok encoded :=
    encodeSandboxMessage_eq_ok.1 h
  rw [iterJsonBytes, if_neg (hasModelKey_responseItems result)] at hmessage
  obtain ⟨_, hopen, -⟩ := Crash.bind_eq_ok.1 hmessage
  obtain ⟨_, hbrace, hitems⟩ := Crash.bind_eq_ok.1 hopen
  obtain ⟨_, hkind, hresult⟩ := Crash.bind_eq_ok.1 hitems
  obtain ⟨_, hmember, -⟩ := Crash.bind_eq_ok.1 hresult
  obtain ⟨before, hkey, hvalue⟩ := Crash.bind_eq_ok.1 hmember
  refine ⟨before, _, ?_, hvalue⟩
  have hsize := Encoder.Fits.chunk _ _ _ hbrace (Nat.zero_le maxBytes)
  have hsize := Encoder.Fits.dictMember φ (iterJsonBytes_fits _ _ _) _ _ _ _ hkind hsize
  exact ((Encoder.Fits.separator 1).append (.iterJsonStringBytes (.ofString "result"))).append
    (.chunk _) _ _ hkey hsize

/-- A result that has been sent in a message can be sent alone. -/
theorem encodeProtocolValue_of_response {result : Value F} {label : String} {encoded : ByteArray}
    (h : encodeSandboxMessage φ π maxBytes (.response result) label = .ok encoded)
    (label' : String) :
    ∃ bytes, encodeProtocolValue φ π maxBytes false result label' = .ok bytes := by
  obtain ⟨before, after, hsize, hvalue⟩ := exists_of_response h
  obtain ⟨bytes, hbytes⟩ := (cut_iterJsonBytes φ π false maxProtocolDepth true result).alone hsize
    hvalue
  exact ⟨bytes, encodeProtocolValue_eq_ok.2 (iterJsonBytes_succ _ _ _ _ _ hbytes)⟩

/-! ## The two hops -/

variable (φ π) (c : Conversions F)

/-- What the session reads of a response, from the message that the controller has sent. -/
def readResponse (encoded : ByteArray) : Except MessageError (Value F) := do
  let data ← (decodeJsonValue φ maxPacketBytes encoded "Sandbox message").mapError .invalid
  match ← parseJson φ π c data with
  | .response result => .ok result
  | _ => .error (.invalid (.valueError "Unexpected sandbox protocol response"))

/-- What the worker reads of a result, which the session sends on. -/
def readResult (result : Value F) : Except PyError (Value F) := do
  let encoded ← encodeProtocolValue φ π maxPacketBytes false result "Local sandbox response"
  decodeProtocolValue φ π maxProtocolBytes encoded "Local sandbox response"

/-- What the worker reads of the result of a callback, in two hops. -/
def relayed (result : Value F) : Except MessageError (Value F) := do
  let encoded ← (encodeSandboxMessage φ π maxPacketBytes (.response result)
    "Sandbox message").mapError .invalid
  let result ← readResponse φ π c encoded
  (readResult φ π result).mapError .invalid

variable {φ π c}

theorem parseJson_response {tree : Json.Tree F} {result : Value F}
    (h : deserializeMember π tree = .ok result) :
    parseJson φ π c (.obj [(.ofString "_", .str (.ofString "response")),
      (.ofString "result", tree)]) = .ok (.response result) := by
  have hread : (deserializeMember π tree >>= fun result => .ok (.response result)) =
      (.ok (.response result) : Except MessageError (SandboxMessage F)) := by
    rw [h]
    rfl
  exact hread

/-- A result that is sent is read by the session. -/
theorem readResponse_eq_ok (hπ : π.Revalidates) {result : Value F}
    (hresult : Transferable φ π result) {label : String} {encoded : ByteArray}
    (h : encodeSandboxMessage φ π maxPacketBytes (.response result) label = .ok encoded) :
    readResponse φ π c encoded = .ok result.untuple := by
  have hmessage : iterJsonBytes φ π maxPacketBytes false (maxProtocolDepth + 1) true
      (.dict (strItems (responseItems result))) .empty = .ok encoded :=
    encodeSandboxMessage_eq_ok.1 h
  have hsize := iterJsonBytes_fits _ _ _ _ _ hmessage (Nat.zero_le _)
  have hn : ((responseItems result).map Prod.fst).Nodup :=
    (by decide : [(.ofString "_" : Str), .ofString "result"].Nodup)
  have hitems : ∀ p ∈ responseItems result, Transferable φ π p.2 :=
    List.forall_mem_cons.2 ⟨.str _, List.forall_mem_singleton.2 hresult⟩
  obtain ⟨⟨bytes, hbytes, rfl⟩, hwired⟩ :=
    (Transferable.dict hn hitems).encodes hπ true _ _ hmessage
  rw [ByteArray.empty_append] at hsize ⊢
  have hdecode := decodeJsonValue_of_checked hwired.checked hbytes hsize "Sandbox message"
  -- the result is within the message, a level lower
  obtain ⟨before, after, -, hvalue⟩ := exists_of_response h
  have hread := deserialize_succ π (hresult.encodes hπ true _ _ hvalue).2.deserialize
  have hmember : deserializeMember π (wire φ maxProtocolDepth true result) =
      .ok result.untuple := by
    rw [deserializeMember, hread]
    rfl
  have htree : wire φ (maxProtocolDepth + 1) true (.dict (strItems (responseItems result))) =
      .obj [(.ofString "_", .str (.ofString "response")),
        (.ofString "result", wire φ maxProtocolDepth true result)] := by
    rw [wire, if_neg (hasModelKey_responseItems result), wire_strItems]
    rfl
  rw [htree] at hdecode
  rw [readResponse, hdecode]
  exact Crash.bind_eq_ok.2 ⟨_, rfl, Crash.bind_eq_ok.2 ⟨_, parseJson_response hmember, rfl⟩⟩

/-- A result that is sent reaches the worker, with lists for tuples. -/
theorem relayed_eq_ok (hπ : π.Revalidates) {result : Value F} (hresult : Transferable φ π result)
    (hlists : result.untuple = result) {encoded : ByteArray}
    (h : encodeSandboxMessage φ π maxPacketBytes (.response result) "Sandbox message" =
      .ok encoded) : relayed φ π c result = .ok result := by
  have hsession := readResponse_eq_ok (c := c) hπ hresult h
  obtain ⟨bytes, hbytes⟩ := encodeProtocolValue_of_response h "Local sandbox response"
  have hworker := decodeProtocolValue_encodeProtocolValue hπ hresult hbytes "Local sandbox response"
  rw [hlists] at hsession hworker
  rw [relayed, h]
  refine Crash.bind_eq_ok.2 ⟨encoded, rfl, Crash.bind_eq_ok.2 ⟨result, hsession, ?_⟩⟩
  rw [readResult, hbytes]
  exact congrArg (Except.mapError MessageError.invalid) hworker

end

end Hyperforge.Codemode.Protocol
