import Hyperforge.Codemode.Bounded
import Hyperforge.Codemode.Reserved
import Hyperforge.Library.Json.Collapse

/-!
# Strict worker values

What the tools of a worker return is normalized before it is sent (`normalizeWorkerValue`): it is
encoded, and read back as plain JSON. A strict encoding has neither models nor the key `__model__`,
so that what is read is no marker, and the worker decodes it as it is.

* `writes_strict`: the tree that is written has no reserved key, though its keys may collide, as
  those of a dictionary only become strings when they are written;
* `prints_ofTree`: a tree that is read is written again, within the same bound.
-/

namespace Hyperforge.Codemode.Protocol

open Json hiding Tree

section Normalize

variable {F : Type} (φ : FloatFormat F) (π : Pydantic F)

/-- `sub in s` -/
def contains (sub s : String) : Bool := s.toList.tails.any sub.toList.isPrefixOf

/-- `_normalize_worker_value` -/
def normalizeWorkerValue (value : Value F) (maxBytes : ℕ) (label : String) :
    Except PyError (Json.Tree F × ℕ) :=
  match encodeProtocolValue φ π maxBytes true value label with
  | .ok encoded =>
    match decodeUtf8 encoded >>= loads φ maxDigits with
    | some n => .ok (n, encoded.size)
    | none => .error (.typeError (label ++ " is not a serializable worker value"))
  | .error (.typeError message) => .error (.typeError message)
  | .error (.valueError message) =>
    if contains "exceeds maximum size" message then .error (.valueError message)
    else if contains "reserved '__model__' key" message then .error (.valueError message)
    else .error (.typeError (label ++ " is not a serializable worker value"))

/-- The values that a program may build: the wrapper of the encoder is not one. -/
inductive Unwrapped : Value F → Prop
  | none : Unwrapped .none
  | bool (b : Bool) : Unwrapped (.bool b)
  | int (i : ℤ) : Unwrapped (.int i)
  | float (x : F) : Unwrapped (.float x)
  | str (s : Str) : Unwrapped (.str s)
  | list {items : List (Value F)} (h : ∀ x ∈ items, Unwrapped x) : Unwrapped (.list items)
  | tuple {items : List (Value F)} (h : ∀ x ∈ items, Unwrapped x) : Unwrapped (.tuple items)
  | dict {items : List (Key F × Value F)} (h : ∀ p ∈ items, Unwrapped p.2) :
    Unwrapped (.dict items)
  | restrictedPythonTask (function agent : Str) (args : List (Value F))
    (keywordArgs : List (Key F × Value F)) :
    Unwrapped (.restrictedPythonTask function agent args keywordArgs)
  | model (cls : ModelClass) (items : List (Str × Value F)) : Unwrapped (.model cls items)
  | object (typeName : String) : Unwrapped (.object typeName)

end Normalize

/-! ## What is written -/

section Writes

variable {F : Type} {φ : FloatFormat F} {π : Pydantic F} {levels : ℕ}

/-- A tree that is written in strict mode: its keys may collide. -/
structure StrictTree (φ : FloatFormat F) (levels : ℕ) (tree : Json.Tree F) : Prop where
  lexical : tree.Lexical φ maxDigits
  depth : validateJsonDepth φ levels tree = true
  unreserved : Unreserved tree

theorem StrictTree.arr_iff {items : List (Json.Tree F)} :
    StrictTree φ (levels + 1) (.arr items) ↔ ∀ x ∈ items, StrictTree φ levels x := by
  constructor
  · rintro ⟨hlex, hdepth, hres⟩ x hx
    rw [Json.Tree.Lexical, itemsLexical_iff] at hlex
    rw [validateJsonDepth, List.all_eq_true] at hdepth
    rw [Unreserved, itemsUnreserved_iff] at hres
    exact ⟨hlex x hx, hdepth x hx, hres x hx⟩
  · intro h
    refine ⟨?_, ?_, ?_⟩
    · rw [Json.Tree.Lexical, itemsLexical_iff]
      exact fun x hx => (h x hx).lexical
    · rw [validateJsonDepth, List.all_eq_true]
      exact fun x hx => (h x hx).depth
    · rw [Unreserved, itemsUnreserved_iff]
      exact fun x hx => (h x hx).unreserved

theorem StrictTree.obj_iff {ms : List (Str × Json.Tree F)} :
    StrictTree φ (levels + 1) (.obj ms) ↔
      modelKey ∉ ms.map Prod.fst ∧ ∀ m ∈ ms, StrictTree φ levels m.2 := by
  constructor
  · rintro ⟨hlex, hdepth, hres⟩
    rw [Json.Tree.Lexical, membersLexical_iff] at hlex
    rw [validateJsonDepth, List.all_eq_true] at hdepth
    rw [Unreserved, membersUnreserved_iff] at hres
    exact ⟨hres.1, fun m hm => ⟨hlex m hm, hdepth m hm, hres.2 m hm⟩⟩
  · rintro ⟨hkey, h⟩
    refine ⟨?_, ?_, ?_⟩
    · rw [Json.Tree.Lexical, membersLexical_iff]
      exact fun m hm => (h m hm).lexical
    · rw [validateJsonDepth, List.all_eq_true]
      exact fun m hm => (h m hm).depth
    · rw [Unreserved, membersUnreserved_iff]
      exact ⟨hkey, fun m hm => (h m hm).unreserved⟩

theorem StrictTree.pos {tree : Json.Tree F} (h : StrictTree φ levels tree) :
    ∃ n, levels = n + 1 := by
  rcases levels with _ | n
  · exact absurd h.depth (by simp [validateJsonDepth])
  · exact ⟨n, rfl⟩

/-- What is read of a tree has no reserved key either. -/
theorem StrictTree.collapse {tree : Json.Tree F} (h : StrictTree φ levels tree) :
    StrictTree φ levels tree.collapse := by
  induction tree using Json.Tree.induction generalizing levels with
  | null | bool b | int i | float x | str s => exact h
  | arr items ih =>
    obtain ⟨n, rfl⟩ := h.pos
    rw [Json.Tree.collapse, collapseItems_eq_map, arr_iff, List.forall_mem_map]
    exact fun x hx => ih x hx (arr_iff.1 h x hx)
  | obj ms ih =>
    obtain ⟨n, rfl⟩ := h.pos
    obtain ⟨hkey, hms⟩ := obj_iff.1 h
    rw [Json.Tree.collapse_obj, obj_iff]
    constructor
    · rintro hmem
      obtain ⟨p, hp, hpkey⟩ := List.mem_map.1 hmem
      obtain ⟨m, hm, heq, -⟩ := exists_of_mem_collapse hp
      exact hkey (List.mem_map.2 ⟨m, hm, heq.trans hpkey⟩)
    · rintro p hp
      obtain ⟨m, hm, -, heq⟩ := exists_of_mem_collapse hp
      exact heq ▸ ih m hm (hms m hm)

/-- The marker is no literal. -/
theorem modelKey_ne_literal {l : Literal} (hl : l.WellFormed) : chars l.text ≠ modelKey := by
  obtain ⟨c, cs, hcs, hc⟩ := hl.begins
  rw [hcs]
  intro heq
  have hhead : c = '_' := CodePoint.scalar.inj (List.cons.inj heq).1
  rcases hc with hc | hc
  · exact absurd (hc.symm.trans hhead) (by decide)
  · rw [hhead] at hc
    exact absurd hc (by decide)

variable (φ) (maxBytes : ℕ)

/-- A key is written as its text, which is the marker only if the key is. -/
theorem writes_key (key : Key F) :
    (match jsonKey φ maxBytes key with
      | .ok key => iterJsonStringBytes maxBytes key
      | .error e => Encoder.fail e).Writes (quote (key.text φ))
        (key.text φ = modelKey → key = Key.str modelKey) := by
  have hwrites (s : Str) {P : Prop} (hP : P) :
      (iterJsonStringBytes maxBytes s).Writes (quote s) P :=
    (Encoder.Writes.iterJsonStringBytes maxBytes s).imp fun _ => hP
  cases key with
  | str s => exact hwrites s fun heq => congrArg Key.str heq
  | none =>
    have hne : (.ofString "null" : Str) ≠ modelKey := by decide
    exact hwrites _ fun heq => absurd heq hne
  | bool b =>
    have hne : (.ofString "false" : Str) ≠ modelKey ∧ (.ofString "true" : Str) ≠ modelKey := by
      decide
    cases b
    · exact hwrites _ fun heq => absurd heq hne.1
    · exact hwrites _ fun heq => absurd heq hne.2
  | int i =>
    have hne : (Key.int (F := F) i).text φ ≠ modelKey := by
      rw [Key.text, ← intLiteral_text]
      exact modelKey_ne_literal (intLiteral_wellFormed i)
    rw [jsonKey]
    split_ifs
    · exact .fail _
    · exact .fail _
    · exact hwrites _ fun heq => absurd heq hne
  | float x =>
    rw [jsonKey]
    split_ifs with hx
    · have hne : (Key.float x).text φ ≠ modelKey := by
        obtain ⟨l, hl, -, hrepr⟩ := φ.literal x hx
        rw [Key.text, ← hrepr]
        exact modelKey_ne_literal hl
      exact hwrites _ fun heq => absurd heq hne
    · exact .fail _
  | other typeName => exact .fail _

theorem writes_dictMember {e : Encoder} {s : Str} {P : Prop} (h : e.Writes s P) (i : ℕ)
    (key : Key F) : (dictMember φ maxBytes i key e).Writes
      (comma i ++ quote (key.text φ) ++ .scalar ':' :: s)
      ((key.text φ = modelKey → key = Key.str modelKey) ∧ P) := by
  have := (((Encoder.Writes.separator maxBytes i).append (writes_key φ maxBytes key)).append
    (Encoder.Writes.ascii maxBytes ":")).append h
  rw [List.append_assoc] at this
  exact this.imp fun hP => ⟨hP.1.1.2, hP.2⟩

theorem str_modelKey_notMem {items : List (Key F × Value F)} (h : ¬hasModelKey items = true)
    {p : Key F × Value F} (hp : p ∈ items) : p.1 ≠ .str modelKey := by
  intro heq
  refine h (List.any_eq_true.2 ⟨p, hp, ?_⟩)
  simp [heq]

variable {φ}

/-- In strict mode, an encoder writes a value as its tree, without the reserved key. -/
theorem writes_strict {value : Value F} (hv : Unwrapped value) (m : Bool) :
    (iterJsonBytes φ π maxBytes true levels m value).Writes ((wire φ levels m value).text φ)
      (StrictTree φ levels (wire φ levels m value)) := by
  induction levels generalizing value with
  | zero => exact .fail _
  | succ levels ih =>
    have harr {items : List (Value F)} (h : ∀ x ∈ items, Unwrapped x) :=
      (Encoder.Writes.items maxBytes fun x hx => ih (h x hx)).imp fun hP =>
        StrictTree.arr_iff.2 (List.forall_mem_map.2 hP)
    cases hv with
    | none =>
      rw [iterJsonBytes, wire, Json.Tree.text]
      exact (Encoder.Writes.ascii maxBytes "null").imp fun _ => ⟨trivial, rfl, trivial⟩
    | bool b =>
      cases b
      · exact (Encoder.Writes.ascii maxBytes "false").imp fun _ => ⟨trivial, rfl, trivial⟩
      · exact (Encoder.Writes.ascii maxBytes "true").imp fun _ => ⟨trivial, rfl, trivial⟩
    | int i =>
      rw [iterJsonBytes, wire, Json.Tree.text, intBytes]
      refine .ite (fun _ => .fail _) fun _ => .ite (fun _ => .fail _) fun h => ?_
      exact (Encoder.Writes.textBytes maxBytes).imp fun _ => ⟨not_lt.1 h, rfl, trivial⟩
    | float x =>
      rw [iterJsonBytes, wire, Json.Tree.text]
      refine .ite (fun hx => ?_) fun _ => .fail _
      exact (Encoder.Writes.textBytes maxBytes).imp fun _ => ⟨hx, hx, trivial⟩
    | str s =>
      rw [iterJsonBytes, wire, Json.Tree.text]
      exact (Encoder.Writes.iterJsonStringBytes maxBytes s).imp fun _ => ⟨trivial, rfl, trivial⟩
    | list h =>
      rw [iterJsonBytes, wire]
      exact harr h
    | tuple h =>
      rw [iterJsonBytes, wire]
      exact harr h
    | dict h =>
      rw [iterJsonBytes, wire]
      refine .ite (fun _ => .fail _) fun hkey => ?_
      rw [if_neg hkey]
      have hloop := Encoder.Writes.members fun i p hp =>
        writes_dictMember φ maxBytes (ih (h p hp)) i p.1
      have hobj := ((Encoder.Writes.ascii maxBytes "\x7b").append hloop).append
        (Encoder.Writes.ascii maxBytes "\x7d")
      refine hobj.imp fun hP => StrictTree.obj_iff.2 ⟨fun hmem => ?_, ?_⟩
      · rw [List.map_map] at hmem
        obtain ⟨p, hp, htext⟩ := List.mem_map.1 hmem
        exact str_modelKey_notMem hkey hp ((hP.1.2 p hp).1 htext)
      · exact List.forall_mem_map.2 fun p hp => (hP.1.2 p hp).2
    | restrictedPythonTask function agent args keywordArgs =>
      rw [iterJsonBytes, if_pos rfl]
      exact .fail _
    | model cls items =>
      rw [iterJsonBytes, if_pos rfl]
      exact .fail _
    | object typeName => exact .fail _

end Writes

/-! ## Reading, and writing again -/

section Again

variable {F : Type} {φ : FloatFormat F} {π : Pydantic F} {levels : ℕ}

/-- A tree without the reserved key is decoded as it is. -/
theorem deserialize_ofTree {tree : Json.Tree F} (h : StrictTree φ levels tree) :
    deserialize π levels tree = .ok (.ofTree tree) := by
  induction tree using Json.Tree.induction generalizing levels with
  | null | bool b | int i | float x | str s =>
    obtain ⟨n, rfl⟩ := h.pos
    rw [deserialize, Value.ofTree]
  | arr items ih =>
    obtain ⟨n, rfl⟩ := h.pos
    have hitems : mapItems (deserialize π n) (items.map id) = .ok (items.map Value.ofTree) :=
      mapItems_map fun x hx => ih x hx (StrictTree.arr_iff.1 h x hx)
    rw [List.map_id] at hitems
    rw [deserialize, Value.ofTree, hitems, ofItems_eq_map]
    rfl
  | obj ms ih =>
    obtain ⟨n, rfl⟩ := h.pos
    obtain ⟨hkey, hms⟩ := StrictTree.obj_iff.1 h
    have hmembers : mapMembers (deserialize π n) (ms.map fun m => (m.1, id m.2)) =
        .ok (ms.map fun m => (m.1, .ofTree m.2)) :=
      mapMembers_map fun m hm => ih m hm (hms m hm)
    have hid : (ms.map fun m => (m.1, id m.2)) = ms := List.map_id ms
    rw [hid] at hmembers
    rw [deserialize, get_eq_none hkey, Value.ofTree, hmembers, ofMembers_eq]
    rfl

/-- An encoder writes a text that has an encoding, if it fits. -/
def Encoder.Prints (e : ℕ → Encoder) (s : Str) : Prop :=
  ∀ bytes, encodeUtf8 s = some bytes → Encoder.CutOf e bytes

namespace Encoder.Prints

variable {e e' : ℕ → Encoder} {s t : Str}

theorem done : Prints (fun _ => Encoder.done) [] := by
  rintro bytes ⟨⟩
  exact .done

theorem append (h : Prints e s) (h' : Prints e' t) :
    Prints (fun maxBytes => e maxBytes ++ e' maxBytes) (s ++ t) := by
  intro bytes hbytes
  obtain ⟨a, b, ha, hb, rfl⟩ := encodeUtf8_append_eq_some hbytes
  exact (h a ha).append (h' b hb)

theorem textBytes (s : Str) : Prints (fun maxBytes => Protocol.textBytes maxBytes s) s :=
  fun _ => .textBytes

theorem ascii (literal : String) :
    Prints (fun maxBytes => Protocol.ascii maxBytes literal) (.ofString literal) := by
  intro bytes hbytes
  obtain ⟨cs, hcs, rfl⟩ := encodeUtf8_eq_some.1 hbytes
  rw [← List.map_injective_iff.2 scalar_injective hcs, String.utf8Encode_toList]
  exact .chunk _

theorem iterJsonStringBytes (s : Str) :
    Prints (fun maxBytes => Protocol.iterJsonStringBytes maxBytes s) (quote s) := by
  have hpieces : Prints (fun maxBytes => Protocol.enumerate
      (fun _ piece => Protocol.textBytes maxBytes (dumps piece)) 0 (pieces s)) (dumps s) := by
    intro bytes hbytes
    exact cutOf_pieces (by rwa [pieces_flatten]) 0
  exact ((ascii "\"").append hpieces).append (ascii "\"")

theorem separator (i : ℕ) : Prints (fun maxBytes => Protocol.separator maxBytes i) (comma i) := by
  rcases i with _ | i
  · exact done
  · exact ascii ","

theorem member (h : Prints e s) (i : ℕ) (key : Str) :
    Prints (fun maxBytes => Protocol.member maxBytes i key (e maxBytes))
      (comma i ++ quote key ++ .scalar ':' :: s) := by
  have := (((separator i).append (iterJsonStringBytes key)).append (ascii ":")).append h
  rwa [List.append_assoc] at this

theorem enumerate {α : Type} {body : ℕ → ℕ → α → Encoder} {text : ℕ → α → Str} {xs : List α}
    (h : ∀ i, ∀ x ∈ xs, Prints (fun maxBytes => body maxBytes i x) (text i x)) (i : ℕ) :
    Prints (fun maxBytes => Protocol.enumerate (body maxBytes) i xs) (texts text i xs) := by
  induction xs generalizing i with
  | nil => exact done
  | cons x xs ih =>
    exact (h i x List.mem_cons_self).append
      (ih (fun j y hy => h j y (List.mem_cons_of_mem _ hy)) (i + 1))

theorem int {i : ℤ} (hi : (Nat.toDigits 10 i.natAbs).length ≤ maxDigits) :
    Prints (fun maxBytes => if i.natAbs.size > maxBytes * 4 then .fail .tooLarge
      else intBytes maxBytes i) (chars (intText i)) := by
  intro bytes hbytes maxBytes encoded hle
  have hlength := length_le_size hbytes
  rw [chars, List.length_map] at hlength
  by_cases hearly : i.natAbs.size > maxBytes * 4
  · have hlong := lt_length_intText hearly
    simp only [if_pos hearly]
    rw [if_neg (by omega)]
    rfl
  · simp only [if_neg hearly, intBytes, if_neg (not_lt.2 hi)]
    exact textBytes _ bytes hbytes maxBytes encoded hle

end Encoder.Prints

variable (π) (strictWorkerValue : Bool)

/-- A tree without the reserved key is written as its text. -/
theorem prints_ofTree {tree : Json.Tree F} (h : StrictTree φ levels tree) (m : Bool) :
    Encoder.Prints (fun maxBytes =>
      iterJsonBytes φ π maxBytes strictWorkerValue levels m (.ofTree tree)) (tree.text φ) := by
  induction tree using Json.Tree.induction generalizing levels with
  | null =>
    obtain ⟨n, rfl⟩ := h.pos
    exact .ascii "null"
  | bool b =>
    obtain ⟨n, rfl⟩ := h.pos
    cases b
    · exact .ascii "false"
    · exact .ascii "true"
  | int i =>
    obtain ⟨n, rfl⟩ := h.pos
    exact .int h.lexical
  | float x =>
    obtain ⟨n, rfl⟩ := h.pos
    have hx : φ.isFinite x = true := h.depth
    simp only [Value.ofTree, iterJsonBytes, if_pos hx]
    exact .textBytes _
  | str s =>
    obtain ⟨n, rfl⟩ := h.pos
    exact .iterJsonStringBytes s
  | arr items ih =>
    obtain ⟨n, rfl⟩ := h.pos
    have hloop := Encoder.Prints.enumerate (fun i x hx =>
      (Encoder.Prints.separator i).append (ih x hx (StrictTree.arr_iff.1 h x hx))) 0
    simp only [Value.ofTree, ofItems_eq_map, iterJsonBytes, enumerate_map]
    rw [Json.Tree.text, itemsText_eq_texts]
    exact ((Encoder.Prints.ascii "[").append hloop).append (.ascii "]")
  | obj ms ih =>
    obtain ⟨n, rfl⟩ := h.pos
    obtain ⟨hkey, hms⟩ := StrictTree.obj_iff.1 h
    have hmodel : ¬hasModelKey (strItems (ms.map fun p => (p.1, Value.ofTree p.2))) := by
      rwa [hasModelKey_strItems, map_fst_map]
    have hloop := Encoder.Prints.enumerate (fun i p hp =>
      (ih p hp (hms p hp)).member i p.1) 0
    simp only [Value.ofTree, ofMembers_eq, iterJsonBytes, if_neg hmodel]
    simp only [strItems, enumerate_map]
    rw [Json.Tree.text, membersText_eq_texts]
    exact ((Encoder.Prints.ascii "\x7b").append hloop).append (.ascii "\x7d")

variable {strictWorkerValue}

/-- A tree without the reserved key is encoded within any bound that its text fits. -/
theorem encodeProtocolValue_ofTree {tree : Json.Tree F} {bytes : ByteArray} {maxBytes : ℕ}
    (h : StrictTree φ (maxProtocolDepth + 1) tree) (hbytes : encodeUtf8 (tree.text φ) = some bytes)
    (hle : bytes.size ≤ maxBytes) (label : String) :
    encodeProtocolValue φ π maxBytes strictWorkerValue (.ofTree tree) label = .ok bytes := by
  refine encodeProtocolValue_eq_ok.2 ?_
  refine (prints_ofTree π strictWorkerValue h true bytes hbytes maxBytes .empty
    (Nat.zero_le _)).trans ?_
  rw [ByteArray.empty_append, if_pos (by simpa using hle)]

theorem decodeProtocolValue_text {tree : Json.Tree F} {bytes : ByteArray} {maxBytes : ℕ}
    (h : StrictTree φ (maxProtocolDepth + 1) tree) (hwf : tree.WellFormed φ maxDigits)
    (hbytes : encodeUtf8 (tree.text φ) = some bytes) (hle : bytes.size ≤ maxBytes)
    (label : String) : decodeProtocolValue φ π maxBytes bytes label = .ok (.ofTree tree) := by
  have hjson : decodeJsonValue φ maxBytes bytes label = .ok tree := by
    rw [decodeJsonValue, if_neg (not_lt.2 hle), decodeUtf8_encodeUtf8 hbytes, Option.bind_eq_bind,
      Option.bind_some, loads_text hwf]
    exact if_pos h.depth
  refine Crash.bind_eq_ok.2 ⟨_, hjson, ?_⟩
  simp only [deserialize_ofTree h]

/-- A tree without the reserved key is normalized to itself. -/
theorem normalizeWorkerValue_ofTree {tree : Json.Tree F} {bytes : ByteArray} {maxBytes : ℕ}
    (h : StrictTree φ (maxProtocolDepth + 1) tree) (hwf : tree.WellFormed φ maxDigits)
    (hbytes : encodeUtf8 (tree.text φ) = some bytes) (hle : bytes.size ≤ maxBytes)
    (label : String) :
    normalizeWorkerValue φ π (.ofTree tree) maxBytes label = .ok (tree, bytes.size) := by
  have hloads : (decodeUtf8 bytes >>= loads φ maxDigits) = some tree := by
    rw [decodeUtf8_encodeUtf8 hbytes, Option.bind_eq_bind, Option.bind_some, loads_text hwf]
  rw [normalizeWorkerValue]
  simp only [encodeProtocolValue_ofTree π h hbytes hle, hloads]

/-- What is normalized is the tree that is written, as it is read. -/
theorem exists_of_normalizeWorkerValue {value : Value F} (hv : Unwrapped value) {maxBytes : ℕ}
    {label : String} {n : Json.Tree F} {k : ℕ}
    (h : normalizeWorkerValue φ π value maxBytes label = .ok (n, k)) :
    ∃ tree bytes, StrictTree φ (maxProtocolDepth + 1) tree ∧
      encodeUtf8 (tree.text φ) = some bytes ∧ bytes.size ≤ maxBytes ∧
      n = tree.collapse ∧ k = bytes.size := by
  rw [normalizeWorkerValue] at h
  rcases hencode : encodeProtocolValue φ π maxBytes true value label with (_ | message) | encoded
  · rw [hencode] at h
    cases h
  · rw [hencode] at h
    dsimp only at h
    split_ifs at h
  · have hsize := size_encodeProtocolValue_le hencode
    obtain ⟨⟨bytes, hbytes, rfl⟩, htree⟩ := writes_strict maxBytes hv true _ _
      (encodeProtocolValue_eq_ok.1 hencode)
    rw [ByteArray.empty_append] at hencode hsize
    have hloads : (decodeUtf8 bytes >>= loads φ maxDigits) =
        some (wire φ (maxProtocolDepth + 1) true value).collapse := by
      rw [decodeUtf8_encodeUtf8 hbytes, Option.bind_eq_bind, Option.bind_some,
        loads_text_collapse htree.lexical]
    simp only [hencode, hloads, Except.ok.injEq, Prod.mk.injEq] at h
    exact ⟨_, bytes, htree, hbytes, hsize, h.1.symm, h.2.symm⟩

/-- A normalized value is plain JSON without the reserved key. It is encoded again as no more bytes
    than were counted, is decoded as it is, and is normalized to itself. -/
theorem normalizeWorkerValue_spec {value : Value F} (hv : Unwrapped value) {maxBytes : ℕ}
    {label : String} {n : Json.Tree F} {k : ℕ}
    (h : normalizeWorkerValue φ π value maxBytes label = .ok (n, k)) :
    Unreserved n ∧ k ≤ maxBytes ∧
      (∀ limit, k ≤ limit → ∀ strictWorkerValue label', ∃ encoded,
        encodeProtocolValue φ π limit strictWorkerValue (.ofTree n) label' = .ok encoded ∧
        encoded.size ≤ k ∧ decodeProtocolValue φ π limit encoded label' = .ok (.ofTree n)) ∧
      ∃ k', normalizeWorkerValue φ π (.ofTree n) maxBytes label = .ok (n, k') := by
  obtain ⟨tree, bytes, htree, hbytes, hsize, rfl, rfl⟩ := exists_of_normalizeWorkerValue π hv h
  -- the members that are not read make the text longer only
  obtain ⟨bytes', hbytes', hle⟩ := exists_encodeUtf8_collapse hbytes
  have hread := htree.collapse
  have hwf := htree.lexical.wellFormed_collapse
  refine ⟨hread.unreserved, hsize, fun limit hlimit strictWorkerValue label' => ?_, ?_⟩
  · have hfit := hle.trans hlimit
    exact ⟨bytes', encodeProtocolValue_ofTree π hread hbytes' hfit label', hle,
      decodeProtocolValue_text π hread hwf hbytes' hfit label'⟩
  · exact ⟨_, normalizeWorkerValue_ofTree π hread hwf hbytes' (hle.trans hsize) label⟩

end Again

/-- A dictionary with two keys that are written alike. -/
def colliding : Value Bool := .dict [(.int 1, .str (.ofString "a")), (.str (.ofString "1"), .none)]

theorem colliding_isOk : (normalizeWorkerValue half textContext colliding 100 "result").isOk := by
  decide +kernel

/-- A dictionary whose keys collide is normalized. -/
theorem normalizeWorkerValue_colliding : ∃ n k,
    normalizeWorkerValue half textContext colliding 100 "result" = .ok (n, k) ∧
      Unreserved n ∧ k ≤ 100 ∧
      (∀ limit, k ≤ limit → ∀ strictWorkerValue label', ∃ encoded,
        encodeProtocolValue half textContext limit strictWorkerValue (.ofTree n) label' =
          .ok encoded ∧ encoded.size ≤ k ∧
        decodeProtocolValue half textContext limit encoded label' = .ok (.ofTree n)) ∧
      ∃ k', normalizeWorkerValue half textContext (.ofTree n) 100 "result" = .ok (n, k') := by
  have hunwrapped : Unwrapped colliding := .dict (by simp [Unwrapped.str, Unwrapped.none])
  rcases h : normalizeWorkerValue half textContext colliding 100 "result" with _ | ⟨n, k⟩
  · have hok := colliding_isOk
    rw [h] at hok
    cases hok
  · exact ⟨n, k, rfl, normalizeWorkerValue_spec textContext hunwrapped h⟩

end Hyperforge.Codemode.Protocol
