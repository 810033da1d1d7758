import Hyperforge.Codemode.Protocol

/-!
# What the encoder writes

Rules for the generators of the encoder: the text that they write when they succeed
(`Encoder.Writes`), and the bound that they keep (`Encoder.Fits`).
-/

namespace Hyperforge.Codemode.Protocol

open Json hiding Tree

/-! ## What an encoder writes -/

/-- When an encoder succeeds, it has added a text to the bytes, and `P` holds. -/
def Encoder.Writes (e : Encoder) (s : Str) (P : Prop) : Prop :=
  ∀ encoded encoded', e encoded = .ok encoded' →
    (∃ bytes, encodeUtf8 s = some bytes ∧ encoded' = encoded ++ bytes) ∧ P

/-- The texts of some items, with their indices. -/
def texts {α : Type} (text : ℕ → α → Str) (i : ℕ) : List α → Str
  | [] => []
  | x :: xs => text i x ++ texts text (i + 1) xs

theorem texts_dumps (i : ℕ) (ss : List Str) :
    texts (fun _ s => dumps s) i ss = dumps ss.flatten := by
  induction ss generalizing i with
  | nil => rfl
  | cons s ss ih => rw [texts, ih, List.flatten_cons, dumps_append]

theorem pieces_flatten (s : Str) : (pieces s).flatten = s := by
  have htake : ∀ n, ((List.range n).map fun i =>
      (s.drop (i * jsonStringChunkChars)).take jsonStringChunkChars).flatten =
      s.take (n * jsonStringChunkChars) := by
    intro n
    induction n with
    | zero => simp
    | succ n ih =>
      rw [List.range_succ, List.map_append, List.flatten_append, ih, Nat.succ_mul, List.take_add]
      simp
  rw [pieces, htake, List.take_of_length_le]
  -- the number of the pieces is rounded up
  simp only [jsonStringChunkChars]
  omega

namespace Encoder.Writes

variable {e e' : Encoder} {s t : Str} {P Q : Prop} {maxBytes : ℕ}

theorem imp (h : e.Writes s P) (hPQ : P → Q) : e.Writes s Q :=
  fun _ _ he => ⟨(h _ _ he).1, hPQ (h _ _ he).2⟩

theorem text (h : e.Writes s P) (hst : s = t) (hPQ : P → Q) : e.Writes t Q :=
  hst ▸ h.imp hPQ

theorem fail (error : EncodeError) : (Encoder.fail error).Writes s P := by
  intro _ _ he
  cases he

theorem done : Encoder.done.Writes [] True := by
  rintro encoded _ ⟨⟩
  exact ⟨⟨.empty, rfl, by simp⟩, trivial⟩

theorem append (h : e.Writes s P) (h' : e'.Writes t Q) : (e ++ e').Writes (s ++ t) (P ∧ Q) := by
  intro encoded encoded'' he
  change (e encoded >>= e') = _ at he
  rcases hf : e encoded with error | encoded'
  · rw [hf] at he
    cases he
  · rw [hf] at he
    obtain ⟨⟨bytes, hs, rfl⟩, hP⟩ := h _ _ hf
    obtain ⟨⟨bytes', ht, rfl⟩, hQ⟩ := h' _ _ he
    exact ⟨⟨bytes ++ bytes', encodeUtf8_append hs ht, ByteArray.append_assoc⟩, hP, hQ⟩

variable (maxBytes)

theorem chunk {bytes : ByteArray} (h : encodeUtf8 s = some bytes) :
    (Protocol.chunk maxBytes bytes).Writes s True := by
  intro encoded encoded' he
  rw [Protocol.chunk] at he
  split_ifs at he
  cases he
  exact ⟨⟨bytes, h, rfl⟩, trivial⟩

theorem textBytes : (Protocol.textBytes maxBytes s).Writes s True := by
  rw [Protocol.textBytes]
  rcases h : encodeUtf8 s with _ | bytes
  · exact .fail _
  · exact .chunk maxBytes h

theorem ascii (literal : String) :
    (Protocol.ascii maxBytes literal).Writes (.ofString literal) True := by
  exact .chunk maxBytes (encodeUtf8_eq_some.2 ⟨literal.toList, rfl, String.utf8Encode_toList⟩)

theorem ite {p : Prop} [Decidable p] (h : p → e.Writes s P) (h' : ¬p → e'.Writes s P) :
    (if p then e else e').Writes s P := by
  split_ifs with hp
  · exact h hp
  · exact h' hp

/-- What a loop writes: a text for each item, with its index. -/
theorem enumerate {α : Type} {body : ℕ → α → Encoder} {text : ℕ → α → Str} {P : α → Prop}
    {xs : List α} (h : ∀ i, ∀ x ∈ xs, (body i x).Writes (text i x) (P x)) (i : ℕ) :
    (Protocol.enumerate body i xs).Writes (texts text i xs) (∀ x ∈ xs, P x) := by
  induction xs generalizing i with
  | nil => exact done.imp (by simp)
  | cons x xs ih =>
    have hx := h i x List.mem_cons_self
    have hxs := ih (fun j y hy => h j y (List.mem_cons_of_mem _ hy)) (i + 1)
    exact (hx.append hxs).imp List.forall_mem_cons.2

/-- A string is written as a whole, though in parts. -/
theorem iterJsonStringBytes (s : Str) :
    (Protocol.iterJsonStringBytes maxBytes s).Writes (quote s) True := by
  have hpieces : (Protocol.enumerate (fun _ piece => Protocol.textBytes maxBytes (dumps piece)) 0
      (pieces s)).Writes (dumps s) True := by
    have h := enumerate (fun (_ : ℕ) piece (_ : piece ∈ pieces s) =>
      textBytes maxBytes (s := dumps piece)) 0
    rw [texts_dumps, pieces_flatten] at h
    exact h.imp fun _ => trivial
  have hquote := ascii maxBytes "\""
  exact ((hquote.append hpieces).append hquote).imp fun _ => trivial

end Encoder.Writes

section

variable {F : Type} {φ : FloatFormat F}

@[simp]
theorem texts_map {α β : Type} (text : ℕ → β → Str) (f : α → β) (i : ℕ) (xs : List α) :
    texts text i (xs.map f) = texts (fun i x => text i (f x)) i xs := by
  induction xs generalizing i with
  | nil => rfl
  | cons x xs ih => rw [List.map_cons, texts, texts, ih]

theorem itemsText_eq_texts (i : ℕ) (xs : List (Json.Tree F)) :
    itemsText φ i xs = texts (fun i x => comma i ++ x.text φ) i xs := by
  induction xs generalizing i with
  | nil => rfl
  | cons x xs ih => rw [itemsText, texts, ih]

theorem membersText_eq_texts (i : ℕ) (ms : List (Str × Json.Tree F)) : membersText φ i ms =
    texts (fun i p => comma i ++ quote p.1 ++ .scalar ':' :: p.2.text φ) i ms := by
  induction ms generalizing i with
  | nil => rfl
  | cons m ms ih => rw [membersText, texts, ih]

namespace Encoder.Writes

variable {e : Encoder} {s : Str} {P : Prop} (maxBytes : ℕ)

theorem separator (i : ℕ) : (Protocol.separator maxBytes i).Writes (comma i) True := by
  rw [Protocol.separator, comma]
  split_ifs
  · exact .done
  · exact .ascii maxBytes ","

theorem member (h : e.Writes s P) (i : ℕ) (key : Str) :
    (Protocol.member maxBytes i key e).Writes (comma i ++ quote key ++ .scalar ':' :: s) P := by
  have := (((separator maxBytes i).append (iterJsonStringBytes maxBytes key)).append
    (ascii maxBytes ":")).append h
  rw [List.append_assoc] at this
  exact this.imp And.right

theorem dictMember (φ : FloatFormat F) (maxBytes : ℕ) (h : e.Writes s P) (i : ℕ) (key : Str) :
    (Protocol.dictMember φ maxBytes i (.str key) e).Writes
      (comma i ++ quote key ++ .scalar ':' :: s) P := h.member maxBytes i key

/-- A loop over the items of an array. -/
theorem items {f : Value F → Encoder} {g : Value F → Json.Tree F} {P : Value F → Prop}
    {xs : List (Value F)} (h : ∀ x ∈ xs, (f x).Writes ((g x).text φ) (P x)) :
    (Protocol.ascii maxBytes "[" ++ Protocol.enumerate (fun i x =>
      Protocol.separator maxBytes i ++ f x) 0 xs ++ Protocol.ascii maxBytes "]").Writes
      ((Json.Tree.arr (xs.map g)).text φ) (∀ x ∈ xs, P x) := by
  have hloop := enumerate (fun i x hx => (separator maxBytes i).append (h x hx)) 0
  have := ((ascii maxBytes "[").append hloop).append (ascii maxBytes "]")
  rw [Json.Tree.text, itemsText_eq_texts, texts_map]
  exact this.imp fun hP x hx => (hP.1.2 x hx).2

/-- A loop over the members of an object. -/
theorem members {α : Type} {key : α → Str} {f : ℕ → α → Encoder} {g : α → Json.Tree F}
    {P : α → Prop} {xs : List α} (h : ∀ i, ∀ x ∈ xs, (f i x).Writes
      (comma i ++ quote (key x) ++ .scalar ':' :: (g x).text φ) (P x)) :
    (Protocol.enumerate f 0 xs).Writes (membersText φ 0 (xs.map fun x => (key x, g x)))
      (∀ x ∈ xs, P x) := by
  rw [membersText_eq_texts, texts_map]
  exact enumerate h 0

end Encoder.Writes

end

/-! ## The bound on the size -/

/-- An encoder keeps what has been written within the bound. -/
def Encoder.Fits (maxBytes : ℕ) (e : Encoder) : Prop :=
  ∀ encoded encoded', e encoded = .ok encoded' → encoded.size ≤ maxBytes →
    encoded'.size ≤ maxBytes

namespace Encoder.Fits

variable {e e' : Encoder} {maxBytes : ℕ}

theorem fail (error : EncodeError) : (Encoder.fail error).Fits maxBytes := by
  intro _ _ he
  cases he

theorem done : Encoder.done.Fits maxBytes := by
  intro _ _ he h
  cases he
  exact h

theorem append (h : e.Fits maxBytes) (h' : e'.Fits maxBytes) : (e ++ e').Fits maxBytes := by
  intro encoded encoded'' he hencoded
  change (e encoded >>= e') = _ at he
  rcases hf : e encoded with error | encoded'
  · rw [hf] at he
    cases he
  · rw [hf] at he
    exact h' _ _ he (h _ _ hf hencoded)

theorem ite {p : Prop} [Decidable p] (h : e.Fits maxBytes) (h' : e'.Fits maxBytes) :
    (if p then e else e').Fits maxBytes := by
  split_ifs
  · exact h
  · exact h'

theorem chunk (bytes : ByteArray) : (Protocol.chunk maxBytes bytes).Fits maxBytes := by
  intro encoded encoded' he _
  rw [Protocol.chunk] at he
  split_ifs at he with hsize
  cases he
  rw [ByteArray.size_append]
  exact not_lt.1 hsize

theorem textBytes (s : Str) : (Protocol.textBytes maxBytes s).Fits maxBytes := by
  rw [Protocol.textBytes]
  rcases encodeUtf8 s with _ | bytes
  · exact fail _
  · exact chunk bytes

theorem enumerate {α : Type} {body : ℕ → α → Encoder} (h : ∀ i x, (body i x).Fits maxBytes)
    (i : ℕ) (xs : List α) : (Protocol.enumerate body i xs).Fits maxBytes := by
  induction xs generalizing i with
  | nil => exact done
  | cons x xs ih => exact (h i x).append (ih (i + 1))

theorem iterJsonStringBytes (s : Str) : (Protocol.iterJsonStringBytes maxBytes s).Fits maxBytes :=
  ((chunk _).append (enumerate (fun _ _ => textBytes _) 0 _)).append (chunk _)

theorem separator (i : ℕ) : (Protocol.separator maxBytes i).Fits maxBytes := ite done (chunk _)

theorem member (h : e.Fits maxBytes) (i : ℕ) (key : Str) :
    (Protocol.member maxBytes i key e).Fits maxBytes :=
  (((separator i).append (iterJsonStringBytes key)).append (chunk _)).append h

theorem dictMember {F : Type} (φ : FloatFormat F) (h : e.Fits maxBytes) (i : ℕ) (key : Key F) :
    (Protocol.dictMember φ maxBytes i key e).Fits maxBytes := by
  refine (((separator i).append ?_).append (chunk _)).append h
  rcases jsonKey φ maxBytes key with error | key
  · exact fail error
  · exact iterJsonStringBytes key

end Encoder.Fits

section

variable {F : Type} {φ : FloatFormat F} {π : Pydantic F} {maxBytes : ℕ} {strictWorkerValue : Bool}

theorem iterJsonBytes_fits (levels : ℕ) (m : Bool) (value : Value F) :
    (iterJsonBytes φ π maxBytes strictWorkerValue levels m value).Fits maxBytes := by
  induction levels generalizing m value with
  | zero => exact .fail _
  | succ levels ih =>
    have hobj {e : Encoder} (h : e.Fits maxBytes) (left right : String) :
        (ascii maxBytes left ++ e ++ ascii maxBytes right).Fits maxBytes :=
      (Encoder.Fits.append (.chunk _) h).append (.chunk _)
    have hdict (items : List (Key F × Value F)) := hobj (.enumerate (fun index item =>
      Encoder.Fits.dictMember φ (ih m item.2) index item.1) 0 items) "\x7b" "\x7d"
    have hlist (items : List (Value F)) := hobj (.enumerate (fun index value =>
      (Encoder.Fits.separator index).append (ih m value)) 0 items) "[" "]"
    cases value with
    | none => exact .chunk _
    | bool b => cases b <;> exact .chunk _
    | int i => exact .ite (.fail _) (.ite (.fail _) (.textBytes _))
    | float x => exact .ite (.textBytes _) (.fail _)
    | str s => exact .iterJsonStringBytes s
    | list items =>
      rw [iterJsonBytes]
      exact hlist items
    | tuple items =>
      rw [iterJsonBytes]
      exact hlist items
    | dict items =>
      rw [iterJsonBytes]
      refine .ite (.ite (.fail _) ?_) (hdict items)
      exact (((Encoder.Fits.chunk _).append (.member (ih m _) 0 _)).append
        (.member (ih m _) 1 _)).append (.chunk _)
    | restrictedPythonTask function agent args keywordArgs =>
      rw [iterJsonBytes]
      refine .ite (.fail _) ?_
      exact ((((((Encoder.Fits.chunk _).append (.member (ih true _) 0 _)).append
        (.member (ih true _) 1 _)).append (.member (ih true _) 2 _)).append
        (.member (ih true _) 3 _)).append (.member (ih true _) 4 _)).append (.chunk _)
    | model cls items =>
      rw [iterJsonBytes]
      refine .ite (.fail _) (.ite (.fail _) ?_)
      have hfields := Encoder.Fits.enumerate (fun index (field : Str × Value F) =>
        (ih false field.2).member index field.1) 0 items
      exact ((((Encoder.Fits.chunk _).append (.ite (.fail _) .done)).append hfields).append
        (.ite ((ih false _).member _ _) .done)).append (.chunk _)
    | rawPlainDict items =>
      rw [iterJsonBytes]
      exact hdict items
    | object typeName => exact .fail _

theorem encodeProtocolValue_eq_ok {value : Value F} {label : String} {encoded : ByteArray} :
    encodeProtocolValue φ π maxBytes strictWorkerValue value label = .ok encoded ↔
      iterJsonBytes φ π maxBytes strictWorkerValue (maxProtocolDepth + 1) true value .empty =
        .ok encoded := by
  rw [encodeProtocolValue]
  rcases iterJsonBytes φ π maxBytes strictWorkerValue (maxProtocolDepth + 1) true value .empty with
    (_ | _ | _ | _) | encoded <;> simp

theorem size_encodeProtocolValue_le {value : Value F} {label : String} {encoded : ByteArray}
    (h : encodeProtocolValue φ π maxBytes strictWorkerValue value label = .ok encoded) :
    encoded.size ≤ maxBytes :=
  iterJsonBytes_fits _ _ _ _ _ (encodeProtocolValue_eq_ok.1 h) (Nat.zero_le _)

end

end Hyperforge.Codemode.Protocol
