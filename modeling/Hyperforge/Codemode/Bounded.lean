import Hyperforge.Codemode.Encoder
import Hyperforge.Library.Crash

/-!
# The bound on encodings

An encoder with a bound writes what it writes with a larger one, or fails as the bound is exceeded
(`Encoder.Cut`): what it writes is cut at the bound. An integer is refused early for its bits, but
only if its decimal text would not fit (`lt_length_toDigits`). A string is written in pieces as it
is written at once (`iterJsonStringBytes_eq_ok`).
-/

namespace Hyperforge.Codemode.Protocol

open Json hiding Tree

/-! ## Cuts -/

/-- Whatever its bound, an encoder does not succeed. -/
def Encoder.Fails (e : ℕ → Encoder) : Prop :=
  ∀ maxBytes encoded, encoded.size ≤ maxBytes → ∀ bytes, e maxBytes encoded ≠ .ok bytes

/-- An encoder writes some bytes, if they fit within its bound. -/
def Encoder.CutOf (e : ℕ → Encoder) (bytes : ByteArray) : Prop :=
  ∀ maxBytes encoded, encoded.size ≤ maxBytes → e maxBytes encoded =
    if encoded.size + bytes.size ≤ maxBytes then .ok (encoded ++ bytes) else .error .tooLarge

/-- What an encoder writes does not depend on its bound. -/
def Encoder.Cut (e : ℕ → Encoder) : Prop := Encoder.Fails e ∨ ∃ bytes, Encoder.CutOf e bytes

theorem Encoder.CutOf.append {e e' : ℕ → Encoder} {bytes bytes' : ByteArray} (h : CutOf e bytes)
    (h' : CutOf e' bytes') :
    CutOf (fun maxBytes => e maxBytes ++ e' maxBytes) (bytes ++ bytes') := by
  intro maxBytes encoded hle
  change (e maxBytes encoded >>= e' maxBytes) = _
  rw [h maxBytes encoded hle, ByteArray.size_append]
  by_cases hfit : encoded.size + bytes.size ≤ maxBytes
  · have hle' : (encoded ++ bytes).size ≤ maxBytes := by rwa [ByteArray.size_append]
    rw [if_pos hfit]
    refine (h' maxBytes _ hle').trans ?_
    rw [ByteArray.size_append, ByteArray.append_assoc, Nat.add_assoc]
  · rw [if_neg hfit, if_neg fun hboth => hfit (by omega)]
    rfl

theorem Encoder.CutOf.done : CutOf (fun _ => Encoder.done) .empty := by
  intro maxBytes encoded hle
  rw [if_pos (by simpa using hle), ByteArray.append_empty]
  rfl

theorem Encoder.CutOf.chunk (bytes : ByteArray) :
    CutOf (fun maxBytes => Protocol.chunk maxBytes bytes) bytes := by
  intro maxBytes encoded _
  change (if _ then _ else _) = _
  split_ifs with h h'
  · omega
  · rfl
  · rfl
  · omega

namespace Encoder.Cut

variable {e e' : ℕ → Encoder}

theorem fail (error : EncodeError) : Cut fun _ => Encoder.fail error := by
  refine .inl fun _ _ _ _ h => ?_
  cases h

theorem done : Cut fun _ => Encoder.done := .inr ⟨.empty, .done⟩

theorem append (h : Cut e) (h' : Cut e') : Cut fun maxBytes => e maxBytes ++ e' maxBytes := by
  rcases h with hfails | ⟨bytes, hcut⟩
  · refine .inl fun maxBytes encoded hle bytes hok => ?_
    obtain ⟨encoded', hencoded', -⟩ := Crash.bind_eq_ok.1 hok
    exact hfails maxBytes encoded hle _ hencoded'
  rcases h' with hfails' | ⟨bytes', hcut'⟩
  · refine .inl fun maxBytes encoded hle result hok => ?_
    obtain ⟨encoded', hencoded', hok⟩ := Crash.bind_eq_ok.1 hok
    rw [hcut maxBytes encoded hle] at hencoded'
    split_ifs at hencoded' with hfit
    cases hencoded'
    exact hfails' maxBytes _ (by rwa [ByteArray.size_append]) _ hok
  · exact .inr ⟨_, hcut.append hcut'⟩

theorem chunk (bytes : ByteArray) : Cut fun maxBytes => Protocol.chunk maxBytes bytes :=
  .inr ⟨bytes, .chunk bytes⟩

theorem textBytes (s : Str) : Cut fun maxBytes => Protocol.textBytes maxBytes s := by
  rcases h : encodeUtf8 s with _ | bytes
  · simp only [Protocol.textBytes, h]
    exact fail _
  · simp only [Protocol.textBytes, h]
    exact chunk bytes

theorem enumerate {α : Type} {body : ℕ → ℕ → α → Encoder} {xs : List α}
    (h : ∀ i, ∀ x ∈ xs, Cut fun maxBytes => body maxBytes i x) (i : ℕ) :
    Cut fun maxBytes => Protocol.enumerate (body maxBytes) i xs := by
  induction xs generalizing i with
  | nil => exact done
  | cons x xs ih =>
    exact (h i x List.mem_cons_self).append
      (ih (fun j y hy => h j y (List.mem_cons_of_mem _ hy)) (i + 1))

theorem ite {p : Prop} [Decidable p] (h : p → Cut e) (h' : ¬p → Cut e') :
    Cut fun maxBytes => if p then e maxBytes else e' maxBytes := by
  split_ifs with hp
  · exact h hp
  · exact h' hp

theorem iterJsonStringBytes (s : Str) :
    Cut fun maxBytes => Protocol.iterJsonStringBytes maxBytes s :=
  ((chunk _).append (enumerate (fun _ piece _ => textBytes (dumps piece)) 0)).append (chunk _)

theorem separator (i : ℕ) : Cut fun maxBytes => Protocol.separator maxBytes i :=
  ite (fun _ => done) fun _ => chunk _

theorem member (h : Cut e) (i : ℕ) (key : Str) :
    Cut fun maxBytes => Protocol.member maxBytes i key (e maxBytes) :=
  (((separator i).append (iterJsonStringBytes key)).append (chunk _)).append h

/-- What an encoder writes at the start is what it writes. -/
theorem cutOf (h : Cut e) {maxBytes : ℕ} {bytes : ByteArray}
    (hok : e maxBytes .empty = .ok bytes) : CutOf e bytes := by
  rcases h with hfails | ⟨bytes', hcut⟩
  · exact absurd hok (hfails _ _ (Nat.zero_le _) _)
  · have hrun := (hcut maxBytes .empty (Nat.zero_le _)).symm.trans hok
    split_ifs at hrun
    rw [ByteArray.empty_append] at hrun
    exact Except.ok.inj hrun ▸ hcut

end Encoder.Cut

/-! ## Integers -/

theorem length_le_size_utf8Encode (cs : List Char) : cs.length ≤ cs.utf8Encode.size := by
  induction cs with
  | nil => simp
  | cons c cs ih =>
    have hc := c.utf8Size_pos
    rw [List.utf8Encode_cons, ByteArray.size_append, List.utf8Encode_singleton, List.length_cons,
      List.size_toByteArray, String.length_utf8EncodeChar]
    omega

/-- The digits of an integer are more than a fourth of its bits. -/
theorem lt_length_toDigits {n m : ℕ} (h : m * 4 < n.size) : m < (Nat.toDigits 10 n).length := by
  rcases Nat.eq_zero_or_pos m with rfl | hm
  · exact List.length_pos_iff.2 Nat.toDigits_ne_nil
  by_contra hle
  have hlt := (Nat.length_toDigits_le_iff (by decide) hm).1 (Nat.not_lt.1 hle)
  have hbits : 16 ^ m ≤ n := by
    have hsize := Nat.lt_size.1 h
    rwa [Nat.mul_comm, Nat.pow_mul] at hsize
  have hpow : 10 ^ m ≤ 16 ^ m := Nat.pow_le_pow_left (by decide) m
  omega

theorem lt_length_intText {i : ℤ} {m : ℕ} (h : m * 4 < i.natAbs.size) :
    m < (intText i).length := by
  have hdigits := lt_length_toDigits h
  rw [intText]
  split_ifs
  · exact Nat.lt_succ_of_lt hdigits
  · exact hdigits

/-- An encoder that exceeds the bound whenever it is refused early. -/
theorem Encoder.Cut.early {e : ℕ → Encoder} {p : ℕ → Prop} [DecidablePred p] (h : Encoder.Cut e)
    (hearly : ∀ bytes, Encoder.CutOf e bytes → ∀ maxBytes, p maxBytes → maxBytes < bytes.size) :
    Encoder.Cut fun maxBytes => if p maxBytes then .fail .tooLarge else e maxBytes := by
  rcases h with hfails | ⟨bytes, hcut⟩
  · refine .inl fun maxBytes encoded hle result hok => ?_
    by_cases hp : p maxBytes
    · simp only [if_pos hp] at hok
      cases hok
    · simp only [if_neg hp] at hok
      exact hfails maxBytes encoded hle result hok
  · refine .inr ⟨bytes, fun maxBytes encoded hle => ?_⟩
    by_cases hp : p maxBytes
    · have hlt := hearly bytes hcut maxBytes hp
      simp only [if_pos hp]
      rw [if_neg (by omega)]
      rfl
    · simp only [if_neg hp]
      exact hcut maxBytes encoded hle

theorem length_le_size {s : Str} {bytes : ByteArray} (h : encodeUtf8 s = some bytes) :
    s.length ≤ bytes.size := by
  obtain ⟨cs, rfl, rfl⟩ := encodeUtf8_eq_some.1 h
  rw [chars, List.length_map]
  exact length_le_size_utf8Encode cs

/-- What an encoder writes is known by what it writes when it succeeds. -/
theorem Encoder.CutOf.text {e : ℕ → Encoder} {bytes : ByteArray} (h : CutOf e bytes) {s : Str}
    {P : Prop} (hwrites : ∀ maxBytes, (e maxBytes).Writes s P) : encodeUtf8 s = some bytes := by
  have hok := h bytes.size .empty (Nat.zero_le _)
  rw [if_pos (by simp)] at hok
  obtain ⟨⟨bytes', hbytes', heq⟩, -⟩ := hwrites _ _ _ hok
  rw [ByteArray.empty_append, ByteArray.empty_append] at heq
  rwa [← heq] at hbytes'

theorem cut_int (i : ℤ) : Encoder.Cut fun maxBytes =>
    if i.natAbs.size > maxBytes * 4 then .fail .tooLarge else intBytes maxBytes i := by
  have hcut : Encoder.Cut fun maxBytes => intBytes maxBytes i :=
    .ite (fun _ => .fail _) fun _ => .textBytes _
  refine hcut.early fun bytes hbytes maxBytes hearly => ?_
  have hwrites (maxBytes : ℕ) : (intBytes maxBytes i).Writes (chars (intText i)) True :=
    .ite (fun _ => .fail _) fun _ => .textBytes maxBytes
  have hlength := length_le_size (hbytes.text hwrites)
  rw [chars, List.length_map] at hlength
  exact Nat.lt_of_lt_of_le (lt_length_intText hearly) hlength

theorem length_le_dumps (s : Str) : s.length ≤ (dumps s).length := by
  induction s with
  | nil => exact Nat.zero_le _
  | cons c s ih =>
    have hc : 0 < (escape c).length := by
      rcases c with c | n
      · rw [escape]
        split_ifs <;> simp [chars]
      · simp [escape]
    rw [dumps, List.flatMap_cons, List.length_append, List.length_cons]
    rw [dumps] at ih
    omega

section

variable {F : Type} (φ : FloatFormat F)

/-- The key of a dictionary. -/
theorem cut_key (key : Key F) : Encoder.Cut fun maxBytes =>
    match jsonKey φ maxBytes key with
      | .ok key => iterJsonStringBytes maxBytes key
      | .error e => .fail e := by
  cases key with
  | str s => exact .iterJsonStringBytes s
  | none => exact .iterJsonStringBytes _
  | bool b => cases b <;> exact .iterJsonStringBytes _
  | float x =>
    by_cases hx : φ.isFinite x
    · simp only [jsonKey, if_pos hx]
      exact .iterJsonStringBytes _
    · simp only [jsonKey, if_neg hx]
      exact .fail _
  | other typeName => exact .fail _
  | int i =>
    have hcut : Encoder.Cut fun maxBytes =>
        if (Nat.toDigits 10 i.natAbs).length > maxDigits then .fail .notSerializable
        else iterJsonStringBytes maxBytes (chars (intText i)) :=
      .ite (fun _ => .fail _) fun _ => .iterJsonStringBytes _
    have hearly := hcut.early (p := fun maxBytes => i.natAbs.size > maxBytes * 4)
      fun bytes hbytes maxBytes hsize => by
        have hlength := length_le_size (hbytes.text fun maxBytes =>
          .ite (fun _ => .fail _) fun _ => .iterJsonStringBytes maxBytes _)
        have hdumps : (intText i).length ≤ (dumps (chars (intText i))).length :=
          Nat.le_trans (Nat.le_of_eq (List.length_map _).symm) (length_le_dumps _)
        have hint := lt_length_intText hsize
        rw [quote, List.length_append, List.length_cons] at hlength
        omega
    convert hearly using 2 with maxBytes
    simp only [jsonKey]
    split_ifs <;> rfl

theorem Encoder.Cut.dictMember {e : ℕ → Encoder} (h : Encoder.Cut e) (i : ℕ) (key : Key F) :
    Encoder.Cut fun maxBytes => Protocol.dictMember φ maxBytes i key (e maxBytes) :=
  (((separator i).append (cut_key φ key)).append (chunk _)).append h

variable (π : Pydantic F) (strictWorkerValue : Bool)

/-- The encoding of a value is cut at the bound. -/
theorem cut_iterJsonBytes (levels : ℕ) (m : Bool) (value : Value F) :
    Encoder.Cut fun maxBytes => iterJsonBytes φ π maxBytes strictWorkerValue levels m value := by
  induction levels generalizing m value with
  | zero => exact .fail _
  | succ levels ih =>
    have hobj {e : ℕ → Encoder} (h : Encoder.Cut e) (left right : String) :
        Encoder.Cut fun maxBytes => ascii maxBytes left ++ e maxBytes ++ ascii maxBytes right :=
      (Encoder.Cut.append (.chunk _) h).append (.chunk _)
    have hdict (items : List (Key F × Value F)) : Encoder.Cut fun maxBytes =>
        ascii maxBytes "\x7b" ++ enumerate (fun index item => Protocol.dictMember φ maxBytes index
          item.1 (iterJsonBytes φ π maxBytes strictWorkerValue levels m item.2)) 0 items ++
            ascii maxBytes "\x7d" :=
      hobj (.enumerate (fun index item _ => .dictMember φ (ih m item.2) index item.1) 0) _ _
    have hlist (items : List (Value F)) : Encoder.Cut fun maxBytes =>
        ascii maxBytes "[" ++ enumerate (fun index value => Protocol.separator maxBytes index ++
          iterJsonBytes φ π maxBytes strictWorkerValue levels m value) 0 items ++
            ascii maxBytes "]" :=
      hobj (.enumerate (fun index value _ => .append (.separator index) (ih m value)) 0) _ _
    cases value with
    | none => exact .chunk _
    | bool b => cases b <;> exact .chunk _
    | int i => exact cut_int i
    | float x => exact .ite (fun _ => .textBytes _) fun _ => .fail _
    | str s => exact .iterJsonStringBytes s
    | list items =>
      simp only [iterJsonBytes]
      exact hlist items
    | tuple items =>
      simp only [iterJsonBytes]
      exact hlist items
    | rawPlainDict items =>
      simp only [iterJsonBytes]
      exact hdict items
    | dict items =>
      simp only [iterJsonBytes]
      refine .ite (fun _ => .ite (fun _ => .fail _) fun _ => ?_) fun _ => hdict items
      exact (((Encoder.Cut.chunk _).append (.member (ih m _) 0 _)).append
        (.member (ih m _) 1 _)).append (.chunk _)
    | restrictedPythonTask function agent args keywordArgs =>
      simp only [iterJsonBytes]
      refine .ite (fun _ => .fail _) fun _ => ?_
      exact ((((((Encoder.Cut.chunk _).append (.member (ih true _) 0 _)).append
        (.member (ih true _) 1 _)).append (.member (ih true _) 2 _)).append
        (.member (ih true _) 3 _)).append (.member (ih true _) 4 _)).append (.chunk _)
    | model cls items =>
      simp only [iterJsonBytes]
      refine .ite (fun _ => .fail _) fun _ => .ite (fun _ => .fail _) fun _ => ?_
      have hfields := Encoder.Cut.enumerate
        (fun index (field : Str × Value F) (_ : field ∈ items) =>
          (ih false field.2).member index field.1) 0
      exact ((((Encoder.Cut.chunk _).append (.ite (fun _ => .fail _) fun _ => .done)).append
        hfields).append (.ite (fun _ => (ih false _).member _ _) fun _ => .done)).append (.chunk _)
    | object typeName => exact .fail _

end

/-! ## The bound -/

section

variable {F : Type} {φ : FloatFormat F} {π : Pydantic F} {strictWorkerValue : Bool}

theorem Encoder.CutOf.textBytes {s : Str} {bytes : ByteArray} (h : encodeUtf8 s = some bytes) :
    CutOf (fun maxBytes => Protocol.textBytes maxBytes s) bytes := by
  simp only [Protocol.textBytes, h]
  exact .chunk bytes

/-- The pieces of a string are written as what they make up. -/
theorem cutOf_pieces {ss : List Str} {bytes : ByteArray}
    (h : encodeUtf8 (dumps ss.flatten) = some bytes) (i : ℕ) :
    Encoder.CutOf (fun maxBytes => enumerate (fun _ piece => textBytes maxBytes (dumps piece)) i ss)
      bytes := by
  induction ss generalizing i bytes with
  | nil =>
    cases h
    exact .done
  | cons s ss ih =>
    rw [List.flatten_cons, dumps_append] at h
    obtain ⟨a, b, ha, hb, rfl⟩ := encodeUtf8_append_eq_some h
    exact (Encoder.CutOf.textBytes ha).append (ih hb (i + 1))

/-- The pieces of a string are written if and only if it is written at once. -/
theorem pieces_eq_ok {m : ℕ} {s : Str} {encoded encoded' : ByteArray} (hle : encoded.size ≤ m) :
    enumerate (fun _ piece => textBytes m (dumps piece)) 0 (pieces s) encoded = .ok encoded' ↔
      textBytes m (dumps s) encoded = .ok encoded' := by
  rcases hs : encodeUtf8 (dumps s) with _ | bytes
  · -- neither is written
    have hpieces (r : ByteArray) :
        enumerate (fun _ piece => textBytes m (dumps piece)) 0 (pieces s) encoded ≠ .ok r := by
      intro hok
      obtain ⟨⟨bytes, hbytes, -⟩, -⟩ := Encoder.Writes.enumerate (fun (_ : ℕ) piece
        (_ : piece ∈ pieces s) => Encoder.Writes.textBytes m (s := dumps piece)) 0 _ _ hok
      rw [texts_dumps, pieces_flatten, hs] at hbytes
      cases hbytes
    have hwhole : textBytes m (dumps s) encoded ≠ .ok encoded' := by
      intro hok
      obtain ⟨⟨bytes, hbytes, -⟩, -⟩ := Encoder.Writes.textBytes m (s := dumps s) _ _ hok
      rw [hs] at hbytes
      cases hbytes
    exact iff_of_false (hpieces encoded') hwhole
  · have hflatten : encodeUtf8 (dumps (pieces s).flatten) = some bytes := by
      rw [pieces_flatten, hs]
    have hpieces := cutOf_pieces hflatten 0 m encoded hle
    have hwhole := Encoder.CutOf.textBytes hs m encoded hle
    exact Eq.congr_left (hpieces.trans hwhole.symm)

/-- A string is written in pieces as it is at once. -/
theorem iterJsonStringBytes_eq_ok {m : ℕ} {s : Str} {encoded encoded' : ByteArray} :
    iterJsonStringBytes m s encoded = .ok encoded' ↔
      (ascii m "\"" ++ textBytes m (dumps s) ++ ascii m "\"") encoded = .ok encoded' := by
  change ((ascii m "\"" encoded >>= _) >>= _) = _ ↔ ((ascii m "\"" encoded >>= _) >>= _) = _
  rcases hquote : ascii m "\"" encoded with error | quoted
  · exact Iff.rfl
  · have hle : quoted.size ≤ m := by
      rw [ascii, chunk] at hquote
      split_ifs at hquote
      cases hquote
      rw [ByteArray.size_append]
      omega
    simp only [Crash.bind_eq_ok, pieces_eq_ok hle, Except.ok.injEq, exists_eq_left']

/-- A value is encoded within a bound if and only if it is encoded within some bound, and its
    encoding fits; otherwise, the encoding of a value that has one is refused as too large. Integers
    are refused early only if they do not fit, and strings are written in pieces as at once. -/
theorem encodeProtocolValue_cut (value : Value F) (label : String) (m : ℕ) :
    (∀ encoded, encodeProtocolValue φ π m strictWorkerValue value label = .ok encoded ↔
      (∃ maxBytes, encodeProtocolValue φ π maxBytes strictWorkerValue value label = .ok encoded) ∧
        encoded.size ≤ m) ∧
    (∀ maxBytes encoded,
      encodeProtocolValue φ π maxBytes strictWorkerValue value label = .ok encoded →
      m < encoded.size → encodeProtocolValue φ π m strictWorkerValue value label =
        .error (.valueError (label ++ " exceeds maximum size"))) ∧
    (∀ i : ℤ, m * 4 < i.natAbs.size → m < (intText i).length) ∧
    ∀ (s : Str) (encoded encoded' : ByteArray), iterJsonStringBytes m s encoded = .ok encoded' ↔
      (ascii m "\"" ++ textBytes m (dumps s) ++ ascii m "\"") encoded = .ok encoded' := by
  have hcut := cut_iterJsonBytes φ π strictWorkerValue (maxProtocolDepth + 1) true value
  have hbytes {maxBytes : ℕ} {encoded : ByteArray}
      (h : encodeProtocolValue φ π maxBytes strictWorkerValue value label = .ok encoded) :=
    hcut.cutOf (encodeProtocolValue_eq_ok.1 h)
  refine ⟨fun encoded => ⟨fun h => ⟨⟨m, h⟩, size_encodeProtocolValue_le h⟩, fun h => ?_⟩,
    fun maxBytes encoded h hlt => ?_, fun i => lt_length_intText,
    fun s encoded encoded' => iterJsonStringBytes_eq_ok⟩
  · obtain ⟨⟨maxBytes, hok⟩, hle⟩ := h
    refine encodeProtocolValue_eq_ok.2 ((hbytes hok m .empty (Nat.zero_le _)).trans ?_)
    rw [ByteArray.empty_append, if_pos (by simpa using hle)]
  · have htooLarge := hbytes h m .empty (Nat.zero_le _)
    rw [if_neg (by simpa using hlt)] at htooLarge
    rw [encodeProtocolValue]
    simp only [htooLarge]

end

/-! ## Room -/

/-- An encoder succeeds if there is room for `n` more bytes, and needs no more. -/
def Encoder.Takes (maxBytes n : ℕ) (e : Encoder) : Prop :=
  ∀ encoded, encoded.size + n ≤ maxBytes →
    ∃ encoded', e encoded = .ok encoded' ∧ encoded'.size ≤ encoded.size + n

/-- What is written at the start is written anywhere. -/
theorem Encoder.Cut.takes {e : ℕ → Encoder} {maxBytes n : ℕ} (h : Encoder.Cut e)
    (hroom : (e maxBytes .empty).toOption.any (·.size ≤ n)) : (e maxBytes).Takes maxBytes n := by
  rcases hok : e maxBytes .empty with error | bytes
  · rw [hok] at hroom
    cases hroom
  · rw [hok] at hroom
    have hsize : bytes.size ≤ n := of_decide_eq_true hroom
    have hcut := h.cutOf hok
    intro encoded hle
    refine ⟨encoded ++ bytes, ?_, ?_⟩
    · rw [hcut maxBytes encoded (by omega), if_pos (by omega)]
    · rw [ByteArray.size_append]
      exact Nat.add_le_add_left hsize _

namespace Encoder.Takes

variable {maxBytes k n : ℕ} {e e' : Encoder}

theorem append (h : e.Takes maxBytes k) (h' : e'.Takes maxBytes n) :
    (e ++ e').Takes maxBytes (k + n) := by
  intro encoded hle
  obtain ⟨encoded', hok, hsize⟩ := h encoded (by omega)
  obtain ⟨encoded'', hok', hsize'⟩ := h' encoded' (by omega)
  exact ⟨encoded'', Crash.bind_eq_ok.2 ⟨encoded', hok, hok'⟩, by omega⟩

theorem done : Encoder.done.Takes maxBytes 0 := fun encoded _ => ⟨encoded, rfl, le_rfl⟩

theorem mono (h : e.Takes maxBytes k) (hle : k ≤ n) : e.Takes maxBytes n := by
  intro encoded hroom
  obtain ⟨encoded', hok, hsize⟩ := h encoded (by omega)
  exact ⟨encoded', hok, by omega⟩

theorem enumerate {α : Type} {body : ℕ → α → Encoder} {xs : List α}
    (h : ∀ i, ∀ x ∈ xs, (body i x).Takes maxBytes n) (i : ℕ) :
    (Protocol.enumerate body i xs).Takes maxBytes (xs.length * n) := by
  induction xs generalizing i with
  | nil => exact done.mono (Nat.zero_le _)
  | cons x xs ih =>
    have hx := h i x List.mem_cons_self
    have hxs := ih (fun j y hy => h j y (List.mem_cons_of_mem _ hy)) (i + 1)
    exact (hx.append hxs).mono (by rw [List.length_cons, Nat.succ_mul, Nat.add_comm])

theorem ascii (s : String) : (Protocol.ascii maxBytes s).Takes maxBytes s.toByteArray.size := by
  intro encoded hle
  refine ⟨encoded ++ s.toByteArray, if_neg (not_lt.2 hle), ?_⟩
  rw [ByteArray.size_append]

theorem member (h : e.Takes maxBytes n) {key : Str}
    (hkey : (Protocol.iterJsonStringBytes maxBytes key).Takes maxBytes k) (i : ℕ) :
    (Protocol.member maxBytes i key e).Takes maxBytes (1 + k + 1 + n) := by
  have hseparator : (Protocol.separator maxBytes i).Takes maxBytes 1 := by
    rw [Protocol.separator]
    split_ifs
    · exact done.mono (Nat.zero_le _)
    · exact ascii ","
  exact ((hseparator.append hkey).append (ascii ":")).append h

end Encoder.Takes

end Hyperforge.Codemode.Protocol
