import Mathlib.Data.Int.Basic
import Mathlib.Data.List.Basic

/-!
# The literals of JSON

Strings are lists of code points, among them unpaired surrogates (`CodePoint`), as
in a language whose strings may have them; they have a UTF-8 encoding if there
are none. String literals are written without escaping characters that are not ASCII (`dumps`), and
read with any escapes (`scanString`). Numbers are integers, and floats, which are a parameter
(`FloatFormat`).

* `scanString_dumps`, `scanNumber_append`: a literal is read back, whatever follows it;
* `decodeUtf8_encodeUtf8`: a string is decoded from its encoding.
-/

namespace Json

/-! ## Strings -/

/-- A code point: a character, or a surrogate. -/
inductive CodePoint
  | scalar (c : Char)
  | surrogate (n : Fin 0x800)
  deriving DecidableEq

abbrev Str := List CodePoint

instance : LawfulBEq Str := inferInstance

def Str.ofString (s : String) : Str := s.toList.map .scalar

/-- The text of some characters. -/
def chars (cs : List Char) : Str := cs.map .scalar

/-- The hexadecimal digits, in lower case. -/
def hexDigit (n : ℕ) : Char := Nat.digitChar n

/-- A code point within a string literal. -/
def escape : CodePoint → Str
  | .scalar c =>
    if c = '"' then chars ['\\', '"']
    else if c = '\\' then chars ['\\', '\\']
    else if c = '\n' then chars ['\\', 'n']
    else if c = '\r' then chars ['\\', 'r']
    else if c = '\t' then chars ['\\', 't']
    else if c.toNat = 0x0c then chars ['\\', 'f']
    else if c.toNat = 0x08 then chars ['\\', 'b']
    else if c.toNat < 0x20 then
      chars ['\\', 'u', '0', '0', hexDigit (c.toNat / 16), hexDigit (c.toNat % 16)]
    else [.scalar c]
  | .surrogate n => [.surrogate n]

/-- What stands between the quotes of a string literal. -/
def dumps (s : Str) : Str := s.flatMap escape

/-- A string literal. -/
def quote (s : Str) : Str := .scalar '"' :: dumps s ++ [.scalar '"']

@[simp]
theorem dumps_append (s t : Str) : dumps (s ++ t) = dumps s ++ dumps t := List.flatMap_append

/-- A piece of a string literal: a code point, or an escaped code unit. -/
inductive Piece
  | plain (c : CodePoint)
  | unit (u : ℕ)
  deriving DecidableEq

def hexValue (c : Char) : Option ℕ :=
  if '0' ≤ c ∧ c ≤ '9' then some (c.toNat - 0x30)
  else if 'a' ≤ c ∧ c ≤ 'f' then some (c.toNat - 0x57)
  else if 'A' ≤ c ∧ c ≤ 'F' then some (c.toNat - 0x37)
  else none

/-- The code unit of four hexadecimal digits. -/
def hex4 (a b c d : Char) : Option ℕ := do
  let a ← hexValue a
  let b ← hexValue b
  let c ← hexValue c
  let d ← hexValue d
  some (((a * 16 + b) * 16 + c) * 16 + d)

def unescape (e : Char) : Option Char :=
  if e = '"' then some '"'
  else if e = '\\' then some '\\'
  else if e = '/' then some '/'
  else if e = 'b' then some (Char.ofNat 0x08)
  else if e = 'f' then some (Char.ofNat 0x0c)
  else if e = 'n' then some '\n'
  else if e = 'r' then some '\r'
  else if e = 't' then some '\t'
  else none

/-- The pieces up to the closing quote, and the text after it. -/
def scanPieces : Str → Option (List Piece × Str)
  | .scalar '\\' :: .scalar 'u' :: .scalar a :: .scalar b :: .scalar c :: .scalar d :: text => do
    let u ← hex4 a b c d
    let (ps, rest) ← scanPieces text
    some (.unit u :: ps, rest)
  | .scalar '\\' :: .scalar e :: text => do
    let c ← unescape e
    let (ps, rest) ← scanPieces text
    some (.plain (.scalar c) :: ps, rest)
  | .scalar c :: text =>
    if c = '"' then some ([], text)
    else if c = '\\' ∨ c.toNat < 0x20 then none
    else do
      let (ps, rest) ← scanPieces text
      some (.plain (.scalar c) :: ps, rest)
  | .surrogate n :: text => do
    let (ps, rest) ← scanPieces text
    some (.plain (.surrogate n) :: ps, rest)
  | [] => none

/-- The code point of a code unit. -/
def ofUnit (u : ℕ) : CodePoint :=
  if h : 0xd800 ≤ u ∧ u < 0xe000 then .surrogate ⟨u - 0xd800, by omega⟩
  else .scalar (Char.ofNat u)

/-- Escaped surrogates are paired. -/
def join : List Piece → Str
  | .unit h :: .unit l :: ps =>
    if 0xd800 ≤ h ∧ h < 0xdc00 ∧ 0xdc00 ≤ l ∧ l < 0xe000 then
      .scalar (Char.ofNat (0x10000 + (h - 0xd800) * 0x400 + (l - 0xdc00))) :: join ps
    else ofUnit h :: join (.unit l :: ps)
  | .unit u :: ps => ofUnit u :: join ps
  | .plain c :: ps => c :: join ps
  | [] => []

/-- A string literal, after its opening quote. -/
def scanString (text : Str) : Option (Str × Str) :=
  (scanPieces text).map fun (ps, rest) => (join ps, rest)

/-- The piece that the escape of a code point is. -/
def piece : CodePoint → Piece
  | .scalar c =>
    if c.toNat < 0x20 ∧ c ≠ '\n' ∧ c ≠ '\r' ∧ c ≠ '\t' ∧ c.toNat ≠ 0x0c ∧ c.toNat ≠ 0x08 then
      .unit c.toNat
    else .plain (.scalar c)
  | .surrogate n => .plain (.surrogate n)

theorem hex4_control :
    ∀ n < 0x20, hex4 '0' '0' (hexDigit (n / 16)) (hexDigit (n % 16)) = some n := by
  decide

theorem eq_ofNat {c : Char} {n : ℕ} (h : c.toNat = n) : c = Char.ofNat n := by
  rw [← h, Char.ofNat_toNat]

theorem scanPieces_short {e c : Char} (hc : unescape e = some c) (rest : Str) :
    scanPieces (chars ['\\', e] ++ rest) =
      (scanPieces rest).map fun p => (.plain (.scalar c) :: p.1, p.2) := by
  have he : e ≠ 'u' := by
    rintro rfl
    simp [unescape] at hc
  simp [chars, scanPieces, hc, he, Option.map_eq_bind, Function.comp_def]

theorem scanPieces_escape (c : CodePoint) (rest : Str) : scanPieces (escape c ++ rest) =
    (scanPieces rest).map fun p => (piece c :: p.1, p.2) := by
  rcases c with c | n
  · by_cases h1 : c = '"'
    · subst h1
      exact scanPieces_short (e := '"') rfl rest
    by_cases h2 : c = '\\'
    · subst h2
      exact scanPieces_short (e := '\\') rfl rest
    by_cases h3 : c = '\n'
    · subst h3
      exact scanPieces_short (e := 'n') rfl rest
    by_cases h4 : c = '\r'
    · subst h4
      exact scanPieces_short (e := 'r') rfl rest
    by_cases h5 : c = '\t'
    · subst h5
      exact scanPieces_short (e := 't') rfl rest
    by_cases h6 : c.toNat = 0x0c
    · rw [eq_ofNat h6]
      exact scanPieces_short (e := 'f') rfl rest
    by_cases h7 : c.toNat = 0x08
    · rw [eq_ofNat h7]
      exact scanPieces_short (e := 'b') rfl rest
    by_cases h8 : c.toNat < 0x20
    · simp [escape, piece, h1, h2, h3, h4, h5, h6, h7, h8, chars, scanPieces, hex4_control,
        Option.map_eq_bind, Function.comp_def]
    · simp [escape, piece, h1, h2, h3, h4, h5, h6, h7, h8, scanPieces, Option.map_eq_bind,
        Function.comp_def]
  · simp [escape, piece, scanPieces, Option.map_eq_bind, Function.comp_def]

theorem scanPieces_dumps (s rest : Str) :
    scanPieces (dumps s ++ .scalar '"' :: rest) = some (s.map piece, rest) := by
  induction s with
  | nil => simp [dumps, scanPieces]
  | cons c s ih =>
    rw [show dumps (c :: s) = escape c ++ dumps s from List.flatMap_cons, List.append_assoc,
      scanPieces_escape, ih]
    rfl

theorem join_unit {u : ℕ} (hu : u < 0xd800) (ps : List Piece) :
    join (.unit u :: ps) = ofUnit u :: join ps := by
  rcases ps with _ | ⟨c | l, ps⟩
  · rfl
  · rfl
  · rw [join, if_neg]
    omega

theorem join_piece (c : CodePoint) (ps : List Piece) : join (piece c :: ps) = c :: join ps := by
  rcases c with c | n
  · rw [piece]
    split_ifs with h
    · rw [join_unit (by omega), ofUnit, dif_neg (by omega), Char.ofNat_toNat]
    · rw [join]
  · rw [piece, join]

theorem scanString_dumps (s rest : Str) :
    scanString (dumps s ++ .scalar '"' :: rest) = some (s, rest) := by
  have hjoin : join (s.map piece) = s := by
    induction s with
    | nil => rfl
    | cons c s ih => rw [List.map_cons, join_piece, ih]
  rw [scanString, scanPieces_dumps]
  simp [hjoin]

/-! ## Numbers -/

/-- The digits at the beginning of a text, and the text after them. -/
def scanDigits : Str → List Char × Str
  | .scalar c :: text =>
    if c.isDigit then (c :: (scanDigits text).1, (scanDigits text).2) else ([], .scalar c :: text)
  | text => ([], text)

/-- The sign, the integer part, the fraction and the exponent of a number
    literal, each with the text after it. -/
def scanSign : Str → List Char × Str
  | .scalar '-' :: text => (['-'], text)
  | text => ([], text)

def scanInteger : Str → List Char × Str
  | .scalar '0' :: text => (['0'], text)
  | text => scanDigits text

def scanFraction : Str → List Char × Str
  | .scalar '.' :: text =>
    if (scanDigits text).1 = [] then ([], .scalar '.' :: text)
    else ('.' :: (scanDigits text).1, (scanDigits text).2)
  | text => ([], text)

def scanExponent : Str → List Char × Str
  | .scalar e :: text =>
    let (sign, digits) := match text with
      | .scalar s :: digits => if s = '+' ∨ s = '-' then ([s], digits) else ([], text)
      | _ => ([], text)
    if (e = 'e' ∨ e = 'E') ∧ (scanDigits digits).1 ≠ [] then
      (e :: sign ++ (scanDigits digits).1, (scanDigits digits).2)
    else ([], .scalar e :: text)
  | text => ([], text)

/-- The parts of a number literal. -/
structure Literal where
  sign : List Char
  integer : List Char
  fraction : List Char
  exponent : List Char
  deriving DecidableEq

namespace Literal

variable (l : Literal)

def text : List Char := l.sign ++ l.integer ++ l.fraction ++ l.exponent

def IsInt : Prop := l.fraction = [] ∧ l.exponent = []

instance : Decidable l.IsInt := inferInstanceAs (Decidable (_ ∧ _))

/-- The integer that a literal is. -/
def toInt : ℤ :=
  let n : ℤ := Nat.ofDigitChars 10 l.integer 0
  if l.sign = [] then n else -n

end Literal

def scanNumber (text : Str) : Option (Literal × Str) :=
  let (sign, text) := scanSign text
  let (integer, text) := scanInteger text
  if integer = [] then none
  else
    let (fraction, text) := scanFraction text
    let (exponent, text) := scanExponent text
    some (⟨sign, integer, fraction, exponent⟩, text)

/-- A text begins with no digit. -/
def NoDigit : Str → Prop
  | .scalar c :: _ => c.isDigit = false
  | _ => True

/-- A text begins with nothing that may be part of a number literal. -/
def Stops : Str → Prop
  | .scalar c :: _ => c.isDigit = false ∧ c ≠ '.' ∧ c ≠ 'e' ∧ c ≠ 'E'
  | _ => True

/-- A sequence of digits, with one at least. -/
def IsDigits (ds : List Char) : Prop := ds ≠ [] ∧ ∀ c ∈ ds, c.isDigit = true

/-- The grammar of number literals. -/
structure Literal.WellFormed (l : Literal) : Prop where
  sign : l.sign = [] ∨ l.sign = ['-']
  digits : IsDigits l.integer
  integer : l.integer = ['0'] ∨ l.integer.head? ≠ some '0'
  fraction : l.fraction = [] ∨ ∃ ds, IsDigits ds ∧ l.fraction = '.' :: ds
  exponent : l.exponent = [] ∨ ∃ e sign ds, (e = 'e' ∨ e = 'E') ∧
    (sign = [] ∨ sign = ['+'] ∨ sign = ['-']) ∧ IsDigits ds ∧ l.exponent = e :: sign ++ ds

/-- Floats, those that are finite having a literal, which they are read from. -/
structure FloatFormat (F : Type) where
  isFinite : F → Bool
  repr : F → List Char
  read : List Char → F
  literal (x : F) : isFinite x → ∃ l : Literal, l.WellFormed ∧ ¬l.IsInt ∧ l.text = repr x
  read_repr (x : F) : isFinite x → read (repr x) = x

/-- The literal of an integer. -/
def intText (i : ℤ) : List Char :=
  if i < 0 then '-' :: Nat.toDigits 10 i.natAbs else Nat.toDigits 10 i.natAbs

theorem Stops.noDigit {text : Str} (h : Stops text) : NoDigit text := by
  rcases text with _ | ⟨c | n, text⟩
  · trivial
  · exact h.1
  · trivial

theorem scanDigits_append {ds : List Char} (hds : ∀ c ∈ ds, c.isDigit = true) {rest : Str}
    (hrest : NoDigit rest) : scanDigits (chars ds ++ rest) = (ds, rest) := by
  induction ds with
  | nil =>
    rcases rest with _ | ⟨c | n, rest⟩
    · rfl
    · have hc : c.isDigit = false := hrest
      simp [chars, scanDigits, hc]
    · rfl
  | cons c ds ih =>
    have ih := ih fun d hd => hds d (List.mem_cons_of_mem _ hd)
    simp only [chars] at ih
    simp [chars, scanDigits, hds c List.mem_cons_self, ih]

theorem scanExponent_append {l : Literal} (hl : l.WellFormed) {rest : Str} (hrest : Stops rest) :
    scanExponent (chars l.exponent ++ rest) = (l.exponent, rest) := by
  rcases hl.exponent with h | ⟨e, sign, ds, he, hsign, ⟨hne, hds⟩, h⟩
  · rw [h]
    rcases rest with _ | ⟨c | n, rest⟩
    · rfl
    · simp [chars, scanExponent, hrest.2.2]
    · rfl
  · have hscan := scanDigits_append hds hrest.noDigit
    obtain ⟨d, ds, rfl⟩ := List.exists_cons_of_ne_nil hne
    have hd := hds d List.mem_cons_self
    simp only [chars, List.map_cons, List.cons_append] at hscan
    rw [h]
    rcases hsign with rfl | rfl | rfl
    · have hplus : d ≠ '+' ∧ d ≠ '-' := by constructor <;> rintro rfl <;> simp at hd
      simp [chars, scanExponent, he, hscan, hplus]
    · simp [chars, scanExponent, he, hscan]
    · simp [chars, scanExponent, he, hscan]

theorem scanFraction_append {l : Literal} (hl : l.WellFormed) {rest : Str} (hrest : NoDigit rest)
    (hdot : ∀ text, rest ≠ .scalar '.' :: text) :
    scanFraction (chars l.fraction ++ rest) = (l.fraction, rest) := by
  rcases hl.fraction with h | ⟨ds, ⟨hne, hds⟩, h⟩
  · rw [h]
    unfold scanFraction
    split
    · next text heq => exact absurd heq (hdot text)
    · rfl
  · have hscan := scanDigits_append hds hrest
    simp only [chars] at hscan
    simp [h, chars, scanFraction, hscan, hne]

theorem scanInteger_append {l : Literal} (hl : l.WellFormed) {rest : Str} (hrest : NoDigit rest) :
    scanInteger (chars l.integer ++ rest) = (l.integer, rest) := by
  have hscan := scanDigits_append hl.digits.2 hrest
  rcases hl.integer with h | h
  · simp [h, chars, scanInteger]
  · rw [← hscan]
    unfold scanInteger
    split
    · next text heq =>
      obtain ⟨d, ds, hd⟩ := List.exists_cons_of_ne_nil hl.digits.1
      rw [hd] at heq h
      simp only [chars, List.map_cons, List.cons_append, List.cons.injEq, CodePoint.scalar.injEq]
        at heq
      simp [heq.1] at h
    · rfl

theorem digitChar_ne_zero {d : ℕ} (hd : d ≠ 0) : Nat.digitChar d ≠ '0' := by simpa using hd

/-- The first digit of a number is zero only if it is. -/
theorem toDigits_head {n : ℕ} (hn : n ≠ 0) :
    ∃ c cs, Nat.toDigits 10 n = c :: cs ∧ c ≠ '0' := by
  induction n using Nat.strong_induction_on with
  | _ n ih =>
    rcases Nat.lt_or_ge n 10 with h | h
    · exact ⟨_, [], Nat.toDigits_of_lt_base h, digitChar_ne_zero hn⟩
    · obtain ⟨c, cs, hcs, hc⟩ := ih (n / 10) (by omega) (by omega)
      rw [Nat.toDigits_of_base_le (by omega) h, hcs]
      exact ⟨c, _, rfl, hc⟩

theorem scanSign_append {l : Literal} (hl : l.WellFormed) (rest : Str) :
    scanSign (chars l.sign ++ (chars l.integer ++ rest)) = (l.sign, chars l.integer ++ rest) := by
  rcases hl.sign with h | h
  · obtain ⟨d, ds, hd⟩ := List.exists_cons_of_ne_nil hl.digits.1
    have hdigit := hl.digits.2 d (by simp [hd])
    have hminus : d ≠ '-' := by
      rintro rfl
      simp at hdigit
    simp [h, hd, chars, scanSign, hminus]
  · simp [h, chars, scanSign]

/-- What stands after the fraction is no digit, and no point. -/
theorem noDigit_exponent {l : Literal} (hl : l.WellFormed) {rest : Str} (hrest : Stops rest) :
    NoDigit (chars l.exponent ++ rest) ∧
      ∀ text, chars l.exponent ++ rest ≠ .scalar '.' :: text := by
  rcases hl.exponent with h | ⟨e, sign, ds, he, -, -, h⟩
  · rw [h]
    refine ⟨hrest.noDigit, ?_⟩
    rintro text rfl
    exact hrest.2.1 rfl
  · rw [h]
    rcases he with rfl | rfl
    · exact ⟨rfl, by simp [chars]⟩
    · exact ⟨rfl, by simp [chars]⟩

theorem noDigit_fraction {l : Literal} (hl : l.WellFormed) {rest : Str} (hrest : NoDigit rest) :
    NoDigit (chars l.fraction ++ rest) := by
  rcases hl.fraction with h | ⟨ds, -, h⟩
  · rwa [h]
  · rw [h]
    exact rfl

theorem scanNumber_append {l : Literal} (hl : l.WellFormed) {rest : Str} (hrest : Stops rest) :
    scanNumber (chars l.text ++ rest) = some (l, rest) := by
  obtain ⟨hexponent, hdot⟩ := noDigit_exponent hl hrest
  have htext : chars l.text ++ rest = chars l.sign ++ (chars l.integer ++
      (chars l.fraction ++ (chars l.exponent ++ rest))) := by
    simp [Literal.text, chars]
  rw [htext, scanNumber, scanSign_append hl]
  simp only [scanInteger_append hl (noDigit_fraction hl hexponent), hl.digits.1, if_false,
    scanFraction_append hl hexponent hdot, scanExponent_append hl hrest]

/-- The literal of an integer, with its parts. -/
def intLiteral (i : ℤ) : Literal :=
  ⟨if i < 0 then ['-'] else [], Nat.toDigits 10 i.natAbs, [], []⟩

theorem intLiteral_text (i : ℤ) : (intLiteral i).text = intText i := by
  rw [intText, intLiteral, Literal.text]
  split_ifs <;> simp

theorem intLiteral_wellFormed (i : ℤ) : (intLiteral i).WellFormed where
  sign := by
    rw [intLiteral]
    split_ifs <;> simp
  digits := ⟨Nat.toDigits_ne_nil, fun c hc => Nat.isDigit_of_mem_toDigits (by omega) le_rfl hc⟩
  integer := by
    by_cases hi : i.natAbs = 0
    · exact .inl (by simp [intLiteral, hi])
    · obtain ⟨c, cs, hcs, hc⟩ := toDigits_head hi
      exact .inr (by simp [intLiteral, hcs, hc])
  fraction := .inl rfl
  exponent := .inl rfl

theorem intLiteral_toInt (i : ℤ) : (intLiteral i).toInt = i := by
  rw [intLiteral, Literal.toInt, Nat.ofDigitChars_ten_toDigits]
  by_cases hi : i < 0
  · have hneg : -(i.natAbs : ℤ) = i := by omega
    rw [if_pos hi]
    exact hneg
  · have hpos : (i.natAbs : ℤ) = i := by omega
    rw [if_neg hi]
    exact hpos

/-! ## Bytes -/

/-- The characters of a string without surrogates. -/
def characters : Str → Option (List Char)
  | [] => some []
  | .scalar c :: s => (characters s).map (c :: ·)
  | .surrogate _ :: _ => none

/-- The UTF-8 encoding of a string, if it has no surrogates. -/
def encodeUtf8 (s : Str) : Option ByteArray :=
  (characters s).map fun cs => (String.ofList cs).toByteArray

def decodeUtf8 (bytes : ByteArray) : Option Str :=
  bytes.utf8Decode?.map fun cs => chars cs.toList

theorem characters_eq_some {s : Str} {cs : List Char} : characters s = some cs ↔ s = chars cs := by
  induction s generalizing cs with
  | nil => simp [characters, chars, eq_comm]
  | cons c s ih =>
    rcases c with c | n
    · cases cs with
      | nil => simp [characters, chars]
      | cons d ds => simp [characters, ih, chars, and_comm]
    · cases cs <;> simp [characters, chars]

theorem encodeUtf8_eq_some {s : Str} {bytes : ByteArray} : encodeUtf8 s = some bytes ↔
    ∃ cs, s = chars cs ∧ cs.utf8Encode = bytes := by
  simp [encodeUtf8, characters_eq_some]

@[simp]
theorem encodeUtf8_chars (cs : List Char) : encodeUtf8 (chars cs) = some cs.utf8Encode :=
  encodeUtf8_eq_some.2 ⟨cs, rfl, rfl⟩

theorem encodeUtf8_append {s t : Str} {a b : ByteArray} (hs : encodeUtf8 s = some a)
    (ht : encodeUtf8 t = some b) : encodeUtf8 (s ++ t) = some (a ++ b) := by
  obtain ⟨cs, rfl, rfl⟩ := encodeUtf8_eq_some.1 hs
  obtain ⟨ds, rfl, rfl⟩ := encodeUtf8_eq_some.1 ht
  exact encodeUtf8_eq_some.2 ⟨cs ++ ds, by simp [chars], List.utf8Encode_append⟩

theorem encodeUtf8_append_eq_some {s t : Str} {bytes : ByteArray}
    (h : encodeUtf8 (s ++ t) = some bytes) :
    ∃ a b, encodeUtf8 s = some a ∧ encodeUtf8 t = some b ∧ bytes = a ++ b := by
  obtain ⟨cs, hcs, rfl⟩ := encodeUtf8_eq_some.1 h
  obtain ⟨ds, es, rfl, rfl, rfl⟩ := List.append_eq_map_iff.1 hcs
  exact ⟨_, _, encodeUtf8_chars ds, encodeUtf8_chars es, List.utf8Encode_append⟩

theorem decodeUtf8_encodeUtf8 {s : Str} {bytes : ByteArray} (h : encodeUtf8 s = some bytes) :
    decodeUtf8 bytes = some s := by
  obtain ⟨cs, rfl, rfl⟩ := encodeUtf8_eq_some.1 h
  simp [decodeUtf8]

end Json
