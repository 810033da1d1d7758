import Mathlib.Tactic.Common

/-!
# Base64

The encoding of bytes as characters (`b64encode`), three as four, and its decoding (`b64decode`),
which skips characters of no digit. What is encoded is decoded (`b64decode_b64encode`).
-/

namespace Base64

def alphabet : List Char :=
  "ABCDEFGHIJKLMNOPQRSTUVWXYZabcdefghijklmnopqrstuvwxyz0123456789+/".toList

def digit (v : ℕ) : Char := alphabet.getD v '='

def digitValue (c : Char) : Option ℕ := alphabet.idxOf? c

def b64encode : List UInt8 → List Char
  | a :: b :: c :: bytes =>
    digit (a.toNat / 4) :: digit (a.toNat % 4 * 16 + b.toNat / 16) ::
      digit (b.toNat % 16 * 4 + c.toNat / 64) :: digit (c.toNat % 64) :: b64encode bytes
  | [a, b] => [digit (a.toNat / 4), digit (a.toNat % 4 * 16 + b.toNat / 16),
      digit (b.toNat % 16 * 4), '=']
  | [a] => [digit (a.toNat / 4), digit (a.toNat % 4 * 16), '=', '=']
  | [] => []

/-- Decoding, after `quadPos` digits of a group, of which bits are left, and padding. -/
def decodeFrom : (quadPos leftchar pads : ℕ) → List Char → Option (List UInt8)
  | quadPos, _, _, [] => if quadPos = 0 then some [] else none
  | quadPos, leftchar, pads, c :: rest =>
    if c = '=' then
      if quadPos < 2 then decodeFrom quadPos leftchar pads rest
      else if 4 ≤ quadPos + (pads + 1) then some []
      else decodeFrom quadPos leftchar (pads + 1) rest
    else
      match digitValue c with
      | none => decodeFrom quadPos leftchar pads rest
      | some v =>
        match quadPos with
        | 0 => decodeFrom 1 v 0 rest
        | 1 => (UInt8.ofNat (leftchar * 4 + v / 16) :: ·) <$> decodeFrom 2 (v % 16) 0 rest
        | 2 => (UInt8.ofNat (leftchar * 16 + v / 4) :: ·) <$> decodeFrom 3 (v % 4) 0 rest
        | _ => (UInt8.ofNat (leftchar * 64 + v) :: ·) <$> decodeFrom 0 0 0 rest

/-- The bytes, unless there are characters that are not of ASCII, or digits missing. -/
def b64decode (text : List Char) : Option (List UInt8) :=
  if text.all (·.toNat < 128) then decodeFrom 0 0 0 text else none

theorem digit_spec : ∀ v < 64, digit v ≠ '=' ∧ digitValue (digit v) = some v := by
  unfold digitValue digit alphabet
  rewrite [String.toList_ofList]
  decide +kernel

theorem digit_ascii : ∀ v < 64, (digit v).toNat < 128 := by
  unfold digit alphabet
  rewrite [String.toList_ofList]
  decide +kernel

section

variable {v : ℕ} (hv : v < 64) (l p : ℕ) (rest : List Char)

include hv

/-- A digit is decoded by its position in its group. -/
theorem decodeFrom_digit (quadPos : ℕ) : decodeFrom quadPos l p (digit v :: rest) =
    match quadPos with
    | 0 => decodeFrom 1 v 0 rest
    | 1 => (UInt8.ofNat (l * 4 + v / 16) :: ·) <$> decodeFrom 2 (v % 16) 0 rest
    | 2 => (UInt8.ofNat (l * 16 + v / 4) :: ·) <$> decodeFrom 3 (v % 4) 0 rest
    | _ => (UInt8.ofNat (l * 64 + v) :: ·) <$> decodeFrom 0 0 0 rest := by
  obtain ⟨hpad, hvalue⟩ := digit_spec v hv
  rw [decodeFrom, if_neg hpad, hvalue]

theorem decodeFrom_first : decodeFrom 0 l p (digit v :: rest) = decodeFrom 1 v 0 rest :=
  decodeFrom_digit hv l p rest 0

theorem decodeFrom_second : decodeFrom 1 l p (digit v :: rest) =
    (UInt8.ofNat (l * 4 + v / 16) :: ·) <$> decodeFrom 2 (v % 16) 0 rest :=
  decodeFrom_digit hv l p rest 1

theorem decodeFrom_third : decodeFrom 2 l p (digit v :: rest) =
    (UInt8.ofNat (l * 16 + v / 4) :: ·) <$> decodeFrom 3 (v % 4) 0 rest :=
  decodeFrom_digit hv l p rest 2

theorem decodeFrom_fourth : decodeFrom 3 l p (digit v :: rest) =
    (UInt8.ofNat (l * 64 + v) :: ·) <$> decodeFrom 0 0 0 rest :=
  decodeFrom_digit hv l p rest 3

end

theorem ofNat_eq {a : UInt8} {n : ℕ} (h : n = a.toNat) : UInt8.ofNat n = a := by
  rw [h, UInt8.ofNat_toNat]

/-- What is encoded is decoded. -/
theorem decodeFrom_b64encode (bytes : List UInt8) :
    decodeFrom 0 0 0 (b64encode bytes) = some bytes := by
  have hlt (a : UInt8) : a.toNat < 256 := a.toNat_lt
  induction bytes using b64encode.induct with
  | case1 a b c bytes ih =>
    have ha := hlt a
    have hb := hlt b
    have hc := hlt c
    rw [b64encode, decodeFrom_first (by omega), decodeFrom_second (by omega),
      decodeFrom_third (by omega), decodeFrom_fourth (by omega), ih, ofNat_eq (a := a) (by omega),
      ofNat_eq (a := b) (by omega), ofNat_eq (a := c) (by omega)]
    rfl
  | case2 a b =>
    have ha := hlt a
    have hb := hlt b
    rw [b64encode, decodeFrom_first (by omega), decodeFrom_second (by omega),
      decodeFrom_third (by omega), ofNat_eq (a := a) (by omega), ofNat_eq (a := b) (by omega)]
    rfl
  | case3 a =>
    have ha := hlt a
    rw [b64encode, decodeFrom_first (by omega), decodeFrom_second (by omega),
      ofNat_eq (a := a) (by omega)]
    rfl
  | case4 => rfl

theorem b64encode_ascii (bytes : List UInt8) : ∀ c ∈ b64encode bytes, c.toNat < 128 := by
  have hlt (a : UInt8) : a.toNat < 256 := a.toNat_lt
  have hpad : ('=').toNat < 128 := by decide
  induction bytes using b64encode.induct with
  | case1 a b c bytes ih =>
    have ha := hlt a
    have hb := hlt b
    have hc := hlt c
    simp only [b64encode, List.forall_mem_cons]
    exact ⟨digit_ascii _ (by omega), digit_ascii _ (by omega), digit_ascii _ (by omega),
      digit_ascii _ (by omega), ih⟩
  | case2 a b =>
    have ha := hlt a
    have hb := hlt b
    simp only [b64encode, List.forall_mem_cons]
    exact ⟨digit_ascii _ (by omega), digit_ascii _ (by omega), digit_ascii _ (by omega), hpad,
      List.forall_mem_nil _⟩
  | case3 a =>
    have ha := hlt a
    simp only [b64encode, List.forall_mem_cons]
    exact ⟨digit_ascii _ (by omega), digit_ascii _ (by omega), hpad, hpad, List.forall_mem_nil _⟩
  | case4 => exact List.forall_mem_nil _

theorem b64decode_b64encode (bytes : List UInt8) : b64decode (b64encode bytes) = some bytes := by
  rw [b64decode, if_pos, decodeFrom_b64encode]
  exact List.all_eq_true.2 fun c hc => decide_eq_true (b64encode_ascii bytes c hc)

/-- Only of no bytes the encoding is empty. -/
theorem b64encode_eq_nil {bytes : List UInt8} (h : b64encode bytes = []) : bytes = [] := by
  have hdecode := decodeFrom_b64encode bytes
  rw [h, decodeFrom, if_pos rfl] at hdecode
  exact (Option.some.inj hdecode).symm

end Base64
