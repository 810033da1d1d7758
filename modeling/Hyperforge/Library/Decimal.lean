import Mathlib.Data.Nat.Digits.Defs

/-!
# Decimal digits

The characters that are decimal digits, in any script (`isDigit`), and the number that a text of
them stands for (`int`), as it is written (`int_toDigits`).
-/

namespace Decimal

/-- The zeros of all scripts. The other nine digits follow each of them. -/
def zeros : List ℕ := [0x30, 0x660, 0x6F0, 0x7C0, 0x966, 0x9E6, 0xA66, 0xAE6, 0xB66, 0xBE6, 0xC66,
  0xCE6, 0xD66, 0xDE6, 0xE50, 0xED0, 0xF20, 0x1040, 0x1090, 0x17E0, 0x1810, 0x1946, 0x19D0, 0x1A80,
  0x1A90, 0x1B50, 0x1BB0, 0x1C40, 0x1C50, 0xA620, 0xA8D0, 0xA900, 0xA9D0, 0xA9F0, 0xAA50, 0xABF0,
  0xFF10, 0x104A0, 0x10D30, 0x11066, 0x110F0, 0x11136, 0x111D0, 0x112F0, 0x11450, 0x114D0, 0x11650,
  0x116C0, 0x11730, 0x118E0, 0x11950, 0x11C50, 0x11D50, 0x11DA0, 0x11F50, 0x16A60, 0x16AC0, 0x16B50,
  0x1D7CE, 0x1D7D8, 0x1D7E2, 0x1D7EC, 0x1D7F6, 0x1E140, 0x1E2F0, 0x1E4F0, 0x1E950, 0x1FBF0]

/-- The zero that a digit follows. -/
def zeroOf (c : Char) : Option ℕ := zeros.find? fun first => first ≤ c.toNat && c.toNat ≤ first + 9

def isDigit (c : Char) : Bool := (zeroOf c).isSome

/-- The value of a digit. -/
def value (c : Char) : ℕ := c.toNat - (zeroOf c).getD c.toNat

/-- The number of a text without whitespace and minus signs, of which the digits may be grouped by
    underscores. -/
def int (text : List Char) : Option ℕ :=
  let unsigned := if text.head? = some '+' then text.tail else text
  let groups := unsigned.splitOn '_'
  if groups.all fun group => !group.isEmpty && group.all isDigit then
    some (groups.flatten.foldl (fun n c => 10 * n + value c) 0)
  else none

variable {c : Char}

theorem exists_of_isDigit (h : isDigit c) : ∃ first ∈ zeros, ∃ i < 10, c.toNat = first + i := by
  obtain ⟨first, hfirst⟩ := Option.isSome_iff_exists.1 h
  have hbounds := List.find?_some hfirst
  rw [Bool.and_eq_true, decide_eq_true_eq, decide_eq_true_eq] at hbounds
  exact ⟨first, List.mem_of_find?_eq_some hfirst, c.toNat - first, by omega, by omega⟩

theorem zeroOf_ascii (h : c.isDigit) : zeroOf c = some 0x30 := by
  rw [Char.isDigit, Bool.and_eq_true, decide_eq_true_eq, decide_eq_true_eq] at h
  have hbounds : 0x30 ≤ c.toNat ∧ c.toNat ≤ 0x30 + 9 := h
  rw [zeroOf, zeros, List.find?_cons_of_pos]
  simpa using hbounds

theorem isDigit_ascii (h : c.isDigit) : isDigit c := by
  rw [isDigit, zeroOf_ascii h]
  rfl

theorem isDigit_of_mem_toDigits {n : ℕ} (h : c ∈ Nat.toDigits 10 n) : isDigit c :=
  isDigit_ascii (Nat.isDigit_of_mem_toDigits (by omega) (by omega) h)

theorem toDigits_inj {n m : ℕ} (h : Nat.toDigits 10 n = Nat.toDigits 10 m) : n = m := by
  have hdigits := congrArg (Nat.ofDigitChars 10 · 0) h
  simpa only [Nat.ofDigitChars_ten_toDigits] using hdigits

theorem foldl_value {text : List Char} (h : ∀ c ∈ text, c.isDigit) (n : ℕ) :
    text.foldl (fun n c => 10 * n + value c) n = Nat.ofDigitChars 10 text n := by
  induction text generalizing n with
  | nil => rw [Nat.ofDigitChars_nil, List.foldl_nil]
  | cons c text ih =>
    rw [List.forall_mem_cons] at h
    rw [List.foldl_cons, ih h.2, Nat.ofDigitChars_cons, value, zeroOf_ascii h.1]
    rfl

/-- A number is read back from how it is written. -/
theorem int_toDigits (n : ℕ) : int (Nat.toDigits 10 n) = some n := by
  have hascii : ∀ c ∈ Nat.toDigits 10 n, c.isDigit := fun c hc =>
    Nat.isDigit_of_mem_toDigits (by omega) (by omega) hc
  have hsign : (Nat.toDigits 10 n).head? ≠ some '+' := by
    intro hplus
    exact absurd (hascii '+' (List.mem_of_head? hplus)) (by decide)
  have hgroups : (Nat.toDigits 10 n).splitOn '_' = [Nat.toDigits 10 n] :=
    List.splitOn_eq_singleton Nat.underscore_not_in_toDigits
  have hall : ([Nat.toDigits 10 n].all fun group => !group.isEmpty && group.all isDigit) := by
    simpa using fun c hc => isDigit_of_mem_toDigits hc
  simp only [int, if_neg hsign, hgroups, hall, if_true, List.flatten_singleton]
  rw [foldl_value hascii, Nat.ofDigitChars_ten_toDigits]

end Decimal
