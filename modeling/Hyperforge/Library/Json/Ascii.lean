import Hyperforge.Library.Json
import Mathlib.Data.List.Sort
import Mathlib.Data.List.Lex

/-!
# Texts in ASCII

String literals may escape all characters that are not printable ones of ASCII (`ascii`): by their
code unit, or by the two surrogates of a pair. A string is read back if it has no surrogates, as
those that follow each other would be read as a pair. So texts in ASCII are those of one tree only
(`write_ascii_injective`), and they always have an encoding (`exists_write_ascii`).

The members of objects may be sorted by their keys before a tree is written (`Tree.sortKeys`).
-/

namespace Json

/-- A code unit, escaped. -/
def unicodeEscape (u : ℕ) : Str :=
  chars ['\\', 'u', hexDigit (u / 0x1000), hexDigit (u / 0x100 % 0x10), hexDigit (u / 0x10 % 0x10),
    hexDigit (u % 0x10)]

/-- A code point within a string literal in ASCII. -/
def asciiEscape : CodePoint → Str
  | .scalar c =>
    if c = '"' then chars ['\\', '"']
    else if c = '\\' then chars ['\\', '\\']
    else if c = '\n' then chars ['\\', 'n']
    else if c = '\r' then chars ['\\', 'r']
    else if c = '\t' then chars ['\\', 't']
    else if c.toNat = 0x0c then chars ['\\', 'f']
    else if c.toNat = 0x08 then chars ['\\', 'b']
    else if 0x20 ≤ c.toNat ∧ c.toNat ≤ 0x7e then [.scalar c]
    else if c.toNat < 0x10000 then unicodeEscape c.toNat
    else unicodeEscape (0xd800 + (c.toNat - 0x10000) / 0x400) ++
      unicodeEscape (0xdc00 + (c.toNat - 0x10000) % 0x400)
  | .surrogate n => unicodeEscape (0xd800 + n)

/-- What stands between the quotes of a string literal in ASCII. -/
def asciiDumps (s : Str) : Str := s.flatMap asciiEscape

/-- A character is written as in a plain literal. -/
def Printed (c : Char) : Prop :=
  c = '"' ∨ c = '\\' ∨ c = '\n' ∨ c = '\r' ∨ c = '\t' ∨ c.toNat = 0x0c ∨ c.toNat = 0x08 ∨
    (0x20 ≤ c.toNat ∧ c.toNat ≤ 0x7e)

instance decidablePrinted (c : Char) : Decidable (Printed c) := inferInstanceAs (Decidable (_ ∨ _))

/-- The pieces that the escape of a character is. -/
def asciiPieces (c : Char) : List Piece :=
  if Printed c then [.plain (.scalar c)]
  else if c.toNat < 0x10000 then [.unit c.toNat]
  else [.unit (0xd800 + (c.toNat - 0x10000) / 0x400), .unit (0xdc00 + (c.toNat - 0x10000) % 0x400)]

theorem hexValue_hexDigit : ∀ d < 0x10, hexValue (hexDigit d) = some d := by decide

theorem hex4_hexDigit {u : ℕ} (hu : u < 0x10000) : hex4 (hexDigit (u / 0x1000))
    (hexDigit (u / 0x100 % 0x10)) (hexDigit (u / 0x10 % 0x10)) (hexDigit (u % 0x10)) = some u := by
  rw [hex4, hexValue_hexDigit _ (by omega), hexValue_hexDigit _ (by omega),
    hexValue_hexDigit _ (by omega), hexValue_hexDigit _ (by omega)]
  refine congrArg some ?_
  omega

theorem scanPieces_unicodeEscape {u : ℕ} (hu : u < 0x10000) (rest : Str) :
    scanPieces (unicodeEscape u ++ rest) =
      (scanPieces rest).map fun p => (.unit u :: p.1, p.2) := by
  simp [unicodeEscape, chars, scanPieces, hex4_hexDigit hu, Option.map_eq_bind]

theorem Printed.escape_eq {c : Char} (h : Printed c) :
    asciiEscape (.scalar c) = escape (.scalar c) ∧ piece (.scalar c) = .plain (.scalar c) := by
  rw [asciiEscape, escape, piece]
  rcases h with rfl | rfl | rfl | rfl | rfl | h | h | h
  · exact ⟨rfl, rfl⟩
  · exact ⟨rfl, rfl⟩
  · exact ⟨rfl, rfl⟩
  · exact ⟨rfl, rfl⟩
  · exact ⟨rfl, rfl⟩
  · simp [h]
  · simp [h]
  · have hcontrol : ¬c.toNat < 0x20 := by omega
    simp [h, hcontrol]

theorem asciiEscape_of_not_printed {c : Char} (h : ¬Printed c) : asciiEscape (.scalar c) =
    if c.toNat < 0x10000 then unicodeEscape c.toNat
    else unicodeEscape (0xd800 + (c.toNat - 0x10000) / 0x400) ++
      unicodeEscape (0xdc00 + (c.toNat - 0x10000) % 0x400) := by
  simp only [Printed, not_or] at h
  obtain ⟨h1, h2, h3, h4, h5, h6, h7, h8⟩ := h
  rw [asciiEscape, if_neg h1, if_neg h2, if_neg h3, if_neg h4, if_neg h5, if_neg h6, if_neg h7,
    if_neg h8]

theorem toNat_lt (c : Char) : c.toNat < 0x110000 := by
  rcases c.valid with h | h
  · exact Nat.lt_trans h (by decide)
  · exact h.2

theorem scanPieces_asciiEscape (c : Char) (rest : Str) :
    scanPieces (asciiEscape (.scalar c) ++ rest) =
      (scanPieces rest).map fun p => (asciiPieces c ++ p.1, p.2) := by
  rw [asciiPieces]
  by_cases h : Printed c
  · rw [if_pos h, h.escape_eq.1, scanPieces_escape, h.escape_eq.2]
    rfl
  rw [if_neg h, asciiEscape_of_not_printed h]
  have hlt := toNat_lt c
  split_ifs with hbmp
  · rw [scanPieces_unicodeEscape hbmp]
    rfl
  · rw [List.append_assoc, scanPieces_unicodeEscape (by omega), scanPieces_unicodeEscape (by omega),
      Option.map_map]
    rfl

theorem scanPieces_asciiDumps (cs : List Char) (rest : Str) :
    scanPieces (asciiDumps (chars cs) ++ .scalar '"' :: rest) =
      some (cs.flatMap asciiPieces, rest) := by
  induction cs with
  | nil => simp [asciiDumps, chars, scanPieces]
  | cons c cs ih =>
    have hcons : asciiDumps (chars (c :: cs)) = asciiEscape (.scalar c) ++ asciiDumps (chars cs) :=
      List.flatMap_cons
    rw [hcons, List.append_assoc, scanPieces_asciiEscape, ih]
    rfl

/-- A unit that is no high surrogate is a character by itself. -/
theorem join_unit_of_not_high {u : ℕ} (hu : ¬(0xd800 ≤ u ∧ u < 0xdc00)) (ps : List Piece) :
    join (.unit u :: ps) = ofUnit u :: join ps := by
  rcases ps with _ | ⟨c | l, ps⟩
  · rfl
  · rfl
  · rw [join, if_neg]
    tauto

theorem join_asciiPieces (c : Char) (ps : List Piece) :
    join (asciiPieces c ++ ps) = .scalar c :: join ps := by
  have hlt := toNat_lt c
  rw [asciiPieces]
  split_ifs with h hbmp
  · rw [List.singleton_append, join]
  · have hscalar : ¬(0xd800 ≤ c.toNat ∧ c.toNat < 0xe000) := by
      rintro ⟨hle, hlt⟩
      rcases c.valid with h | h
      · exact absurd h (not_lt.2 hle)
      · exact absurd hlt (not_lt.2 h.1)
    have hhigh : ¬(0xd800 ≤ c.toNat ∧ c.toNat < 0xdc00) := fun h => hscalar ⟨h.1, by omega⟩
    rw [List.singleton_append, join_unit_of_not_high hhigh, ofUnit, dif_neg hscalar,
      Char.ofNat_toNat]
  · rw [List.cons_append, List.singleton_append, join, if_pos (by omega)]
    have hsum : 0x10000 + (0xd800 + (c.toNat - 0x10000) / 0x400 - 0xd800) * 0x400 +
        (0xdc00 + (c.toNat - 0x10000) % 0x400 - 0xdc00) = c.toNat := by
      omega
    rw [hsum, Char.ofNat_toNat]

theorem scanString_asciiDumps (cs : List Char) (rest : Str) :
    scanString (asciiDumps (chars cs) ++ .scalar '"' :: rest) = some (chars cs, rest) := by
  have hjoin : join (cs.flatMap asciiPieces) = chars cs := by
    induction cs with
    | nil => rfl
    | cons c cs ih =>
      rw [List.flatMap_cons, join_asciiPieces, ih]
      rfl
  rw [scanString, scanPieces_asciiDumps, Option.map_some]
  exact congrArg (fun s => some (s, rest)) hjoin

/-- String literals in ASCII, which are read back if a string has no surrogates. -/
def ascii : StringFormat where
  dumps := asciiDumps
  Readable s := ∃ cs, s = chars cs
  scan := by
    rintro _ ⟨cs, rfl⟩ rest
    exact scanString_asciiDumps cs rest

variable {F : Type} {φ : FloatFormat F} {maxDigits : ℕ}

/-- A text in ASCII is that of one tree only. -/
theorem write_ascii_injective {x y : Tree F} (hx : x.WellFormed φ maxDigits)
    (hy : y.WellFormed φ maxDigits) (hxs : x.Readable ascii) (hys : y.Readable ascii)
    (h : x.write φ ascii = y.write φ ascii) : x = y := by
  have hread := loads_write hx hxs
  rw [h, loads_write hy hys] at hread
  exact (Option.some.inj hread).symm

/-! ## Characters -/

/-- A string without surrogates. -/
def NoSurrogates (s : Str) : Prop := ∀ c ∈ s, ∃ d, c = .scalar d

@[simp]
theorem noSurrogates_nil : NoSurrogates [] := by simp [NoSurrogates]

@[simp]
theorem noSurrogates_cons {c : Char} {s : Str} :
    NoSurrogates (.scalar c :: s) ↔ NoSurrogates s := by
  simp [NoSurrogates]

@[simp]
theorem noSurrogates_append {s t : Str} :
    NoSurrogates (s ++ t) ↔ NoSurrogates s ∧ NoSurrogates t := List.forall_mem_append

@[simp]
theorem noSurrogates_chars (cs : List Char) : NoSurrogates (chars cs) := by
  simp [NoSurrogates, chars]

@[simp]
theorem noSurrogates_comma (index : ℕ) : NoSurrogates (comma index) := by
  rw [comma]
  split_ifs <;> simp

theorem NoSurrogates.exists_chars {s : Str} (h : NoSurrogates s) : ∃ cs, s = chars cs := by
  induction s with
  | nil => exact ⟨[], rfl⟩
  | cons c s ih =>
    obtain ⟨⟨d, rfl⟩, hs⟩ := List.forall_mem_cons.1 h
    obtain ⟨cs, rfl⟩ := ih hs
    exact ⟨d :: cs, rfl⟩

theorem noSurrogates_asciiEscape (c : CodePoint) : NoSurrogates (asciiEscape c) := by
  rcases c with c | n
  · rw [asciiEscape]
    split_ifs <;> simp [unicodeEscape]
  · exact noSurrogates_chars _

theorem noSurrogates_quote (s : Str) : NoSurrogates (ascii.quote s) := by
  have hs : NoSurrogates (ascii.dumps s) := by
    intro c hc
    obtain ⟨d, -, hd⟩ := List.mem_flatMap.1 hc
    exact noSurrogates_asciiEscape d c hd
  simpa [StringFormat.quote] using hs

theorem noSurrogates_write (x : Tree F) : NoSurrogates (x.write φ ascii) := by
  induction x using Tree.induction with
  | null => exact noSurrogates_chars _
  | bool b => cases b <;> exact noSurrogates_chars _
  | int i => exact noSurrogates_chars _
  | float x => exact noSurrogates_chars _
  | str s => exact noSurrogates_quote s
  | arr items ih =>
    have hitems (index : ℕ) : NoSurrogates (writeItems φ ascii index items) := by
      induction items generalizing index with
      | nil => exact noSurrogates_nil
      | cons x xs ihs =>
        obtain ⟨hx, hxs⟩ := List.forall_mem_cons.1 ih
        simp [writeItems, hx, ihs hxs]
    simp [Tree.write, hitems]
  | obj members ih =>
    have hmembers (index : ℕ) : NoSurrogates (writeMembers φ ascii index members) := by
      induction members generalizing index with
      | nil => exact noSurrogates_nil
      | cons m ms ihs =>
        obtain ⟨hm, hms⟩ := List.forall_mem_cons.1 ih
        simp [writeMembers, hm, ihs hms, noSurrogates_quote]
    simp [Tree.write, hmembers]

/-- A text in ASCII always has an encoding. -/
theorem exists_write_ascii (φ : FloatFormat F) (x : Tree F) : ∃ cs, x.write φ ascii = chars cs :=
  (noSurrogates_write x).exists_chars

/-! ## Sorted keys -/

/-- The number of a code point. -/
def CodePoint.toNat : CodePoint → ℕ
  | .scalar c => c.toNat
  | .surrogate n => 0xd800 + n

mutual

/-- A tree with the members of its objects in the order of their keys. -/
def Tree.sortKeys : Tree F → Tree F
  | .null => .null
  | .bool b => .bool b
  | .int i => .int i
  | .float x => .float x
  | .str s => .str s
  | .arr items => .arr (sortItems items)
  | .obj members => .obj ((sortMembers members).insertionSort fun m m' =>
      m.1.map CodePoint.toNat ≤ m'.1.map CodePoint.toNat)

def sortItems : List (Tree F) → List (Tree F)
  | [] => []
  | x :: xs => x.sortKeys :: sortItems xs

def sortMembers : List (Str × Tree F) → List (Str × Tree F)
  | [] => []
  | (k, x) :: ms => (k, x.sortKeys) :: sortMembers ms

end

theorem sortItems_eq_map (items : List (Tree F)) : sortItems items = items.map Tree.sortKeys := by
  induction items with
  | nil => rfl
  | cons x xs ih => rw [sortItems, ih, List.map_cons]

end Json
