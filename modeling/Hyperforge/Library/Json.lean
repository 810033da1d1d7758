import Hyperforge.Library.Json.Literal
import Mathlib.Data.List.Nodup

/-!
# JSON

Trees (`Json.Tree`), their text (`Json.Tree.text`), and the reader of texts (`Json.loads`), which
allows white space and gives a key its last value. An integer may be refused for its
length. Strings may also be written in other formats (`Json.Tree.write`).

* `loads_text`, `loads_write`: the reader reads a tree back from its text, if integers are of
  bounded length, floats finite, and the keys of an object distinct (`Json.Tree.WellFormed`).
-/

namespace Json

/-! ## Trees -/

inductive Tree (F : Type)
  | null
  | bool (b : Bool)
  | int (i : ℤ)
  | float (x : F)
  | str (s : Str)
  | arr (items : List (Tree F))
  | obj (members : List (Str × Tree F))

/-- What stands before an item, or a member, after others. -/
def comma (index : ℕ) : Str := if index = 0 then [] else [.scalar ',']

/-- How string literals are written: what stands between their quotes, from which some strings
    are read back. -/
structure StringFormat where
  dumps : Str → Str
  Readable : Str → Prop
  scan {s : Str} : Readable s → ∀ rest, scanString (dumps s ++ .scalar '"' :: rest) = some (s, rest)

/-- String literals that escape no more than they have to. -/
def plain : StringFormat where
  dumps := dumps
  Readable _ := True
  scan _ rest := scanString_dumps _ rest

section Text

variable {F : Type} (φ : FloatFormat F)

mutual

/-- The text of a tree, without white space. -/
def Tree.text : Tree F → Str
  | .null => chars ['n', 'u', 'l', 'l']
  | .bool true => chars ['t', 'r', 'u', 'e']
  | .bool false => chars ['f', 'a', 'l', 's', 'e']
  | .int i => chars (intText i)
  | .float x => chars (φ.repr x)
  | .str s => quote s
  | .arr items => .scalar '[' :: itemsText 0 items ++ [.scalar ']']
  | .obj members => .scalar '{' :: membersText 0 members ++ [.scalar '}']

def itemsText (index : ℕ) : List (Tree F) → Str
  | [] => []
  | x :: xs => comma index ++ x.text ++ itemsText (index + 1) xs

def membersText (index : ℕ) : List (Str × Tree F) → Str
  | [] => []
  | (k, x) :: ms => comma index ++ quote k ++ .scalar ':' :: x.text ++ membersText (index + 1) ms

end

variable (ψ : StringFormat)

/-- A string literal, in a format. -/
def StringFormat.quote (s : Str) : Str := .scalar '"' :: ψ.dumps s ++ [.scalar '"']

mutual

/-- The text of a tree, without white space, with string literals in a format. -/
def Tree.write : Tree F → Str
  | .null => chars ['n', 'u', 'l', 'l']
  | .bool true => chars ['t', 'r', 'u', 'e']
  | .bool false => chars ['f', 'a', 'l', 's', 'e']
  | .int i => chars (intText i)
  | .float x => chars (φ.repr x)
  | .str s => ψ.quote s
  | .arr items => .scalar '[' :: writeItems 0 items ++ [.scalar ']']
  | .obj members => .scalar '{' :: writeMembers 0 members ++ [.scalar '}']

def writeItems (index : ℕ) : List (Tree F) → Str
  | [] => []
  | x :: xs => comma index ++ x.write ++ writeItems (index + 1) xs

def writeMembers (index : ℕ) : List (Str × Tree F) → Str
  | [] => []
  | (k, x) :: ms =>
    comma index ++ ψ.quote k ++ .scalar ':' :: x.write ++ writeMembers (index + 1) ms

end

end Text

/-! ## The reader -/

/-- The text after white space. -/
def skip : Str → Str
  | .scalar c :: text =>
    if c = ' ' ∨ c = '\t' ∨ c = '\n' ∨ c = '\r' then skip text else .scalar c :: text
  | text => text

/-- The text after some characters. -/
def expect : List Char → Str → Option Str
  | [], text => some text
  | d :: ds, .scalar c :: text => if c = d then expect ds text else none
  | _, _ => none

/-- A key of a dictionary gets a value, at its place if it has one already. -/
def setItem {α : Type*} (d : List (Str × α)) (k : Str) (x : α) : List (Str × α) :=
  if k ∈ d.map Prod.fst then d.map fun p => if p.1 = k then (k, x) else p else d ++ [(k, x)]

/-- The dictionary of the members of an object: of those with one key, the last. -/
def dict {α : Type*} (members : List (Str × α)) : List (Str × α) :=
  members.foldl (fun d m => setItem d m.1 m.2) []

section Reader

variable {F : Type} (φ : FloatFormat F) (maxDigits : ℕ)

/-- A number, an integer being of at most `maxDigits` digits. -/
def number (text : Str) : Option (Tree F × Str) := do
  let (l, rest) ← scanNumber text
  if l.IsInt then
    if l.integer.length ≤ maxDigits then some (.int l.toInt, rest) else none
  else some (.float (φ.read l.text), rest)

mutual

/-- The value at the beginning of a text, and the text after it. -/
def value : ℕ → Str → Option (Tree F × Str)
  | n + 1, .scalar c :: text =>
    if c = '"' then (scanString text).map fun p => (.str p.1, p.2)
    else if c = '{' then
      match skip text with
      | .scalar '}' :: rest => some (.obj [], rest)
      | text => (members n text).map fun p => (.obj (dict p.1), p.2)
    else if c = '[' then
      match skip text with
      | .scalar ']' :: rest => some (.arr [], rest)
      | text => (elements n text).map fun p => (.arr p.1, p.2)
    else if c = 'n' then (expect ['u', 'l', 'l'] text).map fun rest => (.null, rest)
    else if c = 't' then (expect ['r', 'u', 'e'] text).map fun rest => (.bool true, rest)
    else if c = 'f' then (expect ['a', 'l', 's', 'e'] text).map fun rest => (.bool false, rest)
    else number φ maxDigits (.scalar c :: text)
  | _, _ => none

/-- The items of an array that is not empty. -/
def elements : ℕ → Str → Option (List (Tree F) × Str)
  | 0, _ => none
  | n + 1, text => do
    let (x, text) ← value n text
    match skip text with
    | .scalar ',' :: text => (elements n (skip text)).map fun p => (x :: p.1, p.2)
    | .scalar ']' :: rest => some ([x], rest)
    | _ => none

/-- The members of an object that is not empty. -/
def members : ℕ → Str → Option (List (Str × Tree F) × Str)
  | n + 1, .scalar '"' :: text => do
    let (k, text) ← scanString text
    match skip text with
    | .scalar ':' :: text => do
      let (x, text) ← value n (skip text)
      match skip text with
      | .scalar ',' :: text => (members n (skip text)).map fun p => ((k, x) :: p.1, p.2)
      | .scalar '}' :: rest => some ([(k, x)], rest)
      | _ => none
    | _ => none
  | _, _ => none

end

/-- The value that a text is. -/
def loads (text : Str) : Option (Tree F) := do
  let (x, rest) ← value φ maxDigits (text.length + 1) (skip text)
  if skip rest = [] then some x else none

end Reader


/-! ## Reading back -/

section WellFormed

variable {F : Type} (φ : FloatFormat F) (maxDigits : ℕ)

mutual

/-- Integers are of bounded length, floats are finite, and keys are distinct. -/
def Tree.WellFormed : Tree F → Prop
  | .null | .bool _ | .str _ => True
  | .int i => (Nat.toDigits 10 i.natAbs).length ≤ maxDigits
  | .float x => φ.isFinite x
  | .arr items => itemsWellFormed items
  | .obj members => (members.map Prod.fst).Nodup ∧ membersWellFormed members

def itemsWellFormed : List (Tree F) → Prop
  | [] => True
  | x :: xs => x.WellFormed ∧ itemsWellFormed xs

def membersWellFormed : List (Str × Tree F) → Prop
  | [] => True
  | (_, x) :: ms => x.WellFormed ∧ membersWellFormed ms

end

mutual

/-- Integers are of bounded length, and floats are finite. -/
def Tree.Lexical : Tree F → Prop
  | .null | .bool _ | .str _ => True
  | .int i => (Nat.toDigits 10 i.natAbs).length ≤ maxDigits
  | .float x => φ.isFinite x
  | .arr items => itemsLexical items
  | .obj members => membersLexical members

def itemsLexical : List (Tree F) → Prop
  | [] => True
  | x :: xs => x.Lexical ∧ itemsLexical xs

def membersLexical : List (Str × Tree F) → Prop
  | [] => True
  | (_, x) :: ms => x.Lexical ∧ membersLexical ms

end

variable (ψ : StringFormat)

mutual

/-- The strings of a tree are read back. -/
def Tree.Readable : Tree F → Prop
  | .null | .bool _ | .int _ | .float _ => True
  | .str s => ψ.Readable s
  | .arr items => itemsReadable items
  | .obj members => membersReadable members

def itemsReadable : List (Tree F) → Prop
  | [] => True
  | x :: xs => x.Readable ∧ itemsReadable xs

def membersReadable : List (Str × Tree F) → Prop
  | [] => True
  | (k, x) :: ms => (ψ.Readable k ∧ x.Readable) ∧ membersReadable ms

end

end WellFormed

mutual

/-- A tree as it is read: of the members of an object with one key, the last. -/
def Tree.collapse {F : Type} : Tree F → Tree F
  | .null => .null
  | .bool b => .bool b
  | .int i => .int i
  | .float x => .float x
  | .str s => .str s
  | .arr items => .arr (collapseItems items)
  | .obj members => .obj (dict (collapseMembers members))

def collapseItems {F : Type} : List (Tree F) → List (Tree F)
  | [] => []
  | x :: xs => x.collapse :: collapseItems xs

def collapseMembers {F : Type} : List (Str × Tree F) → List (Str × Tree F)
  | [] => []
  | (k, x) :: ms => (k, x.collapse) :: collapseMembers ms

end

variable {F : Type} {φ : FloatFormat F} {maxDigits : ℕ}

theorem foldl_setItem {α : Type*} (d ms : List (Str × α)) (h : ((d ++ ms).map Prod.fst).Nodup) :
    ms.foldl (fun d m => setItem d m.1 m.2) d = d ++ ms := by
  induction ms generalizing d with
  | nil => simp
  | cons m ms ih =>
    have hm : m.1 ∉ d.map Prod.fst := by
      rw [List.map_append, List.map_cons, List.nodup_append] at h
      exact fun hd => h.2.2 _ hd m.1 List.mem_cons_self rfl
    rw [List.foldl_cons, setItem, if_neg hm, ih]
    · simp
    · simpa using h

theorem dict_of_nodup {α : Type*} {ms : List (Str × α)} (h : (ms.map Prod.fst).Nodup) :
    dict ms = ms := foldl_setItem [] ms h

theorem itemsWellFormed_iff {items : List (Tree F)} :
    itemsWellFormed φ maxDigits items ↔ ∀ x ∈ items, x.WellFormed φ maxDigits := by
  induction items with
  | nil => simp [itemsWellFormed]
  | cons x xs ih => simp [itemsWellFormed, ih]

theorem membersWellFormed_iff {ms : List (Str × Tree F)} :
    membersWellFormed φ maxDigits ms ↔ ∀ m ∈ ms, m.2.WellFormed φ maxDigits := by
  induction ms with
  | nil => simp [membersWellFormed]
  | cons m ms ih => simp [membersWellFormed, ih]

/-- Induction on trees, with the items of arrays and the members of objects. -/
@[elab_as_elim]
theorem Tree.induction {P : Tree F → Prop} (null : P .null) (bool : ∀ b, P (.bool b))
    (int : ∀ i, P (.int i)) (float : ∀ x, P (.float x)) (str : ∀ s, P (.str s))
    (arr : ∀ items, (∀ x ∈ items, P x) → P (.arr items))
    (obj : ∀ ms, (∀ m ∈ ms, P m.2) → P (.obj ms)) (x : Tree F) : P x :=
  @Tree.rec F P (fun items => ∀ x ∈ items, P x) (fun ms => ∀ m ∈ ms, P m.2) (fun m => P m.2)
    null bool int float str arr obj (by simp) (fun _ _ hx hxs => List.forall_mem_cons.2 ⟨hx, hxs⟩)
    (by simp) (fun _ _ hm hms => List.forall_mem_cons.2 ⟨hm, hms⟩) (fun _ _ hx => hx) x

theorem map_eq_self_iff {α : Type} {f : α → α} {l : List α} :
    l.map f = l ↔ ∀ x ∈ l, f x = x := by
  induction l with
  | nil => simp
  | cons x xs ih => rw [List.map_cons, List.cons.injEq, ih, List.forall_mem_cons]

theorem itemsLexical_iff {items : List (Tree F)} :
    itemsLexical φ maxDigits items ↔ ∀ x ∈ items, x.Lexical φ maxDigits := by
  induction items with
  | nil => simp [itemsLexical]
  | cons x xs ih => simp [itemsLexical, ih]

theorem membersLexical_iff {ms : List (Str × Tree F)} :
    membersLexical φ maxDigits ms ↔ ∀ m ∈ ms, m.2.Lexical φ maxDigits := by
  induction ms with
  | nil => simp [membersLexical]
  | cons m ms ih => simp [membersLexical, ih]

variable {ψ : StringFormat}

theorem itemsReadable_iff {items : List (Tree F)} :
    itemsReadable ψ items ↔ ∀ x ∈ items, x.Readable ψ := by
  induction items with
  | nil => simp [itemsReadable]
  | cons x xs ih => simp [itemsReadable, ih]

theorem membersReadable_iff {ms : List (Str × Tree F)} :
    membersReadable ψ ms ↔ ∀ m ∈ ms, ψ.Readable m.1 ∧ m.2.Readable ψ := by
  induction ms with
  | nil => simp [membersReadable]
  | cons m ms ih => simp [membersReadable, ih]

theorem collapseItems_eq_map (items : List (Tree F)) :
    collapseItems items = items.map Tree.collapse := by
  induction items with
  | nil => rfl
  | cons x xs ih => rw [collapseItems, ih, List.map_cons]

theorem collapseMembers_eq_map (ms : List (Str × Tree F)) :
    collapseMembers ms = ms.map fun m => (m.1, m.2.collapse) := by
  induction ms with
  | nil => rfl
  | cons m ms ih => rw [collapseMembers, ih, List.map_cons]

theorem Tree.WellFormed.lexical {x : Tree F} (hx : x.WellFormed φ maxDigits) :
    x.Lexical φ maxDigits := by
  induction x using Tree.induction with
  | null | bool b | int i | float x | str s => exact hx
  | arr items ih =>
    rw [WellFormed, itemsWellFormed_iff] at hx
    rw [Lexical, itemsLexical_iff]
    exact fun x hmem => ih x hmem (hx x hmem)
  | obj ms ih =>
    rw [WellFormed, membersWellFormed_iff] at hx
    rw [Lexical, membersLexical_iff]
    exact fun m hmem => ih m hmem (hx.2 m hmem)

/-- If keys are distinct, a tree is read as it is. -/
theorem Tree.WellFormed.collapse_eq {x : Tree F} (hx : x.WellFormed φ maxDigits) :
    x.collapse = x := by
  induction x using Tree.induction with
  | null | bool b | int i | float x | str s => rfl
  | arr items ih =>
    rw [WellFormed, itemsWellFormed_iff] at hx
    rw [collapse, collapseItems_eq_map]
    exact congrArg _ (map_eq_self_iff.2 fun x hmem => ih x hmem (hx x hmem))
  | obj ms ih =>
    rw [WellFormed, membersWellFormed_iff] at hx
    have hms : (ms.map fun m => (m.1, m.2.collapse)) = ms :=
      map_eq_self_iff.2 fun m hmem => Prod.ext rfl (ih m hmem (hx.2 m hmem))
    rw [collapse, collapseMembers_eq_map, hms, dict_of_nodup hx.1]

/-- The characters a value begins with. -/
def Begins (c : Char) : Prop :=
  c = '"' ∨ c = '{' ∨ c = '[' ∨ c = 'n' ∨ c = 't' ∨ c = 'f' ∨ c = '-' ∨ c.isDigit = true

theorem Begins.skip {c : Char} (h : Begins c) (text : Str) :
    skip (.scalar c :: text) = .scalar c :: text := by
  rw [Json.skip, if_neg]
  rcases h with rfl | rfl | rfl | rfl | rfl | rfl | rfl | h
  · decide
  · decide
  · decide
  · decide
  · decide
  · decide
  · decide
  · rintro (rfl | rfl | rfl | rfl) <;> simp at h

theorem Literal.WellFormed.begins {l : Literal} (hl : l.WellFormed) :
    ∃ c cs, l.text = c :: cs ∧ (c = '-' ∨ c.isDigit = true) := by
  rw [Literal.text]
  rcases hl.sign with h | h
  · obtain ⟨d, ds, hd⟩ := List.exists_cons_of_ne_nil hl.digits.1
    exact ⟨d, _, by rw [h, hd]; rfl, .inr (hl.digits.2 d (by simp [hd]))⟩
  · exact ⟨'-', _, by rw [h]; rfl, .inl rfl⟩

theorem Tree.begins (ψ : StringFormat) (x : Tree F) (hx : x.Lexical φ maxDigits) :
    ∃ c text, x.write φ ψ = .scalar c :: text ∧ Begins c := by
  rcases x with _ | b | i | x | s | items | ms
  · exact ⟨'n', _, rfl, by simp [Begins]⟩
  · rcases b
    · exact ⟨'f', _, rfl, by simp [Begins]⟩
    · exact ⟨'t', _, rfl, by simp [Begins]⟩
  · obtain ⟨c, cs, hcs, hc⟩ := (intLiteral_wellFormed i).begins
    rw [intLiteral_text] at hcs
    exact ⟨c, _, by rw [write, hcs]; rfl, by rcases hc with h | h <;> simp [Begins, h]⟩
  · obtain ⟨l, hl, -, hrepr⟩ := φ.literal x (by simpa [Lexical] using hx)
    obtain ⟨c, cs, hcs, hc⟩ := hl.begins
    exact ⟨c, _, by rw [write, ← hrepr, hcs]; rfl, by rcases hc with h | h <;> simp [Begins, h]⟩
  · exact ⟨'"', _, by rw [write]; rfl, by simp [Begins]⟩
  · exact ⟨'[', _, by rw [write]; rfl, by simp [Begins]⟩
  · exact ⟨'{', _, by rw [write]; rfl, by simp [Begins]⟩


theorem value_literal {l : Literal} (hl : l.WellFormed) (n : ℕ) {rest : Str}
    (hrest : Stops rest) : value φ maxDigits (n + 1) (chars l.text ++ rest) =
      if l.IsInt then if l.integer.length ≤ maxDigits then some (.int l.toInt, rest) else none
      else some (.float (φ.read l.text), rest) := by
  have hscan := scanNumber_append hl hrest
  obtain ⟨c, cs, hcs, hc⟩ := hl.begins
  have hne : c ≠ '"' ∧ c ≠ '{' ∧ c ≠ '[' ∧ c ≠ 'n' ∧ c ≠ 't' ∧ c ≠ 'f' := by
    rcases hc with rfl | hc
    · decide
    · refine ⟨?_, ?_, ?_, ?_, ?_, ?_⟩ <;> rintro rfl <;> simp at hc
  have hvalue : value φ maxDigits (n + 1) (chars l.text ++ rest) =
      number φ maxDigits (chars l.text ++ rest) := by
    rw [hcs]
    simp only [chars, List.map_cons, List.cons_append, value, hne, if_false]
  rw [hvalue, number, hscan]
  rfl

theorem writeItems_succ (i : ℕ) (xs : List (Tree F)) :
    writeItems φ ψ (i + 1) xs = writeItems φ ψ 1 xs := by
  induction xs generalizing i with
  | nil => simp [writeItems]
  | cons x xs ih => simp only [writeItems, comma, ih (i + 1), ih 1, Nat.add_one_ne_zero]

theorem writeMembers_succ (i : ℕ) (ms : List (Str × Tree F)) :
    writeMembers φ ψ (i + 1) ms = writeMembers φ ψ 1 ms := by
  induction ms generalizing i with
  | nil => simp [writeMembers]
  | cons m ms ih => simp only [writeMembers, comma, ih (i + 1), ih 1, Nat.add_one_ne_zero]

theorem writeItems_one_cons (x : Tree F) (xs : List (Tree F)) :
    writeItems φ ψ 1 (x :: xs) = .scalar ',' :: writeItems φ ψ 0 (x :: xs) := by
  simp [writeItems, comma, writeItems_succ 1 xs]

theorem writeMembers_one_cons (m : Str × Tree F) (ms : List (Str × Tree F)) :
    writeMembers φ ψ 1 (m :: ms) = .scalar ',' :: writeMembers φ ψ 0 (m :: ms) := by
  simp [writeMembers, comma, writeMembers_succ 1 ms]

/-- A tree is read from its text, whatever follows, of the members with one key the last. -/
def Tree.Reads (φ : FloatFormat F) (maxDigits : ℕ) (ψ : StringFormat) (x : Tree F) : Prop :=
  ∀ n rest, (x.write φ ψ).length < n → Stops rest →
    value φ maxDigits n (x.write φ ψ ++ rest) = some (x.collapse, rest)

theorem stops_writeItems (xs : List (Tree F)) (rest : Str) :
    Stops (writeItems φ ψ 1 xs ++ .scalar ']' :: rest) := by
  cases xs with
  | nil => exact ⟨rfl, by decide, by decide, by decide⟩
  | cons x xs =>
    rw [writeItems_one_cons]
    exact ⟨rfl, by decide, by decide, by decide⟩

theorem stops_writeMembers (ms : List (Str × Tree F)) (rest : Str) :
    Stops (writeMembers φ ψ 1 ms ++ .scalar '}' :: rest) := by
  cases ms with
  | nil => exact ⟨rfl, by decide, by decide, by decide⟩
  | cons x xs =>
    rw [writeMembers_one_cons]
    exact ⟨rfl, by decide, by decide, by decide⟩

theorem skip_writeItems (ψ : StringFormat) {x : Tree F} (hx : x.Lexical φ maxDigits)
    (xs : List (Tree F)) (rest : Str) :
    skip (writeItems φ ψ 0 (x :: xs) ++ rest) = writeItems φ ψ 0 (x :: xs) ++ rest := by
  obtain ⟨c, text, htext, hc⟩ := x.begins ψ hx
  simp [writeItems, comma, htext, hc.skip]

theorem elements_text {items : List (Tree F)} (hne : items ≠ [])
    (hitems : ∀ x ∈ items, x.Lexical φ maxDigits) (hreads : ∀ x ∈ items, x.Reads φ maxDigits ψ)
    (n : ℕ) (hn : (writeItems φ ψ 0 items).length + 1 < n) (rest : Str) :
    elements φ maxDigits n (writeItems φ ψ 0 items ++ .scalar ']' :: rest) =
      some (collapseItems items, rest) := by
  induction items generalizing n with
  | nil => exact absurd rfl hne
  | cons x xs ih =>
    obtain ⟨n, rfl⟩ : ∃ k, n = k + 1 := ⟨n - 1, by omega⟩
    have htext : writeItems φ ψ 0 (x :: xs) = x.write φ ψ ++ writeItems φ ψ 1 xs := by
      simp [writeItems, comma]
    rw [htext, List.length_append] at hn
    rw [htext, List.append_assoc, elements, hreads x List.mem_cons_self n _ (by omega)
      (stops_writeItems xs rest)]
    cases xs with
    | nil => simp [writeItems, skip, collapseItems]
    | cons y ys =>
      rw [writeItems_one_cons, List.length_cons] at hn
      have ih := ih (List.cons_ne_nil _ _) (fun z hz => hitems z (List.mem_cons_of_mem _ hz))
        (fun z hz => hreads z (List.mem_cons_of_mem _ hz)) n (by omega)
      have hy := hitems y (by simp)
      simp [writeItems_one_cons, skip, skip_writeItems ψ hy, ih, collapseItems]

theorem skip_writeMembers {m : Str × Tree F} {ms : List (Str × Tree F)} (rest : Str) :
    skip (writeMembers φ ψ 0 (m :: ms) ++ rest) = writeMembers φ ψ 0 (m :: ms) ++ rest := by
  simp [writeMembers, comma, StringFormat.quote, skip]

theorem members_text {ms : List (Str × Tree F)} (hne : ms ≠ [])
    (hms : ∀ m ∈ ms, m.2.Lexical φ maxDigits) (hkeys : ∀ m ∈ ms, ψ.Readable m.1)
    (hreads : ∀ m ∈ ms, m.2.Reads φ maxDigits ψ) (n : ℕ)
    (hn : (writeMembers φ ψ 0 ms).length + 1 < n) (rest : Str) :
    members φ maxDigits n (writeMembers φ ψ 0 ms ++ .scalar '}' :: rest) =
      some (collapseMembers ms, rest) := by
  induction ms generalizing n with
  | nil => exact absurd rfl hne
  | cons m ms ih =>
    obtain ⟨n, rfl⟩ : ∃ k, n = k + 1 := ⟨n - 1, by omega⟩
    obtain ⟨k, x⟩ := m
    have htext : writeMembers φ ψ 0 ((k, x) :: ms) =
        .scalar '"' :: (ψ.dumps k ++
          .scalar '"' :: .scalar ':' :: (x.write φ ψ ++ writeMembers φ ψ 1 ms)) := by
      simp [writeMembers, comma, StringFormat.quote]
    rw [htext] at hn
    simp only [List.length_cons, List.length_append] at hn
    obtain ⟨c, text, hbegin, hc⟩ := x.begins ψ (hms (k, x) List.mem_cons_self)
    have hskip : ∀ rest, skip (x.write φ ψ ++ rest) = x.write φ ψ ++ rest := by
      simp [hbegin, hc.skip]
    have hvalue : value φ maxDigits n
        (x.write φ ψ ++ (writeMembers φ ψ 1 ms ++ .scalar '}' :: rest)) =
        some (x.collapse, writeMembers φ ψ 1 ms ++ .scalar '}' :: rest) :=
      hreads (k, x) List.mem_cons_self n _ (by dsimp only; omega) (stops_writeMembers ms rest)
    have hscan := ψ.scan (hkeys (k, x) List.mem_cons_self)
    rw [htext]
    simp only [List.cons_append, List.append_assoc, members, hscan]
    cases ms with
    | nil =>
      simp [writeMembers] at hvalue
      simp [writeMembers, skip, hskip, hvalue, collapseMembers]
    | cons y ys =>
      rw [writeMembers_one_cons, List.length_cons] at hn
      have ih := ih (List.cons_ne_nil _ _) (fun z hz => hms z (List.mem_cons_of_mem _ hz))
        (fun z hz => hkeys z (List.mem_cons_of_mem _ hz))
        (fun z hz => hreads z (List.mem_cons_of_mem _ hz)) n (by omega)
      simp only [writeMembers_one_cons, List.cons_append] at hvalue ⊢
      simp [skip, hskip, hvalue, skip_writeMembers, ih, collapseMembers]


theorem Tree.reads (x : Tree F) (hx : x.Lexical φ maxDigits) (hs : x.Readable ψ) :
    x.Reads φ maxDigits ψ := by
  induction x using Tree.induction with
  | null =>
    rintro (_ | n) rest hn -
    · omega
    · simp [Tree.write, Tree.collapse, chars, value, expect]
  | bool b =>
    rintro (_ | n) rest hn -
    · omega
    · cases b <;> simp [Tree.write, Tree.collapse, chars, value, expect]
  | int i =>
    rintro (_ | n) rest hn hrest
    · omega
    · rw [Tree.write, ← intLiteral_text, value_literal (intLiteral_wellFormed i) n hrest,
        if_pos ⟨rfl, rfl⟩, intLiteral_toInt]
      exact if_pos hx
  | float x =>
    rintro (_ | n) rest hn hrest
    · omega
    · obtain ⟨l, hl, hint, hrepr⟩ := φ.literal x hx
      rw [Tree.write, ← hrepr, value_literal hl n hrest, if_neg hint, hrepr, φ.read_repr x hx]
      rfl
  | str s =>
    rintro (_ | n) rest hn -
    · omega
    · have hscan := ψ.scan hs
      simp [Tree.write, Tree.collapse, StringFormat.quote, value, hscan]
  | arr items ih =>
    have hitems := itemsLexical_iff.1 hx
    have hstrings := itemsReadable_iff.1 hs
    rintro (_ | n) rest hn -
    · omega
    rcases items with _ | ⟨y, ys⟩
    · simp [Tree.write, Tree.collapse, collapseItems, writeItems, value, skip]
    · have helements := elements_text (List.cons_ne_nil y ys) hitems
        (fun x hmem => ih x hmem (hitems x hmem) (hstrings x hmem)) n
        (by simp [Tree.write] at hn; omega) rest
      have hskip := skip_writeItems ψ (hitems y List.mem_cons_self) ys (.scalar ']' :: rest)
      obtain ⟨c, text, htext, hc⟩ := y.begins ψ (hitems y List.mem_cons_self)
      have hbracket : c ≠ ']' := by
        rintro rfl
        simp [Begins] at hc
      simp only [Tree.write, List.cons_append, List.append_assoc, List.nil_append, value]
      rw [hskip, if_neg (by decide), if_neg (by decide), if_pos trivial]
      split
      · next heq => simp [writeItems, comma, htext, hbracket] at heq
      · rw [helements]
        rfl
  | obj ms ih =>
    have hms := membersLexical_iff.1 hx
    have hstrings := membersReadable_iff.1 hs
    rintro (_ | n) rest hn -
    · omega
    rcases ms with _ | ⟨y, ys⟩
    · simp [Tree.write, Tree.collapse, collapseMembers, dict, writeMembers, value, skip]
    · have hmembers := members_text (List.cons_ne_nil y ys) hms (fun m hmem => (hstrings m hmem).1)
        (fun m hmem => ih m hmem (hms m hmem) (hstrings m hmem).2) n
        (by simp [Tree.write] at hn; omega) rest
      simp only [Tree.write, List.cons_append, List.append_assoc, List.nil_append, value]
      rw [skip_writeMembers, if_neg (by decide), if_pos trivial]
      split
      · next heq => simp [writeMembers, comma, StringFormat.quote] at heq
      · rw [hmembers]
        rfl

/-- Of the members of an object with one key, the last is read, whatever the format of strings. -/
theorem loads_write_collapse {x : Tree F} (hx : x.Lexical φ maxDigits) (hs : x.Readable ψ) :
    loads φ maxDigits (x.write φ ψ) = some x.collapse := by
  obtain ⟨c, text, htext, hc⟩ := x.begins ψ hx
  have hskip : skip (x.write φ ψ) = x.write φ ψ := by rw [htext, hc.skip]
  have hvalue := x.reads hx hs _ [] (Nat.lt_succ_self _) trivial
  rw [List.append_nil] at hvalue
  rw [loads, hskip, hvalue]
  rfl

theorem loads_write {x : Tree F} (hx : x.WellFormed φ maxDigits) (hs : x.Readable ψ) :
    loads φ maxDigits (x.write φ ψ) = some x := by
  rw [loads_write_collapse hx.lexical hs, hx.collapse_eq]

/-! ## The text -/

theorem writeItems_plain {items : List (Tree F)} (h : ∀ x ∈ items, x.write φ plain = x.text φ)
    (i : ℕ) : writeItems φ plain i items = itemsText φ i items := by
  induction items generalizing i with
  | nil => rfl
  | cons x xs ih =>
    rw [writeItems, itemsText, h x List.mem_cons_self,
      ih fun y hy => h y (List.mem_cons_of_mem _ hy)]

theorem writeMembers_plain {ms : List (Str × Tree F)}
    (h : ∀ m ∈ ms, m.2.write φ plain = m.2.text φ) (i : ℕ) :
    writeMembers φ plain i ms = membersText φ i ms := by
  induction ms generalizing i with
  | nil => rfl
  | cons m ms ih =>
    rw [writeMembers, membersText, h m List.mem_cons_self,
      ih fun n hn => h n (List.mem_cons_of_mem _ hn)]
    rfl

/-- The text of a tree has plain literals. -/
theorem Tree.write_plain (x : Tree F) : x.write φ plain = x.text φ := by
  induction x using Tree.induction with
  | null | int i | float x | str s => rfl
  | bool b => cases b <;> rfl
  | arr items ih => rw [write, text, writeItems_plain ih]
  | obj ms ih => rw [write, text, writeMembers_plain ih]

theorem Tree.readable_plain (x : Tree F) : x.Readable plain := by
  induction x using Tree.induction with
  | null | bool b | int i | float x | str s => trivial
  | arr items ih => exact itemsReadable_iff.2 ih
  | obj ms ih => exact membersReadable_iff.2 fun m hm => ⟨trivial, ih m hm⟩

theorem itemsText_succ (i : ℕ) (xs : List (Tree F)) :
    itemsText φ (i + 1) xs = itemsText φ 1 xs := by
  rw [← writeItems_plain fun x _ => x.write_plain, ← writeItems_plain fun x _ => x.write_plain,
    writeItems_succ]

theorem membersText_succ (i : ℕ) (ms : List (Str × Tree F)) :
    membersText φ (i + 1) ms = membersText φ 1 ms := by
  rw [← writeMembers_plain fun m _ => m.2.write_plain,
    ← writeMembers_plain fun m _ => m.2.write_plain, writeMembers_succ]

theorem itemsText_one_cons (x : Tree F) (xs : List (Tree F)) :
    itemsText φ 1 (x :: xs) = .scalar ',' :: itemsText φ 0 (x :: xs) := by
  rw [← writeItems_plain fun x _ => x.write_plain, ← writeItems_plain fun x _ => x.write_plain,
    writeItems_one_cons]

theorem membersText_one_cons (m : Str × Tree F) (ms : List (Str × Tree F)) :
    membersText φ 1 (m :: ms) = .scalar ',' :: membersText φ 0 (m :: ms) := by
  rw [← writeMembers_plain fun m _ => m.2.write_plain,
    ← writeMembers_plain fun m _ => m.2.write_plain, writeMembers_one_cons]

/-- Of the members of an object with one key, the last is read. -/
theorem loads_text_collapse {x : Tree F} (hx : x.Lexical φ maxDigits) :
    loads φ maxDigits (x.text φ) = some x.collapse := by
  rw [← x.write_plain, loads_write_collapse hx x.readable_plain]

/-- The reader reads a tree back from its text. -/
theorem loads_text {x : Tree F} (hx : x.WellFormed φ maxDigits) :
    loads φ maxDigits (x.text φ) = some x := by
  rw [loads_text_collapse hx.lexical, hx.collapse_eq]

end Json
