import Hyperforge.Library.Json.Ascii

/-!
# Texts with spaces

The text of a tree with a space after each comma and colon (`Json.Tree.spaced`), from which the
reader reads the tree back (`loads_spaced`): no two trees have one text (`spaced_injective`).
-/

namespace Json

variable {F : Type}

section Spaced

variable (φ : FloatFormat F) (ψ : StringFormat)

/-- What stands before an item, or a member, after others. -/
def commaSpace (index : ℕ) : Str := if index = 0 then [] else [.scalar ',', .scalar ' ']

mutual

/-- The text of a tree, with a space after each comma and colon. -/
def Tree.spaced : Tree F → Str
  | .null => chars ['n', 'u', 'l', 'l']
  | .bool true => chars ['t', 'r', 'u', 'e']
  | .bool false => chars ['f', 'a', 'l', 's', 'e']
  | .int i => chars (intText i)
  | .float x => chars (φ.repr x)
  | .str s => ψ.quote s
  | .arr items => .scalar '[' :: spacedItems 0 items ++ [.scalar ']']
  | .obj members => .scalar '\x7b' :: spacedMembers 0 members ++ [.scalar '\x7d']

def spacedItems (index : ℕ) : List (Tree F) → Str
  | [] => []
  | x :: xs => commaSpace index ++ x.spaced ++ spacedItems (index + 1) xs

def spacedMembers (index : ℕ) : List (Str × Tree F) → Str
  | [] => []
  | (k, x) :: ms =>
    commaSpace index ++ ψ.quote k ++ .scalar ':' :: .scalar ' ' :: x.spaced ++
      spacedMembers (index + 1) ms

end

end Spaced

variable {φ : FloatFormat F} {ψ : StringFormat} {maxDigits : ℕ}

/-- A tree begins as it does without spaces. -/
theorem Tree.begins_spaced (ψ : StringFormat) (x : Tree F) (hx : x.Lexical φ maxDigits) :
    ∃ c text, x.spaced φ ψ = .scalar c :: text ∧ Begins c := by
  rcases x with _ | b | i | x | s | items | ms
  · exact Tree.begins ψ .null hx
  · cases b
    · exact Tree.begins ψ (.bool false) hx
    · exact Tree.begins ψ (.bool true) hx
  · exact Tree.begins ψ (.int i) hx
  · exact Tree.begins ψ (.float x) hx
  · exact ⟨'"', _, by rw [spaced]; rfl, by simp [Begins]⟩
  · exact ⟨'[', _, by rw [spaced]; rfl, by simp [Begins]⟩
  · exact ⟨'\x7b', _, by rw [spaced]; rfl, by simp [Begins]⟩

theorem spacedItems_succ (i : ℕ) (xs : List (Tree F)) :
    spacedItems φ ψ (i + 1) xs = spacedItems φ ψ 1 xs := by
  induction xs generalizing i with
  | nil => simp [spacedItems]
  | cons x xs ih => simp only [spacedItems, commaSpace, ih (i + 1), ih 1, Nat.add_one_ne_zero]

theorem spacedMembers_succ (i : ℕ) (ms : List (Str × Tree F)) :
    spacedMembers φ ψ (i + 1) ms = spacedMembers φ ψ 1 ms := by
  induction ms generalizing i with
  | nil => simp [spacedMembers]
  | cons m ms ih => simp only [spacedMembers, commaSpace, ih (i + 1), ih 1, Nat.add_one_ne_zero]

theorem spacedItems_one_cons (x : Tree F) (xs : List (Tree F)) :
    spacedItems φ ψ 1 (x :: xs) = .scalar ',' :: .scalar ' ' :: spacedItems φ ψ 0 (x :: xs) := by
  simp [spacedItems, commaSpace, spacedItems_succ 1 xs]

theorem spacedMembers_one_cons (m : Str × Tree F) (ms : List (Str × Tree F)) :
    spacedMembers φ ψ 1 (m :: ms) =
      .scalar ',' :: .scalar ' ' :: spacedMembers φ ψ 0 (m :: ms) := by
  simp [spacedMembers, commaSpace, spacedMembers_succ 1 ms]

/-- A tree is read from its text, whatever follows. -/
def Tree.ReadsSpaced (φ : FloatFormat F) (maxDigits : ℕ) (ψ : StringFormat) (x : Tree F) : Prop :=
  ∀ n rest, (x.spaced φ ψ).length < n → Stops rest →
    value φ maxDigits n (x.spaced φ ψ ++ rest) = some (x.collapse, rest)

theorem stops_spacedItems (xs : List (Tree F)) (rest : Str) :
    Stops (spacedItems φ ψ 1 xs ++ .scalar ']' :: rest) := by
  cases xs with
  | nil => exact ⟨rfl, by decide, by decide, by decide⟩
  | cons x xs =>
    rw [spacedItems_one_cons]
    exact ⟨rfl, by decide, by decide, by decide⟩

theorem stops_spacedMembers (ms : List (Str × Tree F)) (rest : Str) :
    Stops (spacedMembers φ ψ 1 ms ++ .scalar '\x7d' :: rest) := by
  cases ms with
  | nil => exact ⟨rfl, by decide, by decide, by decide⟩
  | cons x xs =>
    rw [spacedMembers_one_cons]
    exact ⟨rfl, by decide, by decide, by decide⟩

theorem skip_spacedItems (ψ : StringFormat) {x : Tree F} (hx : x.Lexical φ maxDigits)
    (xs : List (Tree F)) (rest : Str) :
    skip (spacedItems φ ψ 0 (x :: xs) ++ rest) = spacedItems φ ψ 0 (x :: xs) ++ rest := by
  obtain ⟨c, text, htext, hc⟩ := x.begins_spaced ψ hx
  simp [spacedItems, commaSpace, htext, hc.skip]

theorem elements_spaced {items : List (Tree F)} (hne : items ≠ [])
    (hitems : ∀ x ∈ items, x.Lexical φ maxDigits)
    (hreads : ∀ x ∈ items, x.ReadsSpaced φ maxDigits ψ)
    (n : ℕ) (hn : (spacedItems φ ψ 0 items).length + 1 < n) (rest : Str) :
    elements φ maxDigits n (spacedItems φ ψ 0 items ++ .scalar ']' :: rest) =
      some (collapseItems items, rest) := by
  induction items generalizing n with
  | nil => exact absurd rfl hne
  | cons x xs ih =>
    obtain ⟨n, rfl⟩ : ∃ k, n = k + 1 := ⟨n - 1, by omega⟩
    have htext : spacedItems φ ψ 0 (x :: xs) = x.spaced φ ψ ++ spacedItems φ ψ 1 xs := by
      simp [spacedItems, commaSpace]
    rw [htext, List.length_append] at hn
    rw [htext, List.append_assoc, elements, hreads x List.mem_cons_self n _ (by omega)
      (stops_spacedItems xs rest)]
    cases xs with
    | nil => simp [spacedItems, skip, collapseItems]
    | cons y ys =>
      rw [spacedItems_one_cons, List.length_cons, List.length_cons] at hn
      have ih := ih (List.cons_ne_nil _ _) (fun z hz => hitems z (List.mem_cons_of_mem _ hz))
        (fun z hz => hreads z (List.mem_cons_of_mem _ hz)) n (by omega)
      have hy := hitems y (by simp)
      simp [spacedItems_one_cons, skip, skip_spacedItems ψ hy, ih, collapseItems]

theorem skip_spacedMembers {m : Str × Tree F} {ms : List (Str × Tree F)} (rest : Str) :
    skip (spacedMembers φ ψ 0 (m :: ms) ++ rest) = spacedMembers φ ψ 0 (m :: ms) ++ rest := by
  simp [spacedMembers, commaSpace, StringFormat.quote, skip]

theorem members_spaced {ms : List (Str × Tree F)} (hne : ms ≠ [])
    (hms : ∀ m ∈ ms, m.2.Lexical φ maxDigits) (hkeys : ∀ m ∈ ms, ψ.Readable m.1)
    (hreads : ∀ m ∈ ms, m.2.ReadsSpaced φ maxDigits ψ) (n : ℕ)
    (hn : (spacedMembers φ ψ 0 ms).length + 1 < n) (rest : Str) :
    members φ maxDigits n (spacedMembers φ ψ 0 ms ++ .scalar '\x7d' :: rest) =
      some (collapseMembers ms, rest) := by
  induction ms generalizing n with
  | nil => exact absurd rfl hne
  | cons m ms ih =>
    obtain ⟨n, rfl⟩ : ∃ k, n = k + 1 := ⟨n - 1, by omega⟩
    obtain ⟨k, x⟩ := m
    have htext : spacedMembers φ ψ 0 ((k, x) :: ms) =
        .scalar '"' :: (ψ.dumps k ++ .scalar '"' :: .scalar ':' :: .scalar ' ' ::
          (x.spaced φ ψ ++ spacedMembers φ ψ 1 ms)) := by
      simp [spacedMembers, commaSpace, StringFormat.quote]
    rw [htext] at hn
    simp only [List.length_cons, List.length_append] at hn
    obtain ⟨c, text, hbegin, hc⟩ := x.begins_spaced ψ (hms (k, x) List.mem_cons_self)
    have hskip : ∀ rest, skip (x.spaced φ ψ ++ rest) = x.spaced φ ψ ++ rest := by
      simp [hbegin, hc.skip]
    have hvalue : value φ maxDigits n
        (x.spaced φ ψ ++ (spacedMembers φ ψ 1 ms ++ .scalar '\x7d' :: rest)) =
        some (x.collapse, spacedMembers φ ψ 1 ms ++ .scalar '\x7d' :: rest) :=
      hreads (k, x) List.mem_cons_self n _ (by dsimp only; omega) (stops_spacedMembers ms rest)
    have hscan := ψ.scan (hkeys (k, x) List.mem_cons_self)
    rw [htext]
    simp only [List.cons_append, List.append_assoc, members, hscan]
    cases ms with
    | nil =>
      simp [spacedMembers] at hvalue
      simp [spacedMembers, skip, hskip, hvalue, collapseMembers]
    | cons y ys =>
      rw [spacedMembers_one_cons, List.length_cons, List.length_cons] at hn
      have ih := ih (List.cons_ne_nil _ _) (fun z hz => hms z (List.mem_cons_of_mem _ hz))
        (fun z hz => hkeys z (List.mem_cons_of_mem _ hz))
        (fun z hz => hreads z (List.mem_cons_of_mem _ hz)) n (by omega)
      simp only [spacedMembers_one_cons, List.cons_append] at hvalue ⊢
      simp [skip, hskip, hvalue, skip_spacedMembers, ih, collapseMembers]

theorem Tree.readsSpaced (x : Tree F) (hx : x.Lexical φ maxDigits) (hs : x.Readable ψ) :
    x.ReadsSpaced φ maxDigits ψ := by
  induction x using Tree.induction with
  | null => exact Tree.reads .null hx hs
  | bool b => cases b <;> exact Tree.reads (.bool _) hx hs
  | int i => exact Tree.reads (.int i) hx hs
  | float x => exact Tree.reads (.float x) hx hs
  | str s => exact Tree.reads (.str s) hx hs
  | arr items ih =>
    have hitems := itemsLexical_iff.1 hx
    have hstrings := itemsReadable_iff.1 hs
    rintro (_ | n) rest hn -
    · omega
    rcases items with _ | ⟨y, ys⟩
    · simp [Tree.spaced, Tree.collapse, collapseItems, spacedItems, value, skip]
    · have helements := elements_spaced (List.cons_ne_nil y ys) hitems
        (fun x hmem => ih x hmem (hitems x hmem) (hstrings x hmem)) n
        (by simp [Tree.spaced] at hn; omega) rest
      have hskip := skip_spacedItems ψ (hitems y List.mem_cons_self) ys (.scalar ']' :: rest)
      obtain ⟨c, text, htext, hc⟩ := y.begins_spaced ψ (hitems y List.mem_cons_self)
      have hbracket : c ≠ ']' := by
        rintro rfl
        simp [Begins] at hc
      simp only [Tree.spaced, List.cons_append, List.append_assoc, List.nil_append, value]
      rw [hskip, if_neg (by decide), if_neg (by decide), if_pos trivial]
      split
      · next heq => simp [spacedItems, commaSpace, htext, hbracket] at heq
      · rw [helements]
        rfl
  | obj ms ih =>
    have hms := membersLexical_iff.1 hx
    have hstrings := membersReadable_iff.1 hs
    rintro (_ | n) rest hn -
    · omega
    rcases ms with _ | ⟨y, ys⟩
    · simp [Tree.spaced, Tree.collapse, collapseMembers, dict, spacedMembers, value, skip]
    · have hmembers := members_spaced (List.cons_ne_nil y ys) hms
        (fun m hmem => (hstrings m hmem).1)
        (fun m hmem => ih m hmem (hms m hmem) (hstrings m hmem).2) n
        (by simp [Tree.spaced] at hn; omega) rest
      simp only [Tree.spaced, List.cons_append, List.append_assoc, List.nil_append, value]
      rw [skip_spacedMembers, if_neg (by decide), if_pos trivial]
      split
      · next heq => simp [spacedMembers, commaSpace, StringFormat.quote] at heq
      · rw [hmembers]
        rfl

/-- The reader reads a tree back from its text. -/
theorem loads_spaced {x : Tree F} (hx : x.WellFormed φ maxDigits) (hs : x.Readable ψ) :
    loads φ maxDigits (x.spaced φ ψ) = some x := by
  obtain ⟨c, text, htext, hc⟩ := x.begins_spaced ψ hx.lexical
  have hskip : skip (x.spaced φ ψ) = x.spaced φ ψ := by rw [htext, hc.skip]
  have hvalue := x.readsSpaced hx.lexical hs _ [] (Nat.lt_succ_self _) trivial
  rw [List.append_nil] at hvalue
  rw [loads, hskip, hvalue, hx.collapse_eq]
  rfl

/-- A text is that of one tree only. -/
theorem spaced_injective {x y : Tree F} (hx : x.WellFormed φ maxDigits)
    (hy : y.WellFormed φ maxDigits) (hxs : x.Readable ψ) (hys : y.Readable ψ)
    (h : x.spaced φ ψ = y.spaced φ ψ) : x = y := by
  have hread := loads_spaced hx hxs
  rw [h, loads_spaced hy hys] at hread
  exact (Option.some.inj hread).symm

end Json
