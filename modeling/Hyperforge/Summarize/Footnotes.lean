import Hyperforge.Library.Decimal
import Hyperforge.Procedural.Graph
import Mathlib.Data.List.DropRight

/-!
# Footnotes of answers

An answer may end with the definitions of footnotes, lines such as `[1]: block-AA`, and refer to
them in its body by markers, such as `[1]` (`splitMarkdownFootnotes`).

When the markers of a body are replaced by others, no definition comes about in it that was not
there: the new body is read back as it is, with the definitions that are put after it
(`splitMarkdownFootnotes_render`).
-/

namespace Hyperforge.Summarize

open Decimal

abbrev Text := List Char

instance : LawfulBEq Text := inferInstance

/-! ## Markers and definitions -/

/-- `\[(\d+)\]`: the digits at the beginning of a text, and what follows. -/
def matchMarker (text : Text) : Option (Text × Text) :=
  let marker := text.tail.takeWhile isDigit
  let rest := text.tail.dropWhile isDigit
  if text.head? = some '[' ∧ marker ≠ [] ∧ rest.head? = some ']' then some (marker, rest.tail)
  else none

/-- `\s*$`: the whitespace leads to the end of a line. -/
def endsLine (text : Text) : Bool :=
  (text.dropWhile isSpace).isEmpty || (text.takeWhile isSpace).contains '\n'

/-- `^\[(\d+)\]:\s*(block-\S+)\s*$`, at the beginning of a text that is at the start of a line. -/
def matchDefinition (text : Text) : Option (Text × Text) :=
  match matchMarker text with
  | none => none
  | some (marker, rest) =>
    let afterColon := rest.tail.dropWhile isSpace
    let citationId := afterColon.takeWhile fun c => !isSpace c
    if rest.head? = some ':' ∧ "block-".toList <+: citationId ∧
        "block-".length < citationId.length ∧
          endsLine (afterColon.dropWhile fun c => !isSpace c) then
      some (marker, citationId)
    else none

/-- The definitions of a text, of which the beginning is at the start of a line or not. Where one
    is found, none begins within it. -/
def findDefinitions : Bool → Text → List (Text × Text)
  | _, [] => []
  | atStart, c :: text =>
    (if atStart then (matchDefinition (c :: text)).toList else []) ++
      findDefinitions (c == '\n') text

/-- The text before the first definition. -/
def beforeDefinitions : Bool → Text → Option Text
  | _, [] => none
  | atStart, c :: text =>
    if atStart ∧ (matchDefinition (c :: text)).isSome then some []
    else (beforeDefinitions (c == '\n') text).map (c :: ·)

def splitMarkdownFootnotes (answer : Text) : Text × List (Text × Text) :=
  match beforeDefinitions true answer with
  | none => (answer, [])
  | some before => (before.rdropWhile isSpace, findDefinitions true answer)

/-- The ids of definitions with the numbers they get. -/
def numbered (citationIds : List Text) : List (Text × Text) :=
  (citationIds.zipIdx 1).map fun p => (Nat.toDigits 10 p.2, p.1)

def definitionText (definition : Text × Text) : Text :=
  '[' :: (definition.1 ++ ']' :: ':' :: ' ' :: definition.2)

def renderMarkdownFootnotes (body : Text) (citationIds : List Text) : Text :=
  body ++ '\n' :: '\n' :: ['\n'].intercalate ((numbered citationIds).map definitionText)

/-- A text with its markers replaced, after a number of characters that are passed over. -/
def subFrom (replace : Text → Text) : ℕ → Text → Text
  | _, [] => []
  | skip + 1, _ :: text => subFrom replace skip text
  | 0, c :: text =>
    match matchMarker (c :: text) with
    | some (marker, _) => replace marker ++ subFrom replace (marker.length + 1) text
    | none => c :: subFrom replace 0 text

/-- `FOOTNOTE_MARKER.sub(replace, text)` -/
def sub (replace : Text → Text) (text : Text) : Text := subFrom replace 0 text

/-! ## Markers -/

variable {c : Char} {text rest marker more : Text} {replace : Text → Text}

def IsMarker (marker : Text) : Prop := marker ≠ [] ∧ ∀ c ∈ marker, isDigit c

/-- A marker as it is written. -/
def markerText (marker : Text) : Text := '[' :: (marker ++ [']'])

theorem isMarker_toDigits (n : ℕ) : IsMarker (Nat.toDigits 10 n) :=
  ⟨Nat.toDigits_ne_nil, fun _ hc => isDigit_of_mem_toDigits hc⟩

theorem isSpace_of_isDigit (h : isDigit c) : isSpace c = false := by
  have hall : ∀ first ∈ zeros, ∀ i < 10, isSpace (Char.ofNat (first + i)) = false := by
    decide +kernel
  obtain ⟨first, hfirst, i, hi, heq⟩ := exists_of_isDigit h
  rw [← Char.ofNat_toNat c, heq]
  exact hall first hfirst i hi

/-- Where the characters at the beginning of a text end that satisfy a predicate. -/
theorem span_append {p : Char → Bool} (htext : ∀ c ∈ text, p c)
    (hrest : ∀ c ∈ rest.head?, p c = false) :
    (text ++ rest).takeWhile p = text ∧ (text ++ rest).dropWhile p = rest := by
  rw [List.takeWhile_append_of_pos htext, List.dropWhile_append_of_pos htext]
  rcases rest with _ | ⟨c, rest⟩
  · exact ⟨List.append_nil text, rfl⟩
  · have hc : ¬ p c := by rw [hrest c rfl]; exact Bool.false_ne_true
    rw [List.takeWhile_cons_of_neg hc, List.dropWhile_cons_of_neg hc, List.append_nil]
    exact ⟨rfl, rfl⟩

theorem matchMarker_eq_some : matchMarker text = some (marker, rest) ↔
    IsMarker marker ∧ text = '[' :: (marker ++ ']' :: rest) := by
  have hbracket : isDigit ']' = false := by decide
  constructor
  · intro h
    simp only [matchMarker] at h
    split_ifs at h with hmatch
    obtain ⟨hopen, hne, hclose⟩ := hmatch
    obtain ⟨rfl, rfl⟩ := Prod.mk.inj (Option.some.inj h)
    obtain ⟨tail, rfl⟩ := List.head?_eq_some_iff.1 hopen
    obtain ⟨rest, hrest⟩ := List.head?_eq_some_iff.1 hclose
    rw [List.tail_cons] at hrest hne
    rw [List.tail_cons, hrest, List.tail_cons, ← hrest, List.takeWhile_append_dropWhile]
    exact ⟨⟨hne, fun c hc => List.mem_takeWhile_imp hc⟩, rfl⟩
  · rintro ⟨⟨hne, hdigits⟩, rfl⟩
    have hclose : ∀ c ∈ (']' :: rest).head?, isDigit c = false := by
      rintro _ ⟨⟩
      exact hbracket
    obtain ⟨hmarker, hrest⟩ := span_append hdigits hclose
    simp only [matchMarker, List.tail_cons, hmarker, hrest]
    exact if_pos ⟨rfl, hne, rfl⟩

/-! ## Replacing markers -/

theorem subFrom_skip (replace : Text → Text) (passed text : Text) :
    subFrom replace passed.length (passed ++ text) = sub replace text := by
  induction passed with
  | nil => rfl
  | cons c passed ih => exact ih

theorem sub_nil : sub replace [] = [] := rfl

theorem sub_char (h : matchMarker (c :: text) = none) :
    sub replace (c :: text) = c :: sub replace text := by
  rw [sub, subFrom, h]
  rfl

theorem sub_marker (h : IsMarker marker) :
    sub replace ('[' :: (marker ++ ']' :: rest)) = replace marker ++ sub replace rest := by
  have hskip := subFrom_skip replace (marker ++ [']']) rest
  rw [List.append_assoc, List.length_append] at hskip
  rw [sub, subFrom, matchMarker_eq_some.2 ⟨h, rfl⟩]
  exact congrArg _ hskip

/-- A text is made of markers and of characters at which no marker begins. -/
@[elab_as_elim]
theorem tokens_induction {P : Text → Prop} (nil : P [])
    (char : ∀ c text, matchMarker (c :: text) = none → P text → P (c :: text))
    (marker : ∀ marker rest, IsMarker marker → P rest → P ('[' :: (marker ++ ']' :: rest)))
    (text : Text) : P text := by
  -- By the length of the text, as a marker takes away several characters at once.
  induction h : text.length using Nat.strongRecOn generalizing text with
  | ind n ih =>
    rcases text with _ | ⟨c, text⟩
    · exact nil
    · rw [List.length_cons] at h
      rcases hmatch : matchMarker (c :: text) with _ | ⟨m, rest⟩
      · exact char c text hmatch (ih _ (by omega) text rfl)
      · obtain ⟨hmarker, heq⟩ := matchMarker_eq_some.1 hmatch
        have hlength := congrArg List.length heq
        simp only [List.length_cons, List.length_append] at hlength
        rw [heq]
        exact marker m rest hmarker (ih _ (by omega) rest rfl)

/-! ## Definitions -/

variable {citationId after spaces : Text}

/-- `block-\S+` -/
structure IsCitationId (citationId : Text) : Prop where
  isPrefix : "block-".toList <+: citationId
  length : "block-".length < citationId.length
  plain : ∀ c ∈ citationId, isSpace c = false

/-- What a definition is, with what follows its id on the line. -/
theorem matchDefinition_eq_some : matchDefinition text = some (marker, citationId) ↔
    IsMarker marker ∧ IsCitationId citationId ∧ ∃ spaces after, (∀ c ∈ spaces, isSpace c) ∧
      (∀ c ∈ after.head?, isSpace c) ∧ endsLine after ∧
        text = '[' :: (marker ++ ']' :: ':' :: (spaces ++ (citationId ++ after))) := by
  constructor
  · intro h
    rw [matchDefinition] at h
    rcases hmarker : matchMarker text with _ | ⟨m, rest⟩
    · rw [hmarker] at h
      exact absurd h nofun
    · simp only [hmarker] at h
      split_ifs at h with hmatch
      obtain ⟨hcolon, hstart, hlength, hends⟩ := hmatch
      obtain ⟨rfl, rfl⟩ := Prod.mk.inj (Option.some.inj h)
      obtain ⟨rest, rfl⟩ := List.head?_eq_some_iff.1 hcolon
      obtain ⟨hm, rfl⟩ := matchMarker_eq_some.1 hmarker
      rw [List.tail_cons] at hstart hlength hends ⊢
      refine ⟨hm, ⟨hstart, hlength, fun c hc => ?_⟩, rest.takeWhile isSpace,
        (rest.dropWhile isSpace).dropWhile fun c => !isSpace c,
        fun c hc => List.mem_takeWhile_imp hc, fun c hc => ?_, hends, ?_⟩
      · simpa using List.mem_takeWhile_imp hc
      · have hhead := List.head?_dropWhile_not (fun c => !isSpace c) (rest.dropWhile isSpace)
        rw [Option.mem_def.1 hc] at hhead
        simpa using hhead
      · rw [List.takeWhile_append_dropWhile, List.takeWhile_append_dropWhile]
  · rintro ⟨hm, hid, spaces, after, hspaces, hafter, hends, rfl⟩
    obtain ⟨c, tail, rfl⟩ : ∃ c tail, citationId = c :: tail :=
      List.exists_cons_of_length_pos (Nat.zero_lt_of_lt hid.length)
    have hplain := hid.plain
    have hstart : ∀ d ∈ ((c :: tail) ++ after).head?, isSpace d = false := by
      rintro _ ⟨⟩
      exact hplain c List.mem_cons_self
    have hdrop := (span_append hspaces hstart).2
    obtain ⟨hid', hafter'⟩ : ((c :: tail) ++ after).takeWhile (fun c => !isSpace c) = c :: tail ∧
        ((c :: tail) ++ after).dropWhile (fun c => !isSpace c) = after :=
      span_append (fun d hd => by simp [hplain d hd]) (fun d hd => by simp [hafter d hd])
    simp only [matchDefinition, matchMarker_eq_some.2 ⟨hm, rfl⟩, List.tail_cons, hdrop, hid',
      hafter']
    exact if_pos ⟨rfl, hid.isPrefix, hid.length, hends⟩

/-! ## The ends of lines -/

/-- What follows a body: whitespace with a line break in it, and a bracket. -/
def Closing (after : Text) : Prop :=
  ∃ spaces rest, (∀ c ∈ spaces, isSpace c) ∧ '\n' ∈ spaces ∧ after = spaces ++ '[' :: rest

/-- The end of a line comes after the characters of a word. -/
def closes (text : Text) : Bool := endsLine (text.dropWhile fun c => !isSpace c)

theorem endsLine_space (h : isSpace c) : endsLine (c :: text) = (c == '\n' || endsLine text) := by
  rw [endsLine, List.dropWhile_cons_of_pos h, List.takeWhile_cons_of_pos h, List.contains_cons,
    endsLine, Bool.or_left_comm, Bool.beq_comm]

theorem endsLine_plain (h : isSpace c = false) : endsLine (c :: text) = false := by
  have hc : ¬ isSpace c := by rw [h]; exact Bool.false_ne_true
  rw [endsLine, List.dropWhile_cons_of_neg hc, List.takeWhile_cons_of_neg hc]
  rfl

theorem closes_space (h : isSpace c) : closes (c :: text) = (c == '\n' || endsLine text) := by
  rw [closes, List.dropWhile_cons_of_neg (by simp [h]), endsLine_space h]

theorem closes_append {word : Text} (h : ∀ c ∈ word, isSpace c = false) :
    closes (word ++ text) = closes text := by
  rw [closes, List.dropWhile_append_of_pos fun c hc => by simp [h c hc], closes]

theorem closes_of_endsLine (hspace : ∀ c ∈ text.head?, isSpace c) (h : endsLine text) :
    closes text := by
  rcases text with _ | ⟨c, text⟩
  · rfl
  · rwa [closes_space (hspace c rfl), ← endsLine_space (hspace c rfl)]

theorem Closing.endsLine (h : Closing after) : endsLine after := by
  obtain ⟨spaces, rest, hspaces, hbreak, rfl⟩ := h
  have hbracket : ∀ c ∈ ('[' :: rest).head?, isSpace c = false := by
    rintro _ ⟨⟩
    decide
  rw [Summarize.endsLine, (span_append hspaces hbracket).1, Bool.or_eq_true]
  exact .inr (List.contains_iff_mem.2 hbreak)

/-- A closing begins with whitespace. -/
theorem Closing.exists_cons (h : Closing after) : ∃ c rest, isSpace c ∧ after = c :: rest := by
  obtain ⟨spaces, rest, hspaces, hbreak, rfl⟩ := h
  obtain ⟨c, spaces, rfl⟩ := List.exists_cons_of_ne_nil (List.ne_nil_of_mem hbreak)
  exact ⟨c, spaces ++ '[' :: rest, hspaces c List.mem_cons_self, rfl⟩

theorem Closing.closes (h : Closing after) : closes after := by
  obtain ⟨c, rest, hc, rfl⟩ := h.exists_cons
  refine closes_of_endsLine ?_ h.endsLine
  rintro _ ⟨⟩
  exact hc

/-! ## Definitions that do not come about -/

/-- Markers one after another. -/
def joined (markers : List Text) : Text := [' '].intercalate (markers.map markerText)

/-- Each marker is replaced by one or more markers. -/
def Replaces (replace : Text → Text) : Prop :=
  ∀ marker, IsMarker marker → ∃ markers, markers ≠ [] ∧ (∀ m ∈ markers, IsMarker m) ∧
    replace marker = joined markers

theorem joined_cons (marker : Text) (markers : List Text) : joined (marker :: markers) =
    '[' :: (marker ++ ']' :: if markers = [] then [] else ' ' :: joined markers) := by
  rcases markers with _ | ⟨m, markers⟩
  · rw [if_pos rfl]
    exact List.append_nil _
  · rw [if_neg (List.cons_ne_nil m markers), joined, joined, List.map_cons, List.map_cons,
      List.intercalate_cons_cons, markerText]
    simp only [List.append_assoc, List.cons_append, List.nil_append]

variable {after' : Text}

/-- What a marker is replaced by: another marker, and possibly more after a space. -/
theorem Replaces.exists_eq (h : Replaces replace) (hmarker : IsMarker marker) :
    ∃ m more, IsMarker m ∧ replace marker = '[' :: (m ++ ']' :: more) ∧
      (more = [] ∨ ∃ rest, more = ' ' :: '[' :: rest) := by
  obtain ⟨markers, hne, hmarkers, heq⟩ := h marker hmarker
  obtain ⟨m, markers, rfl⟩ := List.exists_cons_of_ne_nil hne
  refine ⟨m, _, hmarkers m List.mem_cons_self, heq.trans (joined_cons m markers), ?_⟩
  rcases markers with _ | ⟨m', markers⟩
  · exact .inl rfl
  · rw [if_neg (List.cons_ne_nil m' markers), joined_cons]
    exact .inr ⟨_, rfl⟩

theorem IsMarker.plain (h : IsMarker marker) :
    ∀ c ∈ '[' :: (marker ++ [']']), isSpace c = false := by
  intro c hc
  rw [List.mem_cons, List.mem_append, List.mem_singleton] at hc
  obtain rfl | hc | rfl := hc
  · decide
  · exact isSpace_of_isDigit (h.2 c hc)
  · decide

theorem closes_marker (h : IsMarker marker) :
    closes ('[' :: (marker ++ ']' :: text)) = closes text := by
  have hword : closes ('[' :: (marker ++ [']']) ++ text) = closes text := closes_append h.plain
  rwa [List.cons_append, List.append_assoc] at hword

theorem endsLine_sub (hreplace : Replaces replace) (hafter : Closing after)
    (h : endsLine (sub replace text ++ after')) : endsLine (text ++ after) := by
  induction text using tokens_induction with
  | nil => exact hafter.endsLine
  | char c text hchar ih =>
    rw [sub_char hchar, List.cons_append] at h
    rcases hc : isSpace c
    · rw [endsLine_plain hc] at h
      exact absurd h Bool.false_ne_true
    · rw [endsLine_space hc, Bool.or_eq_true] at h
      rw [List.cons_append, endsLine_space hc, Bool.or_eq_true]
      exact h.imp_right ih
  | marker marker rest hmarker _ =>
    -- A bracket is not whitespace.
    obtain ⟨m, more, -, heq, -⟩ := hreplace.exists_eq hmarker
    rw [sub_marker hmarker, heq, List.cons_append, List.cons_append,
      endsLine_plain (by decide)] at h
    exact absurd h Bool.false_ne_true

theorem closes_sub (hreplace : Replaces replace) (hafter : Closing after)
    (h : closes (sub replace text ++ after')) : closes (text ++ after) := by
  induction text using tokens_induction with
  | nil => exact hafter.closes
  | char c text hchar ih =>
    rw [sub_char hchar, List.cons_append] at h
    rcases hc : isSpace c
    · have hplain : ∀ d ∈ [c], isSpace d = false := by simpa using hc
      rw [← List.singleton_append, closes_append hplain] at h
      rw [List.cons_append, ← List.singleton_append, closes_append hplain]
      exact ih h
    · rw [closes_space hc, Bool.or_eq_true] at h
      rw [List.cons_append, closes_space hc, Bool.or_eq_true]
      exact h.imp_right (endsLine_sub hreplace hafter)
  | marker marker rest hmarker ih =>
    obtain ⟨m, more, hm, heq, hmore⟩ := hreplace.exists_eq hmarker
    rw [List.cons_append, List.append_assoc, List.cons_append, closes_marker hmarker]
    rw [sub_marker hmarker, heq, List.append_assoc, List.cons_append, List.append_assoc,
      List.cons_append, closes_marker hm] at h
    obtain rfl | ⟨rest', rfl⟩ := hmore
    · exact ih h
    · -- The line does not end after the first of several markers.
      rw [List.cons_append, closes_space (by decide), List.cons_append,
        endsLine_plain (by decide)] at h
      exact absurd h (by decide)

/-- A character that is no bracket comes from the text, or from what follows it. -/
theorem sub_eq_cons (hreplace : Replaces replace) (hc : c ≠ '[') (hafter : after' ≠ c :: more)
    (h : sub replace text ++ after' = c :: more) :
    ∃ rest, text = c :: rest ∧ sub replace rest ++ after' = more := by
  induction text using tokens_induction with
  | nil => exact absurd h hafter
  | char d text hchar _ =>
    rw [sub_char hchar, List.cons_append, List.cons.injEq] at h
    exact ⟨text, by rw [h.1], h.2⟩
  | marker marker rest hmarker _ =>
    obtain ⟨m, more', -, heq, -⟩ := hreplace.exists_eq hmarker
    rw [sub_marker hmarker, heq, List.cons_append, List.cons_append, List.cons.injEq] at h
    exact absurd h.1.symm hc

theorem sub_eq_word (hreplace : Replaces replace) (hafter : Closing after') {word : Text}
    (hword : ∀ c ∈ word, c ≠ '[' ∧ isSpace c = false)
    (h : sub replace text ++ after' = word ++ more) :
    ∃ rest, text = word ++ rest ∧ sub replace rest ++ after' = more := by
  induction word generalizing text with
  | nil => exact ⟨text, rfl, h⟩
  | cons c word ih =>
    rw [List.forall_mem_cons] at hword
    obtain ⟨d, rest, hd, hcons⟩ := hafter.exists_cons
    have hne : after' ≠ c :: (word ++ more) := by
      rintro rfl
      obtain rfl := (List.cons.inj hcons).1
      exact absurd hd (by rw [hword.1.2]; exact Bool.false_ne_true)
    obtain ⟨text, rfl, htext⟩ := sub_eq_cons hreplace hword.1.1 hne h
    obtain ⟨rest, rfl, hrest⟩ := ih hword.2 htext
    exact ⟨rest, rfl, hrest⟩

theorem sub_eq_spaces (hreplace : Replaces replace) (hafter : Closing after')
    (hspaces : ∀ c ∈ spaces, isSpace c) (hmore : ∀ c ∈ more.head?, c ≠ '[' ∧ isSpace c = false)
    (h : sub replace text ++ after' = spaces ++ more) :
    ∃ rest, text = spaces ++ rest ∧ sub replace rest ++ after' = more := by
  induction spaces generalizing text with
  | nil => exact ⟨text, rfl, h⟩
  | cons c spaces ih =>
    have hc := hspaces c List.mem_cons_self
    have hbracket : c ≠ '[' := by
      rintro rfl
      exact absurd hc (by decide)
    -- After the whitespace of the closing, there would be a bracket.
    have hne : after' ≠ c :: spaces ++ more := by
      intro heq
      obtain ⟨spaces', rest, hspaces', -, rfl⟩ := hafter
      have hclose : ∀ d ∈ ('[' :: rest).head?, isSpace d = false := by
        rintro _ ⟨⟩
        decide
      have hdrop := (span_append hspaces' hclose).2
      rw [heq, (span_append hspaces fun d hd => (hmore d hd).2).2] at hdrop
      exact (hmore '[' (by rw [hdrop]; rfl)).1 rfl
    obtain ⟨text, rfl, htext⟩ := sub_eq_cons hreplace hbracket hne h
    obtain ⟨rest, rfl, hrest⟩ := ih (fun d hd => hspaces d (List.mem_cons_of_mem _ hd)) htext
    exact ⟨rest, rfl, hrest⟩

theorem IsCitationId.exists_eq (h : IsCitationId citationId) : ∃ c rest,
    citationId = "block-".toList ++ c :: rest ∧ isSpace c = false ∧
      ∀ d ∈ rest, isSpace d = false := by
  obtain ⟨rest, rfl⟩ := h.isPrefix
  have hlength := h.length
  obtain ⟨c, rest, rfl⟩ : ∃ c tail, rest = c :: tail := by
    refine List.exists_cons_of_length_pos ?_
    rw [List.length_append] at hlength
    exact Nat.lt_of_add_lt_add_left hlength
  have hplain := h.plain
  rw [List.forall_mem_append, List.forall_mem_cons] at hplain
  exact ⟨c, rest, rfl, hplain.2⟩

theorem block_plain : ∀ c ∈ "block-".toList, c ≠ '[' ∧ isSpace c = false := by
  have hall : "block-".toList.all (fun c => decide (c ≠ '[' ∧ isSpace c = false)) = true := rfl
  exact fun c hc => of_decide_eq_true (List.all_eq_true.1 hall c hc)

theorem newlines_space : ∀ c ∈ ['\n', '\n'], isSpace c := List.all_eq_true.1 rfl

/-- A definition begins where a word follows of which the line ends with it. -/
theorem isSome_matchDefinition (hmarker : IsMarker marker) (hspaces : ∀ c ∈ spaces, isSpace c)
    (hc : isSpace c = false) (hcloses : closes (c :: text)) :
    (matchDefinition ('[' :: (marker ++ ']' :: ':' ::
      (spaces ++ ("block-".toList ++ c :: text))))).isSome := by
  have hmatch : matchDefinition ('[' :: (marker ++ ']' :: ':' ::
      (spaces ++ ("block-".toList ++ c :: text)))) =
        some (marker, "block-".toList ++ (c :: text).takeWhile fun c => !isSpace c) := by
    refine matchDefinition_eq_some.2 ⟨hmarker, ⟨List.prefix_append _ _, ?_, ?_⟩, spaces,
      (c :: text).dropWhile fun c => !isSpace c, hspaces, fun d hd => ?_, hcloses, ?_⟩
    · rw [List.takeWhile_cons_of_pos (by simp [hc]), List.length_append, List.length_cons]
      exact Nat.lt_add_of_pos_right (Nat.zero_lt_succ _)
    · rw [List.forall_mem_append]
      refine ⟨fun d hd => (block_plain d hd).2, fun d hd => ?_⟩
      simpa using List.mem_takeWhile_imp hd
    · have hhead := List.head?_dropWhile_not (fun c => !isSpace c) (c :: text)
      rw [Option.mem_def.1 hd] at hhead
      simpa using hhead
    · rw [List.append_assoc, List.takeWhile_append_dropWhile]
  rw [hmatch]
  rfl

/-- A word that goes on after the replacement went on before. -/
theorem exists_plain_of_sub (hafter : Closing after') (hc : isSpace c = false)
    (h : sub replace text ++ after' = c :: more) :
    ∃ d rest, text ++ after = d :: rest ∧ isSpace d = false := by
  induction text using tokens_induction with
  | nil =>
    obtain ⟨d, rest, hd, rfl⟩ := hafter.exists_cons
    obtain rfl := (List.cons.inj h).1
    exact absurd hd (by rw [hc]; exact Bool.false_ne_true)
  | char d text hchar _ =>
    rw [sub_char hchar, List.cons_append, List.cons.injEq] at h
    exact ⟨d, text ++ after, rfl, h.1 ▸ hc⟩
  | marker marker rest _ _ => exact ⟨'[', _, rfl, by decide⟩

/-- What is a definition after the replacement was one before. -/
theorem isSome_of_sub (hreplace : Replaces replace) (hafter : Closing after)
    (hafter' : Closing after') (h : (matchDefinition (sub replace text ++ after')).isSome) :
    (matchDefinition (text ++ after)).isSome := by
  obtain ⟨⟨marker, citationId⟩, hmatch⟩ := Option.isSome_iff_exists.1 h
  obtain ⟨hmarker, hid, spaces, end', hspaces, hspace, hends, heq⟩ :=
    matchDefinition_eq_some.1 hmatch
  obtain ⟨c, word, rfl, hc, hword⟩ := hid.exists_eq
  have hdigits : ∀ d ∈ marker ++ [']'], d ≠ '[' ∧ isSpace d = false := by
    intro d hd
    refine ⟨?_, hmarker.plain d (List.mem_cons_of_mem _ hd)⟩
    rintro rfl
    obtain hd | hd := List.mem_append.1 hd
    · exact absurd (hmarker.2 _ hd) (by decide)
    · exact absurd hd (by decide)
  induction text using tokens_induction with
  | nil =>
    obtain ⟨d, rest, hd, hcons⟩ := hafter'.exists_cons
    rw [sub_nil, List.nil_append, hcons, List.cons.injEq] at heq
    exact absurd (heq.1 ▸ hd) (by decide)
  | char d text hchar _ =>
    -- The marker would have been one before.
    rw [sub_char hchar, List.cons_append, List.cons.injEq] at heq
    obtain ⟨rfl, heq⟩ := heq
    obtain ⟨rest, rfl, -⟩ := sub_eq_word hreplace hafter' hdigits
      (heq.trans (List.append_cons _ _ _))
    rw [matchMarker_eq_some.2 ⟨hmarker, congrArg _ (List.append_cons _ _ _).symm⟩] at hchar
    exact absurd hchar nofun
  | marker m rest hm _ =>
    obtain ⟨m', more, hm', hr, hmore⟩ := hreplace.exists_eq hm
    have hleft : matchMarker (sub replace ('[' :: (m ++ ']' :: rest)) ++ after') =
        some (m', more ++ (sub replace rest ++ after')) := by
      rw [sub_marker hm, hr]
      refine matchMarker_eq_some.2 ⟨hm', ?_⟩
      simp only [List.append_assoc, List.cons_append]
    rw [heq, matchMarker_eq_some.2 ⟨hmarker, rfl⟩, Option.some.injEq, Prod.mk.injEq] at hleft
    obtain ⟨-, hcolon⟩ := hleft
    obtain rfl | ⟨rest', rfl⟩ := hmore
    · -- Of a single marker, what follows is as it was.
      have hcolonPlain : ∀ d ∈ [':'], d ≠ '[' ∧ isSpace d = false :=
        List.forall_mem_singleton.2 (by decide)
      have hstart : ∀ d ∈ ("block-".toList ++ (c :: word ++ end')).head?,
          d ≠ '[' ∧ isSpace d = false := by
        rintro _ ⟨⟩
        decide
      rw [List.append_assoc] at hcolon
      obtain ⟨text₁, rfl, h₁⟩ := sub_eq_word hreplace hafter' hcolonPlain hcolon.symm
      obtain ⟨text₂, rfl, h₂⟩ := sub_eq_spaces hreplace hafter' hspaces hstart h₁
      obtain ⟨text₃, rfl, h₃⟩ := sub_eq_word hreplace hafter' block_plain h₂
      obtain ⟨d, tail, htail, hd⟩ := exists_plain_of_sub hafter' hc h₃
      have hcloses : closes (sub replace text₃ ++ after') := by
        rw [h₃, closes_append (List.forall_mem_cons.2 ⟨hc, hword⟩)]
        exact closes_of_endsLine hspace hends
      have hsome := isSome_matchDefinition hm hspaces hd
        (htail ▸ closes_sub hreplace hafter hcloses)
      rw [← htail] at hsome
      simpa only [List.append_assoc, List.cons_append, List.nil_append] using hsome
    · -- A space follows the first of several markers, and no colon.
      exact absurd (List.cons.inj hcolon).1 (by decide)

/-! ## Texts without definitions -/

/-- No definition begins in a text, of which the beginning is at the start of a line or not, when
    another text follows it. -/
def NoDefinition : Bool → Text → Text → Prop
  | _, [], _ => True
  | atStart, c :: text, after => (atStart → matchDefinition (c :: text ++ after) = none) ∧
      NoDefinition (c == '\n') text after

/-- What follows a text is at the start of a line. -/
def startsAfter : Bool → Text → Bool
  | atStart, [] => atStart
  | _, c :: text => startsAfter (c == '\n') text

variable {atStart : Bool} {before : Text}

theorem findDefinitions_append (h : NoDefinition atStart text after) :
    findDefinitions atStart (text ++ after) = findDefinitions (startsAfter atStart text) after := by
  induction text generalizing atStart with
  | nil => rfl
  | cons c text ih =>
    have hnone : (if atStart then (matchDefinition (c :: text ++ after)).toList else []) = [] := by
      split_ifs with hstart
      · rw [h.1 hstart]
        rfl
      · rfl
    rw [startsAfter, ← ih h.2]
    exact congrArg (· ++ _) hnone

theorem beforeDefinitions_append (h : NoDefinition atStart text after) :
    beforeDefinitions atStart (text ++ after) =
      (beforeDefinitions (startsAfter atStart text) after).map (text ++ ·) := by
  induction text generalizing atStart with
  | nil => exact Option.map_id'.symm
  | cons c text ih =>
    have hnone : ¬ (atStart ∧ (matchDefinition (c :: (text ++ after))).isSome) := by
      rintro ⟨hstart, hsome⟩
      rw [← List.cons_append, h.1 hstart] at hsome
      exact absurd hsome Bool.false_ne_true
    rw [List.cons_append, beforeDefinitions, if_neg hnone, ih h.2, Option.map_map, startsAfter]
    rfl

theorem beforeDefinitions_eq_some (h : beforeDefinitions atStart text = some before) :
    ∃ after, text = before ++ after ∧ (matchDefinition after).isSome ∧
      startsAfter atStart before ∧ NoDefinition atStart before after := by
  induction text generalizing atStart before with
  | nil => exact absurd h nofun
  | cons c text ih =>
    rw [beforeDefinitions] at h
    split_ifs at h with hmatch
    · obtain rfl := Option.some.inj h
      exact ⟨c :: text, rfl, hmatch.2, hmatch.1, trivial⟩
    · obtain ⟨before, hbefore, rfl⟩ := Option.map_eq_some_iff.1 h
      obtain ⟨after, rfl, hafter, hstart, hnone⟩ := ih hbefore
      refine ⟨after, rfl, hafter, hstart, fun hatStart => ?_, hnone⟩
      rw [List.cons_append]
      exact Option.not_isSome_iff_eq_none.1 fun hsome => hmatch ⟨hatStart, hsome⟩

theorem noDefinition_append : NoDefinition atStart (text ++ rest) after ↔
    NoDefinition atStart text (rest ++ after) ∧
      NoDefinition (startsAfter atStart text) rest after := by
  induction text generalizing atStart with
  | nil => exact (iff_of_eq (true_and _)).symm
  | cons c text ih =>
    rw [List.cons_append, NoDefinition, ih, NoDefinition, ← and_assoc, List.cons_append,
      List.append_assoc, List.cons_append]
    rfl

/-- Within a line, no definition begins. -/
theorem noDefinition_line (h : '\n' ∉ text) : NoDefinition false text after := by
  induction text with
  | nil => trivial
  | cons c text ih =>
    rw [List.mem_cons, not_or] at h
    refine ⟨fun hstart => absurd hstart Bool.false_ne_true, ?_⟩
    rw [beq_eq_false_iff_ne.2 (Ne.symm h.1)]
    exact ih h.2

theorem startsAfter_line (hne : text ≠ []) (h : '\n' ∉ text) :
    startsAfter atStart text = false := by
  induction text generalizing atStart with
  | nil => exact absurd rfl hne
  | cons c text ih =>
    rw [List.mem_cons, not_or] at h
    rw [startsAfter, beq_eq_false_iff_ne.2 (Ne.symm h.1)]
    rcases text with _ | ⟨d, text⟩
    · rfl
    · exact ih (List.cons_ne_nil d text) h.2

theorem IsMarker.noBreak (h : IsMarker marker) : '\n' ∉ markerText marker := fun hmem =>
  absurd (h.plain _ hmem) (by decide)

theorem noBreak_joined {markers : List Text} (h : ∀ m ∈ markers, IsMarker m) :
    '\n' ∉ joined markers := by
  induction markers with
  | nil => exact List.not_mem_nil
  | cons m markers ih =>
    rw [List.forall_mem_cons] at h
    have hjoined : joined (m :: markers) =
        markerText m ++ if markers = [] then [] else ' ' :: joined markers := by
      rw [joined_cons, markerText, List.cons_append, List.append_assoc]
      rfl
    rw [hjoined, List.mem_append, not_or]
    refine ⟨h.1.noBreak, ?_⟩
    split_ifs
    · exact List.not_mem_nil
    · rw [List.mem_cons, not_or]
      exact ⟨by decide, ih h.2⟩

theorem noDefinition_sub (hreplace : Replaces replace) (hafter : Closing after)
    (hafter' : Closing after') (h : NoDefinition atStart text after) :
    NoDefinition atStart (sub replace text) after' := by
  induction text using tokens_induction generalizing atStart with
  | nil => trivial
  | char c text hchar ih =>
    rw [sub_char hchar]
    refine ⟨fun hstart => ?_, ih h.2⟩
    rw [← sub_char hchar]
    have hnone := h.1 hstart
    exact Option.not_isSome_iff_eq_none.1 fun hsome =>
      absurd (isSome_of_sub hreplace hafter hafter' hsome) (by rw [hnone]; exact Bool.false_ne_true)
  | marker marker rest hmarker ih =>
    have hsplit : '[' :: (marker ++ ']' :: rest) = markerText marker ++ rest := by
      rw [markerText, List.cons_append, List.append_assoc]
      rfl
    have hstart : startsAfter atStart (markerText marker) = false :=
      startsAfter_line (List.cons_ne_nil _ _) hmarker.noBreak
    have hrest := h
    rw [hsplit, noDefinition_append, hstart] at hrest
    obtain ⟨markers, hne, hmarkers, heq⟩ := hreplace marker hmarker
    obtain ⟨c, word, hword⟩ : ∃ c word, replace marker = c :: word := by
      obtain ⟨m, more, -, hr, -⟩ := hreplace.exists_eq hmarker
      exact ⟨_, _, hr⟩
    have hbreak : '\n' ∉ c :: word := hword ▸ heq ▸ noBreak_joined hmarkers
    -- The replacement is within a line, which begins with a definition only if it did before.
    have hnone : atStart → matchDefinition (c :: word ++ (sub replace rest ++ after')) = none := by
      intro hstart
      have hbefore := h.1 hstart
      rw [← hword, ← List.append_assoc, ← sub_marker hmarker]
      exact Option.not_isSome_iff_eq_none.1 fun hsome => absurd
        (isSome_of_sub hreplace hafter hafter' hsome) (by rw [hbefore]; exact Bool.false_ne_true)
    rw [sub_marker hmarker, hword, noDefinition_append, startsAfter_line (List.cons_ne_nil _ _)
      hbreak]
    refine ⟨⟨hnone, ?_⟩, ih hrest.2⟩
    rw [List.mem_cons, not_or] at hbreak
    rw [beq_eq_false_iff_ne.2 (Ne.symm hbreak.1)]
    exact noDefinition_line hbreak.2

/-! ## Reading back what is rendered -/

theorem IsCitationId.matchDefinition (hmarker : IsMarker marker) (hid : IsCitationId citationId)
    (hafter : after = [] ∨ ∃ rest, after = '\n' :: rest) :
    matchDefinition (definitionText (marker, citationId) ++ after) = some (marker, citationId) := by
  refine matchDefinition_eq_some.2 ⟨hmarker, hid, [' '], after,
    List.forall_mem_singleton.2 (by decide), ?_, ?_, ?_⟩
  · rcases hafter with rfl | ⟨rest, rfl⟩
    · exact nofun
    · rintro _ ⟨⟩
      decide
  · rcases hafter with rfl | ⟨rest, rfl⟩
    · rfl
    · rw [endsLine_space (by decide)]
      rfl
  · simp only [definitionText, List.cons_append, List.append_assoc, List.nil_append]

theorem noBreak_definitionText (hmarker : IsMarker marker) (hid : IsCitationId citationId) :
    '\n' ∉ definitionText (marker, citationId) := by
  have hsplit : definitionText (marker, citationId) =
      markerText marker ++ (':' :: ' ' :: citationId) := by
    rw [definitionText, markerText, List.cons_append, List.append_assoc]
    rfl
  rw [hsplit, List.mem_append, List.mem_cons, List.mem_cons, not_or, not_or, not_or]
  exact ⟨hmarker.noBreak, by decide, by decide, fun hmem => absurd (hid.plain _ hmem) (by decide)⟩

theorem findDefinitions_definitionText (hmarker : IsMarker marker) (hid : IsCitationId citationId)
    (hafter : after = [] ∨ ∃ rest, after = '\n' :: rest) :
    findDefinitions true (definitionText (marker, citationId) ++ after) =
      (marker, citationId) :: findDefinitions false after := by
  have hmatch := IsCitationId.matchDefinition hmarker hid hafter
  have hbreak := noBreak_definitionText hmarker hid
  obtain ⟨word, hword⟩ : ∃ word, definitionText (marker, citationId) = '[' :: word := ⟨_, rfl⟩
  rw [hword] at hmatch hbreak ⊢
  rw [List.mem_cons, not_or] at hbreak
  have hinner : findDefinitions false (word ++ after) = findDefinitions false after := by
    rw [findDefinitions_append (noDefinition_line hbreak.2)]
    rcases word with _ | ⟨c, word⟩
    · rfl
    · rw [startsAfter_line (List.cons_ne_nil c word) hbreak.2]
  rw [List.cons_append] at hmatch ⊢
  rw [findDefinitions, if_pos rfl, hmatch]
  exact congrArg _ hinner

/-- The definitions that are put after a body are found. -/
theorem findDefinitions_definitions {definitions : List (Text × Text)}
    (h : ∀ definition ∈ definitions, IsMarker definition.1 ∧ IsCitationId definition.2) :
    findDefinitions true (['\n'].intercalate (definitions.map definitionText)) = definitions := by
  induction definitions with
  | nil => rfl
  | cons definition definitions ih =>
    rw [List.forall_mem_cons] at h
    rcases definitions with _ | ⟨next, definitions⟩
    · have hfind := findDefinitions_definitionText h.1.1 h.1.2 (.inl rfl)
      rw [List.append_nil] at hfind
      rw [List.map_singleton, List.intercalate_singleton]
      exact hfind
    · rw [List.map_cons, List.map_cons, List.intercalate_cons_cons, ← List.map_cons,
        List.append_assoc]
      refine (findDefinitions_definitionText h.1.1 h.1.2 (.inr ⟨_, rfl⟩)).trans ?_
      exact congrArg _ (ih h.2)

theorem isMarker_of_mem_numbered {citationIds : List Text}
    (h : ∀ id ∈ citationIds, IsCitationId id) :
    ∀ definition ∈ numbered citationIds, IsMarker definition.1 ∧ IsCitationId definition.2 := by
  intro definition hmem
  obtain ⟨⟨id, n⟩, hid, rfl⟩ := List.mem_map.1 hmem
  exact ⟨isMarker_toDigits n, h id (List.fst_mem_of_mem_zipIdx hid)⟩

/-! ## The end of the body -/

/-- The text does not end with whitespace. -/
def Stripped (text : Text) : Prop := ∀ c ∈ text.getLast?, isSpace c = false

theorem stripped_append (hne : rest ≠ []) : Stripped (text ++ rest) ↔ Stripped rest := by
  obtain ⟨c, hc⟩ := Option.ne_none_iff_exists'.1 fun hnone =>
    hne (List.getLast?_eq_none_iff.1 hnone)
  rw [Stripped, List.getLast?_append, hc, Option.some_or, Stripped, hc]

theorem stripped_joined {markers : List Text} : Stripped (joined markers) := by
  induction markers with
  | nil => exact nofun
  | cons m markers ih =>
    rw [joined_cons, List.append_cons, ← List.cons_append]
    split_ifs with hnil
    · rw [List.append_nil, ← List.cons_append, stripped_append (List.cons_ne_nil _ _)]
      rintro _ ⟨⟩
      decide
    · have hjoined : joined markers ≠ [] := by
        obtain ⟨m', markers, rfl⟩ := List.exists_cons_of_ne_nil hnil
        rw [joined_cons]
        exact List.cons_ne_nil _ _
      rw [List.append_cons, stripped_append hjoined]
      exact ih

theorem sub_ne_nil (hreplace : Replaces replace) (hne : text ≠ []) : sub replace text ≠ [] := by
  induction text using tokens_induction with
  | nil => exact absurd rfl hne
  | char c text hchar _ =>
    rw [sub_char hchar]
    exact List.cons_ne_nil _ _
  | marker marker rest hmarker _ =>
    obtain ⟨m, more, -, heq, -⟩ := hreplace.exists_eq hmarker
    rw [sub_marker hmarker, heq]
    exact List.cons_ne_nil _ _

theorem stripped_sub (hreplace : Replaces replace) (h : Stripped text) :
    Stripped (sub replace text) := by
  induction text using tokens_induction with
  | nil => exact h
  | char c text hchar ih =>
    rw [sub_char hchar]
    by_cases hnil : text = []
    · rw [hnil] at h ⊢
      exact h
    · rw [← List.singleton_append, stripped_append hnil] at h
      rw [← List.singleton_append, stripped_append (sub_ne_nil hreplace hnil)]
      exact ih h
  | marker marker rest hmarker ih =>
    rw [sub_marker hmarker]
    by_cases hnil : rest = []
    · obtain ⟨markers, -, -, heq⟩ := hreplace marker hmarker
      rw [hnil, sub_nil, List.append_nil, heq]
      exact stripped_joined
    · rw [List.append_cons, ← List.cons_append, stripped_append hnil] at h
      rw [stripped_append (sub_ne_nil hreplace hnil)]
      exact ih h

theorem rdropWhile_of_stripped (h : Stripped text) (hspaces : ∀ c ∈ spaces, isSpace c) :
    (text ++ spaces).rdropWhile isSpace = text := by
  have hstart : ∀ c ∈ text.reverse.head?, isSpace c = false := by rwa [List.head?_reverse]
  have hdrop := (span_append (fun c hc => hspaces c (List.mem_reverse.1 hc)) hstart).2
  rw [List.rdropWhile, List.reverse_append, hdrop, List.reverse_reverse]

/-- A text is its beginning without whitespace at the end, and that whitespace. -/
theorem exists_rdropWhile (text : Text) : ∃ spaces, (∀ c ∈ spaces, isSpace c) ∧
    text = text.rdropWhile isSpace ++ spaces ∧ Stripped (text.rdropWhile isSpace) := by
  refine ⟨(text.reverse.takeWhile isSpace).reverse, fun c hc => ?_, ?_, fun c hc => ?_⟩
  · exact List.mem_takeWhile_imp (List.mem_reverse.1 hc)
  · rw [List.rdropWhile, ← List.reverse_append, List.takeWhile_append_dropWhile,
      List.reverse_reverse]
  · rw [List.rdropWhile, List.getLast?_reverse] at hc
    have hhead := List.head?_dropWhile_not isSpace text.reverse
    rw [Option.mem_def.1 hc] at hhead
    exact hhead

theorem startsAfter_append : startsAfter atStart (text ++ rest) =
    startsAfter (startsAfter atStart text) rest := by
  induction text generalizing atStart with
  | nil => rfl
  | cons c text ih => exact ih

theorem getLast?_of_startsAfter (hne : text ≠ []) (h : startsAfter atStart text) :
    text.getLast? = some '\n' := by
  induction text generalizing atStart with
  | nil => exact absurd rfl hne
  | cons c text ih =>
    by_cases hnil : text = []
    · rw [hnil] at h ⊢
      rw [← eq_of_beq h]
      rfl
    · rw [List.getLast?_cons_of_ne_nil hnil]
      exact ih hnil h

/-- Whitespace before the start of a line has a line break. -/
theorem mem_of_startsAfter (hne : text ≠ []) (hstripped : Stripped text)
    (h : startsAfter atStart (text ++ spaces)) : '\n' ∈ spaces := by
  by_contra hbreak
  rw [startsAfter_append] at h
  by_cases hnil : spaces = []
  · rw [hnil] at h
    exact absurd (hstripped _ (getLast?_of_startsAfter hne h)) (by decide)
  · rw [startsAfter_line hnil hbreak] at h
    exact absurd h Bool.false_ne_true

theorem matchDefinition_break : matchDefinition ('\n' :: text) = none := rfl

/-- The definitions after a body begin with one. -/
theorem exists_of_definitions {definitions : List (Text × Text)} (hne : definitions ≠ [])
    (h : ∀ definition ∈ definitions, IsMarker definition.1 ∧ IsCitationId definition.2) :
    ∃ rest, ['\n'].intercalate (definitions.map definitionText) = '[' :: rest ∧
      (matchDefinition ('[' :: rest)).isSome := by
  obtain ⟨definition, definitions, rfl⟩ := List.exists_cons_of_ne_nil hne
  rw [List.forall_mem_cons] at h
  have hmatch (after : Text) (hafter : after = [] ∨ ∃ rest, after = '\n' :: rest) :
      (matchDefinition (definitionText definition ++ after)).isSome := by
    rw [IsCitationId.matchDefinition h.1.1 h.1.2 hafter]
    rfl
  rcases definitions with _ | ⟨next, definitions⟩
  · have hsome := hmatch [] (.inl rfl)
    rw [List.append_nil] at hsome
    rw [List.map_singleton, List.intercalate_singleton]
    exact ⟨_, rfl, hsome⟩
  · rw [List.map_cons, List.map_cons, List.intercalate_cons_cons, List.append_assoc]
    exact ⟨_, rfl, hmatch _ (.inr ⟨_, rfl⟩)⟩

/-- The body of an answer with its markers replaced, and definitions after it, are found as they
    are. -/
theorem splitMarkdownFootnotes_render {answer body : Text} {footnotes : List (Text × Text)}
    {citationIds : List Text} (hreplace : Replaces replace)
    (hsplit : splitMarkdownFootnotes answer = (body, footnotes)) (hfootnotes : footnotes ≠ [])
    (hne : citationIds ≠ []) (hids : ∀ id ∈ citationIds, IsCitationId id) :
    splitMarkdownFootnotes (renderMarkdownFootnotes (sub replace body) citationIds) =
      (sub replace body, numbered citationIds) := by
  have hdefinitions := isMarker_of_mem_numbered hids
  have hnumbered : numbered citationIds ≠ [] := by
    obtain ⟨id, citationIds, rfl⟩ := List.exists_cons_of_ne_nil hne
    exact List.cons_ne_nil _ _
  obtain ⟨references, hreferences, hsome⟩ := exists_of_definitions hnumbered hdefinitions
  have hclosing : Closing ('\n' :: '\n' :: '[' :: references) :=
    ⟨['\n', '\n'], references, newlines_space, by decide, rfl⟩
  rw [splitMarkdownFootnotes] at hsplit
  rcases hbefore : beforeDefinitions true answer with _ | before
  · rw [hbefore] at hsplit
    exact absurd (Prod.mk.inj hsplit).2.symm hfootnotes
  rw [hbefore] at hsplit
  obtain ⟨rfl, -⟩ := Prod.mk.inj hsplit
  obtain ⟨after, -, hafter, hstart, hnone⟩ := beforeDefinitions_eq_some hbefore
  obtain ⟨spaces, hspaces, heq, hstripped⟩ := exists_rdropWhile before
  generalize before.rdropWhile isSpace = body at heq hstripped
  have hbody : NoDefinition true (sub replace body) ('\n' :: '\n' :: '[' :: references) := by
    by_cases hnil : body = []
    · rw [hnil]
      trivial
    · rw [heq] at hstart hnone
      obtain ⟨⟨marker, citationId⟩, hmatch⟩ := Option.isSome_iff_exists.1 hafter
      obtain ⟨-, -, _, _, -, -, -, rfl⟩ := matchDefinition_eq_some.1 hmatch
      exact noDefinition_sub hreplace ⟨spaces, _, hspaces, mem_of_startsAfter hnil hstripped hstart,
        rfl⟩ hclosing (noDefinition_append.1 hnone).1
  have hlines : NoDefinition true (sub replace body ++ ['\n', '\n']) ('[' :: references) :=
    noDefinition_append.2 ⟨hbody, fun _ => matchDefinition_break, fun _ => matchDefinition_break,
      trivial⟩
  have hstarts : startsAfter true (sub replace body ++ ['\n', '\n']) = true := by
    rw [startsAfter_append]
    rfl
  have hrender : renderMarkdownFootnotes (sub replace body) citationIds =
      sub replace body ++ ['\n', '\n'] ++ '[' :: references := by
    rw [renderMarkdownFootnotes, hreferences, List.append_assoc]
    rfl
  have hfind : findDefinitions true ('[' :: references) = numbered citationIds := by
    rw [← hreferences]
    exact findDefinitions_definitions hdefinitions
  rw [splitMarkdownFootnotes, hrender, beforeDefinitions_append hlines, hstarts, beforeDefinitions,
    if_pos ⟨rfl, hsome⟩, Option.map_some, List.append_nil, findDefinitions_append hlines, hstarts,
    hfind]
  dsimp only
  rw [rdropWhile_of_stripped (stripped_sub hreplace hstripped) newlines_space]

end Hyperforge.Summarize
