import Hyperforge.Codemode.RoundTrip

/-!
# Sanitized events

The arguments and results of nested calls are reported in events without what they hold
(`sanitizeEventValue`): of a string there is only the size, and nothing of what is under a key that
tells a secret. Nodes are visited up to a budget, which all of them share, and so are the entries
of a container and the levels.

* `sanitize_eq_of_alike`: values that differ in what is not reported are reported as the same;
* `sanitize_accounts`: a report is within the limits, and tells how many of the entries of each
  container are left out.

Values are visited up to a number of levels, on which the recursion is. What may raise, the size of
a string with surrogates and the text of an integer that is too long, gives no report.
-/

namespace Hyperforge.Codemode.Sanitizer

open Json hiding Tree
open Protocol

def maxNodes : ℤ := 64
def maxItems : ℕ := 16
def maxDepth : ℕ := 6

/-- `_SENSITIVE_FIELD_PARTS` -/
def sensitiveFieldParts : List String :=
  ["api_key", "apikey", "authorization", "cookie", "credential", "passwd", "password",
    "private_key", "privatekey", "secret", "token"]

/-! ## Reports -/

/-- Why entries are left out. -/
inductive Reason
  | depthLimit
  | itemLimit
  | nodeBudget
  deriving DecidableEq

/-- What is reported of a key. -/
inductive KeyReport
  | string (utf8Bytes : ℕ)
  | other
  deriving DecidableEq

/-- What is reported of a value; containers may leave entries out. -/
inductive Report (F : Type)
  | object (entries : List (KeyReport × Report F)) (truncated : Option (Reason × ℕ))
  | array (items : List (Report F)) (truncated : Option (Reason × ℕ))
  | string (utf8Bytes : ℕ)
  | nonFinite
  | none
  | bool (b : Bool)
  | int (i : ℤ)
  | float (x : F)
  | other
  | redacted

section Sanitize

variable {F : Type} (φ : FloatFormat F) (casefold : Str → Str)

/-- `part in text` -/
def occurs (part : String) (text : Str) : Bool :=
  text.tails.any (Str.ofString part).isPrefixOf

/-- The size of the encoding of a string, which is encoded in pieces. -/
def utf8Size (s : Str) : Option ℕ :=
  ((pieces s).mapM fun piece => (encodeUtf8 piece).map ByteArray.size).map
    (List.foldr (· + ·) 0 ·)

def eventKeyText : Key F → Option Str
  | .str s => some s
  | .none => some (.ofString "None")
  | .bool true => some (.ofString "True")
  | .bool false => some (.ofString "False")
  | .int i =>
    if (Nat.toDigits 10 i.natAbs).length > maxDigits then none else some (chars (intText i))
  | .float x => some (chars (φ.repr x))
  | .other _ => some []

/-- What is under a key with this text is not reported. -/
def isSensitive (keyText : Str) : Bool :=
  sensitiveFieldParts.any fun part => occurs part (casefold keyText)

def keyReport (key : Key F) (keyText : Str) : Option KeyReport :=
  match key with
  | .str _ => (utf8Size keyText).map .string
  | _ => some .other

/-- A loop over the entries of a container, from the number of those reported so far and the nodes
    that remain in the budget. -/
def visit {α β : Type} (f : α → ℤ → Option (β × ℤ)) :
    ℕ → List α → ℤ → Option ((List β × Reason) × ℤ)
  | _, [], remaining => some (([], .itemLimit), remaining)
  | entries, x :: xs, remaining =>
    if maxItems ≤ entries then some (([], .itemLimit), remaining)
    else if remaining ≤ 0 then some (([], .nodeBudget), remaining)
    else do
      let (y, remaining) ← f x remaining
      let ((ys, reason), remaining) ← visit f (entries + 1) xs remaining
      some ((y :: ys, reason), remaining)

def truncated (reason : Reason) (entries total : ℕ) : Option (Reason × ℕ) :=
  if entries < total then some (reason, total - entries) else none

/-- The value of an entry of a dictionary. -/
def sanitizeNested (f : Value F → ℤ → Option (Report F × ℤ)) (keyText : Str) (nested : Value F)
    (remaining : ℤ) : Option (Report F × ℤ) :=
  if isSensitive casefold keyText then some (.redacted, remaining - 1) else f nested remaining

/-- An entry of a dictionary. -/
def sanitizeEntry (f : Value F → ℤ → Option (Report F × ℤ)) (entry : Key F × Value F)
    (remaining : ℤ) : Option ((KeyReport × Report F) × ℤ) := do
  let keyText ← eventKeyText φ entry.1
  let (value, remaining) ← sanitizeNested casefold f keyText entry.2 remaining
  let key ← keyReport entry.1 keyText
  some ((key, value), remaining)

/-- What is no container. -/
def sanitizeScalar : Value F → Option (Report F)
  | .str s => (utf8Size s).map .string
  | .float x => some (if φ.isFinite x then .float x else .nonFinite)
  | .bool b => some (.bool b)
  | .int i => some (.int i)
  | .none => some .none
  | _ => some .other

/-- `_EventSanitizer.sanitize`, with the levels that are left to visit. -/
def sanitize : (levels : ℕ) → Value F → ℤ → Option (Report F × ℤ)
  | 0, .dict items, remaining =>
    some (.object [] (truncated .depthLimit 0 items.length), remaining - 1)
  | 0, .list items, remaining | 0, .tuple items, remaining =>
    some (.array [] (truncated .depthLimit 0 items.length), remaining - 1)
  | levels + 1, .dict items, remaining => do
    let ((entries, reason), remaining) ←
      visit (sanitizeEntry φ casefold (sanitize levels)) 0 items (remaining - 1)
    some (.object entries (truncated reason entries.length items.length), remaining)
  | levels + 1, .list items, remaining | levels + 1, .tuple items, remaining => do
    let ((entries, reason), remaining) ← visit (sanitize levels) 0 items (remaining - 1)
    some (.array entries (truncated reason entries.length items.length), remaining)
  | _, value, remaining => (sanitizeScalar φ value).map fun report => (report, remaining - 1)

def sanitizeEventValue (value : Value F) : Option (Report F) :=
  (sanitize φ casefold maxDepth value maxNodes).map Prod.fst

end Sanitize

/-- The pieces of a string have the size that it has. -/
theorem utf8Size_eq (s : Str) : utf8Size s = (encodeUtf8 s).map ByteArray.size := by
  have hpieces (ss : List Str) :
      ((ss.mapM fun piece => (encodeUtf8 piece).map ByteArray.size).map
        (List.foldr (· + ·) 0 ·)) = (encodeUtf8 ss.flatten).map ByteArray.size := by
    induction ss with
    | nil => rfl
    | cons s ss ih =>
      have happend : encodeUtf8 (s ++ ss.flatten) =
          (encodeUtf8 s).bind fun a => (encodeUtf8 ss.flatten).map (a ++ ·) := by
        refine Option.ext fun bytes => ⟨fun h => ?_, fun h => ?_⟩
        · obtain ⟨a, b, ha, hb, rfl⟩ := encodeUtf8_append_eq_some h
          simp [ha, hb]
        · obtain ⟨a, ha, h⟩ := Option.bind_eq_some_iff.1 h
          obtain ⟨b, hb, rfl⟩ := Option.map_eq_some_iff.1 h
          exact encodeUtf8_append ha hb
      rw [List.mapM_cons, List.flatten_cons, happend]
      rcases encodeUtf8 s with _ | a
      · rfl
      · have hsize : ((encodeUtf8 ss.flatten).map (a ++ ·)).map ByteArray.size =
            ((encodeUtf8 ss.flatten).map ByteArray.size).map (a.size + ·) := by
          simp only [Option.map_map, Function.comp_def, ByteArray.size_append]
        rw [Option.bind_some, hsize, ← ih]
        rcases ss.mapM fun piece => (encodeUtf8 piece).map ByteArray.size <;> rfl
  rw [utf8Size, hpieces, pieces_flatten]

/-! ## What is not reported -/

section Alike

variable {F : Type} (φ : FloatFormat F) (casefold : Str → Str)

/-- What is under a key is not reported. -/
def Sensitive (key : Key F) : Prop :=
  ∃ text, eventKeyText φ key = some text ∧ isSensitive casefold text

/-- Keys that are equal, or strings of one size, both telling secrets or not. -/
def AlikeKeys (k k' : Key F) : Prop :=
  k = k' ∨ ∃ s s', k = .str s ∧ k' = .str s' ∧ utf8Size s = utf8Size s' ∧
    (Sensitive φ casefold k ↔ Sensitive φ casefold k')

mutual

/-- Values that differ in the characters of strings of one size, and in anything under a key that
    tells a secret. -/
inductive Alike : Value F → Value F → Prop
  | refl (value : Value F) : Alike value value
  | str {s s' : Str} (h : utf8Size s = utf8Size s') : Alike (.str s) (.str s')
  | list {items items' : List (Value F)} (h : List.Forall₂ Alike items items') :
    Alike (.list items) (.list items')
  | tuple {items items' : List (Value F)} (h : List.Forall₂ Alike items items') :
    Alike (.tuple items) (.tuple items')
  | dict {items items' : List (Key F × Value F)} (h : List.Forall₂ AlikeEntries items items') :
    Alike (.dict items) (.dict items')

inductive AlikeEntries : Key F × Value F → Key F × Value F → Prop
  | sensitive {k k' : Key F} {x x' : Value F} (hk : AlikeKeys φ casefold k k')
    (h : Sensitive φ casefold k) : AlikeEntries (k, x) (k', x')
  | value {k k' : Key F} {x x' : Value F} (hk : AlikeKeys φ casefold k k') (h : Alike x x') :
    AlikeEntries (k, x) (k', x')

end

variable {φ} {casefold}

/-- Entries on which the steps agree are visited to the same end. -/
theorem visit_eq_of_forall₂ {α β : Type} {f : α → ℤ → Option (β × ℤ)} {Rel : α → α → Prop}
    (hf : ∀ x x', Rel x x' → f x = f x') {xs xs' : List α} (h : List.Forall₂ Rel xs xs')
    (entries : ℕ) : visit f entries xs = visit f entries xs' := by
  induction h generalizing entries with
  | nil => rfl
  | cons hx _ ih =>
    funext remaining
    simp only [visit, hf _ _ hx, ih]

/-- An entry is reported by the classification and the report of its key. -/
theorem AlikeKeys.sanitizeEntry_eq {k k' : Key F} {x x' : Value F}
    {f : Value F → ℤ → Option (Report F × ℤ)} (h : AlikeKeys φ casefold k k')
    (hx : Sensitive φ casefold k ∨ f x = f x') :
    sanitizeEntry φ casefold f (k, x) = sanitizeEntry φ casefold f (k', x') := by
  have hsensitive {k : Key F} {text : Str} (htext : eventKeyText φ k = some text) :
      Sensitive φ casefold k ↔ isSensitive casefold text = true := by
    simp [Sensitive, htext]
  funext remaining
  rcases h with rfl | ⟨s, s', rfl, rfl, hsize, hiff⟩
  · rcases htext : eventKeyText φ k with _ | text
    · simp [sanitizeEntry, htext]
    · rw [hsensitive htext] at hx
      rcases hx with hs | hx
      · simp [sanitizeEntry, sanitizeNested, htext, hs]
      · simp [sanitizeEntry, sanitizeNested, htext, hx]
  · have hs : isSensitive casefold s = isSensitive casefold s' := by
      rw [Bool.eq_iff_iff, ← hsensitive (k := .str s) rfl, ← hsensitive (k := .str s') rfl]
      exact hiff
    have hkey : keyReport (.str s : Key F) s = keyReport (.str s' : Key F) s' := by
      rw [keyReport, keyReport, hsize]
    rw [hsensitive (k := .str s) rfl] at hx
    rcases hx with hs' | hx
    · simp [sanitizeEntry, sanitizeNested, eventKeyText, ← hs, hs', hkey]
    · simp [sanitizeEntry, sanitizeNested, eventKeyText, ← hs, hx, hkey]

theorem sanitize_eq_of_alike (levels : ℕ) {x x' : Value F} (h : Alike φ casefold x x') :
    sanitize φ casefold levels x = sanitize φ casefold levels x' := by
  induction levels generalizing x x' with
  | zero =>
    funext remaining
    cases h with
    | refl => rfl
    | str h => simp only [sanitize, sanitizeScalar, h]
    | list h | tuple h | dict h => simp only [sanitize, h.length_eq]
  | succ levels ih =>
    funext remaining
    cases h with
    | refl => rfl
    | str h => simp only [sanitize, sanitizeScalar, h]
    | list h | tuple h => 
      simp only [sanitize, h.length_eq, visit_eq_of_forall₂ (fun _ _ h => ih h) h]
    | dict h =>
      have hentry (p p' : Key F × Value F) (hp : AlikeEntries φ casefold p p') :
          sanitizeEntry φ casefold (sanitize φ casefold levels) p =
            sanitizeEntry φ casefold (sanitize φ casefold levels) p' := by
        cases hp with
        | sensitive hk h => exact hk.sanitizeEntry_eq (.inl h)
        | value hk h => exact hk.sanitizeEntry_eq (.inr (ih h))
      simp only [sanitize, h.length_eq, visit_eq_of_forall₂ hentry h]

end Alike

/-! ## What is reported -/

section Reports

variable {F : Type}

/-- A sum over a list. -/
def total {β : Type} (count : β → ℕ) : List β → ℕ
  | [] => 0
  | y :: ys => count y + total count ys

/-- The maximum over a list. -/
def highest {β : Type} (height : β → ℕ) : List β → ℕ
  | [] => 0
  | y :: ys => max (height y) (highest height ys)

mutual

/-- The number of the nodes of a report, each of a value that has been visited or redacted. -/
def Report.nodes : Report F → ℕ
  | .object entries _ => entryNodes entries + 1
  | .array items _ => itemNodes items + 1
  | _ => 1

def entryNodes : List (KeyReport × Report F) → ℕ
  | [] => 0
  | (_, r) :: rs => r.nodes + entryNodes rs

def itemNodes : List (Report F) → ℕ
  | [] => 0
  | r :: rs => r.nodes + itemNodes rs

end

mutual

/-- The nesting of a report: the levels below its root. -/
def Report.depth : Report F → ℕ
  | .object entries _ => entryDepth entries
  | .array items _ => itemDepth items
  | _ => 0

def entryDepth : List (KeyReport × Report F) → ℕ
  | [] => 0
  | (_, r) :: rs => max (r.depth + 1) (entryDepth rs)

def itemDepth : List (Report F) → ℕ
  | [] => 0
  | r :: rs => max (r.depth + 1) (itemDepth rs)

end

theorem entryNodes_eq_total (entries : List (KeyReport × Report F)) :
    entryNodes entries = total (fun e => e.2.nodes) entries := by
  induction entries with
  | nil => rfl
  | cons e es ih => rw [entryNodes, ih, total]

theorem itemNodes_eq_total (items : List (Report F)) :
    itemNodes items = total Report.nodes items := by
  induction items with
  | nil => rfl
  | cons r rs ih => rw [itemNodes, ih, total]

theorem entryDepth_eq_highest (entries : List (KeyReport × Report F)) :
    entryDepth entries = highest (fun e => e.2.depth + 1) entries := by
  induction entries with
  | nil => rfl
  | cons e es ih => rw [entryDepth, ih, highest]

theorem itemDepth_eq_highest (items : List (Report F)) :
    itemDepth items = highest (fun r => r.depth + 1) items := by
  induction items with
  | nil => rfl
  | cons r rs ih => rw [itemDepth, ih, highest]

/-- The number of the entries that are left out. -/
def omitted (truncated : Option (Reason × ℕ)) : ℕ := truncated.elim 0 Prod.snd

def IsContainer : Value F → Bool
  | .dict _ | .list _ | .tuple _ => true
  | _ => false

variable (φ : FloatFormat F) (casefold : Str → Str)

mutual

/-- A report of a value: containers report their first entries, at most `maxItems`, and how many
    they leave out. -/
inductive Reports : Value F → Report F → Prop
  | scalar {value : Value F} {r : Report F} (hvalue : IsContainer value = false)
    (h : sanitizeScalar φ value = some r) : Reports value r
  | list {items : List (Value F)} {reports : List (Report F)} {t : Option (Reason × ℕ)}
    (h : List.Forall₂ Reports (items.take reports.length) reports)
    (hmax : reports.length ≤ maxItems) (htotal : reports.length + omitted t = items.length) :
    Reports (.list items) (.array reports t)
  | tuple {items : List (Value F)} {reports : List (Report F)} {t : Option (Reason × ℕ)}
    (h : List.Forall₂ Reports (items.take reports.length) reports)
    (hmax : reports.length ≤ maxItems) (htotal : reports.length + omitted t = items.length) :
    Reports (.tuple items) (.array reports t)
  | dict {items : List (Key F × Value F)} {reports : List (KeyReport × Report F)}
    {t : Option (Reason × ℕ)}
    (h : List.Forall₂ EntryReports (items.take reports.length) reports)
    (hmax : reports.length ≤ maxItems) (htotal : reports.length + omitted t = items.length) :
    Reports (.dict items) (.object reports t)

/-- A report of an entry, redacted exactly if its key tells a secret. -/
inductive EntryReports : Key F × Value F → KeyReport × Report F → Prop
  | redacted {k : Key F} {x : Value F} {kr : KeyReport} (h : Sensitive φ casefold k) :
    EntryReports (k, x) (kr, .redacted)
  | reported {k : Key F} {x : Value F} {kr : KeyReport} {r : Report F}
    (h : ¬Sensitive φ casefold k) (hx : Reports x r) : EntryReports (k, x) (kr, r)

end

variable {φ casefold}

/-- A step reports what it visits in `P`, of a bounded height, and takes from the budget as many
    nodes as it reports. -/
structure Accounts {α β : Type} (f : α → ℤ → Option (β × ℤ)) (P : α → β → Prop) (count : β → ℕ)
    (height : β → ℕ) (bound : ℕ) : Prop where
  reports {x : α} {y : β} {r r' : ℤ} : 0 < r → f x r = some (y, r') → P x y
  budget {x : α} {y : β} {r r' : ℤ} : 0 < r → f x r = some (y, r') → r' + count y = r
  remains {x : α} {y : β} {r r' : ℤ} : 0 < r → f x r = some (y, r') → 0 ≤ r'
  height_le {x : α} {y : β} {r r' : ℤ} : 0 < r → f x r = some (y, r') → height y ≤ bound

/-- What a loop visits, if its step accounts for what it does. -/
theorem Accounts.visit {α β : Type} {f : α → ℤ → Option (β × ℤ)} {P : α → β → Prop}
    {count height : β → ℕ} {bound : ℕ} (hf : Accounts f P count height bound) {xs : List α}
    {n : ℕ} {r r' : ℤ} {ys : List β} {reason : Reason} (hn : n ≤ maxItems) (hr : 0 ≤ r)
    (h : visit f n xs r = some ((ys, reason), r')) :
    List.Forall₂ P (xs.take ys.length) ys ∧ n + ys.length ≤ maxItems ∧
      ys.length ≤ xs.length ∧ 0 ≤ r' ∧ r' + total count ys = r ∧ highest height ys ≤ bound := by
  induction xs generalizing n r ys with
  | nil =>
    cases h
    exact ⟨.nil, hn, le_rfl, hr, by simp [total], Nat.zero_le _⟩
  | cons x xs ih =>
    rw [Sanitizer.visit] at h
    split_ifs at h with hfull hempty
    · cases h
      exact ⟨.nil, hn, Nat.zero_le _, hr, by simp [total], Nat.zero_le _⟩
    · cases h
      exact ⟨.nil, hn, Nat.zero_le _, hr, by simp [total], Nat.zero_le _⟩
    · obtain ⟨⟨y, r1⟩, hy, h⟩ := Option.bind_eq_some_iff.1 h
      obtain ⟨⟨⟨zs, reason'⟩, r2⟩, hzs, h⟩ := Option.bind_eq_some_iff.1 h
      cases h
      have hpos : 0 < r := by omega
      have hr1 := hf.remains hpos hy
      obtain ⟨hP, hmax, hlen, hr2, htotal, hheight⟩ := ih (by omega) hr1 hzs
      have hbudget := hf.budget hpos hy
      refine ⟨.cons (hf.reports hpos hy) hP, ?_, ?_, hr2, ?_,
        max_le (hf.height_le hpos hy) hheight⟩
      · rw [List.length_cons]
        omega
      · rw [List.length_cons, List.length_cons]
        omega
      · rw [total, Int.natCast_add]
        omega

theorem omitted_truncated (reason : Reason) {entries size : ℕ} (h : entries ≤ size) :
    entries + omitted (truncated reason entries size) = size := by
  rw [truncated]
  split_ifs with hlt
  · simp only [omitted, Option.elim_some]
    omega
  · simp only [omitted, Option.elim_none]
    omega

/-- An entry is one level deeper. -/
theorem Accounts.sanitizeEntry {f : Value F → ℤ → Option (Report F × ℤ)} {levels : ℕ}
    (hf : Accounts f (Reports φ casefold) Report.nodes Report.depth levels) :
    Accounts (sanitizeEntry φ casefold f) (EntryReports φ casefold) (fun e => e.2.nodes)
      (fun e => e.2.depth + 1) (levels + 1) := by
  -- an entry is redacted, or visited
  have hcases {entry : Key F × Value F} {e : KeyReport × Report F} {r r' : ℤ}
      (h : Sanitizer.sanitizeEntry φ casefold f entry r = some (e, r')) :
      (Sensitive φ casefold entry.1 ∧ e.2 = .redacted ∧ r' = r - 1) ∨
        ¬Sensitive φ casefold entry.1 ∧ f entry.2 r = some (e.2, r') := by
    obtain ⟨text, htext, h⟩ := Option.bind_eq_some_iff.1 h
    obtain ⟨⟨x, r1⟩, hx, h⟩ := Option.bind_eq_some_iff.1 h
    obtain ⟨key, -, h⟩ := Option.bind_eq_some_iff.1 h
    cases h
    rw [sanitizeNested] at hx
    split_ifs at hx with hs
    · cases hx
      exact .inl ⟨⟨text, htext, hs⟩, rfl, rfl⟩
    · refine .inr ⟨?_, hx⟩
      rintro ⟨text', htext', hs'⟩
      rw [htext] at htext'
      cases htext'
      exact hs hs'
  constructor
  · rintro ⟨k, x⟩ ⟨kr, y⟩ r r' hr h
    rcases hcases h with ⟨hs, hy, -⟩ | ⟨hs, hx⟩
    · obtain rfl : y = .redacted := hy
      exact .redacted hs
    · exact .reported hs (hf.reports hr hx)
  · intro entry e r r' hr h
    rcases hcases h with ⟨-, hy, rfl⟩ | ⟨-, hx⟩
    · simp [hy, Report.nodes]
    · exact hf.budget hr hx
  · intro entry e r r' hr h
    rcases hcases h with ⟨-, -, rfl⟩ | ⟨-, hx⟩
    · omega
    · exact hf.remains hr hx
  · intro entry e r r' hr h
    rcases hcases h with ⟨-, hy, -⟩ | ⟨-, hx⟩
    · simp [hy, Report.depth]
    · exact Nat.succ_le_succ (hf.height_le hr hx)

/-- An item is one level deeper. -/
theorem Accounts.item {f : Value F → ℤ → Option (Report F × ℤ)} {levels : ℕ}
    (hf : Accounts f (Reports φ casefold) Report.nodes Report.depth levels) :
    Accounts f (Reports φ casefold) Report.nodes (fun r => r.depth + 1) (levels + 1) :=
  ⟨hf.reports, hf.budget, hf.remains, fun hr h => Nat.succ_le_succ (hf.height_le hr h)⟩

theorem sanitizeScalar_leaf {value : Value F} {r : Report F}
    (h : sanitizeScalar φ value = some r) : r.nodes = 1 ∧ r.depth = 0 := by
  unfold sanitizeScalar at h
  split at h
  · obtain ⟨size, -, rfl⟩ := Option.map_eq_some_iff.1 h
    exact ⟨rfl, rfl⟩
  · cases h
    split_ifs <;> exact ⟨rfl, rfl⟩
  all_goals
    cases h
    exact ⟨rfl, rfl⟩

theorem sanitize_of_scalar {levels : ℕ} {value : Value F} (h : IsContainer value = false)
    (remaining : ℤ) : sanitize φ casefold levels value remaining =
      (sanitizeScalar φ value).map fun report => (report, remaining - 1) := by
  cases levels <;> cases value <;> first | rfl | cases h

/-- A container reports its first entries and how many it leaves out, and takes one more node. -/
theorem Accounts.container {α β : Type} {f : α → ℤ → Option (β × ℤ)} {P : α → β → Prop}
    {count height : β → ℕ} {bound : ℕ} (hf : Accounts f P count height bound) {xs : List α}
    {r r' : ℤ} {ys : List β} {reason : Reason} (hr : 0 < r)
    (h : Sanitizer.visit f 0 xs (r - 1) = some ((ys, reason), r')) :
    (List.Forall₂ P (xs.take ys.length) ys ∧ ys.length ≤ maxItems ∧
      ys.length + omitted (truncated reason ys.length xs.length) = xs.length) ∧
    r' + (total count ys + 1 : ℕ) = r ∧ 0 ≤ r' ∧ highest height ys ≤ bound := by
  obtain ⟨hP, hmax, hlen, hr', htotal, hheight⟩ := hf.visit (Nat.zero_le _) (by omega) h
  exact ⟨⟨hP, by omega, omitted_truncated reason hlen⟩, by omega, hr', hheight⟩

/-- A visit from the budget `r` to the budget `r'`. -/
structure Accounted (φ : FloatFormat F) (casefold : Str → Str) (levels : ℕ) (value : Value F)
    (r : ℤ) (report : Report F) (r' : ℤ) : Prop where
  reports : Reports φ casefold value report
  budget : r' + report.nodes = r
  remains : 0 ≤ r'
  depth_le : report.depth ≤ levels

theorem accounted_scalar {levels : ℕ} {value : Value F} {report : Report F} {r r' : ℤ}
    (hvalue : IsContainer value = false) (hr : 0 < r)
    (h : sanitize φ casefold levels value r = some (report, r')) :
    Accounted φ casefold levels value r report r' := by
  rw [sanitize_of_scalar hvalue] at h
  obtain ⟨report, hreport, h⟩ := Option.map_eq_some_iff.1 h
  cases h
  obtain ⟨hnodes, hdepth⟩ := sanitizeScalar_leaf hreport
  exact ⟨.scalar hvalue hreport, by omega, by omega, by omega⟩

theorem accounted_zero {value : Value F} {report : Report F} {r r' : ℤ} (hr : 0 < r)
    (h : sanitize φ casefold 0 value r = some (report, r')) :
    Accounted φ casefold 0 value r report r' := by
  have hbudget : r - 1 + (0 + 1 : ℕ) = r := by omega
  have hsize (size : ℕ) : 0 + omitted (truncated .depthLimit 0 size) = size :=
    omitted_truncated _ (Nat.zero_le _)
  cases value with
  | dict items =>
    cases h
    exact ⟨.dict .nil (Nat.zero_le _) (hsize _), hbudget, by omega, le_rfl⟩
  | list items =>
    cases h
    exact ⟨.list .nil (Nat.zero_le _) (hsize _), hbudget, by omega, le_rfl⟩
  | tuple items =>
    cases h
    exact ⟨.tuple .nil (Nat.zero_le _) (hsize _), hbudget, by omega, le_rfl⟩
  | _ => exact accounted_scalar rfl hr h

theorem accounted_succ {levels : ℕ} (hlevels : Accounts (sanitize φ casefold levels)
      (Reports φ casefold) Report.nodes Report.depth levels)
    {value : Value F} {report : Report F} {r r' : ℤ} (hr : 0 < r)
    (h : sanitize φ casefold (levels + 1) value r = some (report, r')) :
    Accounted φ casefold (levels + 1) value r report r' := by
  cases value with
  | dict items =>
    obtain ⟨⟨⟨entries, reason⟩, r1⟩, hvisit, h⟩ := Option.bind_eq_some_iff.1 h
    cases h
    obtain ⟨⟨hP, hmax, htotal⟩, hbudget, hr1, hdepth⟩ := hlevels.sanitizeEntry.container hr hvisit
    refine ⟨.dict hP hmax htotal, ?_, hr1, ?_⟩
    · rwa [Report.nodes, entryNodes_eq_total]
    · rwa [Report.depth, entryDepth_eq_highest]
  | list items =>
    obtain ⟨⟨⟨entries, reason⟩, r1⟩, hvisit, h⟩ := Option.bind_eq_some_iff.1 h
    cases h
    obtain ⟨⟨hP, hmax, htotal⟩, hbudget, hr1, hdepth⟩ := hlevels.item.container hr hvisit
    refine ⟨.list hP hmax htotal, ?_, hr1, ?_⟩
    · rwa [Report.nodes, itemNodes_eq_total]
    · rwa [Report.depth, itemDepth_eq_highest]
  | tuple items =>
    obtain ⟨⟨⟨entries, reason⟩, r1⟩, hvisit, h⟩ := Option.bind_eq_some_iff.1 h
    cases h
    obtain ⟨⟨hP, hmax, htotal⟩, hbudget, hr1, hdepth⟩ := hlevels.item.container hr hvisit
    refine ⟨.tuple hP hmax htotal, ?_, hr1, ?_⟩
    · rwa [Report.nodes, itemNodes_eq_total]
    · rwa [Report.depth, itemDepth_eq_highest]
  | _ => exact accounted_scalar rfl hr h

theorem sanitize_accounts (levels : ℕ) : Accounts (sanitize φ casefold levels)
    (Reports φ casefold) Report.nodes Report.depth levels := by
  have hof {levels : ℕ} (h : ∀ {value report r r'}, 0 < r →
      sanitize φ casefold levels value r = some (report, r') →
      Accounted φ casefold levels value r report r') : Accounts (sanitize φ casefold levels)
        (Reports φ casefold) Report.nodes Report.depth levels :=
    ⟨fun hr hx => (h hr hx).reports, fun hr hx => (h hr hx).budget,
      fun hr hx => (h hr hx).remains, fun hr hx => (h hr hx).depth_le⟩
  induction levels with
  | zero => exact hof accounted_zero
  | succ levels ih => exact hof (accounted_succ ih)

/-! ## What has a report -/

/-- The text of a key may be read. -/
def KeyReadable : Key F → Prop
  | .str s => (encodeUtf8 s).isSome
  | .int i => (Nat.toDigits 10 i.natAbs).length ≤ maxDigits
  | _ => True

/-- The strings of a value have encodings, and its integer keys are not too long. -/
inductive Readable : Value F → Prop
  | scalar {value : Value F} (hvalue : IsContainer value = false)
    (h : ∀ s, value = .str s → (encodeUtf8 s).isSome) : Readable value
  | list {items : List (Value F)} (h : ∀ x ∈ items, Readable x) : Readable (.list items)
  | tuple {items : List (Value F)} (h : ∀ x ∈ items, Readable x) : Readable (.tuple items)
  | dict {items : List (Key F × Value F)} (hkeys : ∀ p ∈ items, KeyReadable p.1)
    (h : ∀ p ∈ items, Readable p.2) : Readable (.dict items)

theorem isSome_visit {α β : Type} {f : α → ℤ → Option (β × ℤ)} {xs : List α}
    (hf : ∀ x ∈ xs, ∀ r, (f x r).isSome) (n : ℕ) (r : ℤ) : (visit f n xs r).isSome := by
  induction xs generalizing n r with
  | nil => rfl
  | cons x xs ih =>
    rw [visit]
    split_ifs
    · rfl
    · rfl
    · obtain ⟨⟨y, r1⟩, hy⟩ := Option.isSome_iff_exists.1 (hf x List.mem_cons_self r)
      obtain ⟨⟨⟨ys, reason⟩, r2⟩, hys⟩ := Option.isSome_iff_exists.1
        (ih (fun x hx => hf x (List.mem_cons_of_mem _ hx)) (n + 1) r1)
      simp [hy, hys]

theorem isSome_sanitizeEntry {f : Value F → ℤ → Option (Report F × ℤ)}
    {entry : Key F × Value F} (hkey : KeyReadable entry.1) (hf : ∀ r, (f entry.2 r).isSome)
    (r : ℤ) : (sanitizeEntry φ casefold f entry r).isSome := by
  have hnested (text : Str) : (sanitizeNested casefold f text entry.2 r).isSome := by
    rw [sanitizeNested]
    split_ifs
    · rfl
    · exact hf r
  have htext : ∃ text, eventKeyText φ entry.1 = some text := by
    unfold eventKeyText
    split
    case h_5 i hi =>
      rw [hi] at hkey
      exact ⟨_, if_neg (not_lt.2 hkey)⟩
    all_goals exact ⟨_, rfl⟩
  obtain ⟨text, htext⟩ := htext
  have hreport : (keyReport entry.1 text).isSome := by
    unfold keyReport
    split
    · next s hs =>
      rw [hs] at hkey htext
      cases htext
      rw [Option.isSome_map, utf8Size_eq, Option.isSome_map]
      exact hkey
    · rfl
  obtain ⟨⟨value, r1⟩, hvalue⟩ := Option.isSome_iff_exists.1 (hnested text)
  obtain ⟨key, hkey⟩ := Option.isSome_iff_exists.1 hreport
  simp [sanitizeEntry, htext, hvalue, hkey]

theorem isSome_sanitizeScalar {value : Value F}
    (h : ∀ s, value = .str s → (encodeUtf8 s).isSome) : (sanitizeScalar φ value).isSome := by
  cases value with
  | str s =>
    rw [sanitizeScalar, Option.isSome_map, utf8Size_eq, Option.isSome_map]
    exact h s rfl
  | _ => rfl

theorem isSome_sanitize_of_scalar {levels : ℕ} {value : Value F}
    (hvalue : IsContainer value = false) (h : ∀ s, value = .str s → (encodeUtf8 s).isSome)
    (r : ℤ) : (sanitize φ casefold levels value r).isSome := by
  rw [sanitize_of_scalar hvalue, Option.isSome_map]
  exact isSome_sanitizeScalar h

theorem isSome_sanitize {levels : ℕ} {value : Value F} (h : Readable value) (r : ℤ) :
    (sanitize φ casefold levels value r).isSome := by
  induction levels generalizing value r with
  | zero =>
    cases h with
    | scalar hvalue h => exact isSome_sanitize_of_scalar hvalue h r
    | list h | tuple h | dict hkeys h => rfl
  | succ levels ih =>
    cases h with
    | scalar hvalue h => exact isSome_sanitize_of_scalar hvalue h r
    | list h | tuple h =>
      obtain ⟨⟨⟨entries, reason⟩, r'⟩, hvisit⟩ := Option.isSome_iff_exists.1
        (isSome_visit (fun x hx r => ih (h x hx) r) 0 (r - 1))
      simp [sanitize, hvisit]
    | @dict items hkeys h =>
      have hentry : ∀ p ∈ items, ∀ r,
          (sanitizeEntry φ casefold (sanitize φ casefold levels) p r).isSome :=
        fun p hp r => isSome_sanitizeEntry (hkeys p hp) (ih (h p hp)) r
      obtain ⟨⟨⟨entries, reason⟩, r'⟩, hvisit⟩ := Option.isSome_iff_exists.1
        (isSome_visit hentry 0 (r - 1))
      simp [sanitize, hvisit]

end Reports

/-- Values that differ in what is not reported have the same report; a report is of at most
    `maxNodes` nodes and `maxDepth` levels, and tells how many entries of each container it leaves
    out. It is there if the strings have encodings, and the integer keys are not too long. -/
theorem sanitizeEventValue_spec {F : Type} (φ : FloatFormat F) (casefold : Str → Str) :
    (∀ value value' : Value F, Alike φ casefold value value' →
      sanitizeEventValue φ casefold value = sanitizeEventValue φ casefold value') ∧
    (∀ (value : Value F) (report : Report F), sanitizeEventValue φ casefold value = some report →
      (report.nodes : ℤ) ≤ maxNodes ∧ report.depth ≤ maxDepth ∧ Reports φ casefold value report) ∧
    ∀ value : Value F, Readable value →
      ∃ report, sanitizeEventValue φ casefold value = some report := by
  refine ⟨fun value value' h => ?_, fun value report h => ?_, fun value h => ?_⟩
  · rw [sanitizeEventValue, sanitizeEventValue, sanitize_eq_of_alike maxDepth h]
  · obtain ⟨⟨report, r⟩, hvisit, rfl⟩ := Option.map_eq_some_iff.1 h
    have haccounts : Accounts (sanitize φ casefold maxDepth) (Reports φ casefold) Report.nodes
        Report.depth maxDepth := sanitize_accounts maxDepth
    have hpos : 0 < maxNodes := by decide
    have hbudget := haccounts.budget hpos hvisit
    have hremains := haccounts.remains hpos hvisit
    have hnodes : (report.nodes : ℤ) ≤ maxNodes := by omega
    exact ⟨hnodes, haccounts.height_le hpos hvisit, haccounts.reports hpos hvisit⟩
  · have hsome : (sanitize φ casefold maxDepth value maxNodes).isSome := isSome_sanitize h maxNodes
    obtain ⟨⟨report, r⟩, hreport⟩ := Option.isSome_iff_exists.1 hsome
    exact ⟨report, by rw [sanitizeEventValue, hreport, Option.map_some]⟩

/-- The arguments of a login. -/
def login (user : String) (token : Value Bool) : Value Bool :=
  .dict [(.str (.ofString "user"), .str (.ofString user)), (.str (.ofString "token"), token)]

/-- Two logins, of users whose names are of the same size. -/
theorem sanitizeEventValue_login :
    sanitizeEventValue half id (login "alice" (.str (.ofString "a"))) =
      sanitizeEventValue half id (login "bobby" (.list [.int 1])) ∧
    ∃ report, sanitizeEventValue half id (login "alice" .none) = some report ∧
      (report.nodes : ℤ) ≤ maxNodes ∧ report.depth ≤ maxDepth := by
  obtain ⟨halike, hreports, hsome⟩ := sanitizeEventValue_spec half id
  have hsensitive : Sensitive half id (.str (.ofString "token")) := ⟨_, rfl, by decide⟩
  have hlogin : Alike half id (login "alice" (.str (.ofString "a")))
      (login "bobby" (.list [.int 1])) :=
    .dict (.cons (.value (.inl rfl) (.str (by decide)))
      (.cons (.sensitive (.inl rfl) hsensitive) .nil))
  have hreadable : Readable (login "alice" .none) :=
    .dict (List.forall_mem_cons.2 ⟨rfl, List.forall_mem_singleton.2 rfl⟩)
      (List.forall_mem_cons.2 ⟨.scalar rfl fun _ h => by cases h; decide,
        List.forall_mem_singleton.2 (.scalar rfl fun _ h => by cases h)⟩)
  obtain ⟨report, hreport⟩ := hsome _ hreadable
  obtain ⟨hnodes, hdepth, -⟩ := hreports _ _ hreport
  exact ⟨halike _ _ hlogin, report, hreport, hnodes, hdepth⟩

end Hyperforge.Codemode.Sanitizer
