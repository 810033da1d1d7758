import Hyperforge.Library.Crash
import Hyperforge.Library.Json.Dict
import Mathlib.Data.Option.Defs

/-!
# Encrypted fields

Some fields of a payload are stored encrypted: the strings, and the strings in dictionaries
(`encryptFields`). What is stored is decrypted in place (`decryptFields`), strings that cannot be
decrypted being left as they are, since they may have been stored before there was encryption.

Encrypting and then decrypting gives the payload back (`decryptFields_encryptFields`). Of what
has been stored, partly encrypted and partly not, decrypting gives the payload back if and only
if no dictionary has an encrypted string after one that is not (`decryptFields_eq_ok_iff`): the
first string of a dictionary that cannot be decrypted ends the loop over its entries.
-/

namespace Hyperforge.Database.Encryption

open Crash Json

/-- Fernet, with a key: what it encrypts it decrypts, and nothing else. Encrypting is
    randomised, and never gives the text itself. -/
structure Fernet (Seed : Type) where
  encrypt : Seed → String → String
  decrypt : String → Option String
  decrypt_encrypt : ∀ seed data, decrypt (encrypt seed data) = some data
  decrypt_other : ∀ token, (∀ seed data, encrypt seed data ≠ token) → decrypt token = none
  encrypt_ne : ∀ seed data, encrypt seed data ≠ data

/-- The value of a field, or of an entry of a dictionary. -/
inductive Value (O : Type)
  | str (s : String)
  | dict (entries : List (String × Value O))
  | other (o : O)

/-- The error `Field '…' not found`. -/
structure AttributeError where
  field : String
  deriving DecidableEq

variable {Seed O : Type}

abbrev Fields (O : Type) := List (String × Value O)

/-- The values of some fields, if they are there, replaced one after another. -/
def amendFields (f : String → Value O → Value O) (names : List String) (data : Fields O) :
    Fields O :=
  names.foldl (fun data field =>
    match data.lookup field with
    | some value => assign field (f field value) data
    | none => data) data

section Code

variable (fernet : Fernet Seed)

/-- An entry of a dictionary, encrypted. -/
def encryptEntry (seed : Option String → Seed) (entry : String × Value O) : String × Value O :=
  match entry with
  | (k, .str v) => (k, .str (fernet.encrypt (seed (some k)) v))
  | entry => entry

def encryptValue (seed : Option String → Seed) : Value O → Value O
  | .str data => .str (fernet.encrypt (seed none) data)
  | .dict entries => .dict (entries.map (encryptEntry fernet seed))
  | value => value

/-- `encrypt_fields`, each string being encrypted with a seed of its own. -/
def encryptFields (seed : String → Option String → Seed) (encryptedFields : List String)
    (data : Fields O) : Fields O :=
  amendFields (fun field => encryptValue fernet (seed field)) encryptedFields data

/-- The entries of a dictionary after the loop that decrypts them, which a string that cannot
    be decrypted ends. -/
def decryptEntries : Fields O → Fields O
  | [] => []
  | (k, .str v) :: entries =>
    match fernet.decrypt v with
    | some data => (k, .str data) :: decryptEntries entries
    | none => (k, .str v) :: entries
  | entry :: entries => entry :: decryptEntries entries

/-- What becomes of the value of a field, in place. -/
def decryptValue : Value O → Value O
  | .str token =>
    match fernet.decrypt token with
    | some data => .str data
    | none => .str token
  | .dict entries => .dict (decryptEntries fernet entries)
  | value => value

/-- `decrypt_fields` -/
def decryptFields (encryptedFields : List String) (model : Fields O) :
    Except AttributeError (Fields O) :=
  encryptedFields.foldlM (fun model field =>
    match model.lookup field with
    | some value => .ok (assign field (decryptValue fernet value) model)
    | none => .error ⟨field⟩) model

end Code

/-! ## What is stored -/

section Stored

variable (fernet : Fernet Seed)

/-- The text is what Fernet encrypts some text to. -/
def Encrypted (token : String) : Prop := ∃ seed data, fernet.encrypt seed data = token

/-- What may be stored of a text: encrypted, or as it is. -/
inductive StoredText (data : String) : String → Prop
  | encrypted (seed : Seed) : StoredText data (fernet.encrypt seed data)
  | legacy (h : ¬Encrypted fernet data) : StoredText data data

/-- What may be stored of an entry of a dictionary. -/
inductive StoredEntry : String × Value O → String × Value O → Prop
  | str {k data token : String} (h : StoredText fernet data token) :
    StoredEntry (k, .str data) (k, .str token)
  | dict (k : String) (entries : Fields O) : StoredEntry (k, .dict entries) (k, .dict entries)
  | other (k : String) (o : O) : StoredEntry (k, .other o) (k, .other o)

/-- What may be stored of the value of a field that is designated. -/
inductive StoredValue : Value O → Value O → Prop
  | str {data token : String} (h : StoredText fernet data token) :
    StoredValue (.str data) (.str token)
  | dict {entries stored : Fields O} (h : List.Forall₂ (StoredEntry fernet) entries stored) :
    StoredValue (.dict entries) (.dict stored)
  | other (o : O) : StoredValue (.other o) (.other o)

/-- What may be stored of a payload, whose designated fields may each be encrypted, or not. -/
def Stored (encryptedFields : List String) : Fields O → Fields O → Prop :=
  List.Forall₂ fun plain stored => stored.1 = plain.1 ∧
    (plain.1 ∈ encryptedFields → StoredValue fernet plain.2 stored.2) ∧
    (plain.1 ∉ encryptedFields → stored.2 = plain.2)

/-- No entry of a dictionary that is an encrypted string comes after one that is a string that
    is not. -/
def LegacyLast (entries : Fields O) : Prop :=
  entries.Pairwise fun m m' => ∀ s t, m.2 = .str s → ¬Encrypted fernet s →
    m'.2 = .str t → ¬Encrypted fernet t

end Stored

variable {fernet : Fernet Seed}

theorem decrypt_of_not_encrypted {token : String} (h : ¬Encrypted fernet token) :
    fernet.decrypt token = none :=
  fernet.decrypt_other token fun seed data he => h ⟨seed, data, he⟩

/-! ## Dictionaries -/

/-- What is stored is the plaintext itself when nothing of it is encrypted. -/
theorem eq_iff_of_storedEntries {entries stored : Fields O}
    (h : List.Forall₂ (StoredEntry fernet) entries stored) : stored = entries ↔
      ∀ m ∈ stored, ∀ t, m.2 = .str t → ¬Encrypted fernet t := by
  induction h with
  | nil => simp
  | cons hentry _ ih =>
    rw [List.cons_eq_cons, List.forall_mem_cons, ih]
    refine and_congr_left fun _ => ?_
    cases hentry with
    | @str k data token htext =>
      cases htext with
      | encrypted seed =>
        refine iff_of_false ?_ fun h => h _ rfl ⟨seed, data, rfl⟩
        simp only [Prod.mk.injEq, Value.str.injEq, true_and]
        exact fernet.encrypt_ne seed data
      | legacy hlegacy =>
        refine iff_of_true rfl ?_
        rintro _ ⟨⟩
        exact hlegacy
    | dict k entries => exact iff_of_true rfl nofun
    | other k o => exact iff_of_true rfl nofun

/-- A dictionary is decrypted if what is not encrypted comes last, and only then. -/
theorem decryptEntries_eq_iff {entries stored : Fields O}
    (h : List.Forall₂ (StoredEntry fernet) entries stored) :
    decryptEntries fernet stored = entries ↔ LegacyLast fernet stored := by
  induction h with
  | nil => exact iff_of_true rfl .nil
  | @cons m m' entries stored hentry hentries ih =>
    rw [LegacyLast, List.pairwise_cons]
    cases hentry with
    | @str k data token htext =>
      cases htext with
      | encrypted seed =>
        rw [decryptEntries, fernet.decrypt_encrypt, List.cons_eq_cons, ih]
        refine and_congr_left fun _ => iff_of_true rfl ?_
        rintro m - _ t ⟨⟩ hs
        exact absurd ⟨seed, data, rfl⟩ hs
      | legacy hlegacy =>
        -- the loop ends here
        rw [decryptEntries, decrypt_of_not_encrypted hlegacy, List.cons_eq_cons,
          eq_iff_of_storedEntries hentries]
        constructor
        · rintro ⟨-, hrest⟩
          refine ⟨fun m hm _ t _ _ ht => hrest m hm t ht, ?_⟩
          exact List.pairwise_of_forall_mem_list fun _ _ m hm _ t _ _ ht => hrest m hm t ht
        · exact fun hlast => ⟨rfl, fun m hm t ht => hlast.1 m hm _ t rfl hlegacy ht⟩
    | dict k nested =>
      rw [decryptEntries, List.cons_eq_cons, ih]
      · exact and_congr_left fun _ => iff_of_true rfl nofun
      · exact nofun
    | other k o =>
      rw [decryptEntries, List.cons_eq_cons, ih]
      · exact and_congr_left fun _ => iff_of_true rfl nofun
      · exact nofun

/-- A designated value is decrypted if it is not a dictionary, or one in which what is not
    encrypted comes last. -/
theorem decryptValue_eq_iff {value stored : Value O} (h : StoredValue fernet value stored) :
    decryptValue fernet stored = value ↔
      ∀ entries, stored = .dict entries → LegacyLast fernet entries := by
  cases h with
  | @str data token htext =>
    refine iff_of_true ?_ nofun
    cases htext with
    | encrypted seed => rw [decryptValue, fernet.decrypt_encrypt]
    | legacy hlegacy => rw [decryptValue, decrypt_of_not_encrypted hlegacy]
  | dict hentries =>
    rw [decryptValue, Value.dict.injEq, decryptEntries_eq_iff hentries]
    simp only [Value.dict.injEq, forall_eq']
  | other o => exact iff_of_true rfl nofun

/-! ## Payloads -/

theorem keys_assign_of_lookup {data : Fields O} {n : String} {v : Value O}
    (h : data.lookup n = some v) (w : Value O) :
    (assign n w data).map Prod.fst = data.map Prod.fst := by
  rw [keys_assign, if_pos (List.mem_map_of_mem (mem_of_lookup h))]

/-- The fields, and the values of those that are not named, stay. -/
theorem amendFields_spec (f : String → Value O → Value O) {names : List String}
    (hnames : names.Nodup) (data : Fields O) :
    (amendFields f names data).map Prod.fst = data.map Prod.fst ∧
      ∀ k, (amendFields f names data).lookup k =
        if k ∈ names then (data.lookup k).map (f k) else data.lookup k := by
  induction names generalizing data with
  | nil => exact ⟨rfl, fun k => (if_neg List.not_mem_nil).symm⟩
  | cons n ns ih =>
    rw [List.nodup_cons] at hnames
    rw [amendFields, List.foldl_cons, ← amendFields]
    rcases hv : data.lookup n with _ | v
    · obtain ⟨hkeys, hlookup⟩ := ih hnames.2 data
      refine ⟨hkeys, fun k => ?_⟩
      rw [hlookup k]
      by_cases hk : k = n
      · simp [hk, hnames.1, hv]
      · simp [hk]
    · obtain ⟨hkeys, hlookup⟩ := ih hnames.2 (assign n (f n v) data)
      refine ⟨hkeys.trans (keys_assign_of_lookup hv _), fun k => ?_⟩
      rw [hlookup k, lookup_assign]
      by_cases hk : k = n
      · simp [hk, hnames.1, hv]
      · simp [hk, Ne.symm hk]

/-- Decrypting a payload fails if a field is not there, and only then. -/
theorem decryptFields_eq {names : List String} {data : Fields O}
    (h : ∀ n ∈ names, n ∈ data.map Prod.fst) :
    decryptFields fernet names data =
      .ok (amendFields (fun _ => decryptValue fernet) names data) := by
  induction names generalizing data with
  | nil => rfl
  | cons n ns ih =>
    rw [List.forall_mem_cons] at h
    rw [decryptFields, List.foldlM_cons, amendFields, List.foldl_cons]
    rcases hv : data.lookup n with _ | v
    · exact absurd h.1 (lookup_eq_none.1 hv)
    · exact @ih (assign n (decryptValue fernet v) data)
        (keys_assign_of_lookup hv _ ▸ h.2)

theorem mem_keys_of_decryptFields {names : List String} {data out : Fields O}
    (h : decryptFields fernet names data = .ok out) : ∀ n ∈ names, n ∈ data.map Prod.fst := by
  induction names generalizing data with
  | nil => exact fun n hn => absurd hn List.not_mem_nil
  | cons n ns ih =>
    rw [decryptFields, List.foldlM_cons] at h
    rcases hv : data.lookup n with _ | v
    · rw [hv] at h
      cases h
    · rw [hv] at h
      have hns := @ih (assign n (decryptValue fernet v) data) h
      rw [keys_assign_of_lookup hv] at hns
      exact List.forall_mem_cons.2 ⟨List.mem_map_of_mem (mem_of_lookup hv), hns⟩

theorem Stored.keys_eq {names : List String} {plain stored : Fields O}
    (h : Stored fernet names plain stored) : stored.map Prod.fst = plain.map Prod.fst := by
  induction h with
  | nil => rfl
  | cons hm _ ih => rw [List.map_cons, List.map_cons, hm.1, ih]

theorem Stored.lookup {names : List String} {plain stored : Fields O}
    (h : Stored fernet names plain stored) (k : String) :
    Option.Rel (fun v s => (k ∈ names → StoredValue fernet v s) ∧ (k ∉ names → s = v))
      (plain.lookup k) (stored.lookup k) := by
  induction h with
  | nil => exact .none
  | @cons m m' _ _ hm _ ih =>
    rw [lookup_cons_eq, lookup_cons_eq, hm.1]
    by_cases hk : m.1 = k
    · rw [if_pos hk, if_pos hk]
      exact .some (hk ▸ hm.2)
    · rw [if_neg hk, if_neg hk]
      exact ih

/-- Decrypting gives the payload back when it does so for each designated field. -/
theorem decryptFields_eq_ok {names : List String} (hnames : names.Nodup)
    {plain stored : Fields O} (hkeys : (plain.map Prod.fst).Nodup)
    (hmem : ∀ n ∈ names, n ∈ plain.map Prod.fst)
    (hsame : stored.map Prod.fst = plain.map Prod.fst) :
    decryptFields fernet names stored = .ok plain ↔ ∀ k, plain.lookup k =
      if k ∈ names then (stored.lookup k).map (decryptValue fernet) else stored.lookup k := by
  obtain ⟨hkeys', hlookup⟩ := amendFields_spec (fun _ => decryptValue fernet) hnames stored
  rw [decryptFields_eq (hsame ▸ hmem), Except.ok.injEq]
  constructor
  · rintro rfl
    exact hlookup
  · intro h
    refine ext_of_lookup (hkeys'.trans hsame) (hkeys' ▸ hsame ▸ hkeys) fun k _ => ?_
    rw [hlookup, h]

theorem decryptEntries_encryptEntry (seed : Option String → Seed) (entries : Fields O) :
    decryptEntries fernet (entries.map (encryptEntry fernet seed)) = entries := by
  induction entries with
  | nil => rfl
  | cons m entries ih =>
    obtain ⟨k, v | nested | o⟩ := m
    · rw [List.map_cons, encryptEntry, decryptEntries, fernet.decrypt_encrypt, ih]
    all_goals exact congrArg (List.cons _) ih

theorem decryptValue_encryptValue (seed : Option String → Seed) (value : Value O) :
    decryptValue fernet (encryptValue fernet seed value) = value := by
  rcases value with data | entries | o
  · rw [encryptValue, decryptValue, fernet.decrypt_encrypt]
  · rw [encryptValue, decryptValue, decryptEntries_encryptEntry]
  · rfl

/-- What is encrypted is decrypted to the payload. -/
theorem decryptFields_encryptFields (seed : String → Option String → Seed) {names : List String}
    (hnames : names.Nodup) {plain : Fields O} (hkeys : (plain.map Prod.fst).Nodup)
    (hmem : ∀ n ∈ names, n ∈ plain.map Prod.fst) :
    decryptFields fernet names (encryptFields fernet seed names plain) = .ok plain := by
  obtain ⟨hsame, hlookup⟩ :=
    amendFields_spec (fun field => encryptValue fernet (seed field)) hnames plain
  refine (decryptFields_eq_ok hnames hkeys hmem hsame).2 fun k => ?_
  rw [hlookup k]
  split_ifs
  · rw [Option.map_map]
    rcases plain.lookup k with _ | v
    · rfl
    · exact congrArg some (decryptValue_encryptValue (seed k) v).symm
  · rfl

/-- The designated fields being there, what is stored of them is decrypted if no dictionary among
    them has an encrypted string after one that is not, and only then. -/
theorem decryptFields_stored {names : List String} (hnames : names.Nodup)
    {plain stored : Fields O} (hkeys : (plain.map Prod.fst).Nodup)
    (h : Stored fernet names plain stored) (hmem : ∀ n ∈ names, n ∈ plain.map Prod.fst) :
    decryptFields fernet names stored = .ok plain ↔ ∀ n ∈ names, ∀ entries,
      stored.lookup n = some (.dict entries) → LegacyLast fernet entries := by
  rw [decryptFields_eq_ok hnames hkeys hmem h.keys_eq]
  refine forall_congr' fun k => ?_
  have hrel := h.lookup k
  generalize plain.lookup k = v, stored.lookup k = s at hrel
  cases hrel with
  | none => simp
  | @some v s hvs =>
    by_cases hk : k ∈ names
    · have hvalue := decryptValue_eq_iff (hvs.1 hk)
      rw [eq_comm] at hvalue
      simpa [hk] using hvalue
    · simp [hk, hvs.2 hk]

/-- What is stored, some of it encrypted and some not, is decrypted to the payload if and only
    if each designated field is there, and no dictionary among them has an encrypted string after
    one that is not. What `encryptFields` stores always is. -/
theorem decryptFields_eq_ok_iff (fernet : Fernet Seed) {names : List String}
    (hnames : names.Nodup) {plain stored : Fields O} (hkeys : (plain.map Prod.fst).Nodup)
    (h : Stored fernet names plain stored) :
    (decryptFields fernet names stored = .ok plain ↔ (∀ n ∈ names, n ∈ plain.map Prod.fst) ∧
      ∀ n ∈ names, ∀ entries, stored.lookup n = some (.dict entries) →
        LegacyLast fernet entries) ∧
    ∀ seed, (∀ n ∈ names, n ∈ plain.map Prod.fst) →
      decryptFields fernet names (encryptFields fernet seed names plain) = .ok plain := by
  refine ⟨⟨fun hok => ?_, fun hc => (decryptFields_stored hnames hkeys h hc.1).2 hc.2⟩,
    fun seed hmem => decryptFields_encryptFields seed hnames hkeys hmem⟩
  have hmem := h.keys_eq ▸ mem_keys_of_decryptFields hok
  exact ⟨hmem, (decryptFields_stored hnames hkeys h hmem).1 hok⟩

/-- A Fernet whose tokens are the texts after a mark. -/
def marking : Fernet Unit where
  encrypt _ data := .ofList ('g' :: data.toList)
  decrypt token :=
    match token.toList with
    | 'g' :: data => some (.ofList data)
    | _ => none
  decrypt_encrypt _ data := by simp
  decrypt_other token h := by
    split
    · next data hdata =>
      refine absurd ?_ (h () (.ofList data))
      rw [String.toList_ofList, ← hdata, String.ofList_toList]
    · rfl
  encrypt_ne _ data h := by
    have hlength := congrArg (fun s => s.toList.length) h
    simp at hlength

theorem not_encrypted_marking : ¬Encrypted marking "1" := by
  rintro ⟨seed, data, h⟩
  have hlist := congrArg String.toList h
  simp [marking] at hlist

/-- An environment, the token in it encrypted, and what else there is not. -/
def environment (token : String) : Fields Unit :=
  [("server", .other ()), ("env", .dict [("TOKEN", .str token), ("DEBUG", .str "1")])]

theorem decryptFields_environment :
    (decryptFields marking ["env"] (environment "gsecret") = .ok (environment "secret") ↔
      (∀ n ∈ ["env"], n ∈ (environment "secret").map Prod.fst) ∧
      ∀ n ∈ ["env"], ∀ entries, (environment "gsecret").lookup n = some (.dict entries) →
        LegacyLast marking entries) ∧
    ∀ seed, (∀ n ∈ ["env"], n ∈ (environment "secret").map Prod.fst) →
      decryptFields marking ["env"] (encryptFields marking seed ["env"] (environment "secret")) =
        .ok (environment "secret") := by
  refine decryptFields_eq_ok_iff marking (by decide) (by decide) (.cons ⟨rfl, ?_, fun _ => rfl⟩
    (.cons ⟨rfl, fun _ => .dict (.cons (.str (.encrypted ()))
      (.cons (.str (.legacy not_encrypted_marking)) .nil)), ?_⟩ .nil))
  · exact fun h => absurd h (by decide)
  · exact fun h => absurd (List.mem_singleton_self _) h

/-- An environment in which what is not encrypted comes first. -/
def mixedEnvironment (token : String) : Fields Unit :=
  [("env", .dict [("DEBUG", .str "1"), ("TOKEN", .str token)])]

theorem decryptFields_mixedEnvironment :
    ¬∀ (names : List String) (plain stored : Fields Unit), names.Nodup →
      (plain.map Prod.fst).Nodup → (∀ n ∈ names, n ∈ plain.map Prod.fst) →
      Stored marking names plain stored → decryptFields marking names stored = .ok plain := by
  intro h
  have hstored : Stored marking ["env"] (mixedEnvironment "secret") (mixedEnvironment "gsecret") :=
    .cons ⟨rfl, fun _ => .dict (.cons (.str (.legacy not_encrypted_marking))
      (.cons (.str (.encrypted ())) .nil)), fun h => absurd (List.mem_singleton_self _) h⟩ .nil
  have hok := h ["env"] (mixedEnvironment "secret") (mixedEnvironment "gsecret") (by decide)
    (by decide) (by decide) hstored
  have hlast := (decryptFields_stored (by decide) (by decide) hstored (by decide)).1 hok "env"
    (List.mem_singleton_self _) _ rfl
  exact (List.pairwise_cons.1 hlast).1 _ (List.mem_singleton_self _) _ _ rfl
    not_encrypted_marking rfl ⟨(), "secret", rfl⟩

end Hyperforge.Database.Encryption
