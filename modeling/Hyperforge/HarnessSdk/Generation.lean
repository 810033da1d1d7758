import Hyperforge.Library.Json
import Hyperforge.Procedural.Graph

/-!
# Retried generations

The chunks of a chat completion come from a stream that may fail after any of its messages, by a
message that reports an error, or with an exception (`Attempt`). `NucliaChatCompletionsClient`
tries again while an attempt fails before its first chunk, with an error that may be transient.

* `stream_neverMixes_iff`: what is yielded is of one attempt, what is raised of the last, and an
  attempt is made only after one that has yielded nothing, if and only if no attempt that is
  made fails with an error whose status cannot be compared with numbers.
-/

namespace Hyperforge.HarnessSdk

open Json hiding Tree

variable {F Chunk : Type}

/-- What is asked of a float. -/
structure FloatTests (F : Type) where
  isZero : F → Bool
  /-- It is 408 or 429, or from 500 on and less than 600. -/
  isTransient : F → Bool

/-! ## Errors -/

/-- A `RequestError` of the transport, or an `HTTPStatusError`, which has a response. -/
structure RequestException where
  type : String
  url : String
  text : String
  repr : String
  response : Option (ℤ × String)

/-- A `NucliaChatCompletionsError`. -/
structure CompletionsError (F : Type) where
  message : Json.Tree F
  providerData : List (Str × Json.Tree F)

/-- An exception. -/
inductive Raised (F : Type)
  | error (e : CompletionsError F)
  | other (type text : String)

/-- What a stream fails with. -/
inductive StreamFailure (F : Type)
  | request (exc : RequestException)
  | raised (e : Raised F)

/-- `str.strip` -/
def strip (s : String) : String :=
  String.ofList (((s.toList.dropWhile isSpace).reverse.dropWhile isSpace).reverse)

def orNull (f : String → Json.Tree F) (s : String) : Json.Tree F := if s = "" then .null else f s

def jsonString (s : String) : Json.Tree F := .str (.ofString s)

def requestErrorDetail (exc : RequestException) : String × List (Str × Json.Tree F) :=
  let responseBody := match exc.response with
    | none => ""
    | some (_, text) => String.ofList ((strip text).toList.take 2000)
  let detail := if strip exc.text = "" then exc.repr else strip exc.text
  let parts := [exc.type ++ " for " ++ exc.url] ++
    (exc.response.toList.map fun r => "status=" ++ toString r.1) ++
    (if responseBody = "" then [] else ["response=" ++ responseBody]) ++ ["error=" ++ detail]
  ("; ".intercalate parts,
    [(.ofString "http_status", match exc.response with | none => .null | some r => .int r.1),
      (.ofString "url", jsonString exc.url),
      (.ofString "response_body", orNull jsonString responseBody),
      (.ofString "error_type", jsonString exc.type),
      (.ofString "error", jsonString detail)])

/-- The exception that is dealt with, or goes through. -/
def StreamFailure.caught : StreamFailure F → Raised F
  | .request exc => .error ⟨jsonString ("Nuclia chat completions request failed: " ++
      (requestErrorDetail (F := F) exc).1), (requestErrorDetail exc).2⟩
  | .raised e => e

/-! ## Attempts -/

/-- The messages of a stream, and what it fails with after them. -/
structure Attempt (F : Type) where
  messages : List (Json.Tree F)
  failure : Option (StreamFailure F)

variable (tests : FloatTests F) (validate : Json.Tree F → Except (String × String) Chunk)

/-- Python's truth of a value. -/
def truthy : Json.Tree F → Bool
  | .null => false
  | .bool b => b
  | .int i => i ≠ 0
  | .float x => !tests.isZero x
  | .str s => s ≠ []
  | .arr items => !items.isEmpty
  | .obj members => !members.isEmpty

/-- A message that reports an error. -/
def reportsError (data : List (Str × Json.Tree F)) : Bool :=
  (match data.lookup (.ofString "type") with
    | some (.str s) => s = .ofString "status"
    | _ => false) &&
  match data.lookup (.ofString "code") with
    | some (.str s) => s = .ofString "ERROR"
    | _ => false

def reportedError (data : List (Str × Json.Tree F)) : CompletionsError F where
  message := match data.lookup (.ofString "details") with
    | some details => if truthy tests details then details else jsonString "Generation failed"
    | none => jsonString "Generation failed"
  providerData := data

/-- The chunk of a message. -/
def readMessage : Json.Tree F → Except (Raised F) Chunk
  | .obj data =>
    if reportsError data then .error (.error (reportedError tests data))
    else (validate (.obj data)).mapError fun e => .other e.1 e.2
  | _ => .error (.other "AttributeError" "object has no attribute 'get'")

/-- The chunks of a stream, and what it fails with. -/
def readStream (failure : Option (StreamFailure F)) :
    List (Json.Tree F) → List Chunk × Option (Raised F)
  | [] => ([], failure.map StreamFailure.caught)
  | data :: messages =>
    match readMessage tests validate data with
    | .error e => ([], some e)
    | .ok chunk => (chunk :: (readStream failure messages).1, (readStream failure messages).2)

/-- What an attempt yields, and how it ends. -/
def Attempt.run (a : Attempt F) : List Chunk × Option (Raised F) :=
  readStream tests validate a.failure a.messages

/-- Whether a failure with such a status may be transient. -/
def retryable : Option (Json.Tree F) → Except (Raised F) Bool
  | none | some .null => .ok true
  | some (.bool _) => .ok false
  | some (.int i) => .ok (i = 408 ∨ i = 429 ∨ 500 ≤ i ∧ i < 600)
  | some (.float x) => .ok (tests.isTransient x)
  | some (.str _) =>
    .error (.other "TypeError" "'<=' not supported between instances of 'int' and 'str'")
  | some (.arr _) => .error (.other "TypeError" "unhashable type: 'list'")
  | some (.obj _) => .error (.other "TypeError" "unhashable type: 'dict'")

def CompletionsError.status (e : CompletionsError F) : Option (Json.Tree F) :=
  e.providerData.lookup (.ofString "http_status")

/-! ## Generations -/

/-- What is yielded, with the attempt it is from, the number of attempts that have been made, and
    what is raised. -/
structure Generation (F Chunk : Type) where
  yields : List (ℕ × Chunk)
  attempts : ℕ
  raised : Option (Raised F)

/-- The attempts from such ones on. -/
def streamFrom (attempts : ℕ → Attempt F) : List ℕ → Generation F Chunk
  | [] => ⟨[], 0, none⟩
  | attempt :: rest =>
    let (chunks, failure) := (attempts attempt).run tests validate
    let ended (raised : Option (Raised F)) : Generation F Chunk :=
      ⟨chunks.map fun chunk => (attempt, chunk), attempt, raised⟩
    match failure with
    | none => ended none
    | some (.other type text) => ended (some (.other type text))
    | some (.error error) =>
      match retryable tests error.status with
      | .error e => ended (some e)
      | .ok retry =>
        if chunks ≠ [] ∨ ¬retry ∨ attempt = 3 then ended (some (.error error))
        else streamFrom attempts rest

/-- `NucliaChatCompletionsClient.stream` -/
def stream (attempts : ℕ → Attempt F) : Generation F Chunk :=
  streamFrom tests validate attempts [1, 2, 3]

/-! ## One attempt -/

/-- The attempt fails before its first chunk, with an error that may be transient. -/
def Attempt.Transient (a : Attempt F) : Prop :=
  ∃ error, a.run tests validate = ([], some (.error error)) ∧
    retryable tests error.status = .ok true

/-- The attempt fails with an error whose status cannot be compared. -/
def Attempt.Incomparable (a : Attempt F) : Prop :=
  ∃ error e, (a.run tests validate).2 = some (.error error) ∧
    retryable tests error.status = .error e

/-- The attempts before this one have been transient. -/
def Made (attempts : ℕ → Attempt F) (k : ℕ) : Prop :=
  ∀ j, 1 ≤ j → j < k → (attempts j).Transient tests validate

/-- What is yielded is of one attempt, made after those that have yielded nothing, and ends as
    it does. -/
structure NeverMixes (attempts : ℕ → Attempt F) (g : Generation F Chunk) : Prop where
  atMost : 1 ≤ g.attempts ∧ g.attempts ≤ 3
  /-- The chunks of the first messages of an attempt. -/
  ofOne : ∃ k n, k ≤ g.attempts ∧ (∀ y ∈ g.yields, y.1 = k) ∧
    ((attempts k).messages.take n).mapM (readMessage tests validate) =
      .ok (g.yields.map Prod.snd)
  followed : ∀ k, 1 ≤ k → k < g.attempts → (attempts k).Transient tests validate
  ending : g.raised = ((attempts g.attempts).run tests validate).2

variable {tests validate} {attempts : ℕ → Attempt F} {k : ℕ} {rest : List ℕ}

variable (tests validate) in
/-- The chunks are those of the first messages. -/
theorem exists_take (failure : Option (StreamFailure F)) (messages : List (Json.Tree F)) :
    ∃ n, (messages.take n).mapM (readMessage tests validate) =
      .ok (readStream tests validate failure messages).1 := by
  induction messages with
  | nil => exact ⟨0, rfl⟩
  | cons data messages ih =>
    rw [readStream]
    cases h : readMessage tests validate data with
    | error e => exact ⟨0, rfl⟩
    | ok chunk =>
      obtain ⟨n, hn⟩ := ih
      exact ⟨n + 1, by rw [List.take_succ_cons, List.mapM_cons, h, hn]; rfl⟩

/-- The errors of an attempt that is not incomparable. -/
theorem Attempt.comparable {a : Attempt F} (h : ¬a.Incomparable tests validate)
    {error : CompletionsError F} (he : (a.run tests validate).2 = some (.error error)) :
    ∃ retry, retryable tests error.status = .ok retry := by
  cases hr : retryable tests error.status with
  | error e => exact absurd ⟨error, e, he, hr⟩ h
  | ok retry => exact ⟨retry, rfl⟩

/-- After a transient attempt there is another. -/
theorem streamFrom_transient (h : (attempts k).Transient tests validate) (hk : k ≠ 3) :
    streamFrom tests validate attempts (k :: rest) = streamFrom tests validate attempts rest := by
  obtain ⟨error, hrun, hretry⟩ := h
  rw [streamFrom, hrun]
  dsimp only
  rw [hretry]
  dsimp only
  rw [if_neg (by simp [hk])]

/-- An attempt that is not transient, or the third, is the last. -/
theorem streamFrom_last (h : ¬(attempts k).Transient tests validate ∨ k = 3)
    (hc : ¬(attempts k).Incomparable tests validate) :
    streamFrom tests validate attempts (k :: rest) =
      ⟨((attempts k).run tests validate).1.map fun chunk => (k, chunk), k,
        ((attempts k).run tests validate).2⟩ := by
  rw [streamFrom]
  cases hrun : (attempts k).run tests validate with
  | mk chunks failure =>
    rcases failure with _ | error | ⟨type, text⟩
    · rfl
    · obtain ⟨retry, hretry⟩ := Attempt.comparable hc (by rw [hrun])
      dsimp only
      rw [hretry]
      dsimp only
      rw [if_pos]
      rcases h with h | h
      · by_contra hnot
        simp only [ne_eq, not_or, Decidable.not_not] at hnot
        refine h ⟨error, ?_, ?_⟩
        · rw [hrun, hnot.1]
        · rw [hretry, hnot.2.1]
      · exact .inr (.inr h)
    · rfl

/-- What is raised for a status that cannot be compared is not an error of the completions. -/
theorem retryable_ne_error {status : Option (Json.Tree F)} {error : CompletionsError F} :
    retryable tests status ≠ .error (.error error) := by
  rcases status with _ | (_ | _ | _ | _ | _ | _ | _) <;> simp [retryable]

variable (rest) in
/-- A status that cannot be compared raises another exception. -/
theorem streamFrom_incomparable (hc : (attempts k).Incomparable tests validate) :
    (streamFrom tests validate attempts (k :: rest) : Generation F Chunk).attempts = k ∧
      (streamFrom tests validate attempts (k :: rest) : Generation F Chunk).raised ≠
        ((attempts k).run tests validate).2 := by
  obtain ⟨error, e, he, hretry⟩ := hc
  rw [streamFrom]
  cases hrun : (attempts k).run tests validate with
  | mk chunks failure =>
    rw [hrun] at he
    dsimp only at he
    rw [he]
    dsimp only
    rw [hretry]
    refine ⟨rfl, fun h => ?_⟩
    cases h
    exact retryable_ne_error hretry

/-! ## Generations -/

theorem Attempt.Transient.not_incomparable {a : Attempt F} (h : a.Transient tests validate) :
    ¬a.Incomparable tests validate := by
  rintro ⟨error, e, he, hretry⟩
  obtain ⟨error', hrun, hretry'⟩ := h
  rw [hrun] at he
  cases he
  rw [hretry] at hretry'
  cases hretry'

variable (tests validate) in
/-- Which attempt is the last. -/
theorem exists_last (attempts : ℕ → Attempt F) : ∃ k rest, 1 ≤ k ∧ k ≤ 3 ∧
    Made tests validate attempts k ∧ (¬(attempts k).Transient tests validate ∨ k = 3) ∧
    stream tests validate attempts = streamFrom tests validate attempts (k :: rest) := by
  have hmade (k : ℕ) (h : Made tests validate attempts k)
      (hk : (attempts k).Transient tests validate) : Made tests validate attempts (k + 1) := by
    intro j hj hlt
    rcases Nat.lt_succ_iff_lt_or_eq.1 hlt with hlt | rfl
    · exact h j hj hlt
    · exact hk
  have h₁ : Made tests validate attempts 1 := fun j hj hlt => by omega
  by_cases ht₁ : (attempts 1).Transient tests validate
  · by_cases ht₂ : (attempts 2).Transient tests validate
    · refine ⟨3, [], by omega, by omega, hmade 2 (hmade 1 h₁ ht₁) ht₂, .inr rfl, ?_⟩
      rw [stream, streamFrom_transient ht₁ (by decide), streamFrom_transient ht₂ (by decide)]
    · refine ⟨2, [3], by omega, by omega, hmade 1 h₁ ht₁, .inl ht₂, ?_⟩
      rw [stream, streamFrom_transient ht₁ (by decide)]
  · exact ⟨1, [2, 3], by omega, by omega, h₁, .inl ht₁, rfl⟩

/-- What a client yields and raises is of one attempt, the last, if and only if no attempt that is
    made, after transient ones, fails with an error whose status is a string, a list or a
    dictionary: then a `TypeError` is raised in its place. -/
theorem stream_neverMixes_iff (tests : FloatTests F)
    (validate : Json.Tree F → Except (String × String) Chunk) (attempts : ℕ → Attempt F) :
    NeverMixes tests validate attempts (stream tests validate attempts) ↔
      ∀ k, 1 ≤ k → k ≤ 3 → Made tests validate attempts k →
        ¬(attempts k).Incomparable tests validate := by
  obtain ⟨k, rest, hk, hk', hmade, hlast, hstream⟩ := exists_last tests
    validate attempts
  constructor
  · intro h k' hpos hle hmade' hc
    obtain rfl : k' = k := by
      rcases Nat.lt_trichotomy k' k with hlt | rfl | hlt
      · exact absurd hc (hmade k' hpos hlt).not_incomparable
      · rfl
      · rcases hlast with hnot | rfl
        · exact absurd (hmade' k hk hlt) hnot
        · omega
    obtain ⟨hattempts, hraised⟩ := streamFrom_incomparable rest hc
    have hending := h.ending
    rw [hstream, hattempts] at hending
    exact hraised hending
  · intro h
    rw [hstream, streamFrom_last hlast (h k hk hk' hmade)]
    refine ⟨⟨hk, hk'⟩, ?_, hmade, rfl⟩
    obtain ⟨n, hn⟩ := exists_take tests validate (attempts k).failure
      (attempts k).messages
    refine ⟨k, n, le_rfl, fun y hy => ?_, ?_⟩
    · obtain ⟨chunk, _, rfl⟩ := List.mem_map.1 hy
      rfl
    · rw [hn, List.map_map]
      exact congrArg _ (List.map_id _).symm

def statusReport : List (Str × Json.Tree Unit) :=
  [(.ofString "type", jsonString "status"), (.ofString "code", jsonString "ERROR"),
    (.ofString "details", jsonString "overloaded"), (.ofString "http_status", jsonString "503")]

/-- Every attempt reports an error whose status is a string. -/
def reportingAttempts (_ : ℕ) : Attempt Unit := ⟨[.obj statusReport], none⟩

def unitTests : FloatTests Unit := ⟨fun _ => true, fun _ => false⟩

theorem stream_reporting : ¬NeverMixes unitTests (fun x => .ok x) reportingAttempts
    (stream unitTests (fun x => .ok x) reportingAttempts) := by
  intro h
  have hending : some (Raised.other "TypeError"
      "'<=' not supported between instances of 'int' and 'str'") =
    some (Raised.error (reportedError unitTests statusReport)) := h.ending
  cases hending

end Hyperforge.HarnessSdk
