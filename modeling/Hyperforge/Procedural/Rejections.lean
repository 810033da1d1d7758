import Hyperforge.Library.Json.Pretty
import Hyperforge.Procedural.Leakage

/-!
# The rejection memory

What the refiner is told about the rejections, serialized as the source does (`dumpSummaries`): of
the last ones, those that are chosen greedily from the newest to the oldest (`Greedy`), within a
budget. What is written of some summaries is never longer than what is written of more, so that
none that is left out could have been added to the others (`rejection_memory`).
-/

namespace Hyperforge.Evolution

open Json hiding Tree

/-! ## Greedy choice -/

section Greedy

variable {α : Type*}

/-- Of the candidates, from the last to the first, each is chosen if it fits in front of those
    chosen before. -/
inductive Greedy (fits : List α → Prop) : List α → List α → Prop
  | nil : Greedy fits [] []
  | take {candidates chosen x} : Greedy fits candidates chosen → fits (x :: chosen) →
      Greedy fits (x :: candidates) (x :: chosen)
  | skip {candidates chosen x} : Greedy fits candidates chosen → ¬fits (x :: chosen) →
      Greedy fits (x :: candidates) chosen

variable {fits : List α → Prop} {candidates chosen : List α}

theorem Greedy.sublist (h : Greedy fits candidates chosen) : chosen.Sublist candidates := by
  induction h with
  | nil => exact .slnil
  | take _ _ ih => exact ih.cons_cons _
  | skip _ _ ih => exact ih.cons _

theorem Greedy.nil_or (h : Greedy fits candidates chosen) : chosen = [] ∨ fits chosen := by
  induction h with
  | nil => exact .inl rfl
  | take _ hx _ => exact .inr hx
  | skip _ _ ih => exact ih

/-- What is chosen of the last candidates stands last. -/
theorem Greedy.of_append {older newer : List α} (h : Greedy fits (older ++ newer) chosen) :
    ∃ a c, chosen = a ++ c ∧ a.Sublist older ∧ Greedy fits newer c := by
  induction older generalizing chosen with
  | nil => exact ⟨[], chosen, rfl, .slnil, h⟩
  | cons x older ih =>
    cases h with
    | take h _ =>
      obtain ⟨a, c, rfl, ha, hc⟩ := ih h
      exact ⟨x :: a, c, rfl, ha.cons_cons x, hc⟩
    | skip h _ =>
      obtain ⟨a, c, rfl, ha, hc⟩ := ih h
      exact ⟨a, c, rfl, ha.cons x, hc⟩

/-- If less fits where more does, what is left out does not fit into the whole choice. -/
theorem Greedy.maximal (hmono : ∀ l l' : List α, l.Sublist l' → fits l' → fits l)
    {older newer : List α} {x : α} (h : Greedy fits (older ++ x :: newer) chosen) :
    ∃ a c, Greedy fits newer c ∧ a.Sublist older ∧
      (chosen = a ++ x :: c ∨ chosen = a ++ c ∧ ¬fits (x :: c) ∧ ¬fits (a ++ x :: c)) := by
  obtain ⟨a, c, rfl, ha, hc⟩ := h.of_append
  cases hc with
  | @take _ c _ hc _ => exact ⟨a, c, hc, ha, .inl rfl⟩
  | skip hc hx =>
    exact ⟨a, c, hc, ha, .inr ⟨rfl, hx, fun h => hx (hmono _ _ (List.sublist_append_right _ _) h)⟩⟩

end Greedy

/-! ## Serialization -/

variable {J S R P F : Type}

def Phase.text : Phase → String
  | training => "training"
  | refiner => "refiner"
  | proposal => "proposal"

def Reason.text : Reason → String
  | error phase => phase.text ++ "_error"
  | validationError => "validation_error"
  | validationWorse => "validation_worse"
  | validationNotWorse => "validation_not_worse"

section Text

variable (φ : FloatFormat F) (ofValue : J → Json.Tree F) (ofScore : S → Json.Tree F)

def ofOptional {α : Type} (f : α → Json.Tree F) : Option α → Json.Tree F
  | none => .null
  | some x => f x

def ofString (s : String) : Json.Tree F := .str (.ofString s)

/-- The dictionary of a summary. -/
def Summary.tree (s : Summary J S) : Json.Tree F :=
  .obj ([(.ofString "round", .int s.round),
    (.ofString "reason", ofString s.reason.text),
    (.ofString "retained_score", ofScore s.retainedScore),
    (.ofString "candidate_score", ofOptional ofScore s.candidateScore),
    (.ofString "edits", ofOptional ofValue s.edits),
    (.ofString "candidate_fingerprint", ofOptional ofString s.candidateFingerprint)] ++
    s.structuralDiagnostic.toList.map fun e => (.ofString "structural_diagnostic", ofString e))

/-- The text of a value: in ASCII, with sorted keys, indented by two spaces. -/
def jsonDumps (x : Json.Tree F) : Str := x.sortKeys.pretty φ ascii 2 0

def dumpSummaries (l : List (Summary J S)) : Str :=
  jsonDumps φ (.arr (l.map (·.tree ofValue ofScore)))

/-- The environment in which summaries are serialized so, unless it fails. -/
def Env.withDumps (env : Env J S R P) (fails : List (Summary J S) → Option Exc) : Env J S R P :=
  { env with
    json := fun
      | .summaries l => match fails l with
        | some e => .error e
        | none => .ok (String.ofList ((characters (dumpSummaries φ ofValue ofScore l)).getD []))
      | doc => env.json doc }

end Text

variable {φ : FloatFormat F} {ofValue : J → Json.Tree F} {ofScore : S → Json.Tree F}

variable (φ ofValue ofScore) in
/-- What is written of some summaries is not longer than what is written of all. -/
theorem length_dumpSummaries_le {l l' : List (Summary J S)} (h : l.Sublist l') :
    (dumpSummaries φ ofValue ofScore l).length ≤ (dumpSummaries φ ofValue ofScore l').length := by
  rw [dumpSummaries, dumpSummaries, jsonDumps, jsonDumps, Json.Tree.sortKeys, Json.Tree.sortKeys,
    sortItems_eq_map, sortItems_eq_map]
  exact length_pretty_arr_le ((h.map _).map _)

theorem json_withDumps {env : Env J S R P} {fails : List (Summary J S) → Option Exc}
    {l : List (Summary J S)} {text : String}
    (h : (env.withDumps φ ofValue ofScore fails).json (.summaries l) = .ok text) :
    text.length = (dumpSummaries φ ofValue ofScore l).length := by
  change (match fails l with | some e => _ | none => _) = _ at h
  cases hf : fails l with
  | some e =>
    rw [hf] at h
    cases h
  | none =>
    rw [hf] at h
    cases h
    obtain ⟨cs, hcs⟩ := exists_pretty_ascii φ 2
      (Json.Tree.arr (l.map (·.tree ofValue ofScore))).sortKeys
    rw [dumpSummaries, jsonDumps, hcs, characters_eq_some.2 rfl, Option.getD_some,
      String.length_ofList, chars, List.length_map]

/-! ## Selection -/

section Selection

variable {env : Env J S R P} {cfg : Config J} {fails : List (Summary J S) → Option Exc}

variable (φ ofValue ofScore) in
/-- The budget of the rejection memory. -/
def FitsBudget (cfg : Config J) (l : List (Summary J S)) : Prop :=
  ((dumpSummaries φ ofValue ofScore l).length : ℤ) ≤ cfg.maxRejectionChars

/-- Going on with older rejections. -/
theorem greedy_selectSummaries {rejected : List (Record J S)}
    {newer summaries l : List (Summary J S)}
    (h : Greedy (FitsBudget φ ofValue ofScore cfg) newer summaries)
    (hl : selectSummaries (env.withDumps φ ofValue ofScore fails) cfg rejected summaries = .ok l) :
    Greedy (FitsBudget φ ofValue ofScore cfg) ((rejected.map summary).reverse ++ newer) l := by
  induction rejected generalizing newer summaries with
  | nil =>
    cases hl
    exact h
  | cons r rejected ih =>
    simp only [selectSummaries, Crash.bind_eq_ok] at hl
    obtain ⟨text, htext, hl⟩ := hl
    have hlen := json_withDumps htext
    rw [List.map_cons, List.reverse_cons, List.append_assoc, List.singleton_append]
    split_ifs at hl with hfits
    · exact ih (h.take (by rwa [FitsBudget, ← hlen])) hl
    · exact ih (h.skip (by rwa [FitsBudget, ← hlen])) hl

theorem greedy_rejectionMemory {rejections : List (Record J S)} {l : List (Summary J S)}
    (h : rejectionMemory (env.withDumps φ ofValue ofScore fails) cfg rejections = .ok l) :
    Greedy (FitsBudget φ ofValue ofScore cfg)
      ((lastN cfg.rejectionMemoryLimit.toNat rejections).map summary) l := by
  have hg := greedy_selectSummaries .nil h
  rwa [List.map_reverse, List.reverse_reverse, List.append_nil] at hg

end Selection

/-! ## Runs -/

/-- What the refiner is told about the rejections so far. -/
structure Remembered (fits : List (Summary J S) → Prop) (candidates chosen : List (Summary J S)) :
    Prop where
  /-- Some of the candidates, in their order. -/
  sublist : chosen.Sublist candidates
  /-- The budget is kept. -/
  budget : chosen = [] ∨ fits chosen
  /-- The newest that fit are preferred. -/
  greedy : Greedy fits candidates chosen
  /-- Each candidate has been chosen, or fits neither in front of those chosen of the
      newer ones nor into the whole. -/
  maximal : ∀ older x newer, candidates = older ++ x :: newer →
    ∃ a c, Greedy fits newer c ∧ a.Sublist older ∧
      (chosen = a ++ x :: c ∨ chosen = a ++ c ∧ ¬fits (x :: c) ∧ ¬fits (a ++ x :: c))

theorem Greedy.remembered {cfg : Config J} {candidates chosen : List (Summary J S)}
    (h : Greedy (FitsBudget φ ofValue ofScore cfg) candidates chosen) :
    Remembered (FitsBudget φ ofValue ofScore cfg) candidates chosen := by
  refine ⟨h.sublist, h.nil_or, h, ?_⟩
  rintro older x newer rfl
  refine h.maximal fun l l' hl hfits => ?_
  have hle := length_dumpSummaries_le φ ofValue ofScore hl
  exact (Int.ofNat_le.2 hle).trans hfits

section Calls

variable {env : Env J S R P} {cfg : Config J}

/-- The rejections the refiner is told about are those of the boundary. -/
theorem rejectionMemory_of_propose {st : LoopState J S} {roundId : ℕ}
    {history : List (RefinerArgs J S)} {args : RefinerArgs J S}
    (h : (propose env cfg st roundId history).refinerCall = some args) :
    rejectionMemory env cfg st.rejections = .ok args.rejections := by
  have hargs : ∃ traces, refinerArgs env cfg st traces = .ok args := by
    refine ⟨(evaluate env (.training roundId) st.retained (batch cfg st)).traces, ?_⟩
    rw [propose] at h
    split at h
    · cases h
    split at h
    · cases h
    rename_i args' hargs
    rw [hargs]
    split at h
    · cases h
      rfl
    split at h <;> (cases h; rfl)
  obtain ⟨traces, hargs⟩ := hargs
  simp only [refinerArgs, Crash.bind_eq_ok] at hargs
  obtain ⟨_, _, _, _, l, hl, hargs⟩ := hargs
  cases hargs
  exact hl

variable [LE S] [DecidableLE S] {graph : ProceduralGraph} {score : S}

/-- A call of the refiner is that of a round. -/
theorem exists_of_history {n : ℕ} {before after : List (RefinerArgs J S)} {args : RefinerArgs J S}
    (h : (boundaryAt env cfg graph score n).history = before ++ args :: after) :
    ∃ i < n, (boundaryAt env cfg graph score i).history = before ∧
      (proposed env cfg (i + 1) (boundaryAt env cfg graph score i)).refinerCall = some args := by
  induction n generalizing after with
  | zero => exact absurd (List.append_eq_nil_iff.1 h.symm).2 (List.cons_ne_nil _ _)
  | succ n ih =>
    rw [boundaryAt_succ, next] at h
    change _ ++ _ = _ at h
    cases hcall : (proposed env cfg (n + 1) (boundaryAt env cfg graph score n)).refinerCall with
    | none =>
      rw [hcall, Option.toList_none, List.append_nil] at h
      obtain ⟨i, hi, h⟩ := ih h
      exact ⟨i, by omega, h⟩
    | some args' =>
      rw [hcall, Option.toList_some] at h
      rcases List.eq_nil_or_concat after with rfl | ⟨after, last, rfl⟩
      · obtain ⟨hb, hargs⟩ := List.append_inj' h rfl
        cases hargs
        exact ⟨n, by omega, hb, hcall⟩
      · have hlast : before ++ args :: after.concat last = (before ++ args :: after) ++ [last] := by
          simp
        obtain ⟨hb, _⟩ := List.append_inj' (h.trans hlast) rfl
        obtain ⟨i, hi, h⟩ := ih hb
        exact ⟨i, by omega, h⟩

/-- The boundary before a call of the refiner, which has not received anything else since. -/
theorem exists_boundary {l : Log J S} {n : ℕ} {before after : List (RefinerArgs J S)}
    {args : RefinerArgs J S} (h : Progress env cfg graph score n l)
    (ha : Asked env cfg graph score n l) (hcalls : l.refinerCalls = before ++ args :: after) :
    ∃ i b, l.boundaries[i]? = some b ∧ b.history = before ∧
      (∀ b', l.boundaries[i + 1]? = some b' → b'.history = before ++ [args]) ∧
      rejectionMemory env cfg b.rejections = .ok args.rejections := by
  obtain ⟨m, hm, hl⟩ := ha.exists
  obtain ⟨i, hi, hb, hcall⟩ := exists_of_history (hl.symm.trans hcalls)
  have hget (j : ℕ) (hj : j < n + 1) :
      l.boundaries[j]? = some (boundaryAt env cfg graph score j) := by
    rw [h.boundaries, List.getElem?_map, List.getElem?_range hj, Option.map_some]
  refine ⟨i, _, hget i (by omega), hb, fun b' hb' => ?_, rejectionMemory_of_propose hcall⟩
  have hlt : i + 1 < n + 1 := by
    obtain ⟨hlt, _⟩ := List.getElem?_eq_some_iff.1 hb'
    rwa [h.boundaries, List.length_map, List.length_range] at hlt
  rw [hget _ hlt] at hb'
  cases hb'
  rw [boundaryAt_succ, next, hcall, hb, Option.toList_some]

end Calls

/-- Whatever the rejections so far, the memory is chosen greedily from the summaries of the last
    ones, within the budget. In every run it is what each call of the refiner has received: the
    memory of the rejections at the boundary before its round. -/
theorem rejection_memory [LE S] [DecidableLE S] (env : Env J S R P) (cfg : Config J)
    (φ : FloatFormat F) (ofValue : J → Json.Tree F) (ofScore : S → Json.Tree F)
    (fails : List (Summary J S) → Option Exc) (initialGraph : GraphData) (outputExists : Bool)
    (fault : ℕ → Option Exc) :
    (∀ rejections memory,
      rejectionMemory (env.withDumps φ ofValue ofScore fails) cfg rejections = .ok memory →
      Remembered (FitsBudget φ ofValue ofScore cfg)
        ((lastN cfg.rejectionMemoryLimit.toNat rejections).map summary) memory) ∧
    ∀ before args after,
      (finalLog (env.withDumps φ ofValue ofScore fails) cfg initialGraph outputExists
        fault).refinerCalls = before ++ args :: after →
      ∃ i b, (finalLog (env.withDumps φ ofValue ofScore fails) cfg initialGraph outputExists
          fault).boundaries[i]? = some b ∧
        b.history = before ∧
        (∀ b', (finalLog (env.withDumps φ ofValue ofScore fails) cfg initialGraph outputExists
          fault).boundaries[i + 1]? = some b' → b'.history = before ++ [args]) ∧
        Remembered (FitsBudget φ ofValue ofScore cfg)
          ((lastN cfg.rejectionMemoryLimit.toNat b.rejections).map summary) args.rejections := by
  have hmemory (rejections : List (Record J S)) (memory : List (Summary J S))
      (h : rejectionMemory (env.withDumps φ ofValue ofScore fails) cfg rejections = .ok memory) :
      Remembered (FitsBudget φ ofValue ofScore cfg)
        ((lastN cfg.rejectionMemoryLimit.toNat rejections).map summary) memory :=
    (greedy_rejectionMemory h).remembered
  refine ⟨hmemory, fun before args after hcalls => ?_⟩
  rcases tracks_finalLog (env.withDumps φ ofValue ofScore fails) cfg initialGraph outputExists
    fault with ⟨_, hr⟩ | ⟨graph, m, score, _, _, n, hpr, ha⟩
  · rw [hr] at hcalls
    exact absurd (List.append_eq_nil_iff.1 hcalls.symm).2 (List.cons_ne_nil _ _)
  · obtain ⟨i, b, hb, hhistory, hnext, hm⟩ := exists_boundary hpr ha hcalls
    exact ⟨i, b, hb, hhistory, hnext, hmemory _ _ hm⟩

end Hyperforge.Evolution
