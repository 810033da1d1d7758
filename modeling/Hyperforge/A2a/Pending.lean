import Hyperforge.A2a.Feedback
import Hyperforge.A2a.Tenants

/-!
# What is pending for tasks

The store of pending feedback is, for each task, a record that is there or not, and the instance
that owns its execution (`Slots`), as long as no id of a task is that of another after `owner:`,
and Redis decodes the records that are written (`pendingRun_eq`).
-/

namespace Hyperforge.A2a

open Redis.Lasting
open Json hiding Tree

/-- What is pending for tasks, and their owners. -/
structure Slots where
  pending : Text → Option PendingTaskRecord := fun _ => none
  owner : Text → Option Text := fun _ => none

namespace Slots

/-- A call, with its outcome. A record is claimed if it is for the context and feedback. -/
def perform (T : Slots) : PendingCall → PendingOutcome × Slots
  | .saveOwner taskId id => (.done, { T with owner := Function.update T.owner taskId (some id) })
  | .getOwner taskId => (.owner ((T.owner taskId).map chars), T)
  | .removeOwner taskId => (.done, { T with owner := Function.update T.owner taskId none })
  | .savePending record =>
    (.done, { T with pending := Function.update T.pending record.taskId (some record) })
  | .getPending taskId => (.record (T.pending taskId), T)
  | .claimPending taskId contextId feedbackId =>
    match (T.pending taskId).filter
      fun r => r.contextId = contextId ∧ r.feedbackId = feedbackId with
    | none => (.record none, T)
    | some record =>
      (.record (some record), { T with pending := Function.update T.pending taskId none })
  | .remove taskId => (.done, { T with pending := Function.update T.pending taskId none })

def run : List PendingCall → Slots → List PendingOutcome
  | [], _ => []
  | c :: cs, T => (T.perform c).1 :: run cs (T.perform c).2

/-- A submission claims what is pending for its task if it is for the round that it answers. -/
theorem perform_claimPending_iff (T : Slots) (taskId : Text) (u : Submission)
    (record : PendingTaskRecord) :
    (T.perform (.claimPending taskId u.contextId u.feedbackId)).1 = .record (some record) ↔
      T.pending taskId = some record ∧ u.Matches record := by
  have hfilter : (T.pending taskId).filter
      (fun r => r.contextId = u.contextId ∧ r.feedbackId = u.feedbackId) = some record ↔
        T.pending taskId = some record ∧ u.Matches record := by
    rw [Option.filter_eq_some_iff, decide_eq_true_iff, Submission.Matches]
  rw [← hfilter, perform]
  cases (T.pending taskId).filter _ <;> simp

end Slots

section Pending

variable {F : Type} {φ : FloatFormat F} {maxDigits : ℕ} {cjson : Str → Option (Json.Tree F)}
  {keyPrefix : Text} {taskIds : List Text} {S : Keys Text Str Text ℕ} {T : Slots}

/-! ## Records -/

theorem scalars_chars (cs : Text) : scalars (chars cs) = some cs := by
  induction cs with
  | nil => rfl
  | cons c cs ih =>
    simp only [scalars, chars] at ih ⊢
    rw [List.map_cons, List.mapM_cons, ih]
    rfl

theorem textOf_chars (cs : Text) : textOf (some (.str (chars cs) : Json.Tree F)) = some cs :=
  scalars_chars cs

theorem ofString_beq (a b : String) : (Str.ofString a == Str.ofString b) = decide (a = b) := by
  rw [Bool.eq_iff_iff, beq_iff_eq, decide_eq_true_iff]
  constructor
  · intro h
    exact String.toList_injective (List.map_injective_iff.2 (fun _ _ h => CodePoint.scalar.inj h) h)
  · rintro rfl
    rfl

theorem loads_toJson (φ : FloatFormat F) (maxDigits : ℕ) (record : PendingTaskRecord) :
    loads φ maxDigits (record.toJson φ) = some record.asdict := by
  refine loads_write ?_ ?_
  · exact ⟨by simp [Str.ofString], by simp [membersWellFormed, Json.Tree.WellFormed]⟩
  · simp only [PendingTaskRecord.asdict, Json.Tree.Readable, membersReadable, and_true]
    exact ⟨⟨⟨_, rfl⟩, _, rfl⟩, ⟨⟨_, rfl⟩, _, rfl⟩, ⟨⟨_, rfl⟩, _, rfl⟩, ⟨⟨_, rfl⟩, _, rfl⟩,
      ⟨_, rfl⟩, _, rfl⟩

/-- A record is read back from its text. -/
theorem fromJson_toJson (φ : FloatFormat F) (maxDigits : ℕ) (record : PendingTaskRecord) :
    PendingTaskRecord.fromJson φ maxDigits (record.toJson φ) = some record := by
  rw [PendingTaskRecord.fromJson, loads_toJson]
  simp [PendingTaskRecord.asdict, PendingTaskRecord.ofMembers, List.lookup_cons, textOf_chars,
    ofString_beq]

/-- Redis decodes the records that are written. -/
def Decodes (φ : FloatFormat F) (cjson : Str → Option (Json.Tree F)) : Prop :=
  ∀ record : PendingTaskRecord, cjson (record.toJson φ) = some record.asdict

theorem claims_toJson (hcjson : Decodes φ cjson) (contextId feedbackId : Text)
    (record : PendingTaskRecord) : claims cjson contextId feedbackId (record.toJson φ) =
      some (decide (record.contextId = contextId ∧ record.feedbackId = feedbackId)) := by
  rw [claims, hcjson record]
  simp [PendingTaskRecord.asdict, List.lookup_cons, textOf_chars, ofString_beq]

theorem toJson_ne_nil (φ : FloatFormat F) (record : PendingTaskRecord) : record.toJson φ ≠ [] := by
  intro h
  have := fromJson_toJson φ 0 record
  rw [h] at this
  exact absurd this (by simp [PendingTaskRecord.fromJson, loads, skip, value])

/-! ## The keys of tasks -/

/-- The keys of some tasks hold what is pending for them, and their owners. -/
structure Holds (φ : FloatFormat F) (keyPrefix : Text) (taskIds : List Text)
    (S : Keys Text Str Text ℕ) (T : Slots) : Prop where
  pending : ∀ t ∈ taskIds,
    S (key keyPrefix t) = ((T.pending t).map (PendingTaskRecord.toJson φ)).map .string
  owner : ∀ t ∈ taskIds, S (ownerKey keyPrefix t) = ((T.owner t).map chars).map .string

theorem Holds.setPending (h : Holds φ keyPrefix taskIds S T) (hids : Unowned taskIds) {t : Text}
    (ht : t ∈ taskIds) (record : Option PendingTaskRecord) :
    Holds φ keyPrefix taskIds
      (Function.update S (key keyPrefix t) ((record.map (PendingTaskRecord.toJson φ)).map .string))
      { T with pending := Function.update T.pending t record } where
  pending u hu := by
    dsimp only
    rcases eq_or_ne u t with rfl | hne
    · rw [Function.update_self, Function.update_self]
    · have hkey : key keyPrefix u ≠ key keyPrefix t := fun hk => hne (List.append_cancel_left hk)
      rw [Function.update_of_ne hkey, Function.update_of_ne hne]
      exact h.pending u hu
  owner u hu := by
    rw [Function.update_of_ne fun hk =>
      hids t ht u hu ((key_eq_ownerKey_iff keyPrefix).1 hk.symm)]
    exact h.owner u hu

theorem Holds.setOwner (h : Holds φ keyPrefix taskIds S T) (hids : Unowned taskIds) {t : Text}
    (ht : t ∈ taskIds) (owner : Option Text) :
    Holds φ keyPrefix taskIds
      (Function.update S (ownerKey keyPrefix t) ((owner.map chars).map .string))
      { T with owner := Function.update T.owner t owner } where
  pending u hu := by
    rw [Function.update_of_ne fun hk => hids u hu t ht ((key_eq_ownerKey_iff keyPrefix).1 hk)]
    exact h.pending u hu
  owner u hu := by
    dsimp only
    rcases eq_or_ne u t with rfl | hne
    · rw [Function.update_self, Function.update_self]
    · have hkey : ownerKey keyPrefix u ≠ ownerKey keyPrefix t :=
        fun hk => hne (List.append_cancel_left hk)
      rw [Function.update_of_ne hkey, Function.update_of_ne hne]
      exact h.owner u hu

theorem readRecord_toJson (record : Option PendingTaskRecord) (S : Keys Text Str Text ℕ) :
    readRecord φ maxDigits (record.map (PendingTaskRecord.toJson φ)) S = (.ok record, S) := by
  cases record with
  | none => rfl
  | some record =>
    rw [Option.map_some, readRecord, fromJson_toJson]
    · rfl
    · exact toJson_ne_nil φ record

/-- A call has the outcome that it has for the slots, and leaves what they are then. -/
theorem PendingCall.perform_eq (maxDigits : ℕ) (h : Holds φ keyPrefix taskIds S T)
    (hids : Unowned taskIds) (hcjson : Decodes φ cjson) {c : PendingCall}
    (hc : c.taskId ∈ taskIds) :
    ∃ S', c.perform φ maxDigits cjson keyPrefix S = (.ok (T.perform c).1, S') ∧
      Holds φ keyPrefix taskIds S' (T.perform c).2 := by
  cases c with
  | saveOwner t id => exact ⟨_, rfl, h.setOwner hids hc (some id)⟩
  | getOwner t => exact ⟨_, map_eq (get_eq (h.owner t hc)) _, h⟩
  | removeOwner t => exact ⟨_, rfl, h.setOwner hids hc none⟩
  | savePending record => exact ⟨_, rfl, h.setPending hids hc (some record)⟩
  | getPending t =>
    have hread : A2a.getPending φ maxDigits keyPrefix t S = (.ok (T.pending t), S) :=
      (bind_eq (get_eq (h.pending t hc)) _).trans (readRecord_toJson _ S)
    exact ⟨S, map_eq hread _, h⟩
  | claimPending t contextId feedbackId =>
    have hget := get_eq (ε := Unit) (h.pending t hc)
    dsimp only [Slots.perform]
    cases ht : T.pending t with
    | none =>
      rw [ht] at hget
      have hclaim : A2a.claimPending φ maxDigits cjson keyPrefix t contextId feedbackId S =
          (.ok none, S) := bind_eq (show claimScript cjson _ _ _ S = (.ok none, S) from
            bind_eq hget _) _
      exact ⟨S, map_eq hclaim _, h⟩
    | some record =>
      rw [ht] at hget
      have hscript : claimScript cjson (key keyPrefix t) contextId feedbackId S =
          if record.contextId = contextId ∧ record.feedbackId = feedbackId then
            (.ok (some (record.toJson φ)), Function.update S (key keyPrefix t) none)
          else (.ok none, S) := by
        refine (bind_eq hget _).trans ?_
        dsimp only [Option.map_some]
        rw [claims_toJson hcjson]
        split_ifs with hr
        · rw [decide_eq_true hr]
          rfl
        · rw [decide_eq_false hr]
          rfl
      rw [Option.filter_some]
      split_ifs at hscript with hr
      · rw [if_pos (by simpa using hr)]
        have hclaim : A2a.claimPending φ maxDigits cjson keyPrefix t contextId feedbackId S =
            (.ok (some record), Function.update S (key keyPrefix t) none) :=
          (bind_eq hscript _).trans (readRecord_toJson (some record) _)
        exact ⟨_, map_eq hclaim _, h.setPending hids hc none⟩
      · rw [if_neg (by simpa using hr)]
        have hclaim : A2a.claimPending φ maxDigits cjson keyPrefix t contextId feedbackId S =
            (.ok none, S) := bind_eq hscript _
        exact ⟨S, map_eq hclaim _, h⟩
  | remove t => exact ⟨_, rfl, h.setPending hids hc none⟩

/-- Calls have the outcomes that they have for the slots of their tasks. -/
theorem Holds.pendingRun (h : Holds φ keyPrefix taskIds S T) (hids : Unowned taskIds)
    (hcjson : Decodes φ cjson) {calls : List PendingCall}
    (hcalls : ∀ c ∈ calls, c.taskId ∈ taskIds) :
    (A2a.pendingRun φ maxDigits cjson keyPrefix calls S).1.map Prod.snd =
      (T.run calls).map .ok := by
  induction calls generalizing S T with
  | nil => rfl
  | cons c calls ih =>
    rw [List.forall_mem_cons] at hcalls
    obtain ⟨S', hperform, hnext⟩ := PendingCall.perform_eq maxDigits h hids hcjson hcalls.1
    simp only [A2a.pendingRun, hperform]
    rw [List.map_cons, Slots.run, List.map_cons, ih hnext hcalls.2]

/-- The store of what is pending is what is pending for each task. -/
theorem pendingRun_eq (φ : FloatFormat F) (maxDigits : ℕ) (keyPrefix : Text)
    (hcjson : Decodes φ cjson) (calls : List PendingCall)
    (hids : Unowned (calls.map PendingCall.taskId)) :
    (pendingRun φ maxDigits cjson keyPrefix calls fun _ => none).1.map Prod.snd =
      (Slots.run calls {}).map .ok :=
  Holds.pendingRun ⟨fun _ _ => rfl, fun _ _ => rfl⟩ hids hcjson
    fun _ hc => List.mem_map_of_mem hc

end Pending

/-- Of two claims for a record, the first has it. -/
theorem pendingRun_eq_claims :
    let record : PendingTaskRecord := ⟨text "t", text "c", text "f", [], []⟩
    (pendingRun noFloats 0 (loads noFloats 0) (text "a2a")
      [.savePending record, .claimPending (text "t") (text "c") (text "g"),
        .claimPending (text "t") (text "c") (text "f"),
        .claimPending (text "t") (text "c") (text "f")] fun _ => none).1.map Prod.snd =
      [.ok .done, .ok (.record none), .ok (.record (some record)), .ok (.record none)] :=
  pendingRun_eq noFloats 0 (text "a2a") (loads_toJson noFloats 0) _
    (by simp [Unowned, PendingCall.taskId, text])

end Hyperforge.A2a
