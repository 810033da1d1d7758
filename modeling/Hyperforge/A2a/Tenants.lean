import Hyperforge.A2a.TaskStore

/-!
# Tasks of tenants

The store of tasks is one for each owner (`Tenants`): calls to it have the outcomes that calls to
these have, unless keys of different owners clash (`outcomes_eq`). As ids are not escaped within
keys, they do for some owners (`slotKey_eq_iff`).

The pending record and the owner of a task are not affected by calls for other tasks, unless the id
of one is that of another after `owner:` (`pendingRun_filter`).
-/

namespace Hyperforge.A2a

open Json (Str FloatFormat assign pop)
open Redis.Lasting

/-! ## Keys -/

/-- A key of an owner is one of another, whose name goes on as the key does. -/
def Clash (a b : Text × Slot) : Prop :=
  ∃ s, b.1 = a.1 ++ text "\x7d:task:" ++ s ∧ a.2 = .task (s ++ '}' :: b.2.suffix)

theorem suffix_injective {p q : Slot} (h : p.suffix = q.suffix) : p = q := by
  cases p with
  | task t =>
    cases q with
    | task u => exact congrArg Slot.task (List.append_cancel_left h)
    | index => simp [Slot.suffix, text] at h
  | index =>
    cases q with
    | task u => simp [Slot.suffix, text] at h
    | index => rfl

/-- The suffix of a key that has a closing brace is that of a task. -/
theorem eq_task_of_suffix {p q : Slot} {w : Text} (h : p.suffix = w ++ '}' :: q.suffix) :
    ∃ s, w = text ":task:" ++ s ∧ p = .task (s ++ '}' :: q.suffix) := by
  cases p with
  | index =>
    have hbrace : '}' ∈ Slot.index.suffix := h ▸ List.mem_append_right _ List.mem_cons_self
    exact absurd hbrace (by decide)
  | task t =>
    obtain ⟨s, hw, rfl⟩ | ⟨c, hc, ht⟩ := List.append_eq_append_iff.1 h
    · exact ⟨s, hw, rfl⟩
    · rcases c with _ | ⟨x, c⟩
      · exact ⟨[], by rw [hc, List.append_nil, List.append_nil], congrArg Slot.task ht.symm⟩
      · obtain ⟨rfl, -⟩ := List.cons.inj ht
        have hbrace : '}' ∈ text ":task:" := hc ▸ List.mem_append_right _ List.mem_cons_self
        exact absurd hbrace (by decide)

theorem slotKey_eq (keyPrefix owner : Text) (slot : Slot) : slotKey keyPrefix owner slot =
    (keyPrefix.rdropWhile (· = ':') ++ text ":\x7b") ++ (owner ++ '}' :: slot.suffix) := by
  simp [slotKey, ownerTag, text]

theorem Clash.slotKey_eq {keyPrefix : Text} {a b : Text × Slot} (h : Clash a b) :
    slotKey keyPrefix a.1 a.2 = slotKey keyPrefix b.1 b.2 := by
  obtain ⟨s, howner, hslot⟩ := h
  rw [A2a.slotKey_eq, A2a.slotKey_eq, howner, hslot]
  simp [Slot.suffix, text]

theorem clash_of_append {o w : Text} {p q : Slot} (hw : w ≠ [])
    (h : '}' :: p.suffix = w ++ '}' :: q.suffix) : Clash (o, p) (o ++ w, q) := by
  obtain ⟨x, w, rfl⟩ := List.exists_cons_of_ne_nil hw
  obtain ⟨rfl, hslot⟩ := List.cons.inj h
  obtain ⟨s, rfl, hp⟩ := eq_task_of_suffix hslot
  exact ⟨s, by simp [text], hp⟩

/-- The keys of two owners are one if and only if they clash. -/
theorem slotKey_eq_iff {keyPrefix : Text} {a b : Text × Slot} :
    slotKey keyPrefix a.1 a.2 = slotKey keyPrefix b.1 b.2 ↔ a = b ∨ Clash a b ∨ Clash b a := by
  constructor
  · intro h
    obtain ⟨o, p⟩ := a
    obtain ⟨o', q⟩ := b
    rw [slotKey_eq, slotKey_eq] at h
    obtain ⟨w, rfl, h⟩ | ⟨w, rfl, h⟩ := List.append_eq_append_iff.1 (List.append_cancel_left h)
    · by_cases hw : w = []
      · subst hw
        have hslot : p = q := suffix_injective (List.cons.inj h).2
        exact .inl (Prod.ext (List.append_nil _).symm hslot)
      · exact .inr (.inl (clash_of_append hw h))
    · by_cases hw : w = []
      · subst hw
        have hslot : q = p := suffix_injective (List.cons.inj h).2
        exact .inl (Prod.ext (List.append_nil _) hslot.symm)
      · exact .inr (.inr (clash_of_append hw h))
  · rintro (rfl | h | h)
    · rfl
    · exact h.slotKey_eq
    · exact h.slotKey_eq.symm

/-! ## Calls -/

variable {β σ : Type}

inductive Call (β σ : Type)
  | save (owner : Text) (task : Task β) (now : σ)
  | get (owner taskId : Text)
  | list (owner : Text) (params : ListTasksRequest)
  | delete (owner taskId : Text)

/-- The keys that a call names. -/
def Call.slots : Call β σ → List (Text × Slot)
  | save owner task _ => [(owner, .task task.id), (owner, .index)]
  | get owner taskId => [(owner, .task taskId)]
  | list owner _ => [(owner, .index)]
  | delete owner taskId => [(owner, .task taskId), (owner, .index)]

inductive Outcome (β : Type)
  | done
  | task (task : Option (Task β))
  | page (response : ListTasksResponse β)

section Perform

variable [LinearOrder σ] (sdk : Sdk β σ) (keyPrefix : Text)

def Call.perform : Call β σ → TaskCommand σ (Outcome β)
  | save owner task now => (fun _ => .done) <$> saveTask sdk keyPrefix owner task now
  | get owner taskId => .task <$> getTask sdk keyPrefix owner taskId
  | list owner params => .page <$> listTasks sdk keyPrefix owner params
  | delete owner taskId => (fun _ => .done) <$> deleteTask keyPrefix owner taskId

/-- The outcomes of calls, one after the other. -/
def outcomes : List (Call β σ) → Keys Text Text Text σ →
    List (Except (Error ListError) (Outcome β))
  | [], _ => []
  | c :: cs, S => (c.perform sdk keyPrefix S).1 :: outcomes cs (c.perform sdk keyPrefix S).2

end Perform

/-! ## Stores of one owner -/

/-- The tasks of each owner by their ids, with their scores. -/
abbrev Tenants (β σ : Type) := Text → List (Text × σ × Task β)

section Tenants

variable [LinearOrder σ] (sdk : Sdk β σ)

/-- The order from the last task to the first. -/
def newer (x y : Text × σ × Task β) : Bool := later (x.1, x.2.1) (y.1, y.2.1)

/-- The tasks of an owner, from the last. -/
def Tenants.tasks (T : Tenants β σ) (owner : Text) : List (Task β) :=
  ((T owner).mergeSort newer).map (·.2.2)

/-- What a call does to the tasks of its owner only, and what its outcome should be. -/
def Tenants.perform (T : Tenants β σ) : Call β σ → Except ListError (Outcome β) × Tenants β σ
  | .save owner task now =>
    (.ok .done, Function.update T owner (assign task.id (score sdk now task, task) (T owner)))
  | .get owner taskId => (.ok (.task (((T owner).lookup taskId).map Prod.snd)), T)
  | .list owner params =>
    (.page <$> page sdk params ((T.tasks owner).filter fun task => Selected params task), T)
  | .delete owner taskId => (.ok .done, Function.update T owner (pop taskId (T owner)))

def Tenants.outcomes : List (Call β σ) → Tenants β σ → List (Except ListError (Outcome β))
  | [], _ => []
  | c :: cs, T => (T.perform sdk c).1 :: outcomes cs (T.perform sdk c).2

end Tenants

/-! ## The store is one for each owner -/

/-- No two of some keys clash. -/
def Separate (slots : List (Text × Slot)) : Prop := ∀ a ∈ slots, ∀ b ∈ slots, ¬Clash a b

/-- A task that is read as it has been written, and not as nothing. -/
structure Sdk.Reads (sdk : Sdk β σ) (task : Task β) : Prop where
  parse : sdk.parse (sdk.serialize task) = some task
  nonempty : sdk.serialize task ≠ []

theorem Sdk.Reads.deserialize {sdk : Sdk β σ} {task : Task β} (h : sdk.Reads task) :
    deserializeTask sdk (serializeTask sdk task) = some task := by
  rw [deserializeTask, serializeTask, Base64.b64decode_b64encode]
  exact h.parse

theorem Sdk.Reads.ne_nil {sdk : Sdk β σ} {task : Task β} (h : sdk.Reads task) :
    serializeTask sdk task ≠ [] := fun hnil => h.nonempty (Base64.b64encode_eq_nil hnil)

/-- The scores of an owner's tasks. -/
def scores (d : List (Text × σ × Task β)) : List (Text × σ) := d.map fun x => (x.1, x.2.1)

theorem keys_scores (d : List (Text × σ × Task β)) :
    (scores d).map Prod.fst = d.map Prod.fst := by
  rw [scores, List.map_map]
  rfl

/-- The keys, as far as they are of these slots, are those of the owners' tasks. -/
structure Refines (sdk : Sdk β σ) (keyPrefix : Text) (slots : List (Text × Slot))
    (T : Tenants β σ) (S : Keys Text Text Text σ) : Prop where
  nodup : ∀ owner, ((scores (T owner)).map Prod.fst).Nodup
  named : ∀ owner, ∀ x ∈ T owner, (owner, Slot.task x.1) ∈ slots
  reads : ∀ owner, ∀ x ∈ T owner, sdk.Reads x.2.2
  task : ∀ owner taskId, (owner, Slot.task taskId) ∈ slots → S (taskKey keyPrefix owner taskId) =
    (((T owner).lookup taskId).map fun x => serializeTask sdk x.2).map .string
  index : ∀ owner, (owner, Slot.index) ∈ slots →
    S (indexKey keyPrefix owner) = SortedSet.ofScores (scores (T owner)) (nodup owner)

section Step

variable {sdk : Sdk β σ} {keyPrefix : Text} {slots : List (Text × Slot)} {T : Tenants β σ}
  {S : Keys Text Text Text σ}

theorem Separate.slotKey_ne (h : Separate slots) {o o' : Text} {p q : Slot} (hp : (o, p) ∈ slots)
    (hq : (o', q) ∈ slots) (hne : (o, p) ≠ (o', q)) :
    slotKey keyPrefix o p ≠ slotKey keyPrefix o' q := by
  intro heq
  rcases (slotKey_eq_iff (a := (o, p)) (b := (o', q))).1 heq with heq | heq | heq
  · exact hne heq
  · exact h _ hp _ hq heq
  · exact h _ hq _ hp heq

/-- The tasks of one owner change, with their keys. -/
theorem Refines.update (h : Refines sdk keyPrefix slots T S) (hsep : Separate slots)
    {owner taskId : Text} {d : List (Text × σ × Task β)} {v : Option (Task β)}
    (htask : (owner, .task taskId) ∈ slots) (hindex : (owner, .index) ∈ slots)
    (hnodup : ((scores d).map Prod.fst).Nodup)
    (hnamed : ∀ x ∈ d, (owner, Slot.task x.1) ∈ slots) (hreads : ∀ x ∈ d, sdk.Reads x.2.2)
    (hlookup : ∀ t, (d.lookup t).map Prod.snd =
      if taskId = t then v else ((T owner).lookup t).map Prod.snd) :
    Refines sdk keyPrefix slots (Function.update T owner d)
      (Function.update (Function.update S (taskKey keyPrefix owner taskId)
        ((v.map (serializeTask sdk)).map .string)) (indexKey keyPrefix owner)
        (SortedSet.ofScores (scores d) hnodup)) := by
  have hother {o : Text} (ho : o ≠ owner) : Function.update T owner d o = T o :=
    Function.update_of_ne ho ..
  have hown : Function.update T owner d owner = d := Function.update_self ..
  have hvalue (x : Option (σ × Task β)) : x.map (fun x => serializeTask sdk x.2) =
      (x.map Prod.snd).map (serializeTask sdk) := by
    rw [Option.map_map]
    rfl
  have hkept {o : Text} {p : Slot} (hp : (o, p) ∈ slots) (hi : (o, p) ≠ (owner, .index))
      (ht : (o, p) ≠ (owner, .task taskId)) (v w : Option (Value Text Text σ)) :
      Function.update (Function.update S (taskKey keyPrefix owner taskId) v)
        (indexKey keyPrefix owner) w (slotKey keyPrefix o p) = S (slotKey keyPrefix o p) := by
    have hindexKey : slotKey keyPrefix o p ≠ indexKey keyPrefix owner :=
      hsep.slotKey_ne hp hindex hi
    have htaskKey : slotKey keyPrefix o p ≠ taskKey keyPrefix owner taskId :=
      hsep.slotKey_ne hp htask ht
    rw [Function.update_of_ne hindexKey, Function.update_of_ne htaskKey]
  refine ⟨fun o => ?_, fun o => ?_, fun o => ?_, fun o t ht => ?_, fun o ho => ?_⟩
  · by_cases ho : o = owner
    · rwa [ho, hown]
    · rw [hother ho]
      exact h.nodup o
  · by_cases ho : o = owner
    · rwa [ho, hown]
    · rw [hother ho]
      exact h.named o
  · by_cases ho : o = owner
    · rwa [ho, hown]
    · rw [hother ho]
      exact h.reads o
  · by_cases heq : (o, Slot.task t) = (owner, .task taskId)
    · cases heq
      have hne : taskKey keyPrefix owner taskId ≠ indexKey keyPrefix owner :=
        hsep.slotKey_ne htask hindex (by simp)
      rw [Function.update_of_ne hne, Function.update_self, hown, hvalue, hlookup, if_pos rfl]
    · refine (hkept ht (by simp) heq ..).trans ((h.task o t ht).trans ?_)
      rw [hvalue, hvalue]
      by_cases ho : o = owner
      · subst ho
        rw [hown, hlookup, if_neg (fun h => heq (by rw [h]))]
      · rw [hother ho]
  · by_cases ho' : o = owner
    · subst ho'
      rw [Function.update_self]
      exact ofScores_congr (by rw [hown]) _ _
    · refine (hkept ho (by simp [ho']) (by simp) ..).trans ((h.index o ho).trans ?_)
      exact ofScores_congr (by rw [hother ho']) _ _

theorem saveTask_eq (h : Refines sdk keyPrefix slots T S) (hsep : Separate slots)
    {owner : Text} {task : Task β} {now : σ} (htask : (owner, .task task.id) ∈ slots)
    (hindex : (owner, .index) ∈ slots) (hreads : sdk.Reads task) :
    ∃ S', saveTask sdk keyPrefix owner task now S = (.ok (), S') ∧ Refines sdk keyPrefix slots
      (Function.update T owner (assign task.id (score sdk now task, task) (T owner))) S' := by
  have hne : indexKey keyPrefix owner ≠ taskKey keyPrefix owner task.id :=
    hsep.slotKey_ne hindex htask (by simp)
  have hi : Function.update S (taskKey keyPrefix owner task.id)
      (some (.string (serializeTask sdk task))) (indexKey keyPrefix owner) =
      SortedSet.ofScores (scores (T owner)) (h.nodup owner) := by
    rw [Function.update_of_ne hne, h.index owner hindex]
  have hscores : scores (assign task.id (score sdk now task, task) (T owner)) =
      assign task.id (score sdk now task) (scores (T owner)) :=
    Json.map_assign Prod.fst ..
  have hnodup : ((scores (assign task.id (score sdk now task, task) (T owner))).map
      Prod.fst).Nodup := by
    rw [hscores]
    exact Json.nodup_assign (h.nodup owner) ..
  refine ⟨_, map_eq (pipeline_cons (set_eq _) (pipeline_cons (zadd_eq hi _ _) rfl)) _, ?_⟩
  rw [← ofScores_congr hscores hnodup]
  refine h.update hsep htask hindex (v := some task) hnodup (fun x hx => ?_) (fun x hx => ?_)
    fun t => ?_
  · rcases Json.mem_assign hx with rfl | hx
    · exact htask
    · exact h.named owner x hx
  · rcases Json.mem_assign hx with rfl | hx
    · exact hreads
    · exact h.reads owner x hx
  · rw [Json.lookup_assign]
    split_ifs <;> rfl

theorem deleteTask_eq (h : Refines sdk keyPrefix slots T S) (hsep : Separate slots)
    {owner taskId : Text} (htask : (owner, .task taskId) ∈ slots)
    (hindex : (owner, .index) ∈ slots) :
    ∃ S', deleteTask keyPrefix owner taskId S = (.ok (), S') ∧ Refines sdk keyPrefix slots
      (Function.update T owner (pop taskId (T owner))) S' := by
  have hne : indexKey keyPrefix owner ≠ taskKey keyPrefix owner taskId :=
    hsep.slotKey_ne hindex htask (by simp)
  have hi : Function.update S (taskKey keyPrefix owner taskId) none (indexKey keyPrefix owner) =
      SortedSet.ofScores (scores (T owner)) (h.nodup owner) := by
    rw [Function.update_of_ne hne, h.index owner hindex]
  have hscores : scores (pop taskId (T owner)) =
      without [taskId] (scores (T owner)) := by
    rw [scores, scores, pop, without, List.filter_map]
    simp [Function.comp_def]
  have hnodup : ((scores (pop taskId (T owner))).map Prod.fst).Nodup := by
    rw [hscores]
    exact nodup_without (h.nodup owner) [taskId]
  refine ⟨_, map_eq (pipeline_cons del_eq (pipeline_cons (zrem_eq hi _) rfl)) _, ?_⟩
  rw [← ofScores_congr hscores hnodup]
  refine h.update hsep htask hindex (v := none) hnodup (fun x hx => ?_) (fun x hx => ?_)
    fun t => ?_
  · exact h.named owner x (List.mem_of_mem_filter hx)
  · exact h.reads owner x (List.mem_of_mem_filter hx)
  · rw [Json.lookup_pop]
    by_cases ht : t = taskId
    · rw [if_pos ht, if_pos ht.symm]
      rfl
    · rw [if_neg ht, if_neg (Ne.symm ht)]

theorem getTask_eq (h : Refines sdk keyPrefix slots T S) {owner taskId : Text}
    (htask : (owner, .task taskId) ∈ slots) : getTask sdk keyPrefix owner taskId S =
      (.ok (((T owner).lookup taskId).map Prod.snd), S) := by
  rw [getTask, bind_eq (get_eq (h.task owner taskId htask))]
  rcases hx : (T owner).lookup taskId with _ | x
  · rfl
  · have hreads := h.reads owner _ (Json.mem_of_lookup hx)
    have hvalue : ((some (serializeTask sdk x.2)).filter (· ≠ [])).bind (deserializeTask sdk) =
        some x.2 := by
      rw [Option.filter_some, if_pos (decide_eq_true hreads.ne_nil)]
      exact hreads.deserialize
    exact congrArg (fun v => (Except.ok v, S)) hvalue

theorem Refines.empty : Refines sdk keyPrefix slots (fun _ => []) fun _ => none :=
  ⟨fun _ => List.nodup_nil, fun _ _ hx => absurd hx List.not_mem_nil,
    fun _ _ hx => absurd hx List.not_mem_nil, fun _ _ _ => rfl, fun _ _ => rfl⟩

variable [LinearOrder σ]

/-- The index has the ids in the order of the tasks. -/
theorem sorted_scores (d : List (Text × σ × Task β)) :
    ((scores d).mergeSort later).map Prod.fst = (d.mergeSort newer).map Prod.fst := by
  rw [scores, ← List.map_mergeSort (r := newer), List.map_map]
  · rfl
  · exact fun _ _ _ _ => rfl

theorem listTasks_eq (h : Refines sdk keyPrefix slots T S) {owner : Text}
    {params : ListTasksRequest} (hindex : (owner, .index) ∈ slots) :
    listTasks sdk keyPrefix owner params S = ((page sdk params ((T.tasks owner).filter
      fun task => Selected params task)).mapError .raised, S) := by
  have hmem {x : Text × σ × Task β} (hx : x ∈ (T owner).mergeSort newer) : x ∈ T owner :=
    List.mem_mergeSort.1 hx
  have hnodup : ((T owner).map Prod.fst).Nodup := keys_scores (T owner) ▸ h.nodup owner
  have hget : ∀ x ∈ (T owner).mergeSort newer, (get (taskKey keyPrefix owner x.1) :
      TaskCommand σ _) S = (.ok (some (serializeTask sdk x.2.2)), S) := by
    intro x hx
    refine get_eq ((h.task owner x.1 (h.named owner x (hmem hx))).trans ?_)
    rw [Json.lookup_of_mem hnodup (hmem hx)]
    rfl
  have hvalues (d : List (Text × σ × Task β)) (hd : ∀ x ∈ d, sdk.Reads x.2.2) :
      (d.map fun x => some (serializeTask sdk x.2.2)).filterMap (· >>= deserializeTask sdk) =
        d.map (·.2.2) := by
    rw [List.filterMap_map, ← List.filterMap_eq_map]
    exact List.filterMap_congr fun x hx => (hd x hx).deserialize
  have hstale (d : List (Text × σ × Task β)) :
      staleIds (d.map Prod.fst) (d.map fun x => some (serializeTask sdk x.2.2)) = [] := by
    rw [staleIds, List.zip_map', List.filter_map, List.map_map]
    simp [Function.comp_def]
  have hpipeline : (pipeline (((((T owner).mergeSort newer).map Prod.fst).map fun taskId =>
      get (taskKey keyPrefix owner taskId))) : TaskCommand σ _) S =
        (.ok (((T owner).mergeSort newer).map fun x => some (serializeTask sdk x.2.2)), S) := by
    rw [List.map_map]
    exact pipeline_map hget
  rw [listTasks, bind_eq (zrevrange_eq (h.index owner hindex)), sorted_scores,
    bind_eq hpipeline, hstale, selectedTasks, hvalues _ fun x hx => h.reads owner x (hmem hx)]
  refine (bind_eq (rfl : _ = (Except.ok (), S)) _).trans ?_
  rw [← Tenants.tasks]
  rcases page sdk params _ with e | response <;> rfl

/-- A call has the outcome that it has in the store of its owner. -/
theorem perform_eq (h : Refines sdk keyPrefix slots T S) (hsep : Separate slots) {c : Call β σ}
    (hslots : ∀ a ∈ c.slots, a ∈ slots)
    (hreads : ∀ owner task now, c = .save owner task now → sdk.Reads task) :
    (c.perform sdk keyPrefix S).1 = (T.perform sdk c).1.mapError .raised ∧
      Refines sdk keyPrefix slots (T.perform sdk c).2 (c.perform sdk keyPrefix S).2 := by
  cases c with
  | save owner task now =>
    obtain ⟨htask, hindex⟩ := List.forall_mem_cons.1 hslots
    have hindex := List.forall_mem_singleton.1 hindex
    obtain ⟨S', hsave, hS'⟩ := saveTask_eq h hsep htask hindex (hreads owner task now rfl)
    rw [Call.perform, map_eq hsave]
    exact ⟨rfl, hS'⟩
  | get owner taskId =>
    rw [Call.perform, map_eq (getTask_eq h (List.forall_mem_singleton.1 hslots))]
    exact ⟨rfl, h⟩
  | list owner params =>
    rw [Call.perform, map_eq (listTasks_eq h (List.forall_mem_singleton.1 hslots))]
    refine ⟨?_, h⟩
    rw [Tenants.perform]
    rcases page sdk params _ with e | response <;> rfl
  | delete owner taskId =>
    obtain ⟨htask, hindex⟩ := List.forall_mem_cons.1 hslots
    have hindex := List.forall_mem_singleton.1 hindex
    obtain ⟨S', hdelete, hS'⟩ := deleteTask_eq h hsep htask hindex
    rw [Call.perform, map_eq hdelete]
    exact ⟨rfl, hS'⟩

/-- All calls of a run have the outcomes that they have in the stores of their owners. -/
theorem outcomes_eq (h : Refines sdk keyPrefix slots T S) (hsep : Separate slots)
    {calls : List (Call β σ)} (hslots : ∀ c ∈ calls, ∀ a ∈ c.slots, a ∈ slots)
    (hreads : ∀ owner task now, .save owner task now ∈ calls → sdk.Reads task) :
    outcomes sdk keyPrefix calls S = (Tenants.outcomes sdk calls T).map (.mapError .raised) := by
  induction calls generalizing T S with
  | nil => rfl
  | cons c calls ih =>
    rw [List.forall_mem_cons] at hslots
    obtain ⟨houtcome, hnext⟩ := perform_eq h hsep hslots.1
      fun owner task now hc => hreads owner task now (hc ▸ List.mem_cons_self)
    rw [outcomes, Tenants.outcomes, List.map_cons, houtcome, ih hnext hslots.2
      fun owner task now hc => hreads owner task now (List.mem_cons_of_mem _ hc)]

end Step

/-! ## Pending records and owners of executions -/

inductive PendingCall
  | saveOwner (taskId ownerInstanceId : Text)
  | getOwner (taskId : Text)
  | removeOwner (taskId : Text)
  | savePending (record : PendingTaskRecord)
  | getPending (taskId : Text)
  | claimPending (taskId contextId feedbackId : Text)
  | remove (taskId : Text)

def PendingCall.taskId : PendingCall → Text
  | saveOwner taskId _ | getOwner taskId | removeOwner taskId | getPending taskId
  | claimPending taskId _ _ | remove taskId => taskId
  | savePending record => record.taskId

inductive PendingOutcome
  | done
  | owner (id : Option Str)
  | record (record : Option PendingTaskRecord)

section Pending

variable {F : Type} (φ : FloatFormat F) (maxDigits : ℕ) (cjson : Str → Option (Json.Tree F))
  (keyPrefix : Text)

def PendingCall.perform : PendingCall → PendingCommand PendingOutcome
  | saveOwner taskId id => (fun _ => .done) <$> A2a.saveOwner keyPrefix taskId id
  | getOwner taskId => .owner <$> A2a.getOwner keyPrefix taskId
  | removeOwner taskId => (fun _ => .done) <$> A2a.removeOwner keyPrefix taskId
  | savePending record => (fun _ => .done) <$> A2a.savePending φ keyPrefix record
  | getPending taskId => .record <$> A2a.getPending φ maxDigits keyPrefix taskId
  | claimPending taskId contextId feedbackId =>
    .record <$> A2a.claimPending φ maxDigits cjson keyPrefix taskId contextId feedbackId
  | remove taskId => (fun _ => .done) <$> A2a.remove keyPrefix taskId

/-- The outcomes of calls, one after the other, with the keys after them. -/
def pendingRun : List PendingCall → Keys Text Str Text ℕ →
    List (PendingCall × Except (Error Unit) PendingOutcome) × Keys Text Str Text ℕ
  | [], S => ([], S)
  | c :: cs, S =>
    let r := c.perform φ maxDigits cjson keyPrefix S
    let (rest, S') := pendingRun cs r.2
    ((c, r.1) :: rest, S')

/-- The keys of a task. -/
def taskKeys (taskId : Text) : Set Text := {key keyPrefix taskId, ownerKey keyPrefix taskId}

theorem about_readRecord (K : Set Text) (value : Option Str) :
    About K (readRecord φ maxDigits value) := by
  unfold readRecord
  split
  · exact .const (.ok none)
  · exact .const (.ok none)
  · split
    · exact .const (.ok _)
    · exact .const (.error _)

theorem about_claimScript {K : Set Text} {k : Text} (hk : k ∈ K) (contextId feedbackId : Text) :
    About K (claimScript cjson k contextId feedbackId) := by
  refine (About.get hk).bind fun value => ?_
  rcases value with _ | value
  · exact .const (.ok none)
  · dsimp only
    split
    · exact .const (.error _)
    · exact .const (.ok none)
    · exact (About.del hk).bind fun _ => .const (.ok _)

/-- A call is about the keys of its task. -/
theorem PendingCall.about (c : PendingCall) :
    About (taskKeys keyPrefix c.taskId) (c.perform φ maxDigits cjson keyPrefix) := by
  have hkey {t : Text} : key keyPrefix t ∈ taskKeys keyPrefix t := .inl rfl
  have hownerKey {t : Text} : ownerKey keyPrefix t ∈ taskKeys keyPrefix t := .inr rfl
  cases c with
  | saveOwner _ id => exact (About.set hownerKey (Json.chars id)).map _
  | getOwner => exact (About.get hownerKey).map _
  | removeOwner => exact (About.del hownerKey).map _
  | savePending record => exact (About.set hkey (record.toJson φ)).map _
  | getPending =>
    exact ((About.get hkey).bind fun value => about_readRecord φ maxDigits _ value).map _
  | claimPending =>
    exact ((about_claimScript cjson hkey _ _).bind
      fun value => about_readRecord φ maxDigits _ value).map _
  | remove => exact (About.del hkey).map _

/-- No id of some tasks is that of another after `owner:`. -/
def Unowned (taskIds : List Text) : Prop := ∀ t ∈ taskIds, ∀ u ∈ taskIds, t ≠ text "owner:" ++ u

theorem key_eq_ownerKey_iff {t u : Text} :
    key keyPrefix t = ownerKey keyPrefix u ↔ t = text "owner:" ++ u := by
  rw [key, ownerKey, List.append_assoc, List.append_assoc, List.append_right_inj]
  exact List.cons_inj_right ':'

theorem disjoint_taskKeys {taskIds : List Text} (h : Unowned taskIds) {t u : Text}
    (ht : t ∈ taskIds) (hu : u ∈ taskIds) (htu : t ≠ u) :
    ∀ k ∈ taskKeys keyPrefix t, k ∉ taskKeys keyPrefix u := by
  rintro _ (rfl | rfl) (hk | hk)
  · exact htu (List.append_cancel_left hk)
  · exact h t ht u hu ((key_eq_ownerKey_iff keyPrefix).1 hk)
  · exact h u hu t ht ((key_eq_ownerKey_iff keyPrefix).1 hk.symm)
  · exact htu (List.append_cancel_left hk)

/-- Calls for other tasks matter neither to the outcomes of those for a task nor to its keys. -/
theorem pendingRun_filter {taskIds : List Text} (h : Unowned taskIds) {taskId : Text}
    (htask : taskId ∈ taskIds) {calls : List PendingCall}
    (hcalls : ∀ c ∈ calls, c.taskId ∈ taskIds) {S S' : Keys Text Str Text ℕ}
    (hS : Same (taskKeys keyPrefix taskId) S S') :
    (pendingRun φ maxDigits cjson keyPrefix calls S).1.filter (·.1.taskId = taskId) =
      (pendingRun φ maxDigits cjson keyPrefix (calls.filter (·.taskId = taskId)) S').1 ∧
    Same (taskKeys keyPrefix taskId) (pendingRun φ maxDigits cjson keyPrefix calls S).2
      (pendingRun φ maxDigits cjson keyPrefix (calls.filter (·.taskId = taskId)) S').2 := by
  induction calls generalizing S S' with
  | nil => exact ⟨rfl, hS⟩
  | cons c calls ih =>
    rw [List.forall_mem_cons] at hcalls
    have habout := c.about φ maxDigits cjson keyPrefix
    by_cases hc : c.taskId = taskId
    · rw [hc] at habout
      obtain ⟨houtcome, hnext⟩ := habout.depends S S' hS
      obtain ⟨hrest, hkeys⟩ := ih hcalls.2 hnext
      rw [List.filter_cons_of_pos (by simpa using hc)]
      refine ⟨?_, hkeys⟩
      simp only [pendingRun]
      rw [List.filter_cons_of_pos (by simpa using hc), hrest, houtcome]
    · have hnext : Same (taskKeys keyPrefix taskId)
          (c.perform φ maxDigits cjson keyPrefix S).2 S' := fun k hk =>
        (habout.frame S k (disjoint_taskKeys keyPrefix h htask hcalls.1 (Ne.symm hc) k hk)).trans
          (hS k hk)
      obtain ⟨hrest, hkeys⟩ := ih hcalls.2 hnext
      rw [List.filter_cons_of_neg (by simpa using hc)]
      refine ⟨?_, hkeys⟩
      simp only [pendingRun]
      rw [List.filter_cons_of_neg (by simpa using hc), hrest]

end Pending

/-! ## Both stores -/

section Stores

variable {F : Type}

/-- The stores are one for each owner, and for each task, as long as keys do not clash and no task
    is written as nothing. -/
theorem stores_refine [LinearOrder σ] (sdk : Sdk β σ) (keyPrefix : Text)
    (calls : List (Call β σ)) (hslots : Separate (calls.flatMap Call.slots))
    (hparse : ∀ owner task now, .save owner task now ∈ calls →
      sdk.parse (sdk.serialize task) = some task)
    (hnonempty : ∀ owner task now, .save owner task now ∈ calls → sdk.serialize task ≠ [])
    (φ : FloatFormat F) (maxDigits : ℕ) (cjson : Str → Option (Json.Tree F)) (pendingPrefix : Text)
    (pendingCalls : List PendingCall) (taskId : Text)
    (hids : Unowned (taskId :: pendingCalls.map PendingCall.taskId)) (S : Keys Text Str Text ℕ) :
    outcomes sdk keyPrefix calls (fun _ => none) =
      (Tenants.outcomes sdk calls fun _ => []).map (.mapError .raised) ∧
    (pendingRun φ maxDigits cjson pendingPrefix pendingCalls S).1.filter (·.1.taskId = taskId) =
      (pendingRun φ maxDigits cjson pendingPrefix (pendingCalls.filter (·.taskId = taskId)) S).1 ∧
    Same (taskKeys pendingPrefix taskId)
      (pendingRun φ maxDigits cjson pendingPrefix pendingCalls S).2
      (pendingRun φ maxDigits cjson pendingPrefix
        (pendingCalls.filter (·.taskId = taskId)) S).2 := by
  constructor
  · exact outcomes_eq .empty hslots (fun c hc a ha => List.mem_flatMap.2 ⟨c, hc, ha⟩)
      fun owner task now hc => ⟨hparse owner task now hc, hnonempty owner task now hc⟩
  · exact pendingRun_filter φ maxDigits cjson pendingPrefix hids List.mem_cons_self
      (fun c hc => List.mem_cons_of_mem _ (List.mem_map_of_mem hc)) fun _ _ => rfl

end Stores

/-- The format of tasks that have an id only, of less than 128 characters of ASCII. -/
def idSdk : Sdk Unit ℕ where
  serialize task :=
    [0x0a, UInt8.ofNat task.id.length] ++ task.id.map fun c => UInt8.ofNat c.toNat
  parse
    | 0x0a :: _ :: bytes => some ⟨bytes.map fun b => Char.ofNat b.toNat, [], 0, none, ()⟩
    | _ => none
  timestamp := Int.toNat
  encodePageToken := id
  decodePageToken := some
  defaultPageSize := 50

def idTask (taskId : Text) : Task Unit := ⟨taskId, [], 0, none, ()⟩

def noFloats : FloatFormat ℕ := ⟨fun _ => false, fun _ => [], fun _ => 0, nofun, nofun⟩

theorem separate_of_length {slots : List (Text × Slot)} (h : ∀ a ∈ slots, a.1.length < 7) :
    Separate slots := by
  rintro a - b hb ⟨s, howner, -⟩
  have hlength := h b hb
  rw [howner, List.length_append, List.length_append] at hlength
  have htask : (text "\x7d:task:").length = 7 := rfl
  omega

theorem stores_refine_two :
    outcomes idSdk (text "a2a") [.save (text "a") (idTask (text "x")) 0, .get (text "b") (text "x")]
        (fun _ => none) =
      (Tenants.outcomes idSdk [.save (text "a") (idTask (text "x")) 0, .get (text "b") (text "x")]
        fun _ => []).map (.mapError .raised) ∧
    (pendingRun noFloats 4300 (fun _ => none) (text "a2a") [.saveOwner (text "x") (text "i")]
        fun _ => none).1.filter (·.1.taskId = text "y") = [] ∧
    Same (taskKeys (text "a2a") (text "y")) (pendingRun noFloats 4300 (fun _ => none) (text "a2a")
      [.saveOwner (text "x") (text "i")] fun _ => none).2 fun _ => none := by
  have hsave : ∀ owner task now, Call.save owner task now ∈
      [Call.save (text "a") (idTask (text "x")) 0, .get (text "b") (text "x")] →
      task = idTask (text "x") := by
    intro owner task now h
    rcases List.mem_cons.1 h with h | h
    · cases h
      rfl
    · cases List.mem_singleton.1 h
  refine stores_refine idSdk (text "a2a") _ (separate_of_length (by decide))
    (fun owner task now h => ?_) (fun owner task now h => ?_) noFloats 4300 (fun _ => none)
    (text "a2a") [.saveOwner (text "x") (text "i")] (text "y") ?_ fun _ => none
  · rw [hsave owner task now h]
    rfl
  · rw [hsave owner task now h]
    exact List.cons_ne_nil _ _
  · have hlength : ∀ t ∈ [text "y", text "x"], t.length < 6 := by decide
    intro t ht u _ heq
    have htu := hlength t ht
    rw [heq, List.length_append] at htu
    have howner : (text "owner:").length = 6 := rfl
    omega

/-- The owner `a}:task:x` reads a task of `a`, or its index is of the wrong type; and what is
    pending for the task `owner:x` is the owner of `x`. -/
theorem stores_clash :
    ¬(∀ calls : List (Call Unit ℕ), outcomes idSdk (text "a2a") calls (fun _ => none) =
      (Tenants.outcomes idSdk calls fun _ => []).map (.mapError .raised)) ∧
    outcomes idSdk (text "a2a") [.save (text "a") (idTask (text "x\x7d:index")) 0,
      .list (text "a\x7d:task:x") {}] (fun _ => none) = [.ok .done, .error .wrongType] ∧
    ∀ record : PendingTaskRecord, record.taskId = text "owner:x" →
      (getOwner (text "a2a") (text "x") (savePending noFloats (text "a2a") record
        fun _ => none).2).1 = .ok (some (record.toJson noFloats)) := by
  refine ⟨fun h => ?_, rfl, fun record hrecord => ?_⟩
  · have hread := h [.save (text "a") (idTask (text "x\x7d:task:y")) 0,
      .get (text "a\x7d:task:x") (text "y")]
    have hget : some (.ok (.task (some (idTask (text "x\x7d:task:y"))))) =
        (some (.ok (.task none)) : Option (Except (Error ListError) (Outcome Unit))) :=
      congrArg (fun l : List (Except (Error ListError) (Outcome Unit)) => l[1]?) hread
    cases hget
  · have hkey : key (text "a2a") record.taskId = ownerKey (text "a2a") (text "x") :=
      hrecord ▸ rfl
    have hvalue : Function.update (fun _ => none : Keys Text Str Text ℕ)
        (ownerKey (text "a2a") (text "x")) (some (.string (record.toJson noFloats)))
        (ownerKey (text "a2a") (text "x")) = (some (record.toJson noFloats)).map .string :=
      Function.update_self ..
    rw [savePending, set_eq, hkey, getOwner, get_eq hvalue]

end Hyperforge.A2a
