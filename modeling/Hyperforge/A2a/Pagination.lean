import Hyperforge.A2a.Tenants

/-!
# Listing tasks page by page

A client lists the tasks of an owner page after page, each from the token that came with the one
before (`listAll`). A page starts with the task that the token is of, found again among the tasks
selected from what the store then has: as listing tasks only drops ids without a task from the
index, these stay the same (`listTasks_stored`).

The pages are together all the tasks selected, in the order of the store, each once, if and
only if no page but the first starts with a task of which the id is empty
(`listAll_eq_iff`): the token of such a task is the empty one, which ends the listing.
-/

namespace Hyperforge.A2a

open Redis.Lasting

variable {β σ : Type}

/-! ## Pages of a list -/

section Pages

variable {sdk : Sdk β σ} {params : ListTasksRequest} {tasks : List (Task β)} {k : ℕ}

variable (params) in
/-- A page from a position, and the token of the task after it. -/
theorem page_of_startIndex (hsize : 1 ≤ params.pageSize)
    (hstart : startIndex sdk params tasks = some k) : page sdk params tasks =
      .ok ⟨(tasks.take (k + params.pageSize.toNat)).drop k, tasks.length, params.pageSize,
        tasks[k + params.pageSize.toNat]?.map fun task => sdk.encodePageToken task.id⟩ := by
  have hstop : (k + params.pageSize : ℤ) = ((k + params.pageSize.toNat : ℕ) : ℤ) := by
    omega
  have hslice : slice tasks k (k + params.pageSize) =
      (tasks.take (k + params.pageSize.toNat)).drop k := by
    rw [hstop, slice, if_neg (by omega), Int.toNat_natCast]
  have hitem : item tasks (k + params.pageSize) = tasks[k + params.pageSize.toNat]? := by
    rw [hstop, item, if_pos (by omega), Int.toNat_natCast]
  rw [page, hstart]
  simp only [if_neg (show params.pageSize ≠ 0 by omega), hslice, hitem]
  split_ifs with hlt
  · rw [List.getElem?_eq_getElem (by omega)]
    rfl
  · rw [List.getElem?_eq_none (by omega)]
    rfl

variable (params) in
/-- The token of a task starts the page there. -/
theorem startIndex_token (hdecode : ∀ id, sdk.decodePageToken (sdk.encodePageToken id) = some id)
    (hids : (tasks.map Task.id).Nodup) {task : Task β} (htask : tasks[k]? = some task)
    (hne : sdk.encodePageToken task.id ≠ []) :
    startIndex sdk { params with pageToken := sdk.encodePageToken task.id } tasks = some k := by
  rw [startIndex, if_neg hne, hdecode]
  obtain ⟨hk, rfl⟩ := List.getElem?_eq_some_iff.1 htask
  refine List.findIdx?_eq_some_iff_getElem.2 ⟨hk, by simp, fun j hj => ?_⟩
  have hidx := List.nodup_iff_getElem?_ne_getElem?.1 hids j k hj (by rwa [List.length_map])
  simpa [hk, hj.trans hk] using hidx

end Pages

/-! ## The store -/

section Store

variable [LinearOrder σ]

/-- The store has these tasks of an owner, from the last: the ids in its index are of a task, of
    none any more, or of a value that cannot be read. -/
inductive Stored (sdk : Sdk β σ) (keyPrefix owner : Text) (S : Keys Text Text Text σ) :
    List (Task β) → Prop
  | intro {scores : List (Text × σ)} {nodup : (scores.map Prod.fst).Nodup}
    {values : Text → Option Text}
    (index : S (indexKey keyPrefix owner) = SortedSet.ofScores scores nodup)
    (value : ∀ taskId ∈ scores.map Prod.fst,
      S (taskKey keyPrefix owner taskId) = (values taskId).map .string)
    (ids : ∀ taskId ∈ scores.map Prod.fst, ∀ task,
      (values taskId >>= deserializeTask sdk) = some task → task.id = taskId) :
    Stored sdk keyPrefix owner S (((scores.mergeSort later).map Prod.fst).filterMap fun taskId =>
      values taskId >>= deserializeTask sdk)

variable {sdk : Sdk β σ} {keyPrefix owner : Text} {S : Keys Text Text Text σ}
  {tasks : List (Task β)} {params : ListTasksRequest}

/-- No two tasks have one id. -/
theorem Stored.nodup (h : Stored sdk keyPrefix owner S tasks) : (tasks.map Task.id).Nodup := by
  obtain @⟨scores, nodup, values, -, -, ids⟩ := h
  have hperm : ((scores.mergeSort later).map Prod.fst).Perm (scores.map Prod.fst) :=
    (List.mergeSort_perm scores later).map _
  have hids : ∀ taskId ∈ (scores.mergeSort later).map Prod.fst, ∀ task,
      (values taskId >>= deserializeTask sdk) = some task → task.id = taskId :=
    fun taskId hmem => ids taskId (hperm.mem_iff.1 hmem)
  have hnodup := hperm.nodup_iff.2 nodup
  generalize (scores.mergeSort later).map Prod.fst = taskIds at hids hnodup
  rw [List.nodup_iff_pairwise_ne, List.pairwise_map, List.pairwise_filterMap]
  refine hnodup.imp_of_mem fun {a b} ha hb hab x hx y hy => ?_
  rw [hids a ha x hx, hids b hb y hy]
  exact hab

theorem taskKey_ne_indexKey (taskId : Text) :
    taskKey keyPrefix owner taskId ≠ indexKey keyPrefix owner := by
  intro h
  have hsuffix : (Slot.task taskId).suffix = Slot.index.suffix := List.append_cancel_left h
  cases suffix_injective hsuffix

theorem staleIds_map (taskIds : List Text) (values : Text → Option Text) :
    staleIds taskIds (taskIds.map values) = taskIds.filter fun t => values t = none := by
  rw [staleIds, ← List.map_id taskIds, List.map_map, List.zip_map', List.filter_map, List.map_map]
  simp [Function.comp_def]

variable (params) in
/-- Listing tasks selects from those that are stored, which it keeps. -/
theorem listTasks_stored (h : Stored sdk keyPrefix owner S tasks) :
    ∃ S', listTasks sdk keyPrefix owner params S = ((page sdk params
      (tasks.filter fun task => Selected params task)).mapError .raised, S') ∧
        Stored sdk keyPrefix owner S' tasks := by
  obtain @⟨scores, nodup, values, index, value, ids⟩ := h
  have hmem {taskId : Text} (ht : taskId ∈ (scores.mergeSort later).map Prod.fst) :
      taskId ∈ scores.map Prod.fst := ((List.mergeSort_perm scores later).map _).mem_iff.1 ht
  have hpipeline : (pipeline (((scores.mergeSort later).map Prod.fst).map fun taskId =>
      get (taskKey keyPrefix owner taskId)) : TaskCommand σ _) S =
        (.ok (((scores.mergeSort later).map Prod.fst).map values), S) :=
    pipeline_map fun taskId ht => get_eq (value taskId (hmem ht))
  have hselected : selectedTasks sdk params (((scores.mergeSort later).map Prod.fst).map values) =
      (((scores.mergeSort later).map Prod.fst).filterMap fun taskId =>
        values taskId >>= deserializeTask sdk).filter fun task => Selected params task := by
    rw [selectedTasks, List.filterMap_map]
    rfl
  rw [listTasks, bind_eq (zrevrange_eq index), bind_eq hpipeline, hselected]
  generalize hms : staleIds ((scores.mergeSort later).map Prod.fst)
    (((scores.mergeSort later).map Prod.fst).map values) = ms
  have hnone : ∀ taskId ∈ ms, values taskId = none := by
    rw [← hms, staleIds_map]
    exact fun taskId ht => of_decide_eq_true (List.mem_filter.1 ht).2
  generalize page sdk params _ = result
  by_cases hempty : ms = []
  · refine ⟨S, ?_, .intro index value ids⟩
    rw [dropStale, if_neg (not_not.2 hempty), bind_eq (rfl : (pure () : TaskCommand σ Unit) S = _)]
    rcases result with e | response <;> rfl
  · refine ⟨Function.update S (indexKey keyPrefix owner)
      (SortedSet.ofScores (without ms scores) (nodup_without nodup ms)), ?_, ?_⟩
    · rw [dropStale, if_pos hempty, bind_eq (zrem_eq index ms)]
      rcases result with e | response <;> rfl
    · have hsub {taskId : Text} (ht : taskId ∈ (without ms scores).map Prod.fst) :
          taskId ∈ scores.map Prod.fst := (List.filter_sublist.map _).subset ht
      have hstored : Stored sdk keyPrefix owner _ _ := .intro
        (Function.update_self (indexKey keyPrefix owner)
          (SortedSet.ofScores (without ms scores) (nodup_without nodup ms)) S)
        (fun taskId ht => (Function.update_of_ne (taskKey_ne_indexKey taskId) ..).trans
          (value taskId (hsub ht)))
        fun taskId ht => ids taskId (hsub ht)
      convert hstored using 1
      -- the ids that are dropped had no task
      rw [mergeSort_without, without, List.filterMap_map, List.filterMap_map,
        List.filterMap_filter]
      refine List.filterMap_congr fun x _ => ?_
      by_cases hx : x.1 ∈ ms
      · simp [hx, hnone x.1 hx]
      · simp [hx]

/-- What calls have left of an owner's tasks is stored. -/
theorem Refines.stored {slots : List (Text × Slot)} {T : Tenants β σ}
    (h : Refines sdk keyPrefix slots T S) (hindex : (owner, .index) ∈ slots)
    (hids : ∀ x ∈ T owner, x.2.2.id = x.1) :
    Stored sdk keyPrefix owner S (T.tasks owner) := by
  have hnodup : ((T owner).map Prod.fst).Nodup := keys_scores (T owner) ▸ h.nodup owner
  let values (taskId : Text) := ((T owner).lookup taskId).map fun x => serializeTask sdk x.2
  have hvalue {x : Text × σ × Task β} (hx : x ∈ T owner) :
      (values x.1 >>= deserializeTask sdk) = some x.2.2 := by
    dsimp only [values]
    rw [Json.lookup_of_mem hnodup hx]
    exact (h.reads owner x hx).deserialize
  have hmem {taskId : Text} (ht : taskId ∈ (scores (T owner)).map Prod.fst) :
      ∃ x ∈ T owner, x.1 = taskId := List.mem_map.1 (keys_scores (T owner) ▸ ht)
  have hstored : Stored sdk keyPrefix owner S _ := @Stored.intro _ _ _ _ _ _ _ _ _ values
    (h.index owner hindex) (fun taskId ht => ?_) fun taskId ht task htask => ?_
  · rw [sorted_scores, List.filterMap_map] at hstored
    rw [Tenants.tasks, ← List.filterMap_eq_map]
    convert hstored using 1
    exact List.filterMap_congr fun x hx => (hvalue (List.mem_mergeSort.1 hx)).symm
  · obtain ⟨x, hx, rfl⟩ := hmem ht
    exact h.task owner x.1 (h.named owner x hx)
  · obtain ⟨x, hx, rfl⟩ := hmem ht
    rw [hvalue hx] at htask
    cases htask
    exact hids x hx

/-! ## Following the tokens -/

/-- A client lists the tasks of an owner, page after page until there is no token, with at most
    so many calls. In a message, a token that is missing is the empty one. -/
def listAll (sdk : Sdk β σ) (keyPrefix owner : Text) :
    (calls : ℕ) → ListTasksRequest → TaskCommand σ (Option (List (Task β)))
  | 0, _ => pure none
  | calls + 1, params => do
    let response ← listTasks sdk keyPrefix owner params
    let token := response.nextPageToken.getD []
    if token = [] then pure (some response.tasks)
    else do
      let rest ← listAll sdk keyPrefix owner calls { params with pageToken := token }
      pure (rest.map (response.tasks ++ ·))

/-- No page of the tasks from a position, but the first, starts with one of which the id is
    empty. -/
def NamedPages (pageSize k : ℕ) (tasks : List (Task β)) : Prop :=
  ∀ i > 0, ∀ task, tasks[k + i * pageSize]? = some task → task.id ≠ []

theorem namedPages_of_length_le {pageSize k : ℕ} (h : tasks.length ≤ k + pageSize) :
    NamedPages pageSize k tasks := by
  intro i hi task htask
  have hle := Nat.le_mul_of_pos_left pageSize hi
  rw [List.getElem?_eq_none (by omega)] at htask
  cases htask

/-- The pages after the first are those from the next position. -/
theorem namedPages_iff {pageSize k : ℕ} {task : Task β} (h : tasks[k + pageSize]? = some task) :
    NamedPages pageSize k tasks ↔ task.id ≠ [] ∧ NamedPages pageSize (k + pageSize) tasks := by
  constructor
  · refine fun hpages => ⟨hpages 1 one_pos task (by rwa [Nat.one_mul]), fun i _ task htask => ?_⟩
    refine hpages (i + 1) (Nat.succ_pos i) task ?_
    rwa [Nat.succ_mul, Nat.add_comm (i * pageSize), ← Nat.add_assoc]
  · rintro ⟨hid, hpages⟩ i hi task' htask'
    obtain ⟨i, rfl⟩ := Nat.exists_eq_succ_of_ne_zero hi.ne'
    rw [Nat.succ_mul, Nat.add_comm (i * pageSize), ← Nat.add_assoc] at htask'
    rcases Nat.eq_zero_or_pos i with rfl | hi
    · rw [Nat.zero_mul, Nat.add_zero, h] at htask'
      cases htask'
      exact hid
    · exact hpages i hi task' htask'

omit [LinearOrder σ] in
theorem le_of_startIndex {L : List (Task β)} {k : ℕ} (h : startIndex sdk params L = some k) :
    k ≤ L.length := by
  rw [startIndex] at h
  split_ifs at h
  · cases h
    exact Nat.zero_le _
  · obtain ⟨id, -, hid⟩ := Option.bind_eq_some_iff.1 h
    exact (List.findIdx?_eq_some_iff_getElem.1 hid).1.le

/-- Listing the tasks from a position gives all of them from there if the pages have tokens, and
    otherwise fewer; it ends. -/
theorem listAll_from (hdecode : ∀ id, sdk.decodePageToken (sdk.encodePageToken id) = some id)
    (hempty : ∀ id, sdk.encodePageToken id = [] ↔ id = []) (hsize : 1 ≤ params.pageSize)
    (h : Stored sdk keyPrefix owner S tasks) {L : List (Task β)}
    (hL : L = tasks.filter fun task => Selected params task) {token : Text} {k : ℕ}
    (hstart : startIndex sdk { params with pageToken := token } L = some k) (calls : ℕ) :
    ∃ out S', listAll sdk keyPrefix owner calls { params with pageToken := token } S =
        (.ok out, S') ∧
      (L.length < k + calls → out ≠ none) ∧
      ∀ ts, out = some ts → (ts = L.drop k ↔ NamedPages params.pageSize.toNat k L) := by
  induction calls generalizing S token k with
  | zero => exact ⟨none, S, rfl, fun hlt => absurd (le_of_startIndex hstart) (by omega), nofun⟩
  | succ calls ih =>
    obtain ⟨S', hlist, hS'⟩ := listTasks_stored { params with pageToken := token } h
    have hpage := page_of_startIndex { params with pageToken := token } hsize hstart
    have hL' : L = tasks.filter fun task =>
        Selected { params with pageToken := token } task := hL
    have hids : (L.map Task.id).Nodup := by
      rw [hL]
      exact h.nodup.sublist (List.filter_sublist.map _)
    rw [← hL', hpage] at hlist
    rw [listAll, bind_eq hlist]
    generalize hp : params.pageSize.toNat = p at *
    have hrest : L.drop k = (L.take (k + p)).drop k ++ L.drop (k + p) := by
      rw [List.drop_take, Nat.add_sub_cancel_left, ← List.drop_drop, List.take_append_drop]
    have hpos : 0 < p := by omega
    rcases hnext : L[k + p]? with _ | task
    · -- the last page
      have hlast := List.getElem?_eq_none_iff.1 hnext
      rw [Option.map_none, Option.getD_none, if_pos rfl]
      refine ⟨_, S', rfl, nofun, ?_⟩
      rintro _ ⟨⟩
      rw [hrest, List.drop_eq_nil_of_le hlast, List.append_nil]
      exact iff_of_true rfl (namedPages_of_length_le hlast)
    have hlt : k + p < L.length := (List.getElem?_eq_some_iff.1 hnext).1
    rw [Option.map_some, Option.getD_some, namedPages_iff hnext]
    by_cases hid : task.id = []
    · -- the token is empty, and ends the listing
      rw [if_pos ((hempty task.id).2 hid)]
      refine ⟨_, S', rfl, nofun, ?_⟩
      rintro _ ⟨⟩
      refine iff_of_false (fun heq => ?_) fun hpages => hpages.1 hid
      rw [hrest] at heq
      have hnil := List.self_eq_append_right.1 heq
      have hle := List.drop_eq_nil_iff.1 hnil
      omega
    · have htoken := mt (hempty task.id).1 hid
      rw [if_neg htoken]
      obtain ⟨out, S'', hout, hend, hall⟩ := ih hS'
        (startIndex_token params hdecode hids hnext htoken)
      rw [bind_eq hout]
      refine ⟨_, S'', rfl, fun hlt hnone => ?_, fun ts hts => ?_⟩
      · exact hend (by omega) (Option.map_eq_none_iff.1 hnone)
      · obtain ⟨rest, rfl, rfl⟩ := Option.map_eq_some_iff.1 hts
        rw [hrest, List.append_cancel_left_eq, hall rest rfl]
        exact (and_iff_right hid).symm

/-- Following the page tokens ends, and gives the tasks that are selected, each once and in the
    order of the store, if and only if no page but the first starts with a task of which
    the id is empty. -/
theorem listAll_eq_iff (sdk : Sdk β σ)
    (hdecode : ∀ id, sdk.decodePageToken (sdk.encodePageToken id) = some id)
    (hempty : ∀ id, sdk.encodePageToken id = [] ↔ id = []) (keyPrefix owner : Text)
    (params : ListTasksRequest) (hsize : 1 ≤ params.pageSize) (htoken : params.pageToken = [])
    {S : Keys Text Text Text σ} {tasks : List (Task β)} (h : Stored sdk keyPrefix owner S tasks) :
    (tasks.map Task.id).Nodup ∧
    ∀ calls > (tasks.filter fun task => Selected params task).length,
      ∃ ts, (listAll sdk keyPrefix owner calls params S).1 = .ok (some ts) ∧
        ((ts = tasks.filter fun task => Selected params task) ↔
          NamedPages params.pageSize.toNat 0 (tasks.filter fun task => Selected params task)) := by
  refine ⟨h.nodup, fun calls hcalls => ?_⟩
  have hparams : { params with pageToken := [] } = params := by rw [← htoken]
  have hstart : startIndex sdk { params with pageToken := [] }
    (tasks.filter fun task => Selected params task) = some 0 := if_pos rfl
  obtain ⟨out, S', hlist, hend, hall⟩ := listAll_from hdecode hempty hsize h rfl hstart calls
  rw [hparams] at hlist
  rw [hlist]
  obtain ⟨ts, rfl⟩ := Option.ne_none_iff_exists'.1 (hend (by omega))
  exact ⟨ts, rfl, hall ts rfl⟩

end Store

/-- A store with two tasks of an owner. -/
def twoTasks (x y : Text) (h : x ≠ y) : Keys Text Text Text ℕ := fun k =>
  if k = indexKey (text "a2a") (text "a") then
    SortedSet.ofScores [(x, 1), (y, 0)] (by simp [h])
  else ([x, y].find? fun t => taskKey (text "a2a") (text "a") t = k).map fun t =>
    .string (serializeTask idSdk (idTask t))

theorem stored_twoTasks {x y : Text} (h : x ≠ y)
    (hx : deserializeTask idSdk (serializeTask idSdk (idTask x)) = some (idTask x))
    (hy : deserializeTask idSdk (serializeTask idSdk (idTask y)) = some (idTask y)) :
    Stored idSdk (text "a2a") (text "a") (twoTasks x y h) [idTask x, idTask y] := by
  have hkey (t u : Text) : taskKey (text "a2a") (text "a") t = taskKey (text "a2a") (text "a") u ↔
      t = u := by
    refine ⟨fun heq => ?_, fun heq => heq ▸ rfl⟩
    cases suffix_injective (List.append_cancel_left heq)
    rfl
  have hstored : Stored idSdk (text "a2a") (text "a") (twoTasks x y h) _ :=
    @Stored.intro _ _ _ _ _ _ _ [(x, 1), (y, 0)] (by simp [h])
      (fun t => some (serializeTask idSdk (idTask t))) (if_pos rfl) ?_ ?_
  · rw [List.mergeSort_of_pairwise (by simp [later])] at hstored
    simpa [hx, hy] using hstored
  · intro t ht
    rw [twoTasks, if_neg (taskKey_ne_indexKey t)]
    rcases List.mem_pair.1 ht with rfl | rfl <;> simp [hkey, h]
  · intro t ht task htask
    rcases List.mem_pair.1 ht with rfl | rfl
    · cases hx.symm.trans htask
      rfl
    · cases hy.symm.trans htask
      rfl

theorem listAll_twoTasks :
    ([idTask (text "y"), idTask (text "x")].map Task.id).Nodup ∧
    ∀ calls > ([idTask (text "y"), idTask (text "x")].filter fun task =>
        Selected { pageSize := 1 } task).length,
      ∃ ts, (listAll idSdk (text "a2a") (text "a") calls { pageSize := 1 }
          (twoTasks (text "y") (text "x") (by decide))).1 = .ok (some ts) ∧
        ((ts = [idTask (text "y"), idTask (text "x")].filter fun task =>
            Selected { pageSize := 1 } task) ↔
          NamedPages (1 : ℤ).toNat 0 ([idTask (text "y"), idTask (text "x")].filter fun task =>
            Selected { pageSize := 1 } task)) :=
  listAll_eq_iff idSdk (fun _ => rfl) (fun _ => Iff.rfl) (text "a2a") (text "a")
    { pageSize := 1 } (by decide) rfl (stored_twoTasks (by decide) rfl rfl)

/-- The listing ends before a task without an id that starts a page. -/
theorem listAll_unnamed :
    ¬∀ (params : ListTasksRequest) (S : Keys Text Text Text ℕ) (tasks : List (Task Unit)),
      1 ≤ params.pageSize → params.pageToken = [] →
      Stored idSdk (text "a2a") (text "a") S tasks → ∃ calls,
        (listAll idSdk (text "a2a") (text "a") calls params S).1 =
          .ok (some (tasks.filter fun task => Selected params task)) := by
  intro h
  have hstored : Stored idSdk (text "a2a") (text "a") (twoTasks (text "y") [] (by decide)) _ :=
    stored_twoTasks (by decide) rfl rfl
  let params : ListTasksRequest := { pageSize := 1 }
  have hsize : 1 ≤ params.pageSize := by decide
  have hstart : startIndex idSdk { params with pageToken := [] }
    ([idTask (text "y"), idTask []].filter fun task => Selected params task) = some 0 := if_pos rfl
  obtain ⟨calls, hcalls⟩ := h params _ _ hsize rfl hstored
  obtain ⟨out, S', hlist, -, hall⟩ :=
    listAll_from (fun _ => rfl) (fun _ => Iff.rfl) hsize hstored rfl hstart calls
  have hout : out = some ([idTask (text "y"), idTask []].filter fun task => Selected params task) :=
    Except.ok.inj ((congrArg Prod.fst hlist).symm.trans hcalls)
  have hpages := (hall _ hout).1 rfl
  exact hpages 1 Nat.one_pos (idTask []) rfl rfl

end Hyperforge.A2a
