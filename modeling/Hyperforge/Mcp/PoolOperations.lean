import Hyperforge.Mcp.PoolSafety

/-!
# Operations on the pool of MCP servers

Each operation takes only the steps that it may (`takes_program`): an assertion for each of its
awaits says what holds there, which the others keep.
-/

namespace Hyperforge.Mcp

open Concurrent Json

namespace MCPServerPool

variable {Key : Type} [DecidableEq Key] {V : PoolSettings} {i : ℕ} {op : PoolOp Key} {α β : Type}

variable (V i op) in
/-- A program takes only the steps that the `i`-th operation may. -/
def Takes (pre : MCPServerPool Key → Prop) (p : PoolOperation Key α)
    (post : α → MCPServerPool Key → Prop) : Prop :=
  Ensures (PoolInvariant V) (poolContract V i op) pre p post

theorem takes_pure {a : α} : Takes V i op (fun _ => True) (.pure a) fun _ _ => True :=
  ensures_pure (stable_const _) fun _ _ h => h

/-! ## Awaits -/

theorem takes_await {Q : MCPServerPool Key → Prop} (hQ : Stable (poolContract V i op) Q) :
    Takes V i op Q await_ fun _ => Q := by
  refine ensures_reads hQ (fun _ => hQ) ?_ fun s c a _ hs _ => hs
  intro s c a s' h
  cases c <;> cases h <;> rfl

/-- What is known once the lock has been asked for. -/
def Locked (i : ℕ) : Except PoolError Unit → MCPServerPool Key → Prop
  | .ok _, s => Held i s
  | .error _, _ => True

theorem stable_locked (r : Except PoolError Unit) : Stable (poolContract V i op) (Locked i r) := by
  cases r with
  | ok _ => exact stable_held
  | error _ => exact stable_const _

/-- What does not depend on the lock holds still once it has been asked for. -/
theorem takes_acquireLock_and {Q : MCPServerPool Key → Prop} (hQ : Stable (poolContract V i op) Q)
    (hlock : ∀ s, Q s → Q { s with lock := some i }) :
    Takes V i op Q (acquireLock i) fun r s => Locked i r s ∧ Q s := by
  refine ensures_step hQ (fun r => (stable_locked r).and hQ) fun s c a s' _ hs h => ?_
  have htake {a : Except PoolError Unit} (h : (if s.lock = none then
      some (Except.ok (), { s with lock := some i }) else none) = some (a, s')) :
      PoolStep V i op s s' ∧ Locked i a s' ∧ Q s' := by
    split_ifs at h with hnone
    cases h
    exact ⟨.locked hnone, rfl, hlock s hs⟩
  cases c with
  | cancelled =>
    cases h
    exact ⟨.idle, trivial, hs⟩
  | returns n => exact htake h
  | raises => exact htake h

theorem takes_acquireLock : Takes V i op (fun _ => True) (acquireLock i) (Locked i) :=
  (takes_acquireLock_and (stable_const _) fun _ h => h).imp (fun _ h => h) fun _ _ _ h => h.1

theorem takes_releaseLock : Takes V i op (Held i) releaseLock fun _ _ => True := by
  refine ensures_step stable_held (fun _ => stable_const _) fun s c a s' _ hs h => ?_
  cases h
  have hstep : PoolStep V i op s (s.touch none s.reaper) := .touched hs (.inl rfl)
  exact ⟨hstep, trivial⟩

theorem takes_shield (j : ℕ) : Takes V i op (fun _ => True) (shield j) fun _ _ => True := by
  refine ensures_reads (stable_const _) (fun _ => stable_const _) ?_ fun _ _ _ _ _ _ => trivial
  intro s c a s' h
  cases c with
  | cancelled =>
    cases h
    rfl
  | returns _ | raises =>
    dsimp only at h
    split at h <;> cases h
    rfl

/-! ## Acquiring -/

/-- What is known when a server is to be created. -/
def Absent (i : ℕ) (key : Key) (stale : Option ℕ) (s : MCPServerPool Key) : Prop :=
  (Held i s ∧ s.shuttingDown = false ∧ s.creating.lookup key = none) ∧
    ∀ id, stale = some id → s.Closed id

def Found.Post (i : ℕ) (key : Key) : Found → MCPServerPool Key → Prop
  | .creates stale, s => Absent i key stale s
  | _, _ => True

theorem stable_absent {key : Key} {stale : Option ℕ} :
    Stable (poolContract V i op) (Absent i key stale) := by
  refine Stable.and ?_ ?_
  · refine stable_of_kept (fun _ hs => hs.1) fun s s' h ⟨_, hdown, hkey⟩ => ⟨h.lock, ?_, ?_⟩
    · rw [h.shuttingDown, hdown]
    · rw [h.creating, hkey]
  · exact fun s t hs hrely id hid => stable_closed s t (hs id hid) hrely

theorem stable_foundPost {key : Key} (r : Found) :
    Stable (poolContract V i op) (Found.Post i key r) := by
  cases r with
  | creates stale => exact stable_absent
  | _ => exact stable_const _

variable {s s' : MCPServerPool Key}

theorem closed_retire {m : Key × ℕ} (h : s.Spare V m.2) : (s.retire m).Closed m.2 := by
  obtain ⟨server, hserver, -⟩ := h
  refine ⟨server.close, ?_, rfl⟩
  rw [retire, close]
  dsimp only
  rw [List.getElem?_modify, hserver, Option.map_eq_map, Option.map_some, if_pos rfl]

theorem spare_of_staleServer {key : Key} {id : ℕ} (h : s.staleServer V key = some id) :
    (key, id) ∈ s.servers ∧ s.Spare V id := by
  obtain ⟨hlookup, hstale⟩ := Option.filter_eq_some_iff.1 h
  obtain ⟨m, hm, hidle⟩ := (Option.any_eq_true _ _).1 hstale
  have hidle := of_decide_eq_true hidle
  exact ⟨mem_of_lookup hlookup, m, hm, hidle.1, .inr hidle.2⟩

/-- What is found of a key that has no server, by a task that has the lock. -/
theorem found_findTask {key : Key} {stale : Option ℕ} {found : Found} (hs : Held i s)
    (hdown : s.shuttingDown = false) (hstale : ∀ id, stale = some id → s.Closed id)
    (h : s.findTask stale key = (found, s')) :
    ∃ l, (l = none ∨ l = some i) ∧ s' = s.touch l s.reaper ∧ Found.Post i key found s' := by
  rw [findTask] at h
  rcases hkey : s.creating.lookup key with _ | j <;> rw [hkey] at h <;> cases h
  · refine ⟨some i, .inr rfl, ?_, ⟨hs, hdown, hkey⟩, hstale⟩
    rw [touch, ← show s.lock = some i from hs]
  · exact ⟨none, .inl rfl, rfl, trivial⟩

theorem takes_find {key : Key} : Takes V i op (Held i) (find V key) (Found.Post i key) := by
  refine ensures_step stable_held stable_foundPost fun s c a s' _ hs h => ?_
  split_ifs at h with hdown
  · cases h
    have hstep : PoolStep V i op s (s.touch none s.reaper) := .touched hs (.inl rfl)
    exact ⟨hstep, trivial⟩
  have hdown := Bool.eq_false_iff.2 hdown
  cases c with
  | raises => cases h
  | cancelled => cases h
  | returns n =>
    -- the reaper is there from now on
    obtain ⟨r, hr⟩ : ∃ r, r = s.reaper.or (some n) := ⟨_, rfl⟩
    rcases hstale : MCPServerPool.staleServer V { s with reaper := r } key with _ | id
    · dsimp only at h
      rw [← hr, hstale] at h
      rcases hserver : s.servers.lookup key with _ | id
      · dsimp only at h
        rw [hserver] at h
        obtain ⟨l, hl, rfl, hpost⟩ := found_findTask (s := { s with reaper := r }) hs hdown
          (fun _ h => absurd h.symm (Option.some_ne_none _)) (Option.some.inj h)
        have hstep : PoolStep V i op s (s.touch l r) := .touched hs hl
        exact ⟨hstep, hpost⟩
      · dsimp only at h
        rw [hserver] at h
        cases h
        have hstep : PoolStep V i op s ((s.lease id).touch none r) :=
          .leased hs hdown (mem_of_lookup hserver)
        exact ⟨hstep, trivial⟩
    · dsimp only at h
      rw [← hr, hstale] at h
      obtain ⟨hmem, hspare⟩ := spare_of_staleServer hstale
      obtain ⟨l, hl, rfl, hpost⟩ := found_findTask
        (s := MCPServerPool.retire (key, id) { s with reaper := r }) hs hdown
        (fun _ h => Option.some.inj h ▸ closed_retire hspare) (Option.some.inj h)
      have hstep : PoolStep V i op s ((s.retireAll [(key, id)]).touch l r) :=
        .retired hs hl fun m hm => by
          rw [List.mem_singleton.1 hm]
          exact ⟨hmem, hspare⟩
      exact ⟨hstep, hpost⟩

theorem takes_leaseCreated {key : Key} {created : ℕ} :
    Takes V i op (Held i) (leaseCreated key created) fun _ _ => True := by
  refine ensures_step stable_held (fun _ => stable_const _) fun s c a s' _ hs h => ?_
  have hunlock : PoolStep V i op s (s.touch none s.reaper) := .touched hs (.inl rfl)
  split_ifs at h with hdown hserver
  · cases h
    exact ⟨hunlock, trivial⟩
  · cases h
    exact ⟨hunlock, trivial⟩
  · cases h
    have hstep : PoolStep V i op s ((s.lease created).touch none s.reaper) :=
      .leased hs (Bool.eq_false_iff.2 hdown) (mem_of_lookup (not_not.1 hserver))
    exact ⟨hstep, trivial⟩

theorem takes_awaitCreated {key : Key} {j : ℕ} :
    Takes V i op (fun _ => True) (awaitCreated i key j) fun _ _ => True := by
  refine ensures_bind (takes_shield j) fun r => ?_
  rcases r with e | created
  · exact takes_pure
  refine ensures_bind takes_acquireLock fun r => ?_
  cases r with
  | error e => exact takes_pure
  | ok _ => exact takes_leaseCreated

/-- What the room for one more creation depends on. -/
theorem critical_reserve {key : Key} {stale : Option ℕ} :
    Critical V i op (await_ : PoolOperation Key (Except PoolError ℕ)) (Absent i key stale)
      (Held i) where
  stable := stable_absent
  fails := stable_held
  held s hs := hs.1.1
  error s hs := hs.1.1
  retire s m hs := ⟨hs.1, fun id hid => (shrinks_retire m s).closed (hs.2 id hid)⟩
  waits Q hQ hP := by
    refine (takes_await hQ).imp (fun s hs => hs) fun r s _ hs => ?_
    cases r with
    | ok _ => exact hs
    | error _ => exact (hP s hs).1.1

theorem takes_reserveCapacity {key : Key} {stale : Option ℕ} :
    Takes V i op (Absent i key stale) (reserveCapacity V) fun
      | .ok _ => fun s => Absent i key stale s ∧
        s.servers.length + s.creating.length < V.maxServers
      | .error _ => Held i := by
  refine (ensures_evictWhile critical_reserve fun s s' hservers hcreating => ?_).imp
    (fun s hs => hs) fun r s _ hs => ?_
  · rw [hservers, hcreating]
  · cases r with
    | ok _ => exact ⟨hs.1, not_le.1 (of_decide_eq_false hs.2)⟩
    | error _ => exact hs

theorem takes_spawn {key : Key} {stale : Option ℕ} :
    Takes V i op (fun s => Absent i key stale s ∧
      s.servers.length + s.creating.length < V.maxServers) (spawn key stale) fun _ _ => True := by
  have hstable : Stable (poolContract V i op) fun s : MCPServerPool Key => Absent i key stale s ∧
      s.servers.length + s.creating.length < V.maxServers := by
    have hroom : Stable (poolContract V i op) fun s : MCPServerPool Key =>
        Held i s ∧ s.servers.length + s.creating.length < V.maxServers :=
      stable_of_kept (fun _ hs => hs.1) fun s s' h hs =>
        ⟨h.lock, by rw [h.servers, h.creating]; exact hs.2⟩
    intro s t hs hrely
    exact ⟨stable_absent s t hs.1 hrely, (hroom s t ⟨hs.1.1.1, hs.2⟩ hrely).2⟩
  refine ensures_step hstable (fun _ => stable_const _) fun s c a s' _ hs h => ?_
  cases c with
  | raises => cases h
  | cancelled => cases h
  | returns j =>
    rcases hj : s.tasks j with _ | t <;> dsimp only at h <;> rw [hj] at h <;> cases h
    obtain ⟨⟨⟨hheld, hdown, hkey⟩, hstale⟩, hroom⟩ := hs
    exact ⟨.spawned hheld hdown hkey hj hroom hstale, trivial⟩

theorem takes_acquire {key : Key} :
    Takes V i op (fun _ => True) (acquire V i key) fun _ _ => True := by
  refine ensures_bind takes_acquireLock fun r => ?_
  cases r with
  | error e => exact takes_pure
  | ok _ =>
    refine ensures_bind takes_find fun found => ?_
    cases found with
    | fails e => exact takes_pure
    | leased l => exact takes_pure
    | waits j => exact takes_awaitCreated
    | creates stale =>
      refine ensures_bind takes_reserveCapacity fun r => ?_
      cases r with
      | error e => exact ensures_bind takes_releaseLock fun _ => takes_pure
      | ok _ => exact ensures_bind takes_spawn fun j => takes_awaitCreated

theorem takes_release {l : ℕ} :
    Takes V i (.release l) (fun _ => True) (release l) fun _ (_ : MCPServerPool Key) => True := by
  refine ensures_step (stable_const _) (fun _ => stable_const _) fun s c a s' hinv _ h => ?_
  obtain ⟨lease, hl, h⟩ := Option.bind_eq_some_iff.1 h
  split_ifs at h with hlease
  · cases h
    exact ⟨.idle, trivial⟩
  obtain ⟨m, hm, h⟩ := Option.map_eq_some_iff.1 h
  -- a server counts the lease
  have hlease := Bool.eq_false_iff.2 hlease
  have hpos : 0 < s.unreleased lease.server :=
    List.countP_pos_iff.2 ⟨lease, List.mem_of_getElem? hl, by simp [hlease]⟩
  have hactive := hinv.counted _ m hm
  rw [if_neg (by omega)] at h
  cases h
  exact ⟨.released rfl hl hlease hm, trivial⟩

/-! ## Creating -/

omit [DecidableEq Key] in
theorem not_done {t : CreationTask Key} (h : t.phase = .running ∨ t.phase = .cleaning)
    (r : Except PoolError ℕ) : t.phase ≠ .done r := by
  rintro hr
  rw [hr] at h
  rcases h with h | h <;> cases h

/-- What is known after an await of a creation task. -/
def Awaits (i : ℕ) (Q : MCPServerPool Key → Prop) :
    Except PoolError α → MCPServerPool Key → Prop
  | .ok _, s => Q s
  | .error _, s => Doing i .cleaning s

theorem stable_awaits {Q : MCPServerPool Key → Prop} (hQ : Stable (poolContract V i op) Q)
    (r : Except PoolError α) : Stable (poolContract V i op) (Awaits i Q r) := by
  cases r with
  | ok _ => exact hQ
  | error _ => exact stable_doing

/-- An exception ends what the `try` has. -/
theorem raised_step {t : CreationTask Key} (hop : op = .create) (ht : s.tasks i = some t)
    (hphase : t.phase = .running ∨ t.phase = .cleaning) {l : Option ℕ}
    (hl : l = s.lock ∨ s.lock = some i ∧ l = none) :
    PoolStep V i op s
      { s.setTask i { t with phase := .cleaning, cancelling := false } with lock := l } ∧
    Doing i .cleaning
      { s.setTask i { t with phase := .cleaning, cancelling := false } with lock := l } :=
  ⟨.raised hop ⟨ht, not_done hphase⟩ hl, _, Function.update_self .., rfl⟩

theorem raised_of_doing {t : CreationTask Key} (hop : op = .create) (ht : s.tasks i = some t)
    (hs : Doing i .running s) :
    PoolStep V i op s (s.setTask i { t with phase := .cleaning, cancelling := false }) ∧
      Doing i .cleaning (s.setTask i { t with phase := .cleaning, cancelling := false }) := by
  obtain ⟨t', ht', hphase⟩ := hs
  rw [ht] at ht'
  cases ht'
  exact raised_step hop ht (.inl hphase) (.inl rfl)

theorem takes_creationAwait (hop : op = .create) {Q E : MCPServerPool Key → Prop}
    (hQ : Stable (poolContract V i op) Q) (hrunning : ∀ s, Q s → Doing i .running s)
    (hE : Stable (poolContract V i op) E) (herror : ∀ s t, Q s →
      Doing i .cleaning (s.setTask i t) → E (s.setTask i t)) :
    Takes V i op Q (creationAwait i) fun
      | .ok _ => Q
      | .error _ => E := by
  refine ensures_step hQ (fun r => ?_) fun s c a s' _ hs h => ?_
  · cases r with
    | ok _ => exact hQ
    | error _ => exact hE
  rcases ht : s.tasks i with _ | t <;> rw [ht] at h
  · cases h
  have hraised := raised_of_doing (V := V) hop ht (hrunning s hs)
  dsimp only at h
  split_ifs at h
  · cases h
    exact ⟨hraised.1, herror s _ hs hraised.2⟩
  · cases c with
    | cancelled => cases h
    | returns n =>
      cases h
      exact ⟨.idle, hs⟩
    | raises =>
      cases h
      exact ⟨hraised.1, herror s _ hs hraised.2⟩

theorem takes_creationLock (hop : op = .create) {Q : MCPServerPool Key → Prop}
    (hQ : Stable (poolContract V i op) Q) (hrunning : ∀ s, Q s → Doing i .running s)
    (hlock : ∀ s, Q s → Q { s with lock := some i }) :
    Takes V i op Q (creationLock i) (Awaits i fun s => Q s ∧ Held i s) := by
  refine ensures_step hQ (stable_awaits (hQ.and stable_held)) fun s c a s' _ hs h => ?_
  rcases ht : s.tasks i with _ | t <;> rw [ht] at h
  · cases h
  dsimp only at h
  split_ifs at h with hcancelling hnone
  · cases h
    exact raised_of_doing (V := V) hop ht (hrunning s hs)
  · cases h
    exact ⟨.locked hnone, hlock s hs, rfl⟩

/-- The creation task has made its candidate. -/
def Made (i : ℕ) (s : MCPServerPool Key) : Prop :=
  ∃ t c, s.tasks i = some t ∧ t.phase = .running ∧ t.candidate = some c

theorem stable_made : Stable (poolContract V i op) (Made i) :=
  stable_of_step fun s s' _ ⟨t, c, ht, hphase, hc⟩ h => by
    obtain ⟨b, hb⟩ := h.task ht
    exact ⟨_, c, hb, hphase, hc⟩

omit [DecidableEq Key] in
theorem Made.running (h : Made i s) : Doing i .running s := by
  obtain ⟨t, c, ht, hphase, -⟩ := h
  exact ⟨t, ht, hphase⟩

theorem takes_factory (hop : op = .create) :
    Takes V i op (Doing i .running) (factory i) (Awaits i (Made i)) := by
  refine ensures_step stable_doing (stable_awaits stable_made) fun s c a s' _ hs h => ?_
  rcases ht : s.tasks i with _ | t <;> rw [ht] at h
  · cases h
  have hraised := raised_of_doing (V := V) hop ht hs
  obtain ⟨t', ht', hphase⟩ := hs
  rw [ht] at ht'
  cases ht'
  cases c with
  | returns n =>
    cases h
    exact ⟨.made hop ht hphase, _, _, Function.update_self .., hphase, rfl⟩
  | raises =>
    cases h
    exact hraised
  | cancelled =>
    dsimp only at h
    split_ifs at h
    cases h
    exact hraised

theorem takes_raise (hop : op = .create) :
    Takes V i op (fun s => Held i s ∧ ∃ t, s.Unfinished i t) (raise_ i)
      fun _ => Doing i .cleaning := by
  have hstable : Stable (poolContract V i op) fun s => Held i s ∧ ∃ t, s.Unfinished i t := by
    refine stable_held.and (stable_of_step fun s s' _ ⟨t, ht, hphase⟩ h => ?_)
    obtain ⟨b, hb⟩ := h.task ht
    exact ⟨_, hb, hphase⟩
  refine ensures_step hstable (fun _ => stable_doing) fun s c a s' _ hs h => ?_
  obtain ⟨hheld, t, ht, hphase⟩ := hs
  obtain ⟨t', ht', h⟩ := Option.map_eq_some_iff.1 h
  rw [ht] at ht'
  cases ht'
  cases h
  exact ⟨.raised hop ⟨ht, hphase⟩ (.inr ⟨hheld, rfl⟩), _, Function.update_self .., rfl⟩

/-- What a creation needs while it makes room for its candidate. -/
def Enrolling (i : ℕ) (s : MCPServerPool Key) : Prop :=
  Made i s ∧ Held i s ∧ s.shuttingDown = false

theorem stable_enrolling : Stable (poolContract V i op) (Enrolling i) := by
  refine stable_made.and (stable_of_kept (fun _ hs => hs.1) fun s s' h hs => ⟨h.lock, ?_⟩)
  rw [h.shuttingDown, hs.2]

/-- A creation that has the lock and has not ended. -/
def Raising (i : ℕ) (s : MCPServerPool Key) : Prop := Held i s ∧ ∃ t, s.Unfinished i t

theorem stable_raising : Stable (poolContract V i op) (Raising i) :=
  stable_held.and (stable_of_step fun s s' _ ⟨t, ht, hphase⟩ h => by
    obtain ⟨b, hb⟩ := h.task ht
    exact ⟨_, hb, hphase⟩)

omit [DecidableEq Key] in
theorem Made.raising (h : Made i s) (hheld : Held i s) : Raising i s := by
  obtain ⟨t, c, ht, hphase, -⟩ := h
  exact ⟨hheld, t, ht, not_done (.inl hphase)⟩

theorem critical_enroll (hop : op = .create) :
    Critical V i op (creationAwait i) (Enrolling i) (Raising i) where
  stable := stable_enrolling
  fails := stable_raising
  held _ hs := hs.2.1
  error _ hs := hs.1.raising hs.2.1
  retire _ _ hs := hs
  waits _ hQ hP := takes_creationAwait hop hQ (fun s hs => (hP s hs).1.running) stable_raising
    fun s _ hs ⟨t, ht, hphase⟩ => ⟨(hP s hs).2.1, t, ht, not_done (.inr hphase)⟩

theorem takes_register (hop : op = .create) :
    Takes V i op (Enrolling i) (register i) fun _ _ => True := by
  refine ensures_step stable_enrolling (fun _ => stable_const _) fun s c a s' _ hs h => ?_
  obtain ⟨⟨t, candidate, ht, hphase, hcandidate⟩, hheld, hdown⟩ := hs
  obtain ⟨t', ht', h⟩ := Option.bind_eq_some_iff.1 h
  rw [ht] at ht'
  cases ht'
  obtain ⟨c', hc', h⟩ := Option.map_eq_some_iff.1 h
  rw [hcandidate] at hc'
  cases hc'
  cases h
  exact ⟨.registered hop hheld hdown ht hphase hcandidate, trivial⟩

theorem takes_enroll (hop : op = .create) :
    Takes V i op (fun s => Made i s ∧ Held i s) (enroll V i) (Awaits i fun _ => True) := by
  have hstable : Stable (poolContract V i op) fun s => Made i s ∧ Held i s :=
    stable_made.and stable_held
  have hdown (b : Bool) :
      Stable (poolContract V i op) fun s => Made i s ∧ Held i s ∧ s.shuttingDown = b := by
    refine stable_made.and (stable_of_kept (fun _ hs => hs.1) fun s s' h hs => ⟨h.lock, ?_⟩)
    rw [h.shuttingDown, hs.2]
  refine ensures_bind (Q := fun b s => Made i s ∧ Held i s ∧ s.shuttingDown = b)
    (ensures_reads hstable hdown ?_ ?_) fun shuttingDown => ?_
  · rintro s c a s' ⟨⟩
    rfl
  · rintro s c a _ hs ⟨⟩
    exact ⟨hs.1, hs.2, rfl⟩
  cases shuttingDown with
  | true =>
    refine ensures_bind ((takes_raise hop).strengthen fun s hs => hs.1.raising hs.2.1) fun _ => ?_
    exact ensures_pure stable_doing fun s _ hs => hs
  | false =>
    refine ensures_bind (ensures_evictWhile (critical_enroll hop) fun s s' hservers _ => ?_)
      fun r => ?_
    · rw [hservers]
    cases r with
    | error e =>
      refine ensures_bind (takes_raise hop) fun _ => ?_
      exact ensures_pure stable_doing fun s _ hs => hs
    | ok _ =>
      refine ensures_bind ((takes_register hop).strengthen fun s hs => hs.1) fun _ => ?_
      exact ensures_pure (stable_const _) fun _ _ _ => trivial

theorem takes_closing {id : ℕ} {Q : MCPServerPool Key → Prop}
    (hQ : Stable (poolContract V i op) Q) (hclose : ∀ s, Q s → Q (s.close id))
    (h : ∀ s, Q s → Candidate i id s ∨ s.Closed id) :
    Takes V i op Q (closing id) fun _ => Q := by
  refine ensures_step hQ (fun _ => hQ) fun s c a s' _ hs hact => ?_
  cases hact
  exact ⟨.stopped (h s hs), hclose s hs⟩

/-- What is known once a creation task has begun. -/
def Begun (i : ℕ) (t : CreationTask Key) (s : MCPServerPool Key) : Prop :=
  Doing i .running s ∧ ∀ id, t.stale = some id → s.Closed id

theorem stable_begun {t : CreationTask Key} : Stable (poolContract V i op) (Begun i t) :=
  stable_doing.and fun s s' h hrely id hid => stable_closed s s' (h id hid) hrely

theorem takes_begin : Takes V i op (fun _ => True) (begin_ i) (Begun i) := by
  refine ensures_step (stable_const _) (fun _ => stable_begun) fun s c a s' hinv _ h => ?_
  rcases ht : s.tasks i with _ | t <;> rw [ht] at h
  · cases h
  dsimp only at h
  split_ifs at h with hphase
  cases h
  exact ⟨.idle, ⟨a, ht, hphase⟩, fun id hid => hinv.stale i a id ht hid⟩

theorem takes_attempt (hop : op = .create) :
    Takes V i op (fun _ => True) (attempt V i) (Awaits i fun _ => True) := by
  have hfail {α : Type} {e : PoolError} : Takes V i op (Doing i .cleaning)
      (.pure (.error e) : PoolOperation Key (Except PoolError α)) (Awaits i fun _ => True) :=
    ensures_pure stable_doing fun s _ hs => hs
  refine ensures_bind takes_begin fun t => ?_
  have hstop : Takes V i op (Begun i t) (stopStale i t.stale) (Awaits i (Doing i .running)) := by
    rcases hstale : t.stale with _ | id
    · exact ensures_pure stable_begun fun s _ hs => hs.1
    · refine ensures_bind (takes_closing stable_begun (fun s hs => ⟨hs.1, fun k hk =>
        (shrinks_close id s).closed (hs.2 k hk)⟩) fun s hs => .inr (hs.2 id hstale)) fun _ => ?_
      exact (takes_creationAwait hop stable_doing (fun _ hs => hs) stable_doing
        fun s t _ h => h).imp (fun s hs => hs.1) fun r _ _ hs => by cases r <;> exact hs
  refine ensures_bind hstop fun stopped => ?_
  cases stopped with
  | error e => exact hfail
  | ok _ =>
    refine ensures_bind (takes_factory hop) fun r => ?_
    cases r with
    | error e => exact hfail
    | ok _ =>
      refine ensures_bind (takes_creationLock hop stable_made (fun _ hs => hs.running)
        fun s hs => hs) fun r => ?_
      cases r with
      | error e => exact hfail
      | ok _ => exact takes_enroll hop

/-- What is known of a handler that goes on. -/
def Goes (Q : MCPServerPool Key → Prop) (b : Bool) (s : MCPServerPool Key) : Prop := b = true → Q s

theorem stable_goes {Q : MCPServerPool Key → Prop} (hQ : Stable (poolContract V i op) Q)
    (b : Bool) : Stable (poolContract V i op) (Goes Q b) := .imp fun _ => hQ

theorem aborted_of_doing {t : CreationTask Key} (hop : op = .create) (ht : s.tasks i = some t)
    (hs : Doing i .cleaning s) (hcancelling : t.cancelling = true) : PoolStep V i op s
      (s.setTask i { t with phase := .done (.error .cancelled), cancelling := false }) := by
  obtain ⟨t', ht', hphase⟩ := hs
  rw [ht] at ht'
  cases ht'
  exact .aborted hop ht hphase hcancelling

theorem takes_cleanupAwait (hop : op = .create) :
    Takes V i op (Doing i .cleaning) (cleanupAwait i) (Goes (Doing i .cleaning)) := by
  refine ensures_step stable_doing (stable_goes stable_doing) fun s c a s' _ hs h => ?_
  rcases ht : s.tasks i with _ | t <;> rw [ht] at h
  · cases h
  dsimp only at h
  split_ifs at h with hcancelling
  · cases h
    exact ⟨aborted_of_doing hop ht hs hcancelling, fun h => absurd h Bool.false_ne_true⟩
  · cases c <;> cases h
    exact ⟨.idle, fun _ => hs⟩

theorem takes_cleanupLock (hop : op = .create) : Takes V i op (Doing i .cleaning)
    (cleanupLock i) (Goes fun s => Doing i .cleaning s ∧ Held i s) := by
  refine ensures_step stable_doing (stable_goes (stable_doing.and stable_held))
    fun s c a s' _ hs h => ?_
  rcases ht : s.tasks i with _ | t <;> rw [ht] at h
  · cases h
  dsimp only at h
  split_ifs at h with hcancelling hnone
  · cases h
    exact ⟨aborted_of_doing hop ht hs hcancelling, fun h => absurd h Bool.false_ne_true⟩
  · cases h
    exact ⟨.locked hnone, fun _ => ⟨hs, rfl⟩⟩

theorem takes_leave (hop : op = .create) {e : PoolError} :
    Takes V i op (fun s => Doing i .cleaning s ∧ Held i s) (leave i e) fun _ _ => True := by
  refine ensures_step (stable_doing.and stable_held) (fun _ => stable_const _)
    fun s c a s' _ hs h => ?_
  obtain ⟨⟨t, ht, hphase⟩, hheld⟩ := hs
  obtain ⟨t', ht', h⟩ := Option.map_eq_some_iff.1 h
  rw [ht] at ht'
  cases ht'
  cases h
  exact ⟨.left hop hheld ht hphase, trivial⟩

theorem takes_cleanUp (hop : op = .create) {e : PoolError} :
    Takes V i op (Doing i .cleaning) (cleanUp i e) fun _ _ => True := by
  -- the candidate, if there is one, is stopped
  let handling (t : CreationTask Key) (s : MCPServerPool Key) : Prop :=
    Doing i .cleaning s ∧ ∀ id, t.candidate = some id → Candidate i id s
  have hhandling (t : CreationTask Key) : Stable (poolContract V i op) (handling t) :=
    stable_doing.and fun s s' h hrely id hid => stable_candidate s s' (h id hid) hrely
  refine ensures_bind (Q := handling)
    (ensures_reads stable_doing hhandling ?_ ?_) fun t => ?_
  · intro s c a s' h
    obtain ⟨t, -, h⟩ := Option.map_eq_some_iff.1 h
    exact (Prod.mk.inj h).2.symm
  · rintro s c a _ ⟨t, ht, hphase⟩ h
    obtain ⟨t', ht', h⟩ := Option.map_eq_some_iff.1 h
    rw [ht] at ht'
    cases ht'
    cases h
    exact ⟨⟨_, ht, hphase⟩, fun id hid => ⟨_, ⟨ht, not_done (.inr hphase)⟩, hid⟩⟩
  have hstop : Takes V i op (handling t) (stopCandidate i t.candidate)
      (Goes (Doing i .cleaning)) := by
    rcases hcandidate : t.candidate with _ | id
    · exact ensures_pure (hhandling t) fun s _ hs _ => hs.1
    · refine ensures_bind (takes_closing (hhandling t) (fun s hs => hs)
        fun s hs => .inl (hs.2 id hcandidate)) fun _ => ?_
      exact (takes_cleanupAwait hop).strengthen fun s hs => hs.1
  refine ensures_bind hstop fun stopped => ?_
  cases stopped with
  | false => exact ensures_pure (stable_goes stable_doing _) fun _ _ _ => trivial
  | true =>
    refine ensures_bind ((takes_cleanupLock hop).strengthen fun s hs => hs rfl) fun locked => ?_
    cases locked with
    | false =>
      exact ensures_pure (stable_goes (stable_doing.and stable_held) _) fun _ _ _ => trivial
    | true => exact (takes_leave hop).strengthen fun s hs => hs rfl

theorem takes_createServer (hop : op = .create) :
    Takes V i op (fun _ => True) (createServer V i) fun _ _ => True := by
  refine ensures_bind (takes_attempt hop) fun r => ?_
  cases r with
  | error e => exact takes_cleanUp hop
  | ok _ => exact takes_pure

/-! ## Removing -/

theorem takes_remove {key : Key} :
    Takes V i (.remove key) (fun _ => True) (remove i key) fun _ _ => True := by
  refine ensures_bind takes_acquireLock fun r => ?_
  cases r with
  | error e => exact takes_pure
  | ok _ =>
    refine ensures_bind (Q := fun _ _ => True)
      (ensures_step stable_held (fun _ => stable_const _) ?_) fun removed => ?_
    · rintro s c a s' _ hs ⟨⟩
      exact ⟨.taken rfl hs, trivial⟩
    obtain ⟨server, task⟩ := removed
    refine ensures_bind (Q := fun _ _ => True) ?_ fun r => ?_
    · cases server with
      | none => exact takes_pure
      | some id => exact takes_await (stable_const _)
    rcases r with e | n
    · exact takes_pure
    cases task with
    | none => exact takes_pure
    | some j =>
      refine ensures_step (stable_const _) (fun _ => stable_const _) fun s c a s' _ _ h => ?_
      cases c with
      | cancelled =>
        cases h
        exact ⟨.requested rfl, trivial⟩
      | returns _ | raises =>
        have hs : s' = s := by
          dsimp only at h
          split at h <;> cases h
          rfl
        rw [hs]
        exact ⟨.idle, trivial⟩

theorem takes_shutdown : Takes V i .shutdown (fun _ => True)
    (shutdown i : PoolOperation Key (Except PoolError Unit)) fun _ _ => True := by
  refine ensures_bind takes_acquireLock fun r => ?_
  cases r with
  | error e => exact takes_pure
  | ok _ =>
    refine ensures_bind (Q := fun _ _ => True)
      (ensures_step stable_held (fun _ => stable_const _) fun s c a s' _ hs h => ?_) fun _ => ?_
    · split_ifs at h <;> cases h
      · have hstep : PoolStep V i .shutdown s (s.touch none s.reaper) := .touched hs (.inl rfl)
        exact ⟨hstep, trivial⟩
      · exact ⟨.cleared rfl hs, trivial⟩
    · refine ensures_bind (takes_await (stable_const _)) fun r => ?_
      cases r <;> exact takes_pure

/-! ## Reaping -/

theorem closed_retireAll {ms : List (Key × ℕ)} (h : ∀ m ∈ ms, s.Spare V m.2) :
    ∀ m ∈ ms, (s.retireAll ms).Closed m.2 := by
  induction ms generalizing s with
  | nil => exact fun m hm => absurd hm List.not_mem_nil
  | cons m ms ih =>
    intro m' hm'
    rcases List.mem_cons.1 hm' with rfl | hm'
    · exact (shrinks_retireAll ms _).closed (closed_retire (h m' List.mem_cons_self))
    · refine ih (fun n hn => ?_) m' hm'
      obtain ⟨lastUsed, leased, hunused, hidle⟩ :=
        spare_iff.1 (h n (List.mem_cons_of_mem _ hn))
      exact spare_iff.2 ⟨lastUsed, leased, hunused.of_shrinks (shrinks_retire m s), hidle⟩

/-- Servers that have been closed are closed again. -/
theorem takes_closeAll (ms : List (Key × ℕ)) :
    Takes V i op (fun s => ∀ m ∈ ms, s.Closed m.2) (ms.forM fun m => closing m.2)
      fun _ _ => True := by
  have hstable (ms : List (Key × ℕ)) :
      Stable (poolContract V i op) fun s => ∀ m ∈ ms, s.Closed m.2 :=
    fun s s' h hrely m hm => stable_closed s s' (h m hm) hrely
  induction ms with
  | nil => exact ensures_pure (hstable []) fun _ _ _ => trivial
  | cons m ms ih =>
    refine ensures_bind (takes_closing (hstable (m :: ms)) (fun s hs n hn =>
      (shrinks_close m.2 s).closed (hs n hn)) fun s hs => .inr (hs m List.mem_cons_self))
      fun _ => ?_
    exact Ensures.strengthen ih fun s hs n hn => hs n (List.mem_cons_of_mem _ hn)

theorem takes_reap {now : ℕ} : Takes V i op (fun s => Held i s ∧ now ≤ s.now) (reap V now)
    fun (ms : List (Key × ℕ)) s => ∀ m ∈ ms, s.Closed m.2 := by
  refine ensures_step (stable_held.and stable_now)
    (fun ms s s' h hrely m hm => stable_closed s s' (h m hm) hrely) ?_
  rintro s c ms s' _ ⟨hheld, hnow⟩ h
  cases h
  have hms : ∀ m ∈ s.servers.filter fun m => s.managed[m.2]?.any fun server =>
      server.activeRequests = 0 ∧ server.lastUsed + V.idleTtl ≤ now,
      m ∈ s.servers ∧ s.Spare V m.2 := by
    intro m hm
    obtain ⟨hmem, hidle⟩ := List.mem_filter.1 hm
    obtain ⟨server, hserver, hidle⟩ := (Option.any_eq_true _ _).1 hidle
    have hidle := of_decide_eq_true hidle
    exact ⟨hmem, server, hserver, hidle.1, .inr (Nat.le_trans hidle.2 hnow)⟩
  refine ⟨?_, closed_retireAll fun m hm => (hms m hm).2⟩
  exact PoolStep.retired (r := (s.retireAll _).reaper) hheld (.inl rfl) hms

theorem takes_reapIdleServers :
    Takes V i op (fun _ => True) (reapIdleServers V i : PoolOperation Key PoolError)
      fun _ _ => True := by
  have hpure {β : Type} (r : β) {Q : MCPServerPool Key → Prop}
      (hQ : Stable (poolContract V i op) Q) :
      Takes V i op Q (.pure r) fun _ _ => True := ensures_pure hQ fun _ _ _ => trivial
  refine ensures_bind (Q := fun _ _ => True)
    (ensures_reads (stable_const _) (fun _ => stable_const _) ?_ fun _ _ _ _ _ _ => trivial)
    fun _ => ?_
  · intro s c a s' h
    split_ifs at h
    cases h
    rfl
  refine ensures_loop (Q := fun _ _ => True) (stable_const _) (fun s hinv => ⟨hinv, .idle⟩) ?_
    fun _ => takes_pure
  refine (?_ : Takes V i op (fun _ => True) _ fun _ _ => True).imp (fun _ _ => trivial)
    fun r _ _ _ => by cases r <;> trivial
  refine ensures_bind (takes_await (stable_const _)) fun r => ?_
  rcases r with e | n
  · exact takes_pure
  refine ensures_bind (Q := fun now s => now ≤ s.now)
    (ensures_reads (stable_const _) (fun _ => stable_now) ?_ ?_) fun now => ?_
  · rintro s c a s' ⟨⟩
    rfl
  · rintro s c a _ _ ⟨⟩
    exact Nat.le_refl _
  refine ensures_bind (takes_acquireLock_and stable_now fun _ h => h) fun r => ?_
  cases r with
  | error e => exact hpure _ ((stable_const _).and stable_now)
  | ok _ =>
    refine ensures_bind takes_reap fun ms => ?_
    refine ensures_bind (takes_closeAll ms) fun _ => ?_
    refine ensures_bind (takes_await (stable_const _)) fun r => ?_
    cases r <;> exact takes_pure

/-- Every operation takes only the steps that it may. -/
theorem takes_program (i : ℕ) (op : PoolOp Key) :
    Takes V i op (fun _ => True) (program V i op) fun _ _ => True := by
  cases op with
  | acquire key => exact takes_acquire
  | release l => exact takes_release
  | create => exact takes_createServer rfl
  | remove key => exact takes_remove
  | shutdown => exact takes_shutdown
  | reap => exact takes_reapIdleServers

end MCPServerPool

end Hyperforge.Mcp
