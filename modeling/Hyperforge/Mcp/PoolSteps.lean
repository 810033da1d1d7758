import Hyperforge.Mcp.ServerPool

/-!
# Steps of the pool of MCP servers

What the operations do to a pool (`PoolStep`), and what all of that keeps (`PoolInvariant`): the
pool has no more servers and creations than it may; a server counts the leases of it that have not
been released; and a creation task that has not ended is that of its key.
-/

namespace Hyperforge.Mcp

open Concurrent Json

namespace MCPServerPool

variable {Key : Type}

/-- The leases of a server that have not been released. -/
def unreleased (s : MCPServerPool Key) (id : ℕ) : ℕ :=
  s.leases.countP fun l => l.server = id ∧ l.released = false

/-- A creation task that has not ended. -/
def Unfinished (s : MCPServerPool Key) (j : ℕ) (t : CreationTask Key) : Prop :=
  s.tasks j = some t ∧ ∀ r, t.phase ≠ .done r

/-- A server that is in no request, and has been leased before or been idle for long enough. -/
def Spare (V : PoolSettings) (s : MCPServerPool Key) (id : ℕ) : Prop :=
  ∃ m, s.managed[id]? = some m ∧ m.activeRequests = 0 ∧
    (m.hasBeenLeased = true ∨ m.lastUsed + V.idleTtl ≤ s.now)

def Closed (s : MCPServerPool Key) (id : ℕ) : Prop :=
  ∃ m, s.managed[id]? = some m ∧ m.closed = true

/-- The lock and the reaper have changed. -/
def touch (l r : Option ℕ) (s : MCPServerPool Key) : MCPServerPool Key :=
  { s with lock := l, reaper := r }

variable {j : ℕ} {s s' s'' : MCPServerPool Key}

/-! ## Steps that only take away -/

/-- Servers have gone or been closed, and cancellations requested; time may have passed. -/
structure Shrinks (s s' : MCPServerPool Key) : Prop where
  servers : s'.servers.Sublist s.servers
  creating : s'.creating = s.creating
  shuttingDown : s'.shuttingDown = s.shuttingDown
  leases : s'.leases = s.leases
  managed : ∀ id : ℕ, s'.managed[id]? = s.managed[id]? ∨
    s'.managed[id]? = s.managed[id]?.map ManagedMCPServer.close
  tasks : ∀ j, s'.tasks j = s.tasks j ∨
    s'.tasks j = (s.tasks j).map fun t => { t with cancelling := true }
  now : s.now ≤ s'.now

theorem Shrinks.refl (s : MCPServerPool Key) : Shrinks s s :=
  ⟨.refl _, rfl, rfl, rfl, fun _ => .inl rfl, fun _ => .inl rfl, le_rfl⟩

theorem Shrinks.trans (h : Shrinks s s') (h' : Shrinks s' s'') : Shrinks s s'' where
  servers := h'.servers.trans h.servers
  creating := h'.creating.trans h.creating
  shuttingDown := h'.shuttingDown.trans h.shuttingDown
  leases := h'.leases.trans h.leases
  managed id := by
    rcases h.managed id with heq | heq <;> rcases h'.managed id with heq' | heq' <;>
      rw [heq', heq]
    · exact .inl rfl
    · exact .inr rfl
    · exact .inr rfl
    · right
      rw [Option.map_map]
      rfl
  tasks j := by
    rcases h.tasks j with heq | heq <;> rcases h'.tasks j with heq' | heq' <;> rw [heq', heq]
    · exact .inl rfl
    · exact .inr rfl
    · exact .inr rfl
    · right
      rw [Option.map_map]
      rfl
  now := Nat.le_trans h.now h'.now

theorem Shrinks.of_foldl {α : Type} {f : MCPServerPool Key → α → MCPServerPool Key}
    (hf : ∀ s a, Shrinks s (f s a)) (as : List α) (s : MCPServerPool Key) :
    Shrinks s (as.foldl f s) := by
  induction as generalizing s with
  | nil => exact .refl s
  | cons a as ih => exact (hf s a).trans (ih (f s a))

theorem shrinks_close (id : ℕ) (s : MCPServerPool Key) : Shrinks s (s.close id) where
  servers := .refl _
  creating := rfl
  shuttingDown := rfl
  leases := rfl
  managed j := by
    rw [close, List.getElem?_modify]
    split_ifs
    · exact .inr rfl
    · left
      rw [Option.map_eq_map]
      exact Option.map_id'
  tasks _ := .inl rfl
  now := le_rfl

theorem shrinks_requestCancel (j : ℕ) (s : MCPServerPool Key) : Shrinks s (s.requestCancel j) :=
  { Shrinks.refl s with
    tasks := fun k => by
      rw [requestCancel]
      rcases eq_or_ne k j with rfl | hne
      · exact .inr (Function.update_self ..)
      · exact .inl (Function.update_of_ne hne ..) }

theorem shrinks_touch (l r : Option ℕ) (s : MCPServerPool Key) : Shrinks s (s.touch l r) :=
  { Shrinks.refl s with }

theorem shrinks_tick {d : ℕ} (h : tick s d = some s') : Shrinks s s' := by
  cases h
  exact { Shrinks.refl s with now := Nat.le_add_right _ _ }

theorem Shrinks.length_managed (h : Shrinks s s') : s'.managed.length = s.managed.length := by
  refine Nat.le_antisymm ?_ ?_ <;> by_contra hlt <;> rw [not_le] at hlt
  · rcases h.managed s.managed.length with heq | heq <;>
      rw [List.getElem?_eq_none le_rfl, List.getElem?_eq_getElem hlt] at heq <;> cases heq
  · rcases h.managed s'.managed.length with heq | heq <;>
      rw [List.getElem?_eq_none (l := s'.managed) le_rfl, List.getElem?_eq_getElem hlt] at heq <;>
      cases heq

theorem Shrinks.server (h : Shrinks s s') {id : ℕ} {m' : ManagedMCPServer}
    (hm' : s'.managed[id]? = some m') :
    ∃ m, s.managed[id]? = some m ∧ (m' = m ∨ m' = m.close) := by
  rcases h.managed id with heq | heq <;> rw [hm'] at heq
  · exact ⟨m', heq.symm, .inl rfl⟩
  · obtain ⟨m, hm, rfl⟩ := Option.map_eq_some_iff.1 heq.symm
    exact ⟨m, hm, .inr rfl⟩

theorem Shrinks.task (h : Shrinks s s') {j : ℕ} {t' : CreationTask Key}
    (ht' : s'.tasks j = some t') :
    ∃ t, s.tasks j = some t ∧ (t' = t ∨ t' = { t with cancelling := true }) := by
  rcases h.tasks j with heq | heq <;> rw [ht'] at heq
  · exact ⟨t', heq.symm, .inl rfl⟩
  · obtain ⟨t, ht, rfl⟩ := Option.map_eq_some_iff.1 heq.symm
    exact ⟨t, ht, .inr rfl⟩

theorem Shrinks.unreleased (h : Shrinks s s') (id : ℕ) : s'.unreleased id = s.unreleased id := by
  rw [MCPServerPool.unreleased, MCPServerPool.unreleased, h.leases]

theorem Shrinks.unfinished (h : Shrinks s s') {t' : CreationTask Key}
    (ht' : s'.Unfinished j t') :
    ∃ t, s.Unfinished j t ∧ (t' = t ∨ t' = { t with cancelling := true }) := by
  obtain ⟨t, ht, heq⟩ := h.task ht'.1
  refine ⟨t, ⟨ht, ?_⟩, heq⟩
  rcases heq with rfl | rfl
  · exact ht'.2
  · exact ht'.2

theorem Shrinks.closed (h : Shrinks s s') {id : ℕ} (hid : s.Closed id) : s'.Closed id := by
  obtain ⟨m, hm, hclosed⟩ := hid
  rcases h.managed id with heq | heq <;> rw [hm] at heq
  · exact ⟨m, heq, hclosed⟩
  · exact ⟨m.close, heq, rfl⟩

theorem tasks_setTask (i j : ℕ) (t : CreationTask Key) (s : MCPServerPool Key) :
    (s.setTask i t).tasks j = if j = i then some t else s.tasks j := Function.update_apply ..

theorem unreleased_lease (s : MCPServerPool Key) (id k : ℕ) :
    (s.lease id).unreleased k = s.unreleased k + if id = k then 1 else 0 := by
  rw [unreleased, lease, List.countP_append]
  congr 1
  rw [List.countP_singleton]
  simp

theorem server_lease {id k : ℕ} {m' : ManagedMCPServer}
    (h : (s.lease id).managed[k]? = some m') : ∃ m, s.managed[k]? = some m ∧
      m' = if id = k then m.reserveRequest s.now else m := by
  rw [lease, List.getElem?_modify] at h
  obtain ⟨m, hm, rfl⟩ := Option.map_eq_some_iff.1 h
  refine ⟨m, hm, ?_⟩
  split_ifs <;> rfl

variable [DecidableEq Key]

theorem shrinks_retire (m : Key × ℕ) (s : MCPServerPool Key) : Shrinks s (s.retire m) :=
  { shrinks_close m.2 s with servers := pop_sublist _ _ }

/-! ## Steps -/

/-- Servers are retired, one after another. -/
def retireAll (ms : List (Key × ℕ)) (s : MCPServerPool Key) : MCPServerPool Key :=
  ms.foldl (fun s m => s.retire m) s

/-- What a step of the `i`-th operation does to a pool. -/
inductive PoolStep (V : PoolSettings) (i : ℕ) (op : PoolOp Key) (s : MCPServerPool Key) :
    MCPServerPool Key → Prop
  | idle : PoolStep V i op s s
  | locked (h : s.lock = none) : PoolStep V i op s { s with lock := some i }
  | touched {l r : Option ℕ} (h : s.lock = some i) (hl : l = none ∨ l = some i) :
    PoolStep V i op s (s.touch l r)
  | retired {ms : List (Key × ℕ)} {l r : Option ℕ} (h : s.lock = some i)
    (hl : l = none ∨ l = some i) (hms : ∀ m ∈ ms, m ∈ s.servers ∧ s.Spare V m.2) :
    PoolStep V i op s ((s.retireAll ms).touch l r)
  | leased {key : Key} {id : ℕ} {r : Option ℕ} (h : s.lock = some i)
    (hdown : s.shuttingDown = false) (hid : (key, id) ∈ s.servers) :
    PoolStep V i op s ((s.lease id).touch none r)
  | spawned {key : Key} {stale : Option ℕ} {j : ℕ} (h : s.lock = some i)
    (hdown : s.shuttingDown = false) (hkey : s.creating.lookup key = none) (hj : s.tasks j = none)
    (hfull : s.servers.length + s.creating.length < V.maxServers)
    (hstale : ∀ id, stale = some id → s.Closed id) :
    PoolStep V i op s { s.setTask j ⟨key, stale, none, false, .running⟩ with
      creating := assign key j s.creating
      lock := none }
  | made {t : CreationTask Key} {n : ℕ} (hop : op = .create) (ht : s.tasks i = some t)
    (hphase : t.phase = .running) : PoolStep V i op s
      { s.setTask i { t with candidate := some s.managed.length, cancelling := false } with
        managed := s.managed ++ [⟨false, 0, min n s.now, false⟩] }
  | raised {t : CreationTask Key} {l : Option ℕ} (hop : op = .create) (ht : s.Unfinished i t)
    (hl : l = s.lock ∨ s.lock = some i ∧ l = none) : PoolStep V i op s
      { s.setTask i { t with phase := .cleaning, cancelling := false } with lock := l }
  | registered {t : CreationTask Key} {c : ℕ} (hop : op = .create) (h : s.lock = some i)
    (hdown : s.shuttingDown = false) (ht : s.tasks i = some t) (hphase : t.phase = .running)
    (hc : t.candidate = some c) : PoolStep V i op s
      { s.setTask i { t with phase := .done (.ok c) } with
        servers := assign t.key c s.servers
        creating := pop t.key s.creating
        lock := none }
  | stopped {id : ℕ} (h : (∃ t, s.Unfinished i t ∧ t.candidate = some id) ∨ s.Closed id) :
    PoolStep V i op s (s.close id)
  | aborted {t : CreationTask Key} (hop : op = .create) (ht : s.tasks i = some t)
    (hphase : t.phase = .cleaning) (hcancelling : t.cancelling = true) : PoolStep V i op s
      (s.setTask i { t with phase := .done (.error .cancelled), cancelling := false })
  | left {t : CreationTask Key} {e : PoolError} (hop : op = .create) (h : s.lock = some i)
    (ht : s.tasks i = some t) (hphase : t.phase = .cleaning) : PoolStep V i op s
      { s.setTask i { t with phase := .done (.error e) } with
        creating := if s.creating.lookup t.key = some i then pop t.key s.creating else s.creating
        lock := none }
  | taken {key : Key} (hop : op = .remove key) (h : s.lock = some i) :
    PoolStep V i op s (
      let server := s.servers.lookup key
      let task := s.creating.lookup key
      let s := { s with servers := pop key s.servers, lock := none }
      let s := task.elim s fun j => s.requestCancel j
      server.elim s fun id => s.close id)
  | requested {key : Key} {j : ℕ} (hop : op = .remove key) : PoolStep V i op s (s.requestCancel j)
  | cleared (hop : op = .shutdown) (h : s.lock = some i) : PoolStep V i op s (
      let s' := s.creating.foldl (fun s m => s.requestCancel m.2) s
      let s' := s.servers.foldl (fun s m => s.close m.2) s'
      { s' with servers := [], creating := [], shuttingDown := true, lock := none })
  | released {l : ℕ} {lease : MCPRequestLease} {m : ManagedMCPServer} (hop : op = .release l)
    (hl : s.leases[l]? = some lease) (hlease : lease.released = false)
    (hm : s.managed[lease.server]? = some m) : PoolStep V i op s
      { s with
        leases := s.leases.set l { lease with released := true }
        managed := s.managed.set lease.server (m.releaseRequest s.now) }

/-- What holds of a pool in any state. -/
structure PoolInvariant (V : PoolSettings) (s : MCPServerPool Key) : Prop where
  capacity : s.servers.length + s.creating.length ≤ V.maxServers
  counted : ∀ id m, s.managed[id]? = some m → m.activeRequests = (s.unreleased id : ℤ)
  leased : ∀ id m, s.managed[id]? = some m →
    (m.hasBeenLeased = true ↔ ∃ l ∈ s.leases, l.server = id)
  lessees : ∀ l ∈ s.leases, l.server < s.managed.length
  registered : ∀ m ∈ s.servers, m.2 < s.managed.length
  entry : ∀ m ∈ s.creating, ∃ t, s.tasks m.2 = some t ∧ t.key = m.1
  unfinished : s.shuttingDown = false → ∀ j t, s.Unfinished j t →
    s.creating.lookup t.key = some j
  made : ∀ j t c, s.tasks j = some t → t.candidate = some c → c < s.managed.length
  candidate : ∀ j t c, s.Unfinished j t → t.candidate = some c →
    (∀ m ∈ s.servers, m.2 ≠ c) ∧ ∀ l ∈ s.leases, l.server ≠ c
  distinct : ∀ j j' t t' c, s.tasks j = some t → s.tasks j' = some t' → t.candidate = some c →
    t'.candidate = some c → j = j'
  stale : ∀ j t id, s.tasks j = some t → t.stale = some id → s.Closed id
  down : s.shuttingDown = true → s.servers = [] ∧ s.creating = []

variable {V : PoolSettings} {i : ℕ} {op : PoolOp Key}

/-! ## The invariant -/

theorem PoolInvariant.shrinks (hinv : PoolInvariant V s) (h : Shrinks s s') :
    PoolInvariant V s' where
  capacity := by
    rw [h.creating]
    exact Nat.le_trans (Nat.add_le_add_right h.servers.length_le _) hinv.capacity
  counted id m' hm' := by
    obtain ⟨m, hm, rfl | rfl⟩ := h.server hm' <;> rw [h.unreleased]
    · exact hinv.counted id m' hm
    · exact hinv.counted id m hm
  leased id m' hm' := by
    obtain ⟨m, hm, rfl | rfl⟩ := h.server hm' <;> rw [h.leases]
    · exact hinv.leased id m' hm
    · exact hinv.leased id m hm
  lessees := by
    rw [h.leases, h.length_managed]
    exact hinv.lessees
  registered m hm := by
    rw [h.length_managed]
    exact hinv.registered m (h.servers.subset hm)
  entry m hm := by
    rw [h.creating] at hm
    obtain ⟨t, ht, hkey⟩ := hinv.entry m hm
    rcases h.tasks m.2 with heq | heq <;> rw [heq, ht]
    · exact ⟨t, rfl, hkey⟩
    · exact ⟨_, rfl, hkey⟩
  unfinished hdown j t' ht' := by
    rw [h.shuttingDown] at hdown
    rw [h.creating]
    obtain ⟨t, ht, rfl | rfl⟩ := h.unfinished ht'
    · exact hinv.unfinished hdown j t' ht
    · exact hinv.unfinished hdown j t ht
  made j t' c ht' hc := by
    rw [h.length_managed]
    obtain ⟨t, ht, rfl | rfl⟩ := h.task ht'
    · exact hinv.made j t' c ht hc
    · exact hinv.made j t c ht hc
  candidate j t' c ht' hc := by
    obtain ⟨t, ht, heq⟩ := h.unfinished ht'
    have hc : t.candidate = some c := by
      rcases heq with rfl | rfl
      · exact hc
      · exact hc
    obtain ⟨hservers, hleases⟩ := hinv.candidate j t c ht hc
    rw [h.leases]
    exact ⟨fun m hm => hservers m (h.servers.subset hm), hleases⟩
  distinct j j' t t' c ht ht' hc hc' := by
    obtain ⟨u, hu, heq⟩ := h.task ht
    obtain ⟨u', hu', heq'⟩ := h.task ht'
    refine hinv.distinct j j' u u' c hu hu' ?_ ?_
    · rcases heq with rfl | rfl
      · exact hc
      · exact hc
    · rcases heq' with rfl | rfl
      · exact hc'
      · exact hc'
  stale j t' id ht' hid := by
    obtain ⟨t, ht, heq⟩ := h.task ht'
    refine h.closed (hinv.stale j t id ht ?_)
    rcases heq with rfl | rfl
    · exact hid
    · exact hid
  down hdown := by
    rw [h.shuttingDown] at hdown
    obtain ⟨hservers, hcreating⟩ := hinv.down hdown
    rw [h.creating]
    have hnil := h.servers
    rw [hservers] at hnil
    exact ⟨List.sublist_nil.1 hnil, hcreating⟩

/-- A creation task goes on, and does not begin again. -/
theorem PoolInvariant.setTask (hinv : PoolInvariant V s) {t t' : CreationTask Key}
    (ht : s.tasks i = some t) (hkey : t'.key = t.key) (hcandidate : t'.candidate = t.candidate)
    (hstale : t'.stale = t.stale)
    (hphase : (∀ r, t'.phase ≠ .done r) → ∀ r, t.phase ≠ .done r) :
    PoolInvariant V (s.setTask i t') := by
  have htask (j : ℕ) (u' : CreationTask Key) (hu' : (s.setTask i t').tasks j = some u') :
      ∃ u, s.tasks j = some u ∧ u'.key = u.key ∧ u'.candidate = u.candidate ∧
        u'.stale = u.stale ∧ ((∀ r, u'.phase ≠ .done r) → ∀ r, u.phase ≠ .done r) := by
    rw [tasks_setTask] at hu'
    split_ifs at hu' with hj
    · cases hu'
      exact ⟨t, hj ▸ ht, hkey, hcandidate, hstale, hphase⟩
    · exact ⟨u', hu', rfl, rfl, rfl, fun h => h⟩
  refine ⟨hinv.capacity, hinv.counted, hinv.leased, hinv.lessees, hinv.registered, ?_, ?_, ?_, ?_,
    ?_, ?_, hinv.down⟩
  · intro m hm
    obtain ⟨u, hu, hm⟩ := hinv.entry m hm
    rw [tasks_setTask]
    split_ifs with hi
    · rw [hi, ht] at hu
      cases hu
      exact ⟨t', rfl, hkey.trans hm⟩
    · exact ⟨u, hu, hm⟩
  · intro hdown j u' hu'
    obtain ⟨u, hu, hkey, -, -, hphase⟩ := htask j u' hu'.1
    rw [hkey]
    exact hinv.unfinished hdown j u ⟨hu, hphase hu'.2⟩
  · intro j u' c hu' hc
    obtain ⟨u, hu, -, hcandidate, -⟩ := htask j u' hu'
    exact hinv.made j u c hu (hcandidate ▸ hc)
  · intro j u' c hu' hc
    obtain ⟨u, hu, -, hcandidate, -, hphase⟩ := htask j u' hu'.1
    exact hinv.candidate j u c ⟨hu, hphase hu'.2⟩ (hcandidate ▸ hc)
  · intro j k u' w' c hu' hw' hc hc'
    obtain ⟨u, hu, -, hcandidate, -⟩ := htask j u' hu'
    obtain ⟨w, hw, -, hcandidate', -⟩ := htask k w' hw'
    exact hinv.distinct j k u w c hu hw (hcandidate ▸ hc) (hcandidate' ▸ hc')
  · intro j u' id hu' hid
    obtain ⟨u, hu, -, -, hstale, -⟩ := htask j u' hu'
    exact hinv.stale j u id hu (hstale ▸ hid)

theorem PoolInvariant.lease (hinv : PoolInvariant V s) {key : Key} {id : ℕ}
    (hid : (key, id) ∈ s.servers) : PoolInvariant V (s.lease id) := by
  have hlength : (s.lease id).managed.length = s.managed.length := List.length_modify ..
  refine ⟨hinv.capacity, ?_, ?_, ?_, ?_, hinv.entry, hinv.unfinished, ?_, ?_, hinv.distinct, ?_,
    hinv.down⟩
  · intro k m' hm'
    obtain ⟨m, hm, rfl⟩ := server_lease hm'
    rw [unreleased_lease]
    split_ifs
    · rw [Int.natCast_add, ← hinv.counted k m hm]
      rfl
    · exact hinv.counted k m hm
  · intro k m' hm'
    obtain ⟨m, hm, rfl⟩ := server_lease hm'
    rw [MCPServerPool.lease]
    dsimp only
    split_ifs with hk
    · exact ⟨fun _ => ⟨_, List.mem_append_right _ (List.mem_singleton_self _), hk⟩, fun _ => rfl⟩
    · rw [hinv.leased k m hm]
      simp [hk, or_and_right, exists_or]
  · intro l hl
    rw [hlength]
    rcases List.mem_append.1 hl with hl | hl
    · exact hinv.lessees l hl
    · rw [List.mem_singleton.1 hl]
      exact hinv.registered _ hid
  · intro m hm
    rw [hlength]
    exact hinv.registered m hm
  · intro j t c ht hc
    rw [hlength]
    exact hinv.made j t c ht hc
  · intro j t c ht hc
    obtain ⟨hservers, hleases⟩ := hinv.candidate j t c ht hc
    refine ⟨hservers, fun l hl => ?_⟩
    rcases List.mem_append.1 hl with hl | hl
    · exact hleases l hl
    · rw [List.mem_singleton.1 hl]
      exact hservers _ hid
  · intro j t k ht hk
    obtain ⟨m, hm, hclosed⟩ := hinv.stale j t k ht hk
    refine ⟨if id = k then m.reserveRequest s.now else m, ?_, ?_⟩
    · rw [MCPServerPool.lease, List.getElem?_modify, hm]
      split_ifs <;> rfl
    · split_ifs <;> exact hclosed

/-- A new server, which is the candidate of a task. -/
theorem PoolInvariant.make (hinv : PoolInvariant V s) {t : CreationTask Key}
    {m : ManagedMCPServer} (hm : m.hasBeenLeased = false ∧ m.activeRequests = 0)
    (ht : s.Unfinished i t) : PoolInvariant V
      { s.setTask i { t with candidate := some s.managed.length, cancelling := false } with
        managed := s.managed ++ [m] } := by
  have hserver (id : ℕ) (m' : ManagedMCPServer) (hm' : (s.managed ++ [m])[id]? = some m') :
      s.managed[id]? = some m' ∨ id = s.managed.length ∧ m' = m := by
    rcases Nat.lt_or_ge id s.managed.length with hlt | hge
    · rw [List.getElem?_append_left hlt] at hm'
      exact .inl hm'
    · obtain ⟨hlt, -⟩ := List.getElem?_eq_some_iff.1 hm'
      rw [List.length_append, List.length_singleton] at hlt
      obtain rfl : id = s.managed.length := by omega
      rw [List.getElem?_concat_length] at hm'
      exact .inr ⟨rfl, (Option.some.inj hm').symm⟩
  -- nobody has a lease of it yet
  have hnew (l : MCPRequestLease) (hl : l ∈ s.leases) : l.server ≠ s.managed.length :=
    Nat.ne_of_lt (hinv.lessees l hl)
  have hcandidate (j : ℕ) (t' : CreationTask Key) (c : ℕ)
      (ht' : (s.setTask i { t with candidate := some s.managed.length, cancelling := false }).tasks
        j = some t') (hc : t'.candidate = some c) :
      j = i ∧ c = s.managed.length ∨ j ≠ i ∧ s.tasks j = some t' := by
    rw [tasks_setTask] at ht'
    split_ifs at ht' with hj
    · cases ht'
      exact .inl ⟨hj, (Option.some.inj hc).symm⟩
    · exact .inr ⟨hj, ht'⟩
  refine ⟨hinv.capacity, ?_, ?_, ?_, ?_, ?_, ?_, ?_, ?_, ?_, ?_, hinv.down⟩
  · intro id m' hm'
    rcases hserver id m' hm' with h | ⟨rfl, rfl⟩
    · exact hinv.counted id m' h
    · have hzero : s.unreleased s.managed.length = 0 := by
        refine List.countP_eq_zero.2 fun l hl h => hnew l hl ?_
        exact (of_decide_eq_true h).1
      rw [hm.2]
      exact (congrArg Nat.cast hzero).symm
  · intro id m' hm'
    rcases hserver id m' hm' with h | ⟨rfl, rfl⟩
    · exact hinv.leased id m' h
    · rw [hm.1]
      exact ⟨fun h => absurd h Bool.false_ne_true, fun ⟨l, hl, h⟩ => absurd h (hnew l hl)⟩
  · intro l hl
    rw [List.length_append]
    exact Nat.lt_add_right _ (hinv.lessees l hl)
  · intro m' hm'
    rw [List.length_append]
    exact Nat.lt_add_right _ (hinv.registered m' hm')
  · intro m' hm'
    obtain ⟨u, hu, hkey⟩ := hinv.entry m' hm'
    dsimp only
    rw [tasks_setTask]
    split_ifs with hi
    · rw [hi, ht.1] at hu
      cases hu
      exact ⟨_, rfl, hkey⟩
    · exact ⟨u, hu, hkey⟩
  · intro hdown j t' ht'
    obtain ⟨ht', hphase⟩ := ht'
    dsimp only at ht'
    rw [tasks_setTask] at ht'
    split_ifs at ht' with hj
    · cases ht'
      rw [hj]
      exact hinv.unfinished hdown i t ht
    · exact hinv.unfinished hdown j t' ⟨ht', hphase⟩
  · intro j t' c ht' hc
    rw [List.length_append, List.length_singleton]
    rcases hcandidate j t' c ht' hc with ⟨-, rfl⟩ | ⟨-, ht'⟩
    · exact Nat.lt_succ_self _
    · exact Nat.lt_succ_of_lt (hinv.made j t' c ht' hc)
  · intro j t' c ht' hc
    rcases hcandidate j t' c ht'.1 hc with ⟨-, rfl⟩ | ⟨-, h⟩
    · exact ⟨fun m' hm' => Nat.ne_of_lt (hinv.registered m' hm'), hnew⟩
    · exact hinv.candidate j t' c ⟨h, ht'.2⟩ hc
  · intro j k t' u' c ht' hu' hc hc'
    rcases hcandidate j t' c ht' hc with ⟨rfl, rfl⟩ | ⟨-, hj⟩ <;>
      rcases hcandidate k u' _ hu' hc' with ⟨rfl, h⟩ | ⟨-, hk⟩
    · rfl
    · exact absurd (hinv.made k u' _ hk hc') (Nat.lt_irrefl _)
    · subst h
      exact absurd (hinv.made j t' _ hj hc) (Nat.lt_irrefl _)
    · exact hinv.distinct j k t' u' c hj hk hc hc'
  · intro j t' id ht' hid
    have hclosed : s.Closed id := by
      dsimp only at ht'
      rw [tasks_setTask] at ht'
      split_ifs at ht'
      · cases ht'
        exact hinv.stale i t id ht.1 hid
      · exact hinv.stale j t' id ht' hid
    obtain ⟨m', hm', hclosed⟩ := hclosed
    refine ⟨m', ?_, hclosed⟩
    dsimp only
    rw [List.getElem?_append_left (List.getElem?_eq_some_iff.1 hm').1, hm']

/-- A new creation task. -/
theorem PoolInvariant.spawn (hinv : PoolInvariant V s) {key : Key} {stale : Option ℕ}
    (hdown : s.shuttingDown = false) (hkey : s.creating.lookup key = none)
    (hj : s.tasks j = none) (hfull : s.servers.length + s.creating.length < V.maxServers)
    (hstale : ∀ id, stale = some id → s.Closed id) (l : Option ℕ) : PoolInvariant V
      { s.setTask j ⟨key, stale, none, false, .running⟩ with
        creating := assign key j s.creating
        lock := l } := by
  have htask (k : ℕ) (t : CreationTask Key)
      (ht : (s.setTask j ⟨key, stale, none, false, .running⟩).tasks k = some t) :
      k = j ∧ t = ⟨key, stale, none, false, .running⟩ ∨ k ≠ j ∧ s.tasks k = some t := by
    rw [tasks_setTask] at ht
    split_ifs at ht with hk
    · exact .inl ⟨hk, (Option.some.inj ht).symm⟩
    · exact .inr ⟨hk, ht⟩
  refine ⟨?_, hinv.counted, hinv.leased, hinv.lessees, hinv.registered, ?_, ?_, ?_, ?_, ?_, ?_, ?_⟩
  · exact Nat.le_trans (Nat.add_le_add_left (length_assign_le ..) _) hfull
  · intro m hm
    dsimp only
    rw [tasks_setTask]
    rcases mem_assign hm with rfl | hm
    · exact ⟨_, if_pos rfl, rfl⟩
    · obtain ⟨u, hu, hm⟩ := hinv.entry m hm
      refine ⟨u, ?_, hm⟩
      rw [if_neg, hu]
      intro hk
      rw [hk, hj] at hu
      cases hu
  · intro _ k t ⟨ht, hphase⟩
    rw [lookup_assign]
    rcases htask k t ht with ⟨rfl, rfl⟩ | ⟨-, ht⟩
    · exact if_pos rfl
    · have hentry := hinv.unfinished hdown k t ⟨ht, hphase⟩
      rw [if_neg, hentry]
      rintro rfl
      rw [hkey] at hentry
      cases hentry
  · intro k t c ht hc
    rcases htask k t ht with ⟨rfl, rfl⟩ | ⟨-, ht⟩
    · cases hc
    · exact hinv.made k t c ht hc
  · intro k t c ht hc
    rcases htask k t ht.1 with ⟨rfl, rfl⟩ | ⟨-, h⟩
    · cases hc
    · exact hinv.candidate k t c ⟨h, ht.2⟩ hc
  · intro k k' t t' c ht ht' hc hc'
    rcases htask k t ht with ⟨rfl, rfl⟩ | ⟨-, hk⟩
    · cases hc
    rcases htask k' t' ht' with ⟨rfl, rfl⟩ | ⟨-, hk'⟩
    · cases hc'
    exact hinv.distinct k k' t t' c hk hk' hc hc'
  · intro k t id ht hid
    rcases htask k t ht with ⟨rfl, rfl⟩ | ⟨-, ht⟩
    · exact hstale id hid
    · exact hinv.stale k t id ht hid
  · exact fun h => absurd (hdown.symm.trans h) Bool.false_ne_true

/-- The end of a creation task, with which its key is no longer being created. -/
theorem PoolInvariant.finish (hinv : PoolInvariant V s) {t : CreationTask Key}
    {r : Except PoolError ℕ} (ht : s.Unfinished i t) (hdown : s.shuttingDown = false)
    (l : Option ℕ) : PoolInvariant V
      { s.setTask i { t with phase := .done r } with
        creating := pop t.key s.creating
        lock := l } := by
  have hinv' : PoolInvariant V (s.setTask i { t with phase := .done r }) :=
    hinv.setTask ht.1 rfl rfl rfl fun h => absurd rfl (h r)
  refine ⟨?_, hinv.counted, hinv.leased, hinv.lessees, hinv.registered,
    fun m hm => hinv'.entry m ((pop_sublist _ _).subset hm), ?_, hinv'.made, hinv'.candidate,
    hinv'.distinct, hinv'.stale, ?_⟩
  · exact Nat.le_trans (Nat.add_le_add_left (pop_sublist ..).length_le _) hinv.capacity
  · intro _ j u hu
    have hentry : s.creating.lookup u.key = some j := hinv'.unfinished hdown j u hu
    rw [lookup_pop, if_neg, hentry]
    intro hkey
    -- only one task is that of a key
    have hi := hinv.unfinished hdown i t ht
    obtain rfl : i = j := by
      rw [← hkey, hentry] at hi
      exact (Option.some.inj hi).symm
    have hdone := hu.1
    dsimp only at hdone
    rw [tasks_setTask, if_pos rfl] at hdone
    cases hdone
    exact hu.2 r rfl
  · exact fun h => absurd (hdown.symm.trans h) Bool.false_ne_true

/-- The candidate of a creation task becomes the server of its key. -/
theorem PoolInvariant.register (hinv : PoolInvariant V s) {t : CreationTask Key} {c : ℕ}
    (ht : s.Unfinished i t) (hdown : s.shuttingDown = false) (hc : t.candidate = some c) :
    PoolInvariant V
      { s.setTask i { t with phase := .done (.ok c) } with
        servers := assign t.key c s.servers
        creating := pop t.key s.creating
        lock := none } := by
  have hinv' := hinv.finish (r := .ok c) ht hdown none
  refine ⟨?_, hinv.counted, hinv.leased, hinv.lessees, ?_, hinv'.entry, hinv'.unfinished,
    hinv'.made, ?_, hinv'.distinct, hinv'.stale, ?_⟩
  · -- one more server, one creation less
    have hservers := length_assign_le t.key c s.servers
    have hcreating := length_pop_lt (hinv.unfinished hdown i t ht)
    have hcapacity := hinv.capacity
    dsimp only
    omega
  · intro m hm
    rcases mem_assign hm with rfl | hm
    · exact hinv.made i t c ht.1 hc
    · exact hinv.registered m hm
  · intro j u d hu hd
    obtain ⟨hservers, hleases⟩ := hinv'.candidate j u d hu hd
    refine ⟨fun m hm => ?_, hleases⟩
    rcases mem_assign hm with rfl | hm
    · rintro rfl
      -- the candidate of another task is another server
      obtain ⟨hu, hphase⟩ := hu
      dsimp only at hu
      rw [tasks_setTask] at hu
      split_ifs at hu with hj
      · cases hu
        exact hphase _ rfl
      · exact hj (hinv.distinct j i u t c hu ht.1 hd hc)
    · exact hservers m hm
  · exact fun h => absurd (hdown.symm.trans h) Bool.false_ne_true

theorem PoolInvariant.leave (hinv : PoolInvariant V s) {t : CreationTask Key} {e : PoolError}
    (ht : s.Unfinished i t) : PoolInvariant V
      { s.setTask i { t with phase := .done (.error e) } with
        creating := if s.creating.lookup t.key = some i then pop t.key s.creating else s.creating
        lock := none } := by
  rcases hdown : s.shuttingDown with _ | _
  · rw [if_pos (hinv.unfinished hdown i t ht)]
    exact hinv.finish ht hdown none
  · have hnil : (if s.creating.lookup t.key = some i then pop t.key s.creating
        else s.creating) = [] := by
      rw [(hinv.down hdown).2]
      split_ifs <;> rfl
    rw [hnil]
    have hinv' : PoolInvariant V (s.setTask i { t with phase := .done (.error e) }) :=
      hinv.setTask ht.1 rfl rfl rfl fun h => absurd rfl (h _)
    refine ⟨?_, hinv'.counted, hinv'.leased, hinv'.lessees, hinv'.registered, ?_, ?_, hinv'.made,
      hinv'.candidate, hinv'.distinct, hinv'.stale, fun _ => ⟨(hinv.down hdown).1, rfl⟩⟩
    · exact Nat.le_trans (Nat.add_le_add_left (Nat.zero_le _) _) hinv.capacity
    · exact fun m hm => absurd hm List.not_mem_nil
    · exact fun h => absurd (h.symm.trans hdown) Bool.false_ne_true

/-- A pool that is shut down. -/
theorem PoolInvariant.clear (hinv : PoolInvariant V s) : PoolInvariant V
    { s with servers := [], creating := [], shuttingDown := true, lock := none } := by
  refine ⟨Nat.zero_le _, hinv.counted, hinv.leased, hinv.lessees, ?_, ?_, ?_, hinv.made, ?_,
    hinv.distinct, hinv.stale, fun _ => ⟨rfl, rfl⟩⟩
  · exact fun m hm => absurd hm List.not_mem_nil
  · exact fun m hm => absurd hm List.not_mem_nil
  · exact fun h => absurd h.symm Bool.false_ne_true
  · exact fun j t c ht hc =>
      ⟨fun m hm => absurd hm List.not_mem_nil, (hinv.candidate j t c ht hc).2⟩

theorem PoolInvariant.release (hinv : PoolInvariant V s) {l : ℕ} {lease : MCPRequestLease}
    {m : ManagedMCPServer} (hl : s.leases[l]? = some lease) (hlease : lease.released = false)
    (hm : s.managed[lease.server]? = some m) : PoolInvariant V
      { s with
        leases := s.leases.set l { lease with released := true }
        managed := s.managed.set lease.server (m.releaseRequest s.now) } := by
  obtain ⟨hlt, hget⟩ := List.getElem?_eq_some_iff.1 hl
  obtain ⟨hserver, -⟩ := List.getElem?_eq_some_iff.1 hm
  -- the leases are of the same servers as before
  have hmap : (s.leases.set l { lease with released := true }).map MCPRequestLease.server =
      s.leases.map MCPRequestLease.server := by
    have hl : l < (s.leases.map MCPRequestLease.server).length := by rwa [List.length_map]
    have hget : (s.leases.map MCPRequestLease.server)[l] = lease.server := by
      rw [List.getElem_map, hget]
    rw [List.map_set, ← hget, List.set_getElem_self]
  have hleases {P : ℕ → Prop} (h : ∀ l ∈ s.leases, P l.server) :
      ∀ l' ∈ s.leases.set l { lease with released := true }, P l'.server := by
    rw [← List.forall_mem_map, hmap, List.forall_mem_map]
    exact h
  have hmanaged (k : ℕ) (m' : ManagedMCPServer)
      (h : (s.managed.set lease.server (m.releaseRequest s.now))[k]? = some m') :
      k = lease.server ∧ m' = m.releaseRequest s.now ∨
        k ≠ lease.server ∧ s.managed[k]? = some m' := by
    rw [List.getElem?_set] at h
    split_ifs at h with hk
    · exact .inl ⟨hk.symm, (Option.some.inj h).symm⟩
    · exact .inr ⟨Ne.symm hk, h⟩
  refine ⟨hinv.capacity, ?_, ?_, ?_, ?_, hinv.entry, hinv.unfinished, ?_, ?_, hinv.distinct, ?_,
    hinv.down⟩
  · intro k m' hm'
    rw [unreleased, List.countP_set hlt, hget]
    rcases hmanaged k m' hm' with ⟨rfl, rfl⟩ | ⟨hk, hm'⟩
    · have hpos : 0 < s.unreleased lease.server :=
        List.countP_pos_iff.2 ⟨lease, List.mem_of_getElem? hl, by simp [hlease]⟩
      rw [unreleased] at hpos
      rw [ManagedMCPServer.releaseRequest, hinv.counted _ m hm, unreleased]
      simp only [hlease, and_self, decide_true, if_true, Bool.true_eq_false, and_false,
        decide_false, Bool.false_eq_true, if_false, Nat.add_zero]
      omega
    · rw [hinv.counted k m' hm', unreleased]
      simp [hk.symm]
  · intro k m' hm'
    have hiff : (∃ l' ∈ s.leases.set l { lease with released := true }, l'.server = k) ↔
        ∃ l' ∈ s.leases, l'.server = k := by
      rw [← List.mem_map, hmap, List.mem_map]
    rw [hiff]
    rcases hmanaged k m' hm' with ⟨rfl, rfl⟩ | ⟨-, hm'⟩
    · exact hinv.leased _ m hm
    · exact hinv.leased k m' hm'
  · dsimp only
    rw [List.length_set]
    exact hleases (P := (· < s.managed.length)) hinv.lessees
  · dsimp only
    rw [List.length_set]
    exact hinv.registered
  · dsimp only
    rw [List.length_set]
    exact hinv.made
  · intro j t c ht hc
    obtain ⟨hservers, hne⟩ := hinv.candidate j t c ht hc
    exact ⟨hservers, hleases (P := (· ≠ c)) hne⟩
  · intro j t id ht hid
    obtain ⟨m', hm', hclosed⟩ := hinv.stale j t id ht hid
    rcases eq_or_ne lease.server id with rfl | hne
    · rw [hm] at hm'
      cases hm'
      exact ⟨_, List.getElem?_set_self hserver, hclosed⟩
    · exact ⟨m', (List.getElem?_set_ne hne).trans hm', hclosed⟩

theorem shrinks_retireAll (ms : List (Key × ℕ)) (s : MCPServerPool Key) :
    Shrinks s (s.retireAll ms) := .of_foldl (fun s m => shrinks_retire m s) ms s

theorem shrinks_take (key : Key) (s : MCPServerPool Key) : Shrinks s (
    let server := s.servers.lookup key
    let task := s.creating.lookup key
    let s := { s with servers := pop key s.servers, lock := none }
    let s := task.elim s fun j => s.requestCancel j
    server.elim s fun id => s.close id) := by
  have hpop : Shrinks s { s with servers := pop key s.servers, lock := none } :=
    { Shrinks.refl s with servers := pop_sublist _ _ }
  have htask (task : Option ℕ) (s : MCPServerPool Key) :
      Shrinks s (task.elim s fun j => s.requestCancel j) := by
    cases task with
    | none => exact .refl s
    | some j => exact shrinks_requestCancel j s
  have hserver (server : Option ℕ) (s : MCPServerPool Key) :
      Shrinks s (server.elim s fun id => s.close id) := by
    cases server with
    | none => exact .refl s
    | some id => exact shrinks_close id s
  exact (hpop.trans (htask _ _)).trans (hserver _ _)

omit [DecidableEq Key] in
theorem shrinks_shutdown (s : MCPServerPool Key) : Shrinks s (s.servers.foldl
    (fun s m => s.close m.2) (s.creating.foldl (fun s m => s.requestCancel m.2) s)) :=
  (Shrinks.of_foldl (fun s (m : Key × ℕ) => shrinks_requestCancel m.2 s) _ s).trans
    (.of_foldl (fun s (m : Key × ℕ) => shrinks_close m.2 s) _ _)

/-- Every step keeps the invariant. -/
theorem PoolInvariant.step (hinv : PoolInvariant V s) (h : PoolStep V i op s s') :
    PoolInvariant V s' := by
  cases h with
  | idle => exact hinv
  | locked h => exact hinv.shrinks (shrinks_touch _ s.reaper s)
  | touched h hl => exact hinv.shrinks (shrinks_touch _ _ s)
  | @retired ms l r h hl hms =>
    exact hinv.shrinks ((shrinks_retireAll ms s).trans (shrinks_touch l r _))
  | @leased key id r h hdown hid => exact (hinv.lease hid).shrinks (shrinks_touch none r _)
  | spawned h hdown hkey hj hfull hstale => exact hinv.spawn hdown hkey hj hfull hstale none
  | made hop ht hphase =>
    refine hinv.make ⟨rfl, rfl⟩ ⟨ht, fun r h => ?_⟩
    rw [hphase] at h
    cases h
  | @raised t l hop ht hl =>
    have hinv' : PoolInvariant V
        (s.setTask i { t with phase := .cleaning, cancelling := false }) :=
      hinv.setTask ht.1 rfl rfl rfl fun _ => ht.2
    exact hinv'.shrinks (shrinks_touch l s.reaper _)
  | registered hop h hdown ht hphase hc =>
    refine hinv.register ⟨ht, fun r h => ?_⟩ hdown hc
    rw [hphase] at h
    cases h
  | stopped h => exact hinv.shrinks (shrinks_close _ s)
  | aborted hop ht hphase hcancelling =>
    exact hinv.setTask ht rfl rfl rfl fun h => absurd rfl (h _)
  | left hop h ht hphase =>
    refine hinv.leave ⟨ht, fun r h => ?_⟩
    rw [hphase] at h
    cases h
  | @taken key hop h =>
    exact hinv.shrinks (shrinks_take key s)
  | requested hop => exact hinv.shrinks (shrinks_requestCancel _ s)
  | cleared hop h =>
    exact (hinv.shrinks (shrinks_shutdown s)).clear
  | released hop hl hlease hm => exact hinv.release hl hlease hm

end MCPServerPool

end Hyperforge.Mcp
