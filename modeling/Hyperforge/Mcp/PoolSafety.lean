import Hyperforge.Mcp.PoolSteps
import Mathlib.Logic.Relation

/-!
# Safety of the pool of MCP servers

Every operation takes only the steps that it may (`takes_program`), so that the invariant holds in
all runs. While a task has the lock, the others leave the servers and creations as they are, and a
server that may be evicted remains one (`OtherStep.held`).
-/

namespace Hyperforge.Mcp

open Concurrent Json

namespace MCPServerPool

variable {Key : Type} [DecidableEq Key] {V : PoolSettings} {i j : ℕ} {op : PoolOp Key}
  {s s' : MCPServerPool Key}

/-! ## What the others do -/

/-- What the other tasks and time do to a pool. -/
inductive OtherStep (V : PoolSettings) (i : ℕ) (s s' : MCPServerPool Key) : Prop
  | step {j : ℕ} {op : PoolOp Key} (hne : j ≠ i) (h : PoolStep V j op s s')
  | tick {d : ℕ} (h : tick s d = some s')

/-- The tasks of others change by requests to cancel them only. -/
theorem OtherStep.task (h : OtherStep V i s s') {t : CreationTask Key} (ht : s.tasks i = some t) :
    ∃ b, s'.tasks i = some { t with cancelling := b } := by
  have hshrinks {s' : MCPServerPool Key} (h : Shrinks s s') :
      ∃ b, s'.tasks i = some { t with cancelling := b } := by
    rcases h.tasks i with heq | heq <;> rw [heq, ht]
    · exact ⟨t.cancelling, rfl⟩
    · exact ⟨true, rfl⟩
  have hset {j : ℕ} (hne : j ≠ i) (u : CreationTask Key) :
      ∃ b, (s.setTask j u).tasks i = some { t with cancelling := b } := by
    rw [tasks_setTask, if_neg (Ne.symm hne), ht]
    exact ⟨t.cancelling, rfl⟩
  cases h with
  | tick h => exact hshrinks (shrinks_tick h)
  | step hne h =>
    cases h with
    | idle => exact hshrinks (.refl s)
    | locked h => exact hshrinks (shrinks_touch _ s.reaper s)
    | touched h hl => exact hshrinks (shrinks_touch _ _ s)
    | retired h hl hms => exact hshrinks ((shrinks_retireAll _ s).trans (shrinks_touch _ _ _))
    | leased h hdown hid => exact ⟨t.cancelling, ht⟩
    | spawned h hdown hkey hj hfull hstale =>
      refine hset (fun h => ?_) _
      rw [h, ht] at hj
      cases hj
    | made | raised | registered | aborted | left => exact hset hne _
    | stopped h => exact hshrinks (shrinks_close _ s)
    | taken hop h => exact hshrinks (shrinks_take _ s)
    | requested hop => exact hshrinks (shrinks_requestCancel _ s)
    | cleared hop h =>
      have hshutdown := hshrinks (shrinks_shutdown s)
      exact hshutdown
    | released => exact ⟨t.cancelling, ht⟩

/-- A server that is not in use, when it has been used last, and whether it has been leased. -/
def Unused (s : MCPServerPool Key) (id lastUsed : ℕ) (leased : Bool) : Prop :=
  ∃ m, s.managed[id]? = some m ∧ m.activeRequests = 0 ∧ m.lastUsed = lastUsed ∧
    m.hasBeenLeased = leased

omit [DecidableEq Key] in
theorem Unused.of_shrinks {id lastUsed : ℕ} {leased : Bool} (h : s.Unused id lastUsed leased)
    (hshrinks : Shrinks s s') : s'.Unused id lastUsed leased := by
  obtain ⟨m, hm, hunused⟩ := h
  rcases hshrinks.managed id with heq | heq <;> rw [hm] at heq
  · exact ⟨m, heq, hunused⟩
  · exact ⟨m.close, heq, hunused⟩

/-- What the others leave as it is while a task has the lock. -/
structure Kept (i : ℕ) (s s' : MCPServerPool Key) : Prop where
  lock : s'.lock = some i
  servers : s'.servers = s.servers
  creating : s'.creating = s.creating
  shuttingDown : s'.shuttingDown = s.shuttingDown
  now : s.now ≤ s'.now
  unused : ∀ id lastUsed leased, s.Unused id lastUsed leased → s'.Unused id lastUsed leased

theorem OtherStep.kept (h : OtherStep V i s s') (hinv : PoolInvariant V s)
    (hi : s.lock = some i) : Kept i s s' := by
  have hlocked {k : ℕ} {P : Prop} (hne : k ≠ i) (hk : s.lock = some k) : P :=
    absurd (Option.some.inj (hk.symm.trans hi)) hne
  cases h with
  | tick h =>
    have hshrinks := shrinks_tick h
    cases h
    exact ⟨hi, rfl, rfl, rfl, hshrinks.now, fun id lastUsed leased h => h.of_shrinks hshrinks⟩
  | @step k op hne h =>
    cases h with
    | idle => exact ⟨hi, rfl, rfl, rfl, Nat.le_refl _, fun id lastUsed leased h => h⟩
    | locked h =>
      rw [hi] at h
      cases h
    | touched h | retired h | leased h | spawned h | registered hop h | left hop h | taken hop h
    | cleared hop h => exact hlocked hne h
    | made hop ht hphase =>
      refine ⟨hi, rfl, rfl, rfl, Nat.le_refl _, fun id lastUsed leased ⟨m, hm, hunused⟩ => ?_⟩
      refine ⟨m, ?_, hunused⟩
      dsimp only
      rw [List.getElem?_append_left (List.getElem?_eq_some_iff.1 hm).1, hm]
    | raised hop ht hl =>
      rcases hl with rfl | ⟨hk, -⟩
      · exact ⟨hi, rfl, rfl, rfl, Nat.le_refl _, fun id lastUsed leased h => h⟩
      · exact hlocked hne hk
    | stopped h =>
      exact ⟨hi, rfl, rfl, rfl, Nat.le_refl _, fun id lastUsed leased h =>
        h.of_shrinks (shrinks_close _ s)⟩
    | aborted => exact ⟨hi, rfl, rfl, rfl, Nat.le_refl _, fun id lastUsed leased h => h⟩
    | requested => exact ⟨hi, rfl, rfl, rfl, Nat.le_refl _, fun id lastUsed leased h => h⟩
    | @released l lease m hop hl hlease hm =>
      refine ⟨hi, rfl, rfl, rfl, Nat.le_refl _, fun id lastUsed leased ⟨m', hm', hunused⟩ => ?_⟩
      refine ⟨m', ?_, hunused⟩
      -- a server that is not in use has no lease that could be released
      have hne : lease.server ≠ id := by
        rintro rfl
        have hzero := hinv.counted _ m' hm'
        rw [hunused.1] at hzero
        have hpos : 0 < s.unreleased lease.server :=
          List.countP_pos_iff.2 ⟨lease, List.mem_of_getElem? hl, by simp [hlease]⟩
        omega
      exact (List.getElem?_set_ne hne).trans hm'

theorem PoolStep.closed (h : PoolStep V i op s s') {id : ℕ} (hid : s.Closed id) :
    s'.Closed id := by
  cases h with
  | idle => exact hid
  | locked h => exact hid
  | touched h hl => exact hid
  | retired h hl hms => exact (shrinks_retireAll _ s).closed hid
  | @leased key k r h hdown hk =>
    obtain ⟨m, hm, hclosed⟩ := hid
    refine ⟨if k = id then m.reserveRequest s.now else m, ?_, ?_⟩
    · rw [touch, MCPServerPool.lease, List.getElem?_modify, hm]
      split_ifs <;> rfl
    · split_ifs <;> exact hclosed
  | spawned => exact hid
  | made hop ht hphase =>
    obtain ⟨m, hm, hclosed⟩ := hid
    refine ⟨m, ?_, hclosed⟩
    dsimp only
    rw [List.getElem?_append_left (List.getElem?_eq_some_iff.1 hm).1, hm]
  | raised => exact hid
  | registered => exact hid
  | stopped h => exact (shrinks_close _ s).closed hid
  | aborted => exact hid
  | left => exact hid
  | taken hop h => exact (shrinks_take _ s).closed hid
  | requested hop => exact hid
  | cleared hop h => exact (shrinks_shutdown s).closed hid
  | @released l lease m hop hl hlease hm =>
    obtain ⟨m', hm', hclosed⟩ := hid
    rcases eq_or_ne lease.server id with rfl | hne
    · rw [hm] at hm'
      cases hm'
      exact ⟨_, List.getElem?_set_self (List.getElem?_eq_some_iff.1 hm).1, hclosed⟩
    · exact ⟨m', (List.getElem?_set_ne hne).trans hm', hclosed⟩

theorem OtherStep.closed (h : OtherStep V i s s') {id : ℕ} (hid : s.Closed id) :
    s'.Closed id := by
  cases h with
  | step hne h => exact h.closed hid
  | tick h => exact (shrinks_tick h).closed hid

/-! ## The contract -/

variable (V i op) in
/-- The contract of the `i`-th operation. -/
def poolContract : Contract (MCPServerPool Key) where
  rely := Relation.ReflTransGen fun s s' => PoolInvariant V s ∧ OtherStep V i s s'
  guar s s' := PoolInvariant V s ∧ PoolStep V i op s s'
  refl _ := .refl
  trans h h' := h.trans h'

/-- What each step of the others keeps. -/
theorem stable_of_step {P : MCPServerPool Key → Prop}
    (h : ∀ s s', PoolInvariant V s → P s → OtherStep V i s s' → P s') :
    Stable (poolContract V i op) P := by
  intro s t hs hrely
  induction hrely with
  | refl => exact hs
  | tail _ hstep ih => exact h _ _ hstep.1 ih hstep.2

variable {α β : Type}

/-- An action is one of the steps of the operation. -/
theorem ensures_step {act : MCPServerPool Key → Awaited → Option (α × MCPServerPool Key)}
    {pre : MCPServerPool Key → Prop} {post : α → MCPServerPool Key → Prop}
    (hpre : Stable (poolContract V i op) pre) (hpost : ∀ a, Stable (poolContract V i op) (post a))
    (h : ∀ s c a s', PoolInvariant V s → pre s → act s c = some (a, s') →
      PoolStep V i op s s' ∧ post a s') :
    Ensures (PoolInvariant V) (poolContract V i op) pre (.act act) post :=
  ensures_act hpre hpost fun s c a s' hinv hs hact =>
    have hstep := h s c a s' hinv hs hact
    ⟨⟨hinv, hstep.1⟩, hinv.step hstep.1, hstep.2⟩

/-- An action that reads. -/
theorem ensures_reads {act : MCPServerPool Key → Awaited → Option (α × MCPServerPool Key)}
    {pre : MCPServerPool Key → Prop} {post : α → MCPServerPool Key → Prop}
    (hpre : Stable (poolContract V i op) pre) (hpost : ∀ a, Stable (poolContract V i op) (post a))
    (hread : ∀ s c a s', act s c = some (a, s') → s' = s)
    (h : ∀ s c a, PoolInvariant V s → pre s → act s c = some (a, s) → post a s) :
    Ensures (PoolInvariant V) (poolContract V i op) pre (.act act) post := by
  refine ensures_step hpre hpost fun s c a s' hinv hs hact => ?_
  cases hread s c a s' hact
  exact ⟨.idle, h s c a hinv hs hact⟩

/-! ## Conditions -/

/-- The task has the lock. -/
def Held (i : ℕ) (s : MCPServerPool Key) : Prop := s.lock = some i

/-- What the creation task does. -/
def Doing (i : ℕ) (phase : Phase) (s : MCPServerPool Key) : Prop :=
  ∃ t, s.tasks i = some t ∧ t.phase = phase

/-- The candidate of the creation task that has not ended. -/
def Candidate (i c : ℕ) (s : MCPServerPool Key) : Prop :=
  ∃ t, s.Unfinished i t ∧ t.candidate = some c

theorem stable_held : Stable (poolContract V i op) (Held i) :=
  stable_of_step fun _ _ hinv hs h => (h.kept hinv hs).lock

theorem stable_doing {phase : Phase} : Stable (poolContract V i op) (Doing i phase) :=
  stable_of_step fun s s' _ ⟨t, ht, hphase⟩ h => by
    obtain ⟨b, hb⟩ := h.task ht
    exact ⟨_, hb, hphase⟩

theorem stable_candidate {c : ℕ} : Stable (poolContract V i op) (Candidate i c) :=
  stable_of_step fun s s' _ ⟨t, ht, hc⟩ h => by
    obtain ⟨b, hb⟩ := h.task ht.1
    exact ⟨_, ⟨hb, ht.2⟩, hc⟩

theorem stable_closed {id : ℕ} : Stable (poolContract V i op) fun s => s.Closed id :=
  stable_of_step fun _ _ _ hs h => h.closed hs

theorem OtherStep.now (h : OtherStep V i s s') : s.now ≤ s'.now := by
  cases h with
  | tick h => exact (shrinks_tick h).now
  | step hne h =>
    cases h with
    | taken hop h => exact (shrinks_take _ s).now
    | cleared hop h => exact (shrinks_shutdown s).now
    | retired h hl hms => exact (shrinks_retireAll _ s).now
    | _ => exact Nat.le_refl _

theorem stable_now {now : ℕ} :
    Stable (poolContract V i op) fun s : MCPServerPool Key => now ≤ s.now :=
  stable_of_step fun _ _ _ hs h => Nat.le_trans hs h.now

/-- What depends on the servers and creations only stays so while the task has the lock. -/
theorem stable_of_kept {P : MCPServerPool Key → Prop} (hP : ∀ s, P s → Held i s)
    (h : ∀ s s', Kept i s s' → P s → P s') : Stable (poolContract V i op) P :=
  stable_of_step fun s s' hinv hs hstep => h s s' (hstep.kept hinv (hP s hs)) hs

/-! ## Eviction -/

/-- What a task needs while it evicts servers, and what it awaits for that. -/
structure Critical (V : PoolSettings) (i : ℕ) (op : PoolOp Key)
    (wait : PoolOperation Key (Except PoolError ℕ)) (P E : MCPServerPool Key → Prop) : Prop where
  stable : Stable (poolContract V i op) P
  fails : Stable (poolContract V i op) E
  held : ∀ s, P s → Held i s
  error : ∀ s, P s → E s
  retire : ∀ s m, P s → P (s.retire m)
  waits : ∀ Q, Stable (poolContract V i op) Q → (∀ s, Q s → P s) →
    Ensures (PoolInvariant V) (poolContract V i op) Q wait fun
      | .ok _ => Q
      | .error _ => E

/-- What is known of an evicted server until it is. -/
def evictable.Post (Q E : MCPServerPool Key → Prop) (V : PoolSettings) (id : ℕ) :
    Except PoolError Bool → MCPServerPool Key → Prop
  | .ok b, s => Q s ∧ (b = true → s.Spare V id)
  | .error _, s => E s

section Eviction

variable {wait : PoolOperation Key (Except PoolError ℕ)} {P E Q : MCPServerPool Key → Prop}

theorem stable_unused {id lastUsed : ℕ} {leased : Bool} (hQ : Stable (poolContract V i op) Q)
    (hheld : ∀ s, Q s → Held i s) :
    Stable (poolContract V i op) fun s => Q s ∧ s.Unused id lastUsed leased := by
  have hunused : Stable (poolContract V i op)
      fun s => Held i s ∧ s.Unused id lastUsed leased :=
    stable_of_kept (fun _ hs => hs.1) fun s s' h hs => ⟨h.lock, h.unused _ _ _ hs.2⟩
  intro s t hs hrely
  exact ⟨hQ s t hs.1 hrely, (hunused s t ⟨hheld s hs.1, hs.2⟩ hrely).2⟩

omit [DecidableEq Key] in
theorem spare_iff {id : ℕ} : s.Spare V id ↔
    ∃ lastUsed leased, s.Unused id lastUsed leased ∧
      (leased = true ∨ lastUsed + V.idleTtl ≤ s.now) := by
  constructor
  · rintro ⟨m, hm, hactive, h⟩
    exact ⟨m.lastUsed, m.hasBeenLeased, ⟨m, hm, hactive, rfl, rfl⟩, h⟩
  · rintro ⟨lastUsed, leased, ⟨m, hm, hactive, rfl, rfl⟩, h⟩
    exact ⟨m, hm, hactive, h⟩

theorem stable_spare {id : ℕ} (hQ : Stable (poolContract V i op) Q)
    (hheld : ∀ s, Q s → Held i s) :
    Stable (poolContract V i op) fun s => Q s ∧ s.Spare V id := by
  have hspare : Stable (poolContract V i op) fun s => Held i s ∧ s.Spare V id := by
    refine stable_of_kept (fun _ hs => hs.1) fun s s' h hs => ⟨h.lock, ?_⟩
    obtain ⟨lastUsed, leased, hunused, hidle⟩ := spare_iff.1 hs.2
    exact spare_iff.2 ⟨lastUsed, leased, h.unused _ _ _ hunused,
      hidle.imp_right fun hle => Nat.le_trans hle h.now⟩
  intro s t hs hrely
  exact ⟨hQ s t hs.1 hrely, (hspare s t ⟨hheld s hs.1, hs.2⟩ hrely).2⟩

theorem stable_evictablePost (h : Critical V i op wait P E)
    (hQ : Stable (poolContract V i op) Q) (hP : ∀ s, Q s → P s) {id : ℕ}
    (r : Except PoolError Bool) : Stable (poolContract V i op) (evictable.Post Q E V id r) := by
  rcases r with e | b
  · exact h.fails
  · cases b with
    | false =>
      exact fun s t hs hrely => ⟨hQ s t hs.1 hrely, fun hb => absurd hb Bool.false_ne_true⟩
    | true =>
      intro s t hs hrely
      have hspare := stable_spare hQ (fun s hs => h.held s (hP s hs)) s t ⟨hs.1, hs.2 rfl⟩ hrely
      exact ⟨hspare.1, fun _ => hspare.2⟩

/-- The time that a server has been idle for is at most what it is now. -/
theorem ensures_idle (h : Critical V i op wait P E) (hQ : Stable (poolContract V i op) Q)
    (hP : ∀ s, Q s → P s) {now id lastUsed : ℕ} {leased : Bool} (hnow : ∀ s, Q s → now ≤ s.now) :
    Ensures (PoolInvariant V) (poolContract V i op) (fun s => Q s ∧ s.Unused id lastUsed leased)
      (idle V now id) (evictable.Post Q E V id) := by
  have hunused : Stable (poolContract V i op) fun s => Q s ∧ s.Unused id lastUsed leased :=
    stable_unused hQ fun s hs => h.held s (hP s hs)
  refine ensures_bind (Q := fun server s => (Q s ∧ s.Unused id lastUsed leased) ∧
    server.lastUsed = lastUsed) (ensures_reads hunused (fun server => ?_) ?_ ?_) fun server => ?_
  · exact hunused.and (stable_const _)
  · intro s c a s' h
    obtain ⟨m, -, h⟩ := Option.map_eq_some_iff.1 h
    exact (Prod.mk.inj h).2.symm
  · intro s c server _ hs hlook
    obtain ⟨m, hm, hserver⟩ := Option.map_eq_some_iff.1 hlook
    cases hserver
    obtain ⟨m', hm', -, hlast, -⟩ := hs.2
    rw [hm] at hm'
    cases hm'
    exact ⟨hs, hlast⟩
  · refine ensures_pure (hunused.and (stable_const _)) fun s _ ⟨⟨hs, hunused⟩, hlast⟩ => ?_
    refine ⟨hs, fun hidle => spare_iff.2 ⟨lastUsed, leased, hunused, .inr ?_⟩⟩
    rw [← hlast]
    exact Nat.le_trans (of_decide_eq_true hidle) (hnow s hs)

theorem ensures_evictable (h : Critical V i op wait P E) (hQ : Stable (poolContract V i op) Q)
    (hP : ∀ s, Q s → P s) {now id : ℕ} (hnow : ∀ s, Q s → now ≤ s.now) :
    Ensures (PoolInvariant V) (poolContract V i op) Q (evictable V wait now id)
      (evictable.Post Q E V id) := by
  have hunused (lastUsed : ℕ) (leased : Bool) :
      Stable (poolContract V i op) fun s => Q s ∧ s.Unused id lastUsed leased :=
    stable_unused hQ fun s hs => h.held s (hP s hs)
  -- a server that is not in use is not leased while the task has the lock
  let seen (server : ManagedMCPServer) (s : MCPServerPool Key) : Prop :=
    Q s ∧ (server.activeRequests = 0 → s.Unused id server.lastUsed server.hasBeenLeased)
  have hseen (server : ManagedMCPServer) : Stable (poolContract V i op) (seen server) := by
    by_cases hactive : server.activeRequests = 0
    · intro s t hs hrely
      have ht := hunused _ _ s t ⟨hs.1, hs.2 hactive⟩ hrely
      exact ⟨ht.1, fun _ => ht.2⟩
    · exact fun s t hs hrely => ⟨hQ s t hs.1 hrely, fun h => absurd h hactive⟩
  refine ensures_bind (Q := seen) (ensures_reads hQ hseen ?_ ?_) fun server => ?_
  · intro s c a s' h
    obtain ⟨m, -, h⟩ := Option.map_eq_some_iff.1 h
    exact (Prod.mk.inj h).2.symm
  · intro s c server _ hs hlook
    obtain ⟨m, hm, hserver⟩ := Option.map_eq_some_iff.1 hlook
    cases hserver
    exact ⟨hs, fun hactive => ⟨server, hm, hactive, rfl, rfl⟩⟩
  split_ifs with hactive hleased
  · exact ensures_pure (hseen server) fun s _ hs =>
      ⟨hs.1, fun hfalse => absurd hfalse Bool.false_ne_true⟩
  · have hactive := not_not.1 hactive
    refine ensures_bind ((h.waits _ (hunused server.lastUsed server.hasBeenLeased)
      fun s hs => hP s hs.1).strengthen fun s hs => ⟨hs.1, hs.2 hactive⟩) fun count => ?_
    rcases count with e | _ | count
    · exact ensures_pure h.fails fun s _ hs => hs
    · exact ensures_pure (hunused _ _) fun s _ hs =>
        ⟨hs.1, fun _ => spare_iff.2 ⟨_, _, hs.2, .inl hleased⟩⟩
    · exact ensures_idle h hQ hP hnow
  · exact (ensures_idle h hQ hP hnow).strengthen fun s hs => ⟨hs.1, hs.2 (not_not.1 hactive)⟩

/-- The candidates among some servers. -/
def candidates.Post (Q E : MCPServerPool Key → Prop) (V : PoolSettings) (ms : List (Key × ℕ)) :
    Except PoolError (List (Key × ℕ)) → MCPServerPool Key → Prop
  | .ok rest, s => Q s ∧ ∀ m ∈ rest, m ∈ ms ∧ s.Spare V m.2
  | .error _, s => E s

theorem stable_candidatesPost (h : Critical V i op wait P E)
    (hQ : Stable (poolContract V i op) Q) (hP : ∀ s, Q s → P s) {ms : List (Key × ℕ)}
    (r : Except PoolError (List (Key × ℕ))) :
    Stable (poolContract V i op) (candidates.Post Q E V ms r) := by
  rcases r with e | rest
  · exact h.fails
  · refine fun s t hs hrely => ⟨hQ s t hs.1 hrely, fun m hm => ⟨(hs.2 m hm).1, ?_⟩⟩
    have hspare : Stable (poolContract V i op) fun s => Q s ∧ s.Spare V m.2 :=
      stable_spare hQ fun s hs => h.held s (hP s hs)
    exact (hspare s t ⟨hs.1, (hs.2 m hm).2⟩ hrely).2

theorem ensures_candidates (h : Critical V i op wait P E) {now : ℕ} {ms : List (Key × ℕ)}
    (hQ : Stable (poolContract V i op) Q) (hP : ∀ s, Q s → P s) (hnow : ∀ s, Q s → now ≤ s.now) :
    Ensures (PoolInvariant V) (poolContract V i op) Q (candidates V wait now ms)
      (candidates.Post Q E V ms) := by
  induction ms generalizing Q with
  | nil => exact ensures_pure hQ fun s _ hs => ⟨hs, fun m hm => absurd hm List.not_mem_nil⟩
  | cons m ms ih =>
    refine ensures_bind (ensures_evictable h hQ hP hnow) fun r => ?_
    rcases r with e | isCandidate
    · exact ensures_pure h.fails fun s _ hs => hs
    -- that a server is a candidate stays so while the others are looked at
    have hQ' : Stable (poolContract V i op) (evictable.Post Q E V m.2 (.ok isCandidate)) :=
      stable_evictablePost h hQ hP _
    refine ensures_bind (ih hQ' (fun s hs => hP s hs.1) fun s hs => hnow s hs.1) fun r => ?_
    rcases r with e | rest
    · exact ensures_pure h.fails fun s _ hs => hs
    refine ensures_pure (stable_candidatesPost h hQ' (fun s hs => hP s hs.1) (.ok rest))
      fun s _ ⟨⟨hs, hm⟩, hrest⟩ => ⟨hs, ?_⟩
    intro m' hm'
    split_ifs at hm' with hcandidate
    · rcases List.mem_cons.1 hm' with rfl | hm'
      · exact ⟨List.mem_cons_self, hm hcandidate⟩
      · exact ⟨List.mem_cons_of_mem _ (hrest m' hm').1, (hrest m' hm').2⟩
    · exact ⟨List.mem_cons_of_mem _ (hrest m' hm').1, (hrest m' hm').2⟩

theorem ensures_evictOne (h : Critical V i op wait P E) :
    Ensures (PoolInvariant V) (poolContract V i op) P (evictOne V wait) fun
      | .ok _ => P
      | .error _ => E := by
  have hnow (now : ℕ) : Stable (poolContract V i op) fun s => P s ∧ now ≤ s.now :=
    h.stable.and stable_now
  have hservers (now : ℕ) (ms : List (Key × ℕ)) :
      Stable (poolContract V i op) fun s => (P s ∧ now ≤ s.now) ∧ s.servers = ms := by
    have hms : Stable (poolContract V i op) fun s => Held i s ∧ s.servers = ms :=
      stable_of_kept (fun _ hs => hs.1) fun s s' h hs => ⟨h.lock, h.servers.trans hs.2⟩
    intro s t hs hrely
    exact ⟨hnow now s t hs.1 hrely, (hms s t ⟨h.held s hs.1.1, hs.2⟩ hrely).2⟩
  refine ensures_bind (Q := fun now s => P s ∧ now ≤ s.now)
    (ensures_reads h.stable hnow ?_ ?_) fun now => ?_
  · rintro s c a s' ⟨⟩
    rfl
  · rintro s c a _ hs ⟨⟩
    exact ⟨hs, Nat.le_refl _⟩
  refine ensures_bind (Q := fun ms s => (P s ∧ now ≤ s.now) ∧ s.servers = ms)
    (ensures_reads (hnow now) (hservers now) ?_ ?_) fun ms => ?_
  · rintro s c a s' ⟨⟩
    rfl
  · rintro s c a _ hs ⟨⟩
    exact ⟨hs, rfl⟩
  refine ensures_bind (ensures_candidates h (hservers now ms) (fun s hs => hs.1.1)
    fun s hs => hs.1.2) fun r => ?_
  rcases r with e | rest
  · exact ensures_pure h.fails fun s _ hs => hs
  refine ensures_step (stable_candidatesPost h (hservers now ms) (fun s hs => hs.1.1) (.ok rest))
    (fun r => ?_) ?_
  · cases r with
    | ok _ => exact h.stable
    | error _ => exact h.fails
  · rintro s c r s' _ ⟨⟨⟨hs, -⟩, hms⟩, hrest⟩ hact
    rcases hleast : s.leastRecent rest with _ | m <;> rw [hleast] at hact <;> cases hact
    · exact ⟨.idle, h.error s hs⟩
    · have hm : m ∈ rest := List.minOn?_mem hleast
      refine ⟨?_, h.retire s m hs⟩
      have hstep : PoolStep V i op s ((s.retireAll [m]).touch s.lock s.reaper) := by
        refine .retired (h.held s hs) (.inr (h.held s hs)) fun m' hm' => ?_
        rw [List.mem_singleton.1 hm', hms]
        exact hrest m hm
      exact hstep

theorem ensures_evictWhile (h : Critical V i op wait P E) {full : MCPServerPool Key → Bool}
    (hfull : ∀ s s' : MCPServerPool Key, s'.servers = s.servers → s'.creating = s.creating →
      full s' = full s) :
    Ensures (PoolInvariant V) (poolContract V i op) P (evictWhile V full wait) fun
      | .ok _ => fun s => P s ∧ full s = false
      | .error _ => E := by
  have hstable (b : Bool) : Stable (poolContract V i op) fun s => P s ∧ full s = b := by
    have hkept : Stable (poolContract V i op) fun s => Held i s ∧ full s = b :=
      stable_of_kept (fun _ hs => hs.1) fun s s' h hs =>
        ⟨h.lock, (hfull s s' h.servers h.creating).trans hs.2⟩
    intro s t hs hrely
    exact ⟨h.stable s t hs.1 hrely, (hkept s t ⟨h.held s hs.1, hs.2⟩ hrely).2⟩
  have hpost (r : Except PoolError Unit) : Stable (poolContract V i op)
      (match r with
        | .ok _ => fun s => P s ∧ full s = false
        | .error _ => E) := by
    cases r with
    | ok _ => exact hstable false
    | error _ => exact h.fails
  refine ensures_loop h.stable (fun s hinv => ⟨hinv, .idle⟩) ?_ fun r =>
    ensures_pure (hpost r) fun _ _ hs => hs
  refine ensures_bind (Q := fun b s => P s ∧ full s = b)
    (ensures_reads h.stable hstable ?_ ?_) fun isFull => ?_
  · rintro s c a s' ⟨⟩
    rfl
  · rintro s c a _ hs ⟨⟩
    exact ⟨hs, rfl⟩
  cases isFull with
  | false => exact ensures_pure (hstable false) fun s _ hs => hs
  | true =>
    refine ensures_bind ((ensures_evictOne h).strengthen fun s hs => hs.1) fun r => ?_
    cases r with
    | error e => exact ensures_pure h.fails fun s _ hs => hs
    | ok _ => exact ensures_pure h.stable fun s _ hs => hs

end Eviction

end MCPServerPool

end Hyperforge.Mcp
