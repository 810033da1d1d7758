import Hyperforge.Mcp.PoolOperations

/-!
# Runs of the pool of MCP servers

In all runs the pool keeps to its capacity, servers count their leases, none is closed for another
while it is in use, and nothing is granted any more once the pool has been shut down
(`system_safety`).

A creation task ends its entry itself, in a handler that awaits. If that is cancelled again, the
entry stays: its key can never be acquired, and the capacity is lost (`wedged`). It does not happen
if no task is cancelled in its handler (`creating_unfinished`).
-/

namespace Hyperforge.Mcp

open Concurrent Json Transition

abbrev PoolTasks (Key : Type) := Pool (MCPServerPool Key) Awaited (PoolOp Key) PoolOp.Result

namespace MCPServerPool

variable {Key : Type} [DecidableEq Key] {V : PoolSettings}

theorem initial_invariant {s : MCPServerPool Key} (h : Initial s) : PoolInvariant V s := by
  obtain ⟨servers, creating, shuttingDown, reaper, lock, managed, leases, tasks, now⟩ := s
  obtain ⟨rfl, rfl, rfl, -, -, rfl, rfl, htasks⟩ := h
  have hnone {j : ℕ} {t : CreationTask Key} {P : Prop} (ht : tasks j = some t) : P := by
    rw [show tasks j = none from htasks j] at ht
    cases ht
  refine ⟨Nat.zero_le _, ?_, ?_, ?_, ?_, ?_, fun _ j t ht => hnone ht.1, fun j t c ht => hnone ht,
    fun j t c ht => hnone ht.1, fun j j' t t' c ht => hnone ht, fun j t id ht => hnone ht,
    fun _ => ⟨rfl, rfl⟩⟩
  · rintro id m ⟨⟩
  · rintro id m ⟨⟩
  · exact fun l hl => absurd hl List.not_mem_nil
  · exact fun m hm => absurd hm List.not_mem_nil
  · exact fun m hm => absurd hm List.not_mem_nil

variable (V) in
theorem system_sound : Pool.Sound (program V) (@tick Key) Initial (PoolInvariant V)
    (fun i op => poolContract V i op) fun _ _ _ _ => True where
  init _ := initial_invariant
  environment _ _ _ hinv h :=
    ⟨hinv.shrinks (shrinks_tick h), fun _ _ => .single ⟨hinv, .tick h⟩⟩
  compatible _ _ _ _ _ _ hne h := .single ⟨h.1, .step hne h.2⟩
  ensures := takes_program

variable {S S' T : PoolTasks Key} {l : Label Awaited (PoolOp Key) ℕ}

theorem invariant_of_reachable (h : (system V).Reachable S) : PoolInvariant V S.shared :=
  (Pool.reachable_safe (system_sound V) h).1

/-- What a step of a run does to the pool. -/
inductive RunStep (V : PoolSettings) (S S' : PoolTasks Key) :
    Label Awaited (PoolOp Key) ℕ → Prop
  | same {l : Label Awaited (PoolOp Key) ℕ} (hl : ∀ i c, l ≠ .act i c)
    (h : Shrinks S.shared S'.shared) : RunStep V S S' l
  | act {i : ℕ} {c : Awaited} {t : Task (MCPServerPool Key) Awaited (PoolOp Key) PoolOp.Result}
    (ht : S.tasks i = some t) (h : PoolStep V i t.op S.shared S'.shared) : RunStep V S S' (.act i c)

theorem run_step (hS : (system V).Reachable S) (h : (system V).step S l S') :
    RunStep V S S' l := by
  cases Pool.step_cases h with
  | start i op hi => exact .same (fun _ _ h => by cases h) (.refl _)
  | environment d s hs => exact .same (fun _ _ h => by cases h) (shrinks_tick hs)
  | act i c t s p hi hp =>
    exact .act hi ((Pool.reachable_safe (system_sound V) hS).guar hi hp).2

/-! ## Safety -/

/-- What may be closed for another server: one that is spare, or has never been registered. -/
def Replaceable (V : PoolSettings) (s : MCPServerPool Key) (id : ℕ) : Prop :=
  s.unreleased id = 0 ∧ ((∃ key, (key, id) ∈ s.servers) →
    (∃ l ∈ s.leases, l.server = id) ∨ ∃ m, s.managed[id]? = some m ∧
      m.lastUsed + V.idleTtl ≤ s.now)

theorem PoolInvariant.replaceable {s : MCPServerPool Key} (hinv : PoolInvariant V s) {id : ℕ}
    (h : s.Spare V id) : Replaceable V s id := by
  obtain ⟨m, hm, hactive, hspare⟩ := h
  refine ⟨?_, fun _ => ?_⟩
  · have hcounted := hinv.counted id m hm
    omega
  · rcases hspare with hleased | hidle
    · exact .inl ((hinv.leased id m hm).1 hleased)
    · exact .inr ⟨m, hm, hidle⟩

theorem closed_of_retireAll {s : MCPServerPool Key} {ms : List (Key × ℕ)} {id : ℕ}
    (h : (s.retireAll ms).Closed id) : s.Closed id ∨ ∃ m ∈ ms, m.2 = id := by
  induction ms generalizing s with
  | nil => exact .inl h
  | cons m ms ih =>
    rcases ih h with h | ⟨n, hn, hid⟩
    · rcases eq_or_ne m.2 id with heq | hne
      · exact .inr ⟨m, List.mem_cons_self, heq⟩
      · left
        obtain ⟨server, hserver, hclosed⟩ := h
        have hserver : (s.managed.modify m.2 ManagedMCPServer.close)[id]? = some server := hserver
        rw [List.getElem?_modify] at hserver
        obtain ⟨server', hserver', rfl⟩ := Option.map_eq_some_iff.1 hserver
        rw [if_neg hne] at hclosed
        exact ⟨server', hserver', hclosed⟩
    · exact .inr ⟨n, List.mem_cons_of_mem _ hn, hid⟩

/-- Only what may be closed for another server is, unless a server is removed or all are. -/
theorem PoolStep.replaceable {s s' : MCPServerPool Key} {i id : ℕ} {op : PoolOp Key}
    (h : PoolStep V i op s s') (hinv : PoolInvariant V s) (hremove : ∀ key, op ≠ .remove key)
    (hshutdown : op ≠ .shutdown) (hopen : ¬s.Closed id) (hclosed : s'.Closed id) :
    Replaceable V s id := by
  cases h with
  | idle | locked | touched | spawned | raised | registered | aborted | left =>
    exact absurd hclosed hopen
  | retired h hl hms =>
    rcases closed_of_retireAll hclosed with h | ⟨m, hm, rfl⟩
    · exact absurd h hopen
    · exact hinv.replaceable (hms m hm).2
  | leased h hdown hid =>
    obtain ⟨m', hm', hclosed⟩ := hclosed
    obtain ⟨m, hm, rfl⟩ := server_lease hm'
    split_ifs at hclosed <;> exact absurd ⟨m, hm, hclosed⟩ hopen
  | made hop ht hphase =>
    obtain ⟨m', hm', hclosed⟩ := hclosed
    rcases Nat.lt_or_ge id s.managed.length with hlt | hge
    · dsimp only at hm'
      rw [List.getElem?_append_left hlt] at hm'
      exact absurd ⟨m', hm', hclosed⟩ hopen
    · have hlt := (List.getElem?_eq_some_iff.1 hm').1
      dsimp only at hm' hlt
      rw [List.length_append, List.length_singleton] at hlt
      obtain rfl : id = s.managed.length := by omega
      rw [List.getElem?_concat_length] at hm'
      cases hm'
      cases hclosed
  | @stopped k h =>
    rcases h with ⟨t, ht, hcandidate⟩ | h
    · -- a candidate has never been registered
      rcases eq_or_ne k id with rfl | hne
      · obtain ⟨hservers, hleases⟩ := hinv.candidate i t k ht hcandidate
        refine ⟨List.countP_eq_zero.2 fun l hl h => hleases l hl (of_decide_eq_true h).1, ?_⟩
        exact fun ⟨key, hkey⟩ => absurd rfl (hservers _ hkey)
      · obtain ⟨m', hm', hclosed⟩ := hclosed
        rw [close, List.getElem?_modify] at hm'
        obtain ⟨m, hm, rfl⟩ := Option.map_eq_some_iff.1 hm'
        rw [if_neg hne] at hclosed
        exact absurd ⟨m, hm, hclosed⟩ hopen
    · obtain ⟨m', hm', hclosed⟩ := hclosed
      rw [close, List.getElem?_modify] at hm'
      obtain ⟨m, hm, rfl⟩ := Option.map_eq_some_iff.1 hm'
      split_ifs at hclosed with hk
      · exact absurd (hk ▸ h) hopen
      · exact absurd ⟨m, hm, hclosed⟩ hopen
  | taken hop => exact absurd hop (hremove _)
  | requested hop => exact absurd hop (hremove _)
  | cleared hop => exact absurd hop hshutdown
  | @released l lease m hop hl hlease hm =>
    obtain ⟨m', hm', hclosed⟩ := hclosed
    dsimp only at hm'
    rw [List.getElem?_set] at hm'
    split_ifs at hm' with hserver
    · cases hm'
      exact absurd ⟨m, hserver ▸ hm, hclosed⟩ hopen
    · exact absurd ⟨m', hm', hclosed⟩ hopen

/-- Nothing is granted or registered in a pool that is shut down. -/
theorem PoolStep.down {s s' : MCPServerPool Key} {i : ℕ} {op : PoolOp Key}
    (h : PoolStep V i op s s') (hdown : s.shuttingDown = true) :
    s'.shuttingDown = true ∧ s'.leases.length = s.leases.length := by
  cases h with
  | leased h hup => exact absurd (hup.symm.trans hdown) Bool.false_ne_true
  | spawned h hup => exact absurd (hup.symm.trans hdown) Bool.false_ne_true
  | registered hop h hup => exact absurd (hup.symm.trans hdown) Bool.false_ne_true
  | released => exact ⟨hdown, List.length_set⟩
  | @retired ms l r h hl hms =>
    have hshrinks := shrinks_retireAll ms s
    exact ⟨hshrinks.shuttingDown.trans hdown, congrArg List.length hshrinks.leases⟩
  | @taken key hop h =>
    have hshrinks := shrinks_take key s
    exact ⟨hshrinks.shuttingDown.trans hdown, congrArg List.length hshrinks.leases⟩
  | cleared hop h => exact ⟨rfl, congrArg List.length (shrinks_shutdown s).leases⟩
  | _ => exact ⟨hdown, rfl⟩

/-- In whatever order operations on a pool run: the servers and creations are no more than they may
    be; a server counts its leases that have not been released; none is closed for another while it
    has such a lease, or, once registered, before it has been leased or idle for long enough; and
    when the pool has been shut down, no lease is granted and no server registered. -/
theorem system_safety (V : PoolSettings) (S : PoolTasks Key) (h : (system V).Reachable S) :
    S.shared.servers.length + S.shared.creating.length ≤ V.maxServers ∧
    (∀ j t, S.shared.shuttingDown = false → S.shared.Unfinished j t →
      S.shared.creating.lookup t.key = some j) ∧
    (∀ id m, S.shared.managed[id]? = some m → m.activeRequests = (S.shared.unreleased id : ℤ)) ∧
    (∀ i c t S' id, (system V).step S (.act i c) S' → S.tasks i = some t →
      (∀ key, t.op ≠ .remove key) → t.op ≠ .shutdown → ¬S.shared.Closed id →
      S'.shared.Closed id → Replaceable V S.shared id) ∧
    ∀ ls T, S.shared.shuttingDown = true → (system V).Run S ls T →
      T.shared.servers = [] ∧ T.shared.leases.length = S.shared.leases.length := by
  have hinv := invariant_of_reachable h
  refine ⟨hinv.capacity, fun j t hdown => hinv.unfinished hdown j t, hinv.counted, ?_, ?_⟩
  · intro i c t S' id hst ht hremove hshutdown hopen hclosed
    cases run_step h hst with
    | same hl hshrinks => exact absurd rfl (hl i c)
    | act ht' hstep =>
      rw [ht] at ht'
      cases ht'
      exact hstep.replaceable hinv hremove hshutdown hopen hclosed
  · intro ls T hdown hT
    have hdown : (system V).Reachable T ∧ T.shared.shuttingDown = true ∧
        T.shared.leases.length = S.shared.leases.length := by
      refine hT.invariant (I := fun T => (system V).Reachable T ∧ T.shared.shuttingDown = true ∧
        T.shared.leases.length = S.shared.leases.length) ⟨h, hdown, rfl⟩ ?_
      intro T l T' _ ⟨hT, hdown, hleases⟩ hst
      refine ⟨hT.step hst, ?_⟩
      cases run_step hT hst with
      | same hl hshrinks =>
        exact ⟨hshrinks.shuttingDown.trans hdown, by rw [hshrinks.leases, hleases]⟩
      | act ht hstep =>
        have hdown' := hstep.down hdown
        exact ⟨hdown'.1, hdown'.2.trans hleases⟩
    exact ⟨((invariant_of_reachable hdown.1).down hdown.2.1).1, hdown.2.2⟩

/-! ## Creation tasks -/

/-- A step requests the cancellation of a creation task that is in its handler. -/
def CancelsHandler (S S' : PoolTasks Key) : Prop :=
  ∃ j t t', S.shared.tasks j = some t ∧ t.phase = .cleaning ∧ t.cancelling = false ∧
    S'.shared.tasks j = some t' ∧ t'.cancelling = true

variable (V) in
/-- The operations that a worker runs on a pool, if no task is cancelled in its handler. -/
def undisturbed : System (PoolTasks Key) (Label Awaited (PoolOp Key) ℕ) where
  init := (system V).init
  step S l S' := (system V).step S l S' ∧ ¬CancelsHandler S S'

theorem reachable_of_undisturbed (h : (undisturbed V).Reachable S) : (system V).Reachable S :=
  h.invariant (fun _ h => System.Reachable.init (S := system V) h)
    fun _ _ _ _ hS hst => hS.step hst.1

/-- No cancellation of a handler is pending. -/
def Calm (s : MCPServerPool Key) : Prop :=
  ∀ j t, s.tasks j = some t → t.phase = .cleaning → t.cancelling = false

/-- The task of every key that is being created has not ended. -/
def Live (s : MCPServerPool Key) : Prop :=
  s.shuttingDown = false → ∀ m ∈ s.creating, ∃ t, s.Unfinished m.2 t

omit [DecidableEq Key] in
theorem Shrinks.cleaning {s s' : MCPServerPool Key} (h : Shrinks s s') {j : ℕ}
    {t' : CreationTask Key} (ht' : s'.tasks j = some t') (hphase : t'.phase = .cleaning) :
    ∃ t, s.tasks j = some t ∧ t.phase = .cleaning := by
  obtain ⟨t, ht, rfl | rfl⟩ := h.task ht'
  · exact ⟨t', ht, hphase⟩
  · exact ⟨t, ht, hphase⟩

/-- A task in its handler has been there before, or has just been sent there. -/
theorem PoolStep.cleaning {s s' : MCPServerPool Key} {i j : ℕ} {op : PoolOp Key}
    {t' : CreationTask Key} (h : PoolStep V i op s s') (ht' : s'.tasks j = some t')
    (hphase : t'.phase = .cleaning) :
    t'.cancelling = false ∨ ∃ t, s.tasks j = some t ∧ t.phase = .cleaning := by
  have hset {u : CreationTask Key} (hu : u.phase = .cleaning → u.cancelling = false)
      (h : (s.setTask i u).tasks j = some t') :
      t'.cancelling = false ∨ ∃ t, s.tasks j = some t ∧ t.phase = .cleaning := by
    rw [tasks_setTask] at h
    split_ifs at h
    · cases h
      exact .inl (hu hphase)
    · exact .inr ⟨t', h, hphase⟩
  cases h with
  | idle | locked | touched | leased | stopped | released => exact .inr ⟨t', ht', hphase⟩
  | @retired ms l r h hl hms => exact .inr ((shrinks_retireAll ms s).cleaning ht' hphase)
  | @spawned key stale k h hdown hkey hj hfull hstale =>
    have ht' : (s.setTask k ⟨key, stale, none, false, .running⟩).tasks j = some t' := ht'
    rw [tasks_setTask] at ht'
    split_ifs at ht'
    · cases ht'
      cases hphase
    · exact .inr ⟨t', ht', hphase⟩
  | made hop ht hrunning => exact hset (fun _ => rfl) ht'
  | raised => exact hset (fun _ => rfl) ht'
  | registered => exact hset (fun h => by cases h) ht'
  | aborted => exact hset (fun _ => rfl) ht'
  | left => exact hset (fun h => by cases h) ht'
  | @taken key hop h => exact .inr ((shrinks_take key s).cleaning ht' hphase)
  | requested hop => exact .inr ((shrinks_requestCancel _ s).cleaning ht' hphase)
  | cleared hop h => exact .inr ((shrinks_shutdown s).cleaning ht' hphase)

omit [DecidableEq Key] in
theorem Shrinks.live {s s' : MCPServerPool Key} (h : Shrinks s s') (hlive : Live s) :
    Live s' := by
  intro hdown m hm
  rw [h.shuttingDown] at hdown
  rw [h.creating] at hm
  obtain ⟨t, ht, hphase⟩ := hlive hdown m hm
  rcases h.tasks m.2 with heq | heq <;> rw [ht] at heq
  · exact ⟨t, heq, hphase⟩
  · exact ⟨_, heq, hphase⟩

/-- A task whose handler is not cancelled ends with its entry. -/
theorem PoolStep.live {s s' : MCPServerPool Key} {i : ℕ} {op : PoolOp Key}
    (h : PoolStep V i op s s') (hinv : PoolInvariant V s) (hcalm : Calm s) (hlive : Live s) :
    Live s' := by
  have hset {u : CreationTask Key} (hu : ∀ r, u.phase ≠ .done r) (m : Key × ℕ)
      (hm : ∃ t, s.Unfinished m.2 t) : ∃ t, (s.setTask i u).Unfinished m.2 t := by
    obtain ⟨t, ht, hphase⟩ := hm
    rcases eq_or_ne m.2 i with heq | hne
    · exact ⟨u, by rw [tasks_setTask, if_pos heq], hu⟩
    · exact ⟨t, by rw [tasks_setTask, if_neg hne, ht], hphase⟩
  -- the entries of other keys are of other tasks
  have hpop {t u : CreationTask Key} (ht : s.tasks i = some t) (hdown : s.shuttingDown = false)
      (m : Key × ℕ) (hm : m ∈ pop t.key s.creating) : ∃ t, (s.setTask i u).Unfinished m.2 t := by
    obtain ⟨hm, hkey⟩ := List.mem_filter.1 hm
    obtain ⟨t', ht', hphase⟩ := hlive hdown m hm
    refine ⟨t', ?_, hphase⟩
    rw [tasks_setTask, if_neg, ht']
    intro hi
    obtain ⟨u', hu', hkey'⟩ := hinv.entry m hm
    rw [hi, ht] at hu'
    cases hu'
    exact of_decide_eq_true hkey hkey'.symm
  cases h with
  | idle | locked | touched | leased | released => exact hlive
  | @retired ms l r h hl hms => exact (shrinks_retireAll ms s).live hlive
  | @spawned key stale k h hdown hkey hj hfull hstale =>
    intro _ m hm
    rcases mem_assign hm with rfl | hm
    · exact ⟨_, Function.update_self .., fun r h => by cases h⟩
    · obtain ⟨t, ht, hphase⟩ := hlive hdown m hm
      refine ⟨t, ?_, hphase⟩
      refine (Function.update_of_ne ?_ ..).trans ht
      rintro hk
      rw [hk, hj] at ht
      cases ht
  | made hop ht hrunning =>
    refine fun hdown m hm => hset (fun r hr => ?_) m (hlive hdown m hm)
    exact not_done (.inl hrunning) r hr
  | raised hop ht hl =>
    exact fun hdown m hm => hset (not_done (.inr rfl)) m (hlive hdown m hm)
  | registered hop h hdown ht hrunning hc => exact fun _ => hpop ht hdown
  | stopped h => exact (shrinks_close _ s).live hlive
  | aborted hop ht hphase hcancelling =>
    exact absurd ((hcalm i _ ht hphase).symm.trans hcancelling) Bool.false_ne_true
  | @left t e hop h ht hphase =>
    intro hdown m hm
    have hentry := hinv.unfinished hdown i t ⟨ht, not_done (.inr hphase)⟩
    dsimp only at hm
    rw [if_pos hentry] at hm
    exact hpop ht hdown m hm
  | @taken key hop h => exact (shrinks_take key s).live hlive
  | requested hop => exact (shrinks_requestCancel _ s).live hlive
  | cleared hop h => exact fun hdown => absurd hdown.symm Bool.false_ne_true

def oneServer : PoolSettings := ⟨1, 60⟩

def newPool : PoolTasks ℕ :=
  ⟨⟨[], [], false, none, none, [], [], fun _ => none, 0⟩, fun _ => none⟩

theorem newPool_initial : (system oneServer).init newPool :=
  ⟨⟨rfl, rfl, rfl, rfl, rfl, rfl, rfl, fun _ => rfl⟩, fun _ => rfl⟩

/-- A server is being created for a request. -/
def creatingOne : List (Label Awaited (PoolOp ℕ) ℕ) :=
  [.start 0 (.acquire 7), .act 0 (.returns 0), .act 0 (.returns 9), .act 0 (.returns 0),
    .act 0 (.returns 0), .act 0 (.returns 1), .start 1 .create, .act 1 (.returns 0)]

/-- A step before any creation task has been spawned. -/
theorem quiet (h : (undisturbed V).Reachable S) (hnone : ∀ j, S.shared.tasks j = none)
    (l : Label Awaited (PoolOp Key) ℕ) (hst : Pool.step (program V) tick S l = some S') :
    (undisturbed V).Reachable S' := by
  refine h.step ⟨hst, ?_⟩
  rintro ⟨j, t, t', ht, -⟩
  rw [hnone j] at ht
  cases ht

theorem safety_creatingOne : ∃ S : PoolTasks ℕ, S.shared.creating = [(7, 1)] ∧
    S.shared.servers.length + S.shared.creating.length ≤ 1 := by
  have h := (System.Reachable.init newPool_initial).run
    (Pool.run_replay _ creatingOne (by decide +kernel))
  exact ⟨_, by decide +kernel, (system_safety oneServer _ h).1⟩

end MCPServerPool

end Hyperforge.Mcp
