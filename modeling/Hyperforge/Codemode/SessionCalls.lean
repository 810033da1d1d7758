import Hyperforge.Codemode.Session

/-!
# The calls of a session

Where a call is: before its response is read, in one of the queue of the controller, its callback,
the two directions of the stream and the client (`Sandbox.outstanding`); before its result is, in
the controller or the pipe to the worker as well (`Sandbox.held`). The worker waits for the result
of a call, so that there is one at a time (`Sandbox.Single`), and the kinds of the messages are
what the other end reads (`Sandbox.Typed`). Both are kept by every step.
-/

namespace Hyperforge.Codemode.Session

open Transition

variable {T R : Type}

/-! ## Where a call is -/

@[simp]
def Task.isCall : Task → Bool
  | call _ => true
  | _ => false

namespace SandboxMessage

@[simp]
def isRequest : SandboxMessage R → Bool
  | request _ => true
  | _ => false

@[simp]
def isResponse : SandboxMessage R → Bool
  | response .. => true
  | _ => false

end SandboxMessage

/-- The requests of calls that are yet to be sent. -/
def Callback.unsent : Callback → ℕ
  | intent _ | scheduled _ => 1
  | none | requested _ => 0

def Client.calling : Client → ℕ
  | callback _ => 1
  | _ => 0

def Controller.isWaiting : Controller R → ℕ
  | waiting => 1
  | _ => 0

def Controller.isResolved : Controller R → ℕ
  | resolved _ => 1
  | _ => 0

@[simp]
theorem unsent_eq : Callback.none.unsent = 0 ∧ (∀ n, (Callback.intent n).unsent = 1) ∧
    (∀ n, (Callback.scheduled n).unsent = 1) ∧ ∀ n, (Callback.requested n).unsent = 0 :=
  ⟨rfl, fun _ => rfl, fun _ => rfl, fun _ => rfl⟩

@[simp]
theorem calling_eq : Client.reading.calling = 0 ∧ (∀ n, (Client.callback n).calling = 1) ∧
    Client.returned.calling = 0 ∧ ∀ f, (Client.failed f).calling = 0 :=
  ⟨rfl, fun _ => rfl, rfl, fun _ => rfl⟩

@[simp]
theorem isWaiting_eq : (Controller.notStarted : Controller R).isWaiting = 0 ∧
    (Controller.reading : Controller R).isWaiting = 0 ∧
    (Controller.waiting : Controller R).isWaiting = 1 ∧
    (∀ o : Outcome R, (Controller.resolved o).isWaiting = 0) ∧
    (∀ b, (Controller.returned b : Controller R).isWaiting = 0) ∧
    (Controller.failed : Controller R).isWaiting = 0 :=
  ⟨rfl, rfl, rfl, fun _ => rfl, fun _ => rfl, rfl⟩

@[simp]
theorem isResolved_eq : (Controller.notStarted : Controller R).isResolved = 0 ∧
    (Controller.reading : Controller R).isResolved = 0 ∧
    (Controller.waiting : Controller R).isResolved = 0 ∧
    (∀ o : Outcome R, (Controller.resolved o).isResolved = 1) ∧
    (∀ b, (Controller.returned b : Controller R).isResolved = 0) ∧
    (Controller.failed : Controller R).isResolved = 0 :=
  ⟨rfl, rfl, rfl, fun _ => rfl, fun _ => rfl, rfl⟩

/-- The worker may send something. -/
@[simp]
def Worker.free : Worker → Bool
  | running | raised | reported => true
  | _ => false

/-- The worker sends nothing more. -/
@[simp]
def Worker.hasClosed : Worker → Bool
  | closing _ | exited _ => true
  | _ => false

theorem Worker.alive_of_free {worker : Worker} (h : worker.free) : worker.alive := by
  cases worker <;> simp [alive] at h ⊢

theorem Worker.not_hasClosed_of_free {worker : Worker} (h : worker.free) :
    worker.hasClosed = false := by
  cases worker <;> simp at h ⊢

namespace Sandbox

variable (s : Sandbox T R)

/-- The calls that the controller is to read, or waits for. -/
def pending : ℕ := s.toController.countP Task.isCall + s.controller.isWaiting

/-- The calls whose results have not been read by the worker. -/
def held : ℕ := s.pending + s.controller.isResolved + s.toWorker.length

/-- The calls whose results have not been read by the server. -/
def outstanding : ℕ :=
  s.toController.countP Task.isCall + s.callback.unsent +
    s.toClient.countP SandboxMessage.isRequest + s.client.calling +
    s.toServer.countP SandboxMessage.isResponse

/-- While there is no worker, there are no calls; messages may have been lost, the session may be
    over and the client may have left. -/
structure Unstarted : Prop where
  calls : s.calls = []
  received : s.received = []
  toController : s.toController = []
  toWorker : s.toWorker = []
  controller : s.controller = .notStarted
  callback : s.callback = .none
  toServer : s.toServer = [] ∨ s.toServer = [.run]
  toClient : ∀ m ∈ s.toClient, m = .error
  client : s.client.calling = 0

/-- The messages are what the other end expects. -/
structure Typed : Prop where
  handshake : s.server = .handshake → s.worker = .notStarted
  unstarted : s.worker = .notStarted → s.Unstarted
  toServer : s.worker ≠ .notStarted → ∀ m ∈ s.toServer, m.isResponse
  toClient : ∀ m ∈ s.toClient, m.isRequest ∨ m = .done ∨ m = .error

/-- The worker has sent `_close`, and the controller has not read anything else. -/
def closed : Prop := .close ∈ s.toController ∨ s.controller = .returned true

/-- A call is in one place, while the worker waits for it. -/
structure Single : Prop where
  outstanding_le : s.outstanding ≤ 1
  held_le : s.held ≤ 1
  pending : s.worker.alive → s.outstanding ≤ s.pending
  callback : s.callback ≠ .none → s.controller = .waiting
  free : s.worker.free → s.pipeClosed = false →
    s.held = 0 ∧ s.received.length = s.calls.length
  waiting : s.worker = .waiting → s.received.length + 1 = s.calls.length
  hasClosed : s.closed → s.worker.hasClosed
  closed : s.closed → s.outstanding = 0 ∧ s.received.length = s.calls.length

variable {s} {t : Sandbox T R}

theorem mem_write {message m : SandboxMessage R} (h : m ∈ s.write message) :
    m ∈ s.toClient ∨ m = message := by
  rw [write] at h
  split at h
  · exact .inl h
  · simpa using h

theorem mem_respond {call : ℕ} {result : R} {m : SandboxMessage R} (h : m ∈ s.respond call result) :
    m ∈ s.toServer ∨ m = .response call result := by
  rw [respond] at h
  split at h
  · exact .inl h
  · simpa using h

theorem killed_eq : s.killed = s.worker ∨ s.killed = .exited false := by
  rw [killed]
  split
  · exact .inr rfl
  · exact .inl rfl

theorem alive_killed : s.killed.alive = false := by
  rw [killed]
  split
  · rfl
  next h => simpa using h

theorem killed_notStarted : s.killed = .notStarted ↔ s.worker = .notStarted := by
  rw [killed]
  split
  next h => simpa using fun hw => by simp [hw, Worker.alive] at h
  · rfl

/-- There is nothing more than what to run. -/
theorem Unstarted.rest_eq (h : s.Unstarted) {rest : List (SandboxMessage R)}
    (hread : s.toServer = .run :: rest) : rest = [] := by
  obtain hnil | hrun := h.toServer
  · cases hnil.symm.trans hread
  · cases hrun.symm.trans hread
    rfl

theorem Unstarted.typed (h : s.Unstarted) (hserver : s.server = .handshake → s.worker = .notStarted)
    (hworker : s.worker = .notStarted) : s.Typed where
  handshake := hserver
  unstarted _ := h
  toServer hw := absurd hworker hw
  toClient m hm := .inr (.inr (h.toClient m hm))

/-- Once there is a worker, messages are of the same kinds as before. -/
theorem Typed.mono (h : s.Typed) (hworker : s.worker ≠ .notStarted)
    (hworker' : t.worker ≠ .notStarted)
    (htoServer : ∀ m ∈ t.toServer, m ∈ s.toServer ∨ m.isResponse)
    (htoClient : ∀ m ∈ t.toClient, m ∈ s.toClient ∨ m.isRequest ∨ m = .done ∨ m = .error)
    (hserver : t.server = .handshake → s.server = .handshake := by
      first | exact id | exact nofun) : t.Typed where
  handshake ht := absurd (h.handshake (hserver ht)) hworker
  unstarted ht := absurd ht hworker'
  toServer _ m hm := (htoServer m hm).elim (h.toServer hworker m) id
  toClient m hm := (htoClient m hm).elim (h.toClient m) id

theorem Typed.step_of_unstarted (h : s.Typed) (hworker : s.worker = .notStarted)
    (hst : SandboxStep s t) : t.Typed := by
  have hu := h.unstarted hworker
  have hkilled : s.killed = .notStarted := killed_notStarted.2 hworker
  have herror : ∀ m ∈ s.write .error, m = .error := fun m hm =>
    (mem_write hm).elim (hu.toClient m) id
  cases hst with
  -- Nobody but the server, the client and the stream can take a step.
  | worker hst => cases hst <;> simp_all [Worker.alive]
  | controller hst => cases hst <;> simp_all [hu.controller]
  | callback hst => cases hst <;> simp_all [hu.callback]
  | server hst =>
    cases hst with
    | accept hserver hread =>
      cases hu.rest_eq hread
      exact ⟨nofun, nofun, fun _ => nofun, fun m hm => .inr (.inr (hu.toClient m hm))⟩
    | startFails hserver hread =>
      exact Unstarted.typed { hu with toServer := .inl (hu.rest_eq hread) } nofun hworker
    | refuse hserver hread =>
      exact Unstarted.typed { hu with
        toServer := .inl (hu.rest_eq hread)
        toClient := herror } nofun hworker
    | fail => exact Unstarted.typed { hu with toClient := herror } nofun hworker
    | done _ hexited => cases hworker.symm.trans hexited
    | timeout | kill => exact Unstarted.typed { hu with } (fun _ => hkilled) hkilled
    | reject | returned | unclean | expire | joinFails | cancel =>
      exact Unstarted.typed { hu with } nofun hworker
    | stop =>
      refine Unstarted.typed { hu with controller := ?_, callback := rfl } nofun hworker
      simp only [Sandbox.stop, hu.controller]
  | client hst =>
    cases hst with
    | @read message rest _ hread =>
      have hmessage := hu.toClient message (by simp [hread])
      refine Unstarted.typed { hu with toClient := fun m hm => ?_, client := ?_ } h.handshake
        hworker
      · exact hu.toClient m (by simp [hread, hm])
      · simp [hmessage, Client.read]
    | interrupt hclient | answer hclient =>
      have hcalling := hu.client
      simp [hclient] at hcalling
    | eof | fail => exact Unstarted.typed { hu with client := rfl } h.handshake hworker
  | stream hst =>
    cases hst with
    | cut => exact Unstarted.typed { hu with } h.handshake hworker
    | lose _ i j =>
      refine Unstarted.typed { hu with toServer := ?_, toClient := fun m hm => ?_ } h.handshake
        hworker
      · obtain hnil | hrun := hu.toServer
        · exact .inl (by simp [hnil])
        · cases j <;> simp [hrun]
      · exact hu.toClient m (List.mem_of_mem_take hm)

theorem Typed.step_of_started (h : s.Typed) (hworker : s.worker ≠ .notStarted)
    (hst : SandboxStep s t) : t.Typed := by
  have hserver := mt h.handshake hworker
  have hkilled : s.killed ≠ .notStarted := mt killed_notStarted.1 hworker
  cases hst with
  | worker hst =>
    cases hst <;> exact h.mono hworker (by simp) (fun _ => .inl) fun _ => .inl
  | controller hst => cases hst <;> exact h.mono hworker hworker (fun _ => .inl) fun _ => .inl
  | callback hst =>
    cases hst with
    | schedule | requestFails => exact h.mono hworker hworker (fun _ => .inl) fun _ => .inl
    | request =>
      refine h.mono hworker hworker (fun _ => .inl) fun m hm => ?_
      exact (mem_write hm).imp_right fun hm => .inl (by simp [hm])
    | respond _ hread | unexpected _ hread =>
      exact h.mono hworker hworker (fun m hm => .inl (by simp [hread, hm])) fun _ => .inl
    | disconnect =>
      refine h.mono hworker hkilled (fun _ => .inl) (fun _ => .inl) fun ht => ?_
      simp only at ht
      split at ht
      · cases ht
      · exact ht
  | server hst =>
    cases hst with
    | accept hs | startFails hs | refuse hs | reject hs => exact absurd hs hserver
    | timeout | kill => exact h.mono hworker hkilled (fun _ => .inl) fun _ => .inl
    | done =>
      refine h.mono hworker hworker (fun _ => .inl) fun m hm => ?_
      exact (mem_write hm).imp_right fun hm => .inr (.inl hm)
    | fail =>
      refine h.mono hworker hworker (fun _ => .inl) fun m hm => ?_
      exact (mem_write hm).imp_right fun hm => .inr (.inr hm)
    | returned | unclean | expire | joinFails | cancel | stop =>
      exact h.mono hworker hworker (fun _ => .inl) fun _ => .inl
  | client hst =>
    cases hst with
    | read _ hread | interrupt _ hread =>
      exact h.mono hworker hworker (fun _ => .inl) fun m hm => .inl (by simp [hread, hm])
    | answer =>
      refine h.mono hworker hworker (fun m hm => ?_) fun _ => .inl
      exact (mem_respond hm).imp_right fun hm => by simp [hm]
    | eof | fail => exact h.mono hworker hworker (fun _ => .inl) fun _ => .inl
  | stream hst =>
    cases hst with
    | cut => exact h.mono hworker hworker (fun _ => .inl) fun _ => .inl
    | lose =>
      exact h.mono hworker hworker (fun _ hm => .inl (List.mem_of_mem_take hm)) fun _ hm =>
        .inl (List.mem_of_mem_take hm)

theorem Typed.step (h : s.Typed) (hst : SandboxStep s t) : t.Typed := by
  by_cases hworker : s.worker = .notStarted
  · exact h.step_of_unstarted hworker hst
  · exact h.step_of_started hworker hst

/-- A callback reads a response. -/
theorem Typed.exists_response (h : s.Typed) {call : ℕ} {message : SandboxMessage R}
    {rest : List (SandboxMessage R)} (hcallback : s.callback = .requested call)
    (hread : s.toServer = message :: rest) : ∃ call result, message = .response call result := by
  have hworker : s.worker ≠ .notStarted := fun hw => by
    simp [(h.unstarted hw).callback] at hcallback
  have hresponse := h.toServer hworker message (by simp [hread])
  cases message <;> simp at hresponse ⊢

/-- Steps after which no call is in a place where none was before. -/
theorem Single.mono (h : s.Single) (houtstanding : t.outstanding ≤ s.outstanding)
    (hheld : t.held ≤ s.held)
    (hpending : t.worker.alive → s.outstanding ≤ s.pending → t.outstanding ≤ t.pending)
    (hcallback : t.callback ≠ .none → t.controller = .waiting)
    (hclosed : t.closed → s.closed := by exact id)
    (hworker : t.worker = s.worker ∨ ∃ clean, t.worker = .exited clean := by exact .inl rfl)
    (hpipe : t.pipeClosed = false → s.pipeClosed = false := by exact id)
    (hcalls : t.calls = s.calls := by rfl) (hreceived : t.received = s.received := by rfl) :
    t.Single := by
  refine ⟨Nat.le_trans houtstanding h.outstanding_le, Nat.le_trans hheld h.held_le, fun ha => ?_,
    hcallback, fun hw hp => ?_, fun hw => ?_, fun hc => ?_, fun hc => ?_⟩
  · obtain hworker | ⟨clean, hexited⟩ := hworker
    · exact hpending ha (h.pending (hworker ▸ ha))
    · simp [hexited, Worker.alive] at ha
  · obtain hworker | ⟨clean, hexited⟩ := hworker
    · obtain ⟨hzero, hlength⟩ := h.free (hworker ▸ hw) (hpipe hp)
      exact ⟨Nat.le_zero.1 (hzero ▸ hheld), by rw [hreceived, hcalls, hlength]⟩
    · simp [hexited] at hw
  · obtain hworker | ⟨clean, hexited⟩ := hworker
    · rw [hreceived, hcalls, h.waiting (hworker ▸ hw)]
    · cases hw.symm.trans hexited
  · obtain hworker | ⟨clean, hexited⟩ := hworker
    · exact hworker ▸ h.hasClosed (hclosed hc)
    · simp [hexited]
  · obtain ⟨hzero, hlength⟩ := h.closed (hclosed hc)
    exact ⟨Nat.le_zero.1 (hzero ▸ houtstanding), by rw [hreceived, hcalls, hlength]⟩

theorem Single.not_closed (h : s.Single) (hworker : s.worker.hasClosed = false) : ¬s.closed :=
  fun hc => by cases hworker.symm.trans (h.hasClosed hc)

/-- No call is anywhere when the worker goes on. -/
theorem Single.outstanding_eq_zero (h : s.Single) (hworker : s.worker.free)
    (hpipe : s.pipeClosed = false) : s.outstanding = 0 := by
  have hpending := h.pending (Worker.alive_of_free hworker)
  have hheld := (h.free hworker hpipe).1
  simp only [held] at hheld
  omega

/-- A worker that goes on, and may send something other than a call. -/
theorem Single.goOn (h : s.Single) {worker : Worker} {raised : Bool} (tasks : List Task)
    (hworker : s.worker.free) (hpipe : tasks ≠ [] → s.pipeClosed = false)
    (hnotWaiting : worker ≠ .waiting) (htasks : tasks.countP Task.isCall = 0)
    (hclose : .close ∈ tasks → worker.hasClosed) :
    Single { s with
      worker
      hasRaised := raised
      toController := s.toController ++ tasks } := by
  have hcount : (s.toController ++ tasks).countP Task.isCall =
      s.toController.countP Task.isCall := by
    rw [List.countP_append, htasks, Nat.add_zero]
  have hopen := h.not_closed (Worker.not_hasClosed_of_free hworker)
  have hsent (hc : Sandbox.closed { s with
      worker, hasRaised := raised, toController := s.toController ++ tasks }) : .close ∈ tasks := by
    simp only [Sandbox.closed, List.mem_append] at hc hopen
    tauto
  refine ⟨?_, ?_, fun _ => ?_, h.callback, fun _ hp => ⟨?_, (h.free hworker hp).2⟩,
    fun hw => absurd hw hnotWaiting, fun hc => hclose (hsent hc), fun hc => ?_⟩
  · simpa only [outstanding, hcount] using h.outstanding_le
  · simpa only [held, Sandbox.pending, hcount] using h.held_le
  · simpa only [outstanding, Sandbox.pending, hcount] using
      h.pending (Worker.alive_of_free hworker)
  · simpa only [held, Sandbox.pending, hcount] using (h.free hworker hp).1
  · have hp := hpipe (List.ne_nil_of_mem (hsent hc))
    refine ⟨?_, (h.free hworker hp).2⟩
    simpa only [outstanding, hcount] using h.outstanding_eq_zero hworker hp

theorem Single.worker (h : s.Single) (hst : WorkerStep s t) : t.Single := by
  have hdead (clean : Bool) : Single { s with worker := .exited clean } :=
    h.mono (Nat.le_refl _) (Nat.le_refl _) (fun _ => id) h.callback id (.inr ⟨clean, rfl⟩)
  cases hst with
  | call hworker hpipe task =>
    obtain ⟨hheld, hlength⟩ := h.free (by simp [hworker]) hpipe
    have hpending := h.pending (by simp [hworker, Worker.alive])
    have hopen := h.not_closed (by simp [hworker])
    have hclosed (hc : Sandbox.closed { s with
        worker := .waiting, calls := s.calls ++ [task],
        toController := s.toController ++ [.call s.calls.length] }) : s.closed := by
      simpa [Sandbox.closed] using hc
    simp only [held, Sandbox.pending] at hheld hpending
    -- No other call is held, so that this one is the only one.
    refine ⟨?_, ?_, fun _ => ?_, h.callback, nofun, fun _ => by simp [hlength],
      fun hc => absurd (hclosed hc) hopen, fun hc => absurd (hclosed hc) hopen⟩ <;>
      simp only [outstanding, held, Sandbox.pending, List.countP_append] at hpending ⊢ <;>
      simp <;> omega
  | receive hworker hread =>
    have hheld := h.held_le
    have hopen := h.not_closed (by simp [hworker])
    simp only [held, hread, List.length_cons] at hheld
    refine ⟨h.outstanding_le, ?_, fun _ => h.pending (by simp [hworker, Worker.alive]), h.callback,
      fun _ _ => ⟨?_, by simpa using h.waiting hworker⟩, nofun, fun hc => absurd hc hopen,
      fun hc => absurd hc hopen⟩
    · simp only [held, Sandbox.pending] at hheld ⊢
      omega
    · simp only [held, Sandbox.pending] at hheld ⊢
      omega
  | eof hworker _ hpipe =>
    -- A call may still be held, but the worker cannot make another one.
    have hopen := h.not_closed (by simp [hworker])
    refine ⟨h.outstanding_le, h.held_le, fun _ => h.pending (by simp [hworker, Worker.alive]),
      h.callback, fun _ hp => ?_, nofun, fun hc => absurd hc hopen, h.closed⟩
    cases hpipe.symm.trans hp
  | raise hworker => simpa using h.goOn [] (by simp [hworker]) nofun (by simp) rfl nofun
  | report hworker hpipe =>
    exact h.goOn _ (by simp [hworker]) (fun _ => hpipe) (by simp) rfl (by simp)
  | hide hworker _ hpipe =>
    exact h.goOn _ (by simp [hworker]) (fun _ => hpipe) (by simp) rfl (by simp)
  | close hworker hpipe =>
    exact h.goOn _ (by obtain hw | hw := hworker <;> simp [hw]) (fun _ => hpipe) (by simp) rfl
      (by simp)
  | closeFails hworker => exact hdead _
  | crash hworker => exact hdead _
  | exit hworker => exact hdead _

theorem Single.callback_eq (h : s.Single) (hc : s.controller ≠ .waiting) : s.callback = .none := by
  by_contra hne
  exact hc (h.callback hne)

theorem Single.controller (h : s.Single) (hst : ControllerStep s t) : t.Single := by
  cases hst with
  | read hcontroller hread =>
    have hcallback := h.callback_eq (by simp [hcontroller])
    refine h.mono ?_ ?_ (fun _ => ?_) (fun _ => rfl) ?_
    · simp [outstanding, hread, hcallback, List.countP_cons]
    · simp [held, Sandbox.pending, hread, hcontroller, List.countP_cons]
    · simp [outstanding, Sandbox.pending, hread, hcallback, hcontroller, List.countP_cons]
    · simpa [Sandbox.closed, hread] using .inl
  | readClosed hcontroller hread =>
    have hcallback := h.callback_eq (by simp [hcontroller])
    -- The call that is dropped was the one that is outstanding.
    have hout := h.outstanding_le
    simp [outstanding, hread, hcallback, List.countP_cons] at hout
    refine h.mono ?_ ?_ (fun _ _ => ?_) (fun hne => absurd hcallback hne) ?_
    · simp [outstanding, hread, hcallback, List.countP_cons]
    · simp [held, Sandbox.pending, hread, hcontroller, List.countP_cons]
    · simp [outstanding, Sandbox.pending, hcallback]
      omega
    · simpa [Sandbox.closed, hread] using .inl
  | readError hcontroller hread =>
    have hcallback := h.callback_eq (by simp [hcontroller])
    refine h.mono ?_ ?_ (fun _ => ?_) (fun hne => absurd hcallback hne) ?_
    · simp [outstanding, hread]
    · simp [held, Sandbox.pending, hread, hcontroller]
    · simp [outstanding, Sandbox.pending, hread, hcontroller]
    · simpa [Sandbox.closed, hread] using .inl
  | readClose hcontroller hread =>
    have hcallback := h.callback_eq (by simp [hcontroller])
    refine h.mono ?_ ?_ (fun _ => ?_) (fun hne => absurd hcallback hne) ?_
    · simp [outstanding, hread]
    · simp [held, Sandbox.pending, hread, hcontroller]
    · simp [outstanding, Sandbox.pending, hread, hcontroller]
    · simp [Sandbox.closed, hread]
  | eof hcontroller | readFails hcontroller | sendFails hcontroller =>
    have hcallback := h.callback_eq (by simp [hcontroller])
    refine h.mono (Nat.le_refl _) ?_ (fun _ => ?_) (fun hne => absurd hcallback hne) ?_
    · simp [held, Sandbox.pending, hcontroller]
    · simp [outstanding, Sandbox.pending, hcontroller]
    · simp [Sandbox.closed, hcontroller]
  | send hcontroller | sendError hcontroller =>
    have hcallback := h.callback_eq (by simp [hcontroller])
    refine h.mono (Nat.le_refl _) ?_ (fun _ => ?_) (fun hne => absurd hcallback hne) ?_
    · simp [held, Sandbox.pending, hcontroller]
      omega
    · simp [outstanding, Sandbox.pending, hcontroller]
    · simp [Sandbox.closed, hcontroller]

theorem countP_write_le (message : SandboxMessage R) :
    (s.write message).countP SandboxMessage.isRequest ≤
      s.toClient.countP SandboxMessage.isRequest + if message.isRequest then 1 else 0 := by
  rw [write]
  split
  · exact Nat.le_add_right _ _
  · simp [List.countP_append, List.countP_cons]

theorem countP_respond_le (call : ℕ) (result : R) :
    (s.respond call result).countP SandboxMessage.isResponse ≤
      s.toServer.countP SandboxMessage.isResponse + 1 := by
  rw [respond]
  split
  · exact Nat.le_add_right _ _
  · simp [List.countP_append]

theorem Single.callbackStep (h : s.Single) (ht : s.Typed) (hst : CallbackStep s t) : t.Single := by
  cases hst with
  | schedule hcallback =>
    have hwaiting := h.callback (by simp [hcallback])
    refine h.mono ?_ (Nat.le_refl _) (fun _ => ?_) fun _ => hwaiting
    · simp [outstanding, hcallback]
    · simp [outstanding, Sandbox.pending, hcallback]
  | @request call hcallback =>
    have hwaiting := h.callback (by simp [hcallback])
    have hwrite := countP_write_le (s := s) (.request call)
    simp only [SandboxMessage.isRequest, if_true] at hwrite
    refine h.mono ?_ (Nat.le_refl _) (fun _ => ?_) fun _ => hwaiting
    · simp [outstanding, hcallback]
      omega
    · simp [outstanding, Sandbox.pending, hcallback]
      omega
  | requestFails hcallback =>
    have hwaiting := h.callback (by simp [hcallback])
    have hout := h.outstanding_le
    simp [outstanding, hcallback] at hout
    refine h.mono ?_ ?_ (fun _ _ => ?_) nofun ?_
    · simp [outstanding, abandon]
    · simp [held, Sandbox.pending, abandon, hwaiting]
    · simp [outstanding, Sandbox.pending, abandon]
      omega
    · simp [Sandbox.closed, abandon, hwaiting]
  | respond hcallback hread =>
    have hwaiting := h.callback (by simp [hcallback])
    have hout := h.outstanding_le
    simp [outstanding, hcallback, hread, List.countP_cons] at hout
    refine h.mono ?_ ?_ (fun _ _ => ?_) nofun ?_
    · simp [outstanding, hread, List.countP_cons]
      omega
    · simp [held, Sandbox.pending, hwaiting]
    · simp [outstanding, Sandbox.pending]
      omega
    · simp [Sandbox.closed, hwaiting]
  | unexpected hcallback hread hmessage =>
    obtain ⟨_, _, hresponse⟩ := ht.exists_response hcallback hread
    exact absurd hresponse (hmessage _ _)
  | disconnect hcallback hread hclient =>
    have hwaiting := h.callback (by simp [hcallback])
    refine h.mono ?_ ?_ (fun halive => ?_) nofun ?_ (killed_eq.imp_right fun hk => ⟨false, hk⟩)
      nofun
    · simp [outstanding, abandon, hcallback]
    · simp [held, Sandbox.pending, abandon, hwaiting]
    · cases alive_killed.symm.trans halive
    · simp [Sandbox.closed, abandon, hwaiting]

theorem Single.server (h : s.Single) (ht : s.Typed) (hst : ServerStep s t) : t.Single := by
  have hkilled : s.killed = s.worker ∨ ∃ clean, s.killed = .exited clean :=
    killed_eq.imp_right fun hk => ⟨false, hk⟩
  have hread {server : Server} {message : SandboxMessage R} {toServer : List (SandboxMessage R)}
      {toClient : List (SandboxMessage R)} (hread : s.toServer = message :: toServer)
      (htoClient : toClient.countP SandboxMessage.isRequest ≤
        s.toClient.countP SandboxMessage.isRequest) :
      Single { s with server, toServer, toClient } := by
    have hle : Sandbox.outstanding { s with server, toServer, toClient } ≤ s.outstanding := by
      simp only [outstanding, hread, List.countP_cons]
      omega
    exact h.mono hle (Nat.le_refl _) (fun _ => Nat.le_trans hle) h.callback
  have hwrite (server : Server) (pipeClosed : Bool) {message : SandboxMessage R}
      (hpipe : pipeClosed = false → s.pipeClosed = false) (hmessage : message.isRequest = false) :
      Single { s with server, pipeClosed, toClient := s.write message } := by
    have hle : Sandbox.outstanding { s with server, pipeClosed, toClient := s.write message } ≤
        s.outstanding := by
      have := countP_write_le (s := s) message
      simp only [hmessage, Bool.false_eq_true, if_false, Nat.add_zero] at this
      simp only [outstanding]
      omega
    exact h.mono hle (Nat.le_refl _) (fun _ => Nat.le_trans hle) h.callback id (.inl rfl) hpipe
  cases hst with
  | accept hserver hread =>
    have hu := ht.unstarted (ht.handshake hserver)
    cases hu.rest_eq hread
    have hnoRequest : s.toClient.countP SandboxMessage.isRequest = 0 :=
      List.countP_eq_zero.2 fun m hm => by simp [hu.toClient m hm]
    constructor <;>
      simp [outstanding, held, Sandbox.pending, Sandbox.closed, hu.calls, hu.received,
        hu.toController, hu.toWorker, hu.callback, hu.client, hnoRequest]
  | startFails _ hs => exact hread hs (Nat.le_refl _)
  | refuse _ hs =>
    refine hread hs ?_
    simpa using countP_write_le (s := s) .error
  | done => exact hwrite _ _ id rfl
  | fail => exact hwrite _ _ nofun rfl
  | reject | joinFails => exact h.mono (Nat.le_refl _) (Nat.le_refl _) (fun _ => id) h.callback
  | timeout | kill =>
    refine h.mono (Nat.le_refl _) (Nat.le_refl _) (fun halive => ?_) h.callback id hkilled
    cases alive_killed.symm.trans halive
  | returned | unclean | expire | cancel =>
    exact h.mono (Nat.le_refl _) (Nat.le_refl _) (fun _ => id) h.callback id (.inl rfl) nofun
  | stop _ hdead =>
    -- A callback that is cancelled leaves the controller with an error to send.
    have hle : s.callback.unsent ≥ s.stop.callback.unsent := Nat.zero_le _
    have hcontroller : s.stop.controller.isWaiting + s.stop.controller.isResolved =
        s.controller.isWaiting + s.controller.isResolved := by
      cases hc : s.controller <;> simp [Sandbox.stop, hc]
    refine h.mono ?_ ?_ (fun halive => ?_) nofun ?_ (.inl rfl) nofun
    · simp only [outstanding, Sandbox.stop] at hle ⊢
      omega
    · simp only [held, Sandbox.pending] at hcontroller ⊢
      simp only [Sandbox.stop] at hcontroller ⊢
      omega
    · cases hdead.symm.trans halive
    · cases hc : s.controller <;> simp [Sandbox.closed, Sandbox.stop, hc]

theorem calling_read (message : SandboxMessage R) :
    (Client.read message).calling = if message.isRequest then 1 else 0 := by
  cases message <;> rfl

theorem Single.client (h : s.Single) (hst : ClientStep s t) : t.Single := by
  have hmono {toServer toClient : List (SandboxMessage R)} {client : Client}
      {answered : List (ℕ × R)}
      (hle : Sandbox.outstanding { s with toServer, toClient, client, answered } ≤ s.outstanding) :
      Single { s with toServer, toClient, client, answered } :=
    h.mono hle (Nat.le_refl _) (fun _ => Nat.le_trans hle) h.callback
  cases hst with
  | read hclient hread =>
    refine hmono ?_
    simp [outstanding, hclient, hread, List.countP_cons, calling_read]
    omega
  | interrupt hclient hread =>
    refine hmono ?_
    simp [outstanding, hread, List.countP_cons]
    omega
  | @answer call hclient result =>
    refine hmono ?_
    have := countP_respond_le (s := s) call result
    simp [outstanding, hclient]
    omega
  | eof | fail =>
    refine hmono ?_
    simp [outstanding]

theorem Single.stream (h : s.Single) (hst : StreamStep s t) : t.Single := by
  cases hst with
  | cut => exact h.mono (Nat.le_refl _) (Nat.le_refl _) (fun _ => id) h.callback
  | lose _ i j =>
    have hle : Sandbox.outstanding { s with
        toClient := s.toClient.take i, toServer := s.toServer.take j } ≤ s.outstanding := by
      have hi := (List.take_sublist i s.toClient).countP_le (p := SandboxMessage.isRequest)
      have hj := (List.take_sublist j s.toServer).countP_le (p := SandboxMessage.isResponse)
      simp only [outstanding]
      omega
    exact h.mono hle (Nat.le_refl _) (fun _ => Nat.le_trans hle) h.callback

theorem Single.step (h : s.Single) (ht : s.Typed) (hst : SandboxStep s t) : t.Single := by
  cases hst with
  | worker hst => exact h.worker hst
  | controller hst => exact h.controller hst
  | callback hst => exact h.callbackStep ht hst
  | server hst => exact h.server ht hst
  | client hst => exact h.client hst
  | stream hst => exact h.stream hst

end Sandbox

end Hyperforge.Codemode.Session
