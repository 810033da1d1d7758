import Hyperforge.Codemode.SessionCalls

/-!
# Safety of sessions

Of every session of a sandbox, whatever the order of its steps:

* one call is outstanding at a time, and no party reads a message that it does not expect
  (`outstanding_le_one`);
* the client runs callbacks in the order of their calls and each at most once, and a call returns
  what the client has answered to it, or an error (`received_eq_answered`): the messages on the
  stream carry no numbers, and need none;
* when the run of the client returns, the code has ended without an exception, its process with
  code 0, and all of its calls have returned (`clean_of_returned`).
-/

namespace Hyperforge.Codemode.Session

open Transition

/-- The code has not ended. -/
@[simp]
def Worker.inCode : Worker → Bool
  | notStarted | running | waiting => true
  | _ => false

variable {T R : Type} {s t : Sandbox T R}

theorem WorkerStep.ne_exited (h : WorkerStep s t) (clean : Bool) : s.worker ≠ .exited clean := by
  cases h with
  | call hworker | receive hworker | eof hworker | raise hworker | report hworker | hide hworker
  | exit hworker => simp [hworker]
  | close hworker => obtain hw | hw := hworker <;> simp [hw]
  | closeFails hworker => obtain hw | hw | hw := hworker <;> simp [hw]
  | crash hworker =>
    intro hw
    simp [hw, Worker.alive] at hworker

theorem ControllerStep.ne_returned (h : ControllerStep s t) (clean : Bool) :
    s.controller ≠ .returned clean := by
  cases h with
  | read hc | readClosed hc | readError hc | readClose hc | eof hc | readFails hc | send hc
  | sendError hc | sendFails hc => simp [hc]

namespace Sandbox

/-! ## Results -/

/-- The client has not run the callback of a call. -/
def Unanswered (s : Sandbox T R) (n : ℕ) : Prop :=
  .call n ∈ s.toController ∨ s.callback = .intent n ∨ s.callback = .scheduled n ∨
    .request n ∈ s.toClient ∨ s.client = .callback n

/-- A result is on its way to the worker. -/
def Carries (s : Sandbox T R) (n : ℕ) (r : R) : Prop :=
  .response n r ∈ s.toServer ∨ s.controller = .resolved (.result n r) ∨ .result n r ∈ s.toWorker

/-- What is on its way is for the last call, and results are what the client has answered. -/
structure Matched (s : Sandbox T R) : Prop where
  unanswered : ∀ n, s.Unanswered n → n + 1 = s.calls.length ∧ ∀ p ∈ s.answered, p.1 < n
  carried : ∀ n r, s.Carries n r → n + 1 = s.calls.length ∧ (n, r) ∈ s.answered
  answered : ∀ p ∈ s.answered, p.1 < s.calls.length
  increasing : s.answered.Pairwise fun p q => p.1 < q.1
  received : ∀ i n r, s.received[i]? = some (.result n r) → n = i ∧ (n, r) ∈ s.answered

/-- Where a call is, it counts. -/
theorem Unanswered.pos {n : ℕ} (h : s.Unanswered n) :
    0 < s.toController.countP Task.isCall + s.callback.unsent +
      s.toClient.countP SandboxMessage.isRequest + s.client.calling := by
  obtain hc | hc | hc | hc | hc := h
  · have := List.countP_pos_iff.2 ⟨_, hc, (rfl : Task.isCall (.call n) = true)⟩
    omega
  · rw [hc, unsent_eq.2.1]
    omega
  · rw [hc, unsent_eq.2.2.1]
    omega
  · have := List.countP_pos_iff.2
      ⟨_, hc, (rfl : SandboxMessage.isRequest (.request n : SandboxMessage R) = true)⟩
    omega
  · simp [hc]

theorem countP_response_pos {n : ℕ} {r : R} (h : .response n r ∈ s.toServer) :
    0 < s.toServer.countP SandboxMessage.isResponse :=
  List.countP_pos_iff.2 ⟨_, h, rfl⟩

/-- Steps that take calls and results further. -/
theorem Matched.mono (h : s.Matched) (hunanswered : ∀ n, t.Unanswered n → s.Unanswered n)
    (hcarried : ∀ n r, t.Carries n r → s.Carries n r) (hcalls : t.calls = s.calls := by rfl)
    (hanswered : t.answered = s.answered := by rfl)
    (hreceived : t.received = s.received := by rfl) : t.Matched := by
  constructor
  · rw [hcalls, hanswered]
    exact fun n hn => h.unanswered n (hunanswered n hn)
  · rw [hcalls, hanswered]
    exact fun n r hn => h.carried n r (hcarried n r hn)
  · rw [hcalls, hanswered]
    exact h.answered
  · rw [hanswered]
    exact h.increasing
  · rw [hreceived, hanswered]
    exact h.received

/-- Results only move on. -/
theorem Carries.mono {n : ℕ} {r : R} (h : t.Carries n r)
    (hcontroller : ∀ o, t.controller = .resolved o → o = .error ∨ s.controller = .resolved o)
    (htoServer : ∀ m ∈ t.toServer, m ∈ s.toServer := by exact fun _ => id)
    (htoWorker : ∀ o ∈ t.toWorker, o = .error ∨ o ∈ s.toWorker ∨ s.controller = .resolved o := by
      exact fun _ h => .inr (.inl h)) : s.Carries n r := by
  obtain h | h | h := h
  · exact .inl (htoServer _ h)
  · exact .inr (.inl ((hcontroller _ h).resolve_left (by simp)))
  · obtain h | h | h := htoWorker _ h
    · cases h
    · exact .inr (.inr h)
    · exact .inr (.inl h)

theorem eq_error_of_resolved {o : Outcome R} (h : Controller.resolved .error = .resolved o)
    (P : Prop) : o = .error ∨ P := by
  cases h
  exact .inl rfl

theorem Matched.worker (h : s.Matched) (hs : s.Single) (hst : WorkerStep s t) : t.Matched := by
  cases hst with
  | call hworker hpipe task =>
    -- Nothing is on its way while the worker runs.
    have hout := hs.outstanding_eq_zero (by simp [hworker]) hpipe
    have hheld := (hs.free (by simp [hworker]) hpipe).1
    simp only [outstanding, held, Sandbox.pending] at hout hheld
    have hlast {n : ℕ} (hn : Unanswered { s with
        worker := .waiting, calls := s.calls ++ [task],
        toController := s.toController ++ [.call s.calls.length] } n) : n = s.calls.length := by
      by_contra hne
      have hs : s.Unanswered n := by
        simpa [Unanswered, hne] using hn
      have := hs.pos
      omega
    refine ⟨fun n hn => ?_, fun n r hn => ?_, fun p hp => ?_, h.increasing, h.received⟩
    · rw [hlast hn]
      exact ⟨by simp, h.answered⟩
    · have hn : s.Carries n r := hn
      obtain hc | hc | hc := hn
      · have := countP_response_pos hc
        omega
      · simp [hc] at hheld
      · have := List.length_pos_of_mem hc
        omega
    · simpa using Nat.lt_succ_of_lt (h.answered p hp)
  | @receive outcome rest hworker hread =>
    refine ⟨h.unanswered, fun n r hn => h.carried n r ?_, h.answered, h.increasing,
      fun i n r hi => ?_⟩
    · exact hn.mono (fun _ => .inr) (fun _ => id) fun o ho => .inr (.inl (by simp [hread, ho]))
    by_cases hlt : i < s.received.length
    · exact h.received i n r (by rwa [List.getElem?_append_left hlt] at hi)
    · -- It is the result of the last call.
      rw [List.getElem?_append_right (Nat.le_of_not_lt hlt), List.getElem?_singleton] at hi
      split at hi
      next hzero =>
        obtain ⟨hn, hanswered⟩ := h.carried n r (.inr (.inr (by simp [hread, Option.some.inj hi])))
        have := hs.waiting hworker
        exact ⟨by omega, hanswered⟩
      · cases hi
  | report | hide | close =>
    exact h.mono (fun n hn => by simpa [Unanswered] using hn) fun _ _ => id
  | eof | raise | closeFails | exit | crash => exact h.mono (fun _ => id) fun _ _ => id

theorem Matched.controller (h : s.Matched) (hst : ControllerStep s t) : t.Matched := by
  cases hst with
  | read _ hread =>
    refine h.mono (fun n hn => ?_) fun n r hn => hn.mono (by simp)
    simp only [Unanswered, hread, List.mem_cons] at hn ⊢
    simp at hn ⊢
    tauto
  | readClosed _ hread =>
    refine h.mono (fun n hn => ?_) fun n r hn => hn.mono fun _ ho => eq_error_of_resolved ho _
    exact hn.imp_left fun hn => by simp [hread, hn]
  | readError _ hread | readClose _ hread =>
    refine h.mono (fun n hn => ?_) fun n r hn => hn.mono (by simp)
    exact hn.imp_left fun hn => by simp [hread, hn]
  | eof | readFails | sendFails => exact h.mono (fun _ => id) fun n r hn => hn.mono (by simp)
  | send hcontroller =>
    refine h.mono (fun _ => id) fun n r hn => hn.mono (by simp) (fun _ => id) fun o ho => .inr ?_
    exact (List.mem_append.1 ho).imp_right fun ho => by rw [hcontroller, List.mem_singleton.1 ho]
  | sendError =>
    refine h.mono (fun _ => id) fun n r hn => hn.mono (by simp) (fun _ => id) fun o ho => ?_
    obtain ho | ho := List.mem_append.1 ho
    · exact .inr (.inl ho)
    · exact .inl (List.mem_singleton.1 ho)

/-- Without a callback, a call is where it has been. -/
theorem Unanswered.of_none {n : ℕ} (h : t.Unanswered n) (hcallback : t.callback = .none)
    (htoController : t.toController = s.toController := by rfl)
    (htoClient : t.toClient = s.toClient := by rfl) (hclient : t.client = s.client := by rfl) :
    s.Unanswered n := by
  obtain h | h | h | h | h := h
  · exact .inl (htoController ▸ h)
  · cases hcallback.symm.trans h
  · cases hcallback.symm.trans h
  · exact .inr (.inr (.inr (.inl (htoClient ▸ h))))
  · exact .inr (.inr (.inr (.inr (hclient ▸ h))))

theorem Matched.callbackStep (h : s.Matched) (hst : CallbackStep s t) : t.Matched := by
  cases hst with
  | schedule hcallback =>
    refine h.mono (fun n hn => ?_) fun _ _ => id
    simp only [Unanswered, hcallback] at hn ⊢
    simp at hn ⊢
    tauto
  | request hcallback =>
    refine h.mono (fun n hn => ?_) fun _ _ => id
    obtain hn | hn | hn | hn | hn := hn
    · exact .inl hn
    · cases hn
    · cases hn
    · obtain hn | hn := mem_write hn
      · exact .inr (.inr (.inr (.inl hn)))
      · cases hn
        exact .inr (.inr (.inl hcallback))
    · exact .inr (.inr (.inr (.inr hn)))
  | requestFails | disconnect =>
    exact h.mono (fun n hn => hn.of_none rfl) fun n r hn =>
      hn.mono fun _ ho => eq_error_of_resolved ho _
  | unexpected _ hread =>
    exact h.mono (fun n hn => hn.of_none rfl) fun n r hn =>
      hn.mono (fun _ ho => eq_error_of_resolved ho _) fun m hm => by simp [hread, hm]
  | respond _ hread =>
    refine h.mono (fun n hn => hn.of_none rfl) fun n r hn => ?_
    obtain hn | hn | hn := hn
    · exact .inl (by simp [hread, hn])
    · cases hn
      exact .inl (by simp [hread])
    · exact .inr (.inr hn)

theorem Matched.server (h : s.Matched) (hst : ServerStep s t) : t.Matched := by
  have hwrite {n : ℕ} (message : SandboxMessage R) (hmessage : message.isRequest = false)
      (hn : Unanswered { s with toClient := s.write message } n) : s.Unanswered n := by
    refine hn.imp_right (Or.imp_right (Or.imp_right (Or.imp_left fun hn => ?_)))
    exact (mem_write hn).resolve_right fun hm => by simp [← hm] at hmessage
  cases hst with
  | accept _ hread =>
    exact h.mono (fun _ => id) fun n r hn => hn.mono (by simp) fun m hm => by simp [hread, hm]
  | startFails _ hread =>
    exact h.mono (fun _ => id) fun n r hn => hn.mono (fun _ => .inr) fun m hm => by simp [hread, hm]
  | refuse _ hread =>
    exact h.mono (fun n hn => hwrite .error rfl hn) fun n r hn =>
      hn.mono (fun _ => .inr) fun m hm => by simp [hread, hm]
  | done => exact h.mono (fun n hn => hwrite .done rfl hn) fun _ _ => id
  | fail => exact h.mono (fun n hn => hwrite .error rfl hn) fun _ _ => id
  | stop =>
    refine h.mono (fun n hn => hn.of_none rfl) fun n r hn => hn.mono fun o ho => ?_
    cases hc : s.controller <;> simp_all [Sandbox.stop]
  | reject | timeout | returned | unclean | expire | joinFails | kill | cancel =>
    exact h.mono (fun _ => id) fun _ _ => id

theorem Matched.client (h : s.Matched) (hs : s.Single) (hst : ClientStep s t) : t.Matched := by
  cases hst with
  | @read message rest hclient hread =>
    refine h.mono (fun n hn => ?_) fun _ _ => id
    obtain hn | hn | hn | hn | hn := hn
    · exact .inl hn
    · exact .inr (.inl hn)
    · exact .inr (.inr (.inl hn))
    · refine .inr (.inr (.inr (.inl ?_)))
      rw [hread]
      exact .tail _ hn
    · cases message <;> simp [Client.read] at hn
      simp [Unanswered, hread, hn]
  | interrupt _ hread =>
    refine h.mono (fun n hn => ?_) fun _ _ => id
    simp only [Unanswered, hread, List.mem_cons] at hn ⊢
    simp at hn
    tauto
  | @answer call hclient result =>
    -- The call is nowhere else.
    have hout := hs.outstanding_le
    simp only [outstanding, hclient, calling_eq.2.1] at hout
    have hnone (n : ℕ) : ¬Unanswered { s with
        client := .reading, answered := s.answered ++ [(call, result)]
        toServer := s.respond call result } n := fun hn => by
      have hpos := hn.pos
      simp only [calling_eq.1] at hpos
      omega
    obtain ⟨hcall, hlt⟩ := h.unanswered call (by simp [Unanswered, hclient])
    refine ⟨fun n hn => absurd hn (hnone n), fun n r hn => ?_, fun p hp => ?_, ?_,
      fun i n r hi => ?_⟩
    · have hcarries : s.Carries n r ∨ n = call ∧ r = result := by
        obtain hn | hn | hn := hn
        · obtain hn | hn := mem_respond hn
          · exact .inl (.inl hn)
          · cases hn
            exact .inr ⟨rfl, rfl⟩
        · exact .inl (.inr (.inl hn))
        · exact .inl (.inr (.inr hn))
      obtain hn | ⟨rfl, rfl⟩ := hcarries
      · exact ⟨(h.carried n r hn).1, List.mem_append_left _ (h.carried n r hn).2⟩
      · exact ⟨hcall, by simp⟩
    · obtain hp | hp := List.mem_append.1 hp
      · exact h.answered p hp
      · obtain rfl := List.mem_singleton.1 hp
        exact Nat.lt_of_succ_le (Nat.le_of_eq hcall)
    · refine List.pairwise_append.2 ⟨h.increasing, List.pairwise_singleton _ _, fun p hp q hq => ?_⟩
      obtain rfl := List.mem_singleton.1 hq
      exact hlt p hp
    · exact ⟨(h.received i n r hi).1, List.mem_append_left _ (h.received i n r hi).2⟩
  | eof | fail =>
    refine h.mono (fun n hn => ?_) fun _ _ => id
    simp only [Unanswered] at hn ⊢
    simp at hn
    tauto

theorem Matched.stream (h : s.Matched) (hst : StreamStep s t) : t.Matched := by
  cases hst with
  | cut => exact h.mono (fun _ => id) fun _ _ => id
  | lose _ i j =>
    refine h.mono (fun n hn => ?_) fun n r hn => ?_
    · have := List.mem_of_mem_take (a := (.request n : SandboxMessage R)) (l := s.toClient) (i := i)
      simp only [Unanswered] at hn ⊢
      tauto
    · exact hn.imp_left List.mem_of_mem_take

theorem Matched.step (h : s.Matched) (hs : s.Single) (hst : SandboxStep s t) : t.Matched := by
  cases hst with
  | worker hst => exact h.worker hs hst
  | controller hst => exact h.controller hst
  | callback hst => exact h.callbackStep hst
  | server hst => exact h.server hst
  | client hst => exact h.client hs hst
  | stream hst => exact h.stream hst

/-! ## The end of a session -/

/-- The controller is to read `_close` next, or has read it. -/
def Ends (s : Sandbox T R) : Prop :=
  s.controller = .returned true ∨ s.controller ≠ .failed ∧ s.toController.head? = some .close

/-- The controller does not read `_close` of a worker that has raised an exception, but before the
    process fails. -/
structure Clean (s : Sandbox T R) : Prop where
  inCode : s.worker.inCode → s.hasRaised = false
  reported : s.worker = .reported → .error ∈ s.toController ∨ s.controller = .failed
  clean : s.Ends → s.worker = .closing true ∨ s.worker = .exited true → s.hasRaised = false

/-- The client has been told that the session is done. -/
def Done (s : Sandbox T R) : Prop := .done ∈ s.toClient ∨ s.client = .returned

/-- When the session is done, its controller and its worker have ended. -/
structure Finished (s : Sandbox T R) : Prop where
  joining : s.server = .joining → s.controller = .returned true
  done : s.Done → s.controller = .returned true ∧ s.worker = .exited true

theorem Ends.closed (h : s.Ends) : s.closed := by
  obtain h | ⟨-, h⟩ := h
  · exact .inr h
  · exact .inl (List.mem_of_head? h)

theorem Clean.mono (h : s.Clean) (hends : t.Ends → s.Ends)
    (hreported : .error ∈ s.toController ∨ s.controller = .failed →
      .error ∈ t.toController ∨ t.controller = .failed)
    (hworker : t.worker = s.worker ∨ t.worker = .exited false := by exact .inl rfl)
    (hraised : t.hasRaised = s.hasRaised := by rfl) : t.Clean := by
  refine ⟨fun hw => ?_, fun hw => ?_, fun he hw => ?_⟩
  all_goals obtain hworker | hworker := hworker
  · exact hraised.trans (h.inCode (hworker ▸ hw))
  · simp [hworker] at hw
  · exact hreported (h.reported (hworker ▸ hw))
  · cases hw.symm.trans hworker
  · exact hraised.trans (h.clean (hends he) (hworker ▸ hw))
  · simp [hworker] at hw

/-- What the worker sends is read next if nothing else has been sent. -/
theorem Ends.of_append {task : Task} (he : t.Ends)
    (htoController : t.toController = s.toController ++ [task])
    (hcontroller : t.controller = s.controller) (hs : ¬s.Ends) :
    s.controller ≠ .failed ∧ s.toController = [] ∧ task = .close := by
  obtain he | ⟨hne, he⟩ := he
  · exact absurd (.inl (hcontroller ▸ he)) hs
  · rw [htoController] at he
    rw [hcontroller] at hne
    cases hc : s.toController with
    | nil =>
      rw [hc] at he
      exact ⟨hne, rfl, Option.some.inj he⟩
    | cons task' rest =>
      rw [hc] at he
      exact absurd (.inr ⟨hne, hc ▸ he⟩) hs

theorem Clean.worker (h : s.Clean) (hs : s.Single) (hst : WorkerStep s t) : t.Clean := by
  have hopen (hw : s.worker.hasClosed = false) : ¬s.Ends := fun he => by
    cases hw.symm.trans (hs.hasClosed he.closed)
  cases hst with
  | call hworker hpipe task =>
    refine ⟨fun _ => h.inCode (by simp [hworker]), by simp, fun he _ => ?_⟩
    cases (he.of_append rfl rfl (hopen (by simp [hworker]))).2.2
  | receive hworker | eof hworker =>
    exact ⟨fun _ => h.inCode (by simp [hworker]), by simp, by simp⟩
  | raise hworker => exact ⟨by simp, by simp, by simp⟩
  | report => exact ⟨by simp, fun _ => .inl (by simp), by simp⟩
  -- The code with which it will exit is not 0.
  | hide => exact ⟨by simp, by simp, by simp⟩
  | close hworker =>
    have hnot : ¬s.Ends := hopen (by obtain hw | hw := hworker <;> simp [hw])
    refine ⟨by simp, by simp, fun he _ => ?_⟩
    obtain ⟨hne, hnil, -⟩ := he.of_append rfl rfl hnot
    obtain hw | hw := hworker
    · exact h.inCode (by simp [hw])
    · -- The error has been sent before, and the controller has not read it.
      obtain hmem | hfailed := h.reported hw
      · simp [hnil] at hmem
      · exact absurd hfailed hne
  | closeFails hworker =>
    -- It may exit with code 0, but the controller has not got `_close`.
    have hnot : ¬s.Ends := hopen (by obtain hw | hw | hw := hworker <;> simp [hw])
    exact ⟨by simp, by simp, fun he => absurd he hnot⟩
  | @exit clean hworker =>
    refine ⟨by simp, by simp, fun he hw => h.clean he (.inl ?_)⟩
    obtain hw | hw := hw
    · cases hw
    · cases hw
      exact hworker
  | crash => exact h.mono id id (.inr rfl)

/-- Calls are not followed by `_close` before they are read. -/
theorem Single.close_notMem_of_read (hs : s.Single) {call : ℕ} {rest : List Task}
    (hread : s.toController = .call call :: rest) : .close ∉ rest := fun hmem => by
  have hout := (hs.closed (.inl (by simp [hread, hmem]))).1
  simp only [outstanding, hread, List.countP_cons, Task.isCall, if_true] at hout
  omega

theorem Clean.controller (h : s.Clean) (hs : s.Single) (hst : ControllerStep s t) : t.Clean := by
  cases hst with
  | read hcontroller hread | readClosed hcontroller hread =>
    refine h.mono (fun he => ?_) fun he => ?_
    · obtain he | ⟨-, he⟩ := he
      · cases he
      · exact absurd (List.mem_of_head? he) (hs.close_notMem_of_read hread)
    · simpa [hread, hcontroller] using he
  | readError _ hread => exact h.mono (fun he => by simp [Ends] at he) fun _ => .inr rfl
  | readClose hcontroller hread =>
    refine h.mono (fun _ => .inr (by simp [hread, hcontroller])) fun he => ?_
    simpa [hread, hcontroller] using he
  | eof hcontroller hread =>
    refine h.mono (fun he => ?_) fun he => ?_
    · simp [Ends, hread] at he
    · simp [hread, hcontroller] at he
  | readFails | sendFails => exact h.mono (fun he => by simp [Ends] at he) fun _ => .inr rfl
  | send hcontroller | sendError hcontroller =>
    refine h.mono (fun he => ?_) fun he => ?_
    · simpa [Ends, hcontroller] using he
    · simpa [hcontroller] using he

theorem Clean.callbackStep (h : s.Clean) (hs : s.Single) (hst : CallbackStep s t) : t.Clean := by
  cases hst with
  | schedule | request => exact h.mono id id
  | requestFails hcallback | respond hcallback | unexpected hcallback =>
    have hwaiting := hs.callback (by simp [hcallback])
    refine h.mono (fun he => ?_) fun he => ?_
    · simpa [Ends, abandon, hwaiting] using he
    · simpa [abandon, hwaiting] using he
  | disconnect hcallback =>
    have hwaiting := hs.callback (by simp [hcallback])
    refine h.mono (fun he => ?_) (fun he => ?_) killed_eq
    · simpa [Ends, abandon, hwaiting] using he
    · simpa [abandon, hwaiting] using he

theorem returned_stop {clean : Bool} :
    s.stop.controller = .returned clean ↔ s.controller = .returned clean := by
  cases hc : s.controller <;> simp [Sandbox.stop, hc]

theorem failed_stop : s.stop.controller = .failed ↔ s.controller = .failed := by
  cases hc : s.controller <;> simp [Sandbox.stop, hc]

theorem Clean.server (h : s.Clean) (ht : s.Typed) (hst : ServerStep s t) : t.Clean := by
  cases hst with
  | accept hserver =>
    have hworker := ht.handshake hserver
    have hu := ht.unstarted hworker
    exact ⟨fun _ => h.inCode (by simp [hworker]), by simp, by simp⟩
  | timeout | kill => exact h.mono id id killed_eq
  | stop =>
    exact h.mono (fun he => he.imp returned_stop.1 (And.imp_left (mt failed_stop.2)))
      (Or.imp_right failed_stop.2)
  | startFails | refuse | reject | returned | unclean | expire | joinFails | fail | done |
      cancel => exact h.mono id id

theorem Clean.step (h : s.Clean) (hs : s.Single) (ht : s.Typed) (hst : SandboxStep s t) :
    t.Clean := by
  cases hst with
  | worker hst => exact h.worker hs hst
  | controller hst => exact h.controller hs hst
  | callback hst => exact h.callbackStep hs hst
  | server hst => exact h.server ht hst
  | client hst => cases hst <;> exact h.mono id id
  | stream hst => cases hst <;> exact h.mono id id

theorem Finished.mono (h : s.Finished) (hserver : t.server = .joining → s.server = .joining)
    (hdone : t.Done → s.Done)
    (hcontroller : s.controller = .returned true → t.controller = .returned true := by exact id)
    (hworker : s.worker = .exited true → t.worker = .exited true := by exact id) : t.Finished where
  joining ht := hcontroller (h.joining (hserver ht))
  done ht := ⟨hcontroller (h.done (hdone ht)).1, hworker (h.done (hdone ht)).2⟩

theorem Finished.step (h : s.Finished) (hs : s.Single) (ht : s.Typed) (hst : SandboxStep s t) :
    t.Finished := by
  have hreturned (hc : s.callback ≠ .none) : s.controller ≠ .returned true := fun hr => by
    cases hr.symm.trans (hs.callback hc)
  have hkilled (hw : s.worker = .exited true) : s.killed = .exited true := by
    simp [killed, hw, Worker.alive]
  have hwrite {message : SandboxMessage R} (hmessage : message ≠ .done)
      (hd : .done ∈ s.write message ∨ s.client = .returned) : s.Done :=
    hd.imp_left fun hd => (mem_write hd).resolve_right hmessage.symm
  cases hst with
  | worker hst =>
    have hne := hst.ne_exited true
    cases hst <;> exact h.mono id id id fun hw => absurd hw hne
  | controller hst =>
    have hne := hst.ne_returned true
    cases hst <;> exact h.mono id id fun hr => absurd hr hne
  | callback hst =>
    cases hst with
    | schedule => exact h.mono id id
    | request => exact h.mono id (hwrite (by simp))
    | requestFails hc | respond hc | unexpected hc =>
      exact h.mono id id fun hr => absurd hr (hreturned (by simp [hc]))
    | disconnect hc =>
      refine h.mono (fun hj => ?_) id (fun hr => absurd hr (hreturned (by simp [hc]))) hkilled
      simp only at hj
      split at hj
      · cases hj
      · exact hj
  | server hst =>
    cases hst with
    | accept hserver =>
      have hworker := ht.handshake hserver
      exact h.mono (by simp) id (fun hr => by cases hr.symm.trans (ht.unstarted hworker).controller)
        fun hw => by cases hw.symm.trans hworker
    | refuse | fail => exact h.mono (by simp) (hwrite (by simp))
    | timeout | kill => exact h.mono id id id hkilled
    | returned _ hcontroller => exact ⟨fun _ => hcontroller, h.done⟩
    -- It is the only step that tells the client.
    | done hserver hworker => exact ⟨by simp, fun _ => ⟨h.joining hserver, hworker⟩⟩
    | stop => exact h.mono (by simp [Sandbox.stop]) id returned_stop.2
    | startFails | reject | unclean | expire | joinFails | cancel => exact h.mono (by simp) id
  | client hst =>
    cases hst with
    | @read message rest hclient hread =>
      refine h.mono id fun hd => .inl ?_
      obtain hd | hd := hd
      · simpa [hread] using .inr hd
      · cases message <;> simp [Client.read] at hd
        simp [hread]
    | interrupt _ hread =>
      refine h.mono id fun hd => .inl ?_
      obtain hd | hd := hd
      · simpa [hread] using .inr hd
      · cases hd
    | answer | eof | fail => exact h.mono id fun hd => .inl (hd.resolve_right (by simp))
  | stream hst =>
    cases hst with
    | cut => exact h.mono id id
    | lose => exact h.mono id fun hd => hd.imp_left List.mem_of_mem_take

/-- No message is unexpected. -/
structure Expected (s : Sandbox T R) : Prop where
  client : s.client ≠ .failed .unexpectedMessage
  callback : s.client ≠ .failed .unexpectedMessageDuringCallback
  server : s.unexpectedResponse = false

theorem Expected.step (h : s.Expected) (hs : s.Single) (ht : s.Typed) (hf : s.Finished)
    (hst : SandboxStep s t) : t.Expected := by
  cases hst with
  | worker hst => cases hst <;> exact { h with }
  | controller hst => cases hst <;> exact { h with }
  | callback hst =>
    cases hst with
    | unexpected hcallback hread hmessage =>
      obtain ⟨_, _, hresponse⟩ := ht.exists_response hcallback hread
      exact absurd hresponse (hmessage _ _)
    | schedule | request | requestFails | respond | disconnect => exact { h with }
  | server hst => cases hst <;> exact { h with }
  | client hst =>
    cases hst with
    | @read message rest _ hread =>
      have hmessage := ht.toClient message (by simp [hread])
      cases message <;> simp at hmessage <;>
        exact ⟨by simp [Client.read], by simp [Client.read], h.server⟩
    | @interrupt call message rest hclient hread =>
      have hmessage := ht.toClient message (by simp [hread])
      have hout := hs.outstanding_le
      simp only [outstanding, hclient, hread, calling_eq.2.1, List.countP_cons] at hout
      cases message with
      | request =>
        simp at hout
        omega
      | done =>
        -- The worker has closed, and none of its calls is outstanding.
        have hend := (hs.closed (.inr (hf.done (.inl (by simp [hread]))).1)).1
        simp [outstanding, hclient] at hend
      | error => exact ⟨by simp [Failure.interrupt], by simp [Failure.interrupt], h.server⟩
      | run | response => simp at hmessage
    | answer | eof | fail => exact ⟨by simp, by simp, h.server⟩
  | stream hst => cases hst <;> exact { h with }

/-! ## Every run -/

/-- What every step keeps. -/
structure Safe (s : Sandbox T R) : Prop where
  typed : s.Typed
  single : s.Single
  matched : s.Matched
  clean : s.Clean
  finished : s.Finished
  expected : s.Expected

variable {redactErrors : Bool}

theorem Safe.init : Safe ({ redactErrors } : Sandbox T R) where
  typed := ⟨fun _ => rfl, fun _ => by constructor <;> simp, fun h => absurd rfl h, by simp⟩
  single := by constructor <;> simp [outstanding, held, Sandbox.pending, Sandbox.closed]
  matched := by constructor <;> simp [Unanswered, Carries]
  clean := ⟨fun _ => rfl, by simp, by simp⟩
  finished := ⟨by simp, fun h => by simp [Done] at h⟩
  expected := ⟨by simp, by simp, rfl⟩

theorem Safe.step (h : s.Safe) (hst : SandboxStep s t) : t.Safe where
  typed := h.typed.step hst
  single := h.single.step h.typed hst
  matched := h.matched.step h.single hst
  clean := h.clean.step h.single h.typed hst
  finished := h.finished.step h.single h.typed hst
  expected := h.expected.step h.single h.typed h.finished hst

theorem safe_of_reachable (h : (sandbox T R redactErrors).Reachable s) : s.Safe :=
  h.invariant (I := Safe) (fun _ hinit => hinit ▸ .init) fun _ _ _ _ hsafe hst => hsafe.step hst

/-- A run in which the code makes a call, which the client answers. -/
theorem exists_run : ∃ s : Sandbox Unit ℕ, (sandbox Unit ℕ true).Reachable s ∧
    s.client = .returned ∧ s.received[0]? = some (.result 0 7) := by
  have h := System.Reachable.init (S := sandbox Unit ℕ true) (s := { redactErrors := true }) rfl
  have h := h.step (l := ()) (.server (.accept rfl rfl))
  have h := h.step (l := ()) (.worker (.call rfl rfl ()))
  have h := h.step (l := ()) (.controller (.read rfl rfl rfl))
  have h := h.step (l := ()) (.callback (.schedule rfl))
  have h := h.step (l := ()) (.callback (.request rfl))
  have h := h.step (l := ()) (.client (.read rfl rfl))
  have h := h.step (l := ()) (.client (.answer rfl 7))
  have h := h.step (l := ()) (.callback (.respond rfl rfl))
  have h := h.step (l := ()) (.controller (.send rfl rfl))
  have h := h.step (l := ()) (.worker (.receive rfl rfl))
  have h := h.step (l := ()) (.worker (.close (.inl rfl) rfl))
  have h := h.step (l := ()) (.controller (.readClose rfl rfl))
  have h := h.step (l := ()) (.server (.returned rfl rfl rfl))
  have h := h.step (l := ()) (.worker (.exit rfl))
  have h := h.step (l := ()) (.server (.done rfl rfl))
  have h := h.step (l := ()) (.client (.read rfl rfl))
  exact ⟨_, h, rfl, rfl⟩

/-- One call is outstanding at a time, and no party reads a message that it does not expect. -/
theorem outstanding_le_one (h : (sandbox T R redactErrors).Reachable s) :
    s.outstanding ≤ 1 ∧ s.unexpectedResponse = false ∧ s.client ≠ .failed .unexpectedMessage ∧
      s.client ≠ .failed .unexpectedMessageDuringCallback :=
  have hsafe := safe_of_reachable h
  ⟨hsafe.single.outstanding_le, hsafe.expected.server, hsafe.expected.client,
    hsafe.expected.callback⟩

theorem outstanding_le_one_run : ∃ s : Sandbox Unit ℕ, s.received ≠ [] ∧
    s.outstanding ≤ 1 ∧ s.unexpectedResponse = false ∧ s.client ≠ .failed .unexpectedMessage ∧
      s.client ≠ .failed .unexpectedMessageDuringCallback := by
  obtain ⟨s, h, -, hreceived⟩ := exists_run
  exact ⟨s, by rintro hnil; simp [hnil] at hreceived, outstanding_le_one h⟩

/-- The client runs callbacks in the order of their calls and each at most once, and a result that
    a call returns is what the client has answered to that call. -/
theorem received_eq_answered (h : (sandbox T R redactErrors).Reachable s) :
    (s.answered.Pairwise fun p q => p.1 < q.1) ∧ (∀ p ∈ s.answered, p.1 < s.calls.length) ∧
      ∀ i n r, s.received[i]? = some (.result n r) → n = i ∧ (i, r) ∈ s.answered := by
  have hmatched := (safe_of_reachable h).matched
  refine ⟨hmatched.increasing, hmatched.answered, fun i n r hi => ?_⟩
  obtain ⟨rfl, hmem⟩ := hmatched.received i n r hi
  exact ⟨rfl, hmem⟩

theorem received_eq_answered_run : ∃ s : Sandbox Unit ℕ, s.received[0]? = some (.result 0 7) ∧
    (s.answered.Pairwise fun p q => p.1 < q.1) ∧ (∀ p ∈ s.answered, p.1 < s.calls.length) ∧
      ∀ i n r, s.received[i]? = some (.result n r) → n = i ∧ (i, r) ∈ s.answered := by
  obtain ⟨s, h, -, hreceived⟩ := exists_run
  exact ⟨s, hreceived, received_eq_answered h⟩

/-- If the run of the client returns, the code has ended without an exception and its process with
    code 0, and all of its calls have returned. -/
theorem clean_of_returned (h : (sandbox T R redactErrors).Reachable s)
    (hclient : s.client = .returned) :
    s.worker = .exited true ∧ s.hasRaised = false ∧ s.received.length = s.calls.length := by
  obtain ⟨-, hsingle, -, hclean, hfinished, -⟩ := safe_of_reachable h
  obtain ⟨hcontroller, hworker⟩ := hfinished.done (.inr hclient)
  exact ⟨hworker, hclean.clean (.inl hcontroller) (.inr hworker),
    (hsingle.closed (.inr hcontroller)).2⟩

theorem clean_of_returned_run : ∃ s : Sandbox Unit ℕ, s.received ≠ [] ∧
    s.worker = .exited true ∧ s.hasRaised = false ∧ s.received.length = s.calls.length := by
  obtain ⟨s, h, hclient, hreceived⟩ := exists_run
  exact ⟨s, by rintro hnil; simp [hnil] at hreceived, clean_of_returned h hclient⟩

end Sandbox

end Hyperforge.Codemode.Session
