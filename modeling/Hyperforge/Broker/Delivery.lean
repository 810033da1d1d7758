import Hyperforge.Broker.Streams
import Mathlib.Data.List.Infix

/-!
# Delivery by the local broker

A subscription that follows a topic, from its start or from a message, yields the messages after
that in the order in which they have been appended, each once. It has yielded all of them before it
waits, and yields all of them if it is given its turns (`subscribe_delivers`), unless the topic is
evicted from the cache of streams.
-/

namespace Hyperforge.Broker

open Transition

variable {M : Type}

/-- The messages after the one with a cursor. -/
def after (cursor : String) (log : List (String × M)) : List (String × M) :=
  if cursor = "0" then log else (log.dropWhile (·.1 ≠ cursor)).drop 1

namespace LocalBroker

variable {s s' : LocalBroker M} {topic cursor : String} {k n i : ℕ}

/-- A subscription starts after the message with its cursor, also once there are more messages. -/
theorem drop_startIndex {log log' : List (String × M)} (hlog : log <+: log')
    (hcursor : cursor = "0" ∨ cursor ∈ log.map Prod.fst) :
    log'.drop (startIndex cursor log) = after cursor log' := by
  rw [startIndex, after]
  split_ifs with hzero
  · rfl
  obtain ⟨x, hx, hkey⟩ := List.mem_map.1 (hcursor.resolve_left hzero)
  obtain ⟨rest, rfl⟩ := hlog
  cases hfind : log.findIdx? (·.1 = cursor) with
  | none => exact absurd hkey (by simpa using List.findIdx?_eq_none_iff.1 hfind x hx)
  | some j =>
    dsimp only
    clear hx hcursor
    induction log generalizing j with
    | nil => cases hfind
    | cons y log ih =>
      rw [List.findIdx?_cons] at hfind
      by_cases hy : y.1 = cursor
      · rw [if_pos (decide_eq_true hy)] at hfind
        cases hfind
        simp [hy]
      · rw [if_neg (by simpa using hy)] at hfind
        obtain ⟨j', hj', rfl⟩ := Option.map_eq_some_iff.1 hfind
        rw [List.cons_append, List.drop_succ_cons, List.dropWhile_cons_of_pos (by simpa using hy)]
        exact ih j' hj'

/-- A subscription has yielded, or is about to yield, what it has taken of a stream. -/
def Follows (k n i : ℕ) (s : LocalBroker M) : Prop :=
  ∃ u, s.subscriptions i = some u ∧ u.stream = k ∧ n ≤ u.lastIndex ∧
    u.received ++ u.phase.pending = ((s.objects k).messages.take u.lastIndex).drop n

theorem Follows.step (h : Follows k n i s) (hinv : s.Inv) (hstep : Stepped s s') :
    Follows k n i s' := by
  obtain ⟨u, hu, rfl, hn, hreceived⟩ := h
  have hinvu := hinv.subscription i u hu
  obtain ⟨u', hu', hstream, htakes⟩ := hstep.subscription i u hu
  obtain ⟨rest, hrest⟩ := hstep.messages _ hinvu.stream
  refine ⟨u', hu', hstream, ?_⟩
  rcases htakes with ⟨hindex, heq⟩ | ⟨hpending, hindex, heq⟩
  · rw [hindex, heq, hreceived, ← hrest, List.take_append_of_le_length hinvu.bound]
    exact ⟨hn, rfl⟩
  · rw [hpending, List.append_nil] at hreceived
    rw [hindex, heq, hreceived, ← hrest, List.take_left]
    refine ⟨Nat.le_trans hn hinvu.bound, ?_⟩
    have hle : n ≤ ((s.objects u.stream).messages.take u.lastIndex).length := by
      rw [List.length_take]
      exact Nat.le_min.2 ⟨hn, Nat.le_trans hn hinvu.bound⟩
    rw [← List.drop_append_of_le_length hle, List.take_append_drop]

/-! ## Turns of the tasks -/

/-- Steps of tasks that are there, none of which is timed out. -/
def Label.Internal : Label M → Prop
  | .publisher _ => True
  | .subscriber _ => True
  | _ => False

/-- The tasks can go on to a state. -/
inductive Leads : LocalBroker M → LocalBroker M → Prop
  | refl (s : LocalBroker M) : Leads s s
  | cons {s t u : LocalBroker M} {l : Label M} : l.Internal → s.step l = some t → Leads t u →
      Leads s u

theorem Leads.trans {t : LocalBroker M} (h : Leads s s') (h' : Leads s' t) : Leads s t := by
  induction h with
  | refl => exact h'
  | cons hl hstep _ ih => exact .cons hl hstep (ih h')

theorem Leads.single {l : Label M} (hl : l.Internal) (h : s.step l = some s') : Leads s s' :=
  .cons hl h (.refl s')

/-- A subscription that has not waited too long. -/
def Alive (i : ℕ) (s : LocalBroker M) : Prop :=
  ∃ u, s.subscriptions i = some u ∧ u.phase ≠ .expired ∧ u.phase ≠ .timedOut

theorem alive_setSubscription {u : Subscription M} (he : u.phase ≠ .expired)
    (ht : u.phase ≠ .timedOut) : Alive i (s.setSubscription i u) :=
  ⟨u, setSubscription_self .., he, ht⟩

/-- A subscription is timed out only after it has waited too long. -/
theorem alive_runSubscriber {u : Subscription M} (he : u.phase ≠ .expired)
    (hstep : s.runSubscriber i u = some s') : Alive i s' := by
  rw [runSubscriber] at hstep
  cases hphase : u.phase with
  | batch l =>
    cases l with
    | nil =>
      simp only [hphase, Option.map_eq_some_iff] at hstep
      obtain ⟨t, -, rfl⟩ := hstep
      exact alive_setSubscription (by simp) (by simp)
    | cons x l =>
      simp only [hphase, Option.some.injEq] at hstep
      exact hstep ▸ alive_setSubscription (by simp) (by simp)
  | scanning =>
    simp only [hphase] at hstep
    split_ifs at hstep
    · exact Option.some.inj hstep ▸ alive_setSubscription (by simp) (by simp)
    · exact Option.some.inj hstep ▸ alive_setSubscription (by simp) (by simp)
  | waiting =>
    simp only [hphase] at hstep
    split_ifs at hstep
    obtain ⟨t, -, rfl⟩ := Option.map_eq_some_iff.1 hstep
    exact alive_setSubscription (by simp) (by simp)
  | collecting =>
    simp only [hphase, Option.some.injEq] at hstep
    exact hstep ▸ alive_setSubscription (by simp) (by simp)
  | releasing l =>
    simp only [hphase, Option.some.injEq] at hstep
    exact hstep ▸ alive_setSubscription (by simp) (by simp)
  | expired => exact absurd hphase he
  | timedOut =>
    rw [hphase] at hstep
    cases hstep

theorem Alive.step {l : Label M} (h : Alive i s) (hinv : s.Inv) (hl : l.Internal)
    (hstep : s.step l = some s') : Alive i s' := by
  obtain ⟨u, hu, halive⟩ := h
  cases l with
  | publish p topic message => exact hl.elim
  | subscribe j topic cursor => exact hl.elim
  | timeout j => exact hl.elim
  | publisher p =>
    obtain ⟨v, hv, hrun⟩ := Option.bind_eq_some_iff.1 hstep
    have hleaves := (hinv.runPublisher hv hrun).2
    exact ⟨u, (hleaves.subscription i (by simp)).trans hu, halive⟩
  | subscriber j =>
    obtain ⟨v, hv, hrun⟩ := Option.bind_eq_some_iff.1 hstep
    by_cases hij : i = j
    · subst hij
      obtain rfl := Option.some.inj (hu.symm.trans hv)
      exact alive_runSubscriber halive.1 hrun
    · obtain ⟨f, v', rfl, hmoves⟩ := runSubscriber_cases (hinv.subscription j v hv) hrun
      exact ⟨u, (hmoves.leaves.subscription i (by simpa using hij)).trans hu, halive⟩

theorem evicted_of_step {l : Label M} (hinv : s.Inv) (hl : l.Internal)
    (hstep : s.step l = some s') : s'.evicted = s.evicted := by
  cases l with
  | publish p topic message => exact hl.elim
  | subscribe j topic cursor => exact hl.elim
  | timeout j => exact hl.elim
  | publisher p =>
    obtain ⟨v, hv, hrun⟩ := Option.bind_eq_some_iff.1 hstep
    exact (hinv.runPublisher hv hrun).2.evicted
  | subscriber j =>
    obtain ⟨v, hv, hrun⟩ := Option.bind_eq_some_iff.1 hstep
    obtain ⟨f, v', rfl, hmoves⟩ := runSubscriber_cases (hinv.subscription j v hv) hrun
    exact hmoves.leaves.evicted

/-- What holds still after the tasks have gone on. -/
theorem Leads.spec (h : Leads s s') (hinv : s.Inv) : s'.Inv ∧ (Alive i s → Alive i s') ∧
    (Follows k n i s → Follows k n i s') ∧ s'.evicted = s.evicted := by
  induction h with
  | refl => exact ⟨hinv, id, id, rfl⟩
  | cons hl hstep _ ih =>
    obtain ⟨hinv', halive, hfollows, hevicted⟩ := ih (hinv.step hstep).inv
    exact ⟨hinv', fun h => halive (h.step hinv hl hstep),
      fun h => hfollows (h.step hinv (hinv.step hstep)),
      hevicted.trans (evicted_of_step hinv hl hstep)⟩

theorem Leads.publisher {t : LocalBroker M} {p : ℕ} {u : Publisher M}
    (hu : s.publishers p = some u) (hrun : s.runPublisher p u = some s') (h : Leads s' t) :
    Leads s t := by
  have hstep : s.step (.publisher p) = some s' := by rw [step, hu, Option.bind_some, hrun]
  have hl : (Label.publisher p : Label M).Internal := trivial
  exact .cons hl hstep h

theorem Leads.subscriber {t : LocalBroker M} {u : Subscription M}
    (hu : s.subscriptions i = some u) (hrun : s.runSubscriber i u = some s') (h : Leads s' t) :
    Leads s t := by
  have hstep : s.step (.subscriber i) = some s' := by rw [step, hu, Option.bind_some, hrun]
  have hl : (Label.subscriber i : Label M).Internal := trivial
  exact .cons hl hstep h

theorem exists_free_of_publisher {p : ℕ} {u : Publisher M} (hu : s.publishers p = some u)
    (hholds : u.phase.Holds) : ∃ s', Leads s s' ∧ (s'.objects u.stream).holder = none := by
  have hreleasing {s : LocalBroker M} {v : Publisher M} (hv : s.publishers p = some v)
      (hphase : v.phase = .releasing) :
      ∃ s', Leads s s' ∧ (s'.objects v.stream).holder = none := by
    refine ⟨_, .publisher hv (by rw [runPublisher, hphase]) (.refl _), ?_⟩
    rw [setPublisher_objects, release, modify_self]
  have hnotifying {s : LocalBroker M} {v : Publisher M} (hv : s.publishers p = some v)
      (hphase : v.phase = .notifying) :
      ∃ s', Leads s s' ∧ (s'.objects v.stream).holder = none := by
    obtain ⟨s', hleads, hfree⟩ := hreleasing (setPublisher_self (s.notifyAll v.stream) p
      { v with phase := .releasing }) rfl
    exact ⟨s', .publisher hv (by rw [runPublisher, hphase]) hleads, hfree⟩
  rcases hholds with hphase | hphase | hphase
  · obtain ⟨s', hleads, hfree⟩ := hnotifying (setPublisher_self (s.modify u.stream fun st =>
      { st with messages := st.messages ++ [(u.cursor, u.message)] }) p
        { u with phase := .notifying }) rfl
    exact ⟨s', .publisher hu (by rw [runPublisher, hphase]) hleads, hfree⟩
  · exact hnotifying hu hphase
  · exact hreleasing hu hphase

theorem exists_free_of_subscriber {u : Subscription M} (hu : s.subscriptions i = some u)
    (hholds : u.phase.Holds) : ∃ s', Leads s s' ∧ (s'.objects u.stream).holder = none := by
  have hreleasing {s : LocalBroker M} {v : Subscription M} {l : List (String × M)}
      (hv : s.subscriptions i = some v) (hphase : v.phase = .releasing l) :
      ∃ s', Leads s s' ∧ (s'.objects v.stream).holder = none := by
    refine ⟨_, .subscriber hv (by rw [runSubscriber, hphase]) (.refl _), ?_⟩
    rw [setSubscription_objects, release, modify_self]
  have hcollect (hrun : s.runSubscriber i u = some (s.collect i u)) :
      ∃ s', Leads s s' ∧ (s'.objects u.stream).holder = none := by
    obtain ⟨s', hleads, hfree⟩ := hreleasing (setSubscription_self s i { u with
      lastIndex := (s.objects u.stream).messages.length
      phase := .releasing ((s.objects u.stream).messages.drop u.lastIndex) }) rfl
    exact ⟨s', .subscriber hu hrun hleads, hfree⟩
  cases hphase : u.phase with
  | scanning =>
    by_cases hlt : u.lastIndex < (s.objects u.stream).messages.length
    · exact hcollect (by rw [runSubscriber, hphase]; exact if_pos hlt)
    · refine ⟨_, .subscriber hu (by rw [runSubscriber, hphase]; exact if_neg hlt) (.refl _), ?_⟩
      rw [setSubscription_objects, modify_self]
  | collecting => exact hcollect (by rw [runSubscriber, hphase])
  | releasing l => exact hreleasing hu hphase
  | batch l => rw [hphase] at hholds; exact hholds.elim
  | waiting => rw [hphase] at hholds; exact hholds.elim
  | expired => rw [hphase] at hholds; exact hholds.elim
  | timedOut => rw [hphase] at hholds; exact hholds.elim

/-- A task that holds the lock of a stream releases it. -/
theorem exists_free (h : s.Inv) (k : ℕ) :
    ∃ s', Leads s s' ∧ (s'.objects k).holder = none := by
  cases hholder : (s.objects k).holder with
  | none => exact ⟨s, .refl s, hholder⟩
  | some t =>
    have huses := h.holder k t hholder
    cases t with
    | publisher p =>
      obtain ⟨u, hu, rfl⟩ := huses
      exact exists_free_of_publisher hu ((h.publisher p u hu).holds.2 hholder)
    | subscriber i =>
      obtain ⟨u, hu, rfl⟩ := huses
      exact exists_free_of_subscriber hu ((h.subscription i u hu).holds.2 hholder)

/-- What is left of a batch is yielded. -/
theorem exists_yielded {u : Subscription M} {l : List (String × M)}
    (hu : s.subscriptions i = some u) (hphase : u.phase = .batch l) :
    ∃ s' u', Leads s s' ∧ s'.objects = s.objects ∧ s'.subscriptions i = some u' ∧
      u'.phase = .batch [] ∧ u'.stream = u.stream ∧ u'.lastIndex = u.lastIndex := by
  induction l generalizing s u with
  | nil => exact ⟨s, u, .refl s, rfl, hu, hphase, rfl, rfl⟩
  | cons x l ih =>
    obtain ⟨s', u', hleads, hobjects, hu', hspec⟩ := ih (setSubscription_self s i
      { u with phase := .batch l, received := u.received ++ [x] }) rfl
    exact ⟨s', u', .subscriber hu (by rw [runSubscriber, hphase]) hleads, hobjects, hu', hspec⟩

/-- All messages that there are are collected, and yielded. -/
theorem exists_collected {u : Subscription M} (hu : s.subscriptions i = some u)
    (hrun : s.runSubscriber i u = some (s.collect i u)) :
    ∃ s' u', Leads s s' ∧ s'.subscriptions i = some u' ∧ u'.phase.pending = [] ∧
      u'.lastIndex = (s'.objects u.stream).messages.length := by
  let messages := (s.objects u.stream).messages
  let v : Subscription M := { u with
    lastIndex := messages.length
    phase := .batch (messages.drop u.lastIndex) }
  obtain ⟨s', u', hleads, hobjects, hu', hphase, -, hindex⟩ := exists_yielded
    (setSubscription_self ((s.collect i u).release u.stream) i v) rfl
  have hreleased : Leads (s.collect i u) (((s.collect i u).release u.stream).setSubscription i v) :=
    .subscriber (setSubscription_self ..) rfl (.refl _)
  refine ⟨s', u', .subscriber hu hrun (hreleased.trans hleads), hu', by rw [hphase]; rfl, ?_⟩
  rw [hindex, hobjects, setSubscription_objects, release, modify_self, collect,
    setSubscription_objects]

/-- A subscription that is alive is given all messages of its stream. -/
theorem exists_complete (hinv : s.Inv) (halive : Alive i s) (hfollows : Follows k n i s) :
    ∃ s' u', Leads s s' ∧ s'.subscriptions i = some u' ∧
      u'.received = ((s'.objects k).messages).drop n := by
  -- once the lock is free, the subscription takes all messages, or has them
  obtain ⟨t, hleads, hfree⟩ := exists_free hinv k
  obtain ⟨hinvt, halivet, hfollowst, -⟩ := hleads.spec hinv (k := k) (n := n) (i := i)
  suffices hsuffices : ∃ s' u', Leads t s' ∧ s'.subscriptions i = some u' ∧
      u'.phase.pending = [] ∧ u'.lastIndex = (s'.objects k).messages.length by
    obtain ⟨s', u', hleads', hu', hpending, hindex⟩ := hsuffices
    obtain ⟨v, hv, -, -, hreceived⟩ := (hleads'.spec hinvt).2.2.1 (hfollowst hfollows)
    obtain rfl := Option.some.inj (hu'.symm.trans hv)
    rw [hpending, List.append_nil, hindex, List.take_length] at hreceived
    exact ⟨s', u', hleads.trans hleads', hu', hreceived⟩
  obtain ⟨u, hu, hexpired, htimedOut⟩ := halivet halive
  obtain ⟨v, hv, rfl, -⟩ := hfollowst hfollows
  obtain rfl := Option.some.inj (hu.symm.trans hv)
  have hinvu := hinvt.subscription i u hu
  have hnotHolds : ¬u.phase.Holds := fun hholds => by
    rw [hinvu.holds, hfree] at hholds
    cases hholds
  cases hphase : u.phase with
  | batch l =>
    obtain ⟨t₁, u₁, hleads₁, hobjects, hu₁, hphase₁, hstream, hindex⟩ := exists_yielded hu hphase
    let t₂ := (t₁.modify u₁.stream fun st => { st with holder := some (.subscriber i) }
      ).setSubscription i { u₁ with phase := .scanning }
    have hacquire : t₁.runSubscriber i u₁ = some t₂ := by
      rw [runSubscriber, hphase₁]
      dsimp only
      rw [acquire, if_pos (by rw [hobjects, hstream, hfree])]
      rfl
    have hmessages : (t₂.objects u₁.stream).messages = (t.objects u.stream).messages := by
      rw [setSubscription_objects, modify_self, hobjects, hstream]
    by_cases hlt : u₁.lastIndex < (t₂.objects u₁.stream).messages.length
    · obtain ⟨s', u', hleads₂, hu', hpending, hall⟩ := exists_collected
        (setSubscription_self _ i { u₁ with phase := .scanning }) (if_pos hlt)
      exact ⟨s', u', hleads₁.trans (.subscriber hu₁ hacquire hleads₂), hu', hpending,
        hstream ▸ hall⟩
    · refine ⟨_, _, hleads₁.trans (.subscriber hu₁ hacquire (.subscriber (setSubscription_self ..)
        (if_neg hlt) (.refl _))), setSubscription_self .., rfl, ?_⟩
      rw [setSubscription_objects, ← hstream, modify_self, hmessages]
      rw [hmessages, hindex] at hlt
      exact hindex.trans (Nat.le_antisymm hinvu.bound (Nat.not_lt.1 hlt))
  | waiting =>
    by_cases hwaits : i ∈ (t.objects u.stream).waiters
    · -- nobody holds the lock, so nobody is about to notify it
      refine ⟨t, u, .refl t, hu, by rw [hphase]; rfl, ?_⟩
      refine (hinvu.complete hphase hwaits).resolve_right fun hnotified => ?_
      obtain ⟨p, w, hw, hk, hnotifying⟩ := hnotified
      have hholder := (hinvt.publisher p w hw).holds.1 (.inr (.inl hnotifying))
      rw [hk, hfree] at hholder
      cases hholder
    · let t₁ := (t.modify u.stream fun st => { st with holder := some (.subscriber i) }
        ).setSubscription i { u with phase := .collecting }
      have hacquire : t.runSubscriber i u = some t₁ := by
        rw [runSubscriber, hphase]
        dsimp only
        rw [if_neg hwaits, acquire, if_pos hfree]
        rfl
      obtain ⟨s', u', hleads₁, hu', hspec⟩ := exists_collected
        (setSubscription_self _ i { u with phase := .collecting }) rfl
      exact ⟨s', u', .subscriber hu hacquire hleads₁, hu', hspec⟩
  | scanning => exact absurd (by rw [hphase]; trivial) hnotHolds
  | collecting => exact absurd (by rw [hphase]; trivial) hnotHolds
  | releasing l => exact absurd (by rw [hphase]; trivial) hnotHolds
  | expired => exact absurd hphase hexpired
  | timedOut => exact absurd hphase htimedOut

/-! ## Runs -/

theorem inv_of_reachable {maxStreams : ℕ} (hsize : 0 < maxStreams)
    (hs : (system M maxStreams).Reachable s) : s.Inv :=
  hs.invariant (fun _ h => h ▸ inv_initial hsize) fun _ _ _ _ hinv hstep => (hinv.step hstep).inv

/-- The stream of a topic that has not been evicted. -/
theorem Inv.log_eq (h : s.Inv) (hk : k < s.created) (htopic : (s.objects k).topic = topic)
    (hkept : topic ∉ s.evicted) : s.log topic = (s.objects k).messages := by
  have hmem := h.kept k hk (htopic.symm ▸ hkept)
  rw [htopic] at hmem
  rw [log, Lru.find_eq_some.2 hmem]

/-- A subscription follows the stream that it has been given. -/
structure Subscribed (s s' : LocalBroker M) (topic : String) (k n i : ℕ) : Prop where
  inv : s'.Inv
  follows : Follows k n i s'
  lt : k < s'.created
  topic_eq : (s'.objects k).topic = topic
  log : s.log topic <+: (s'.objects k).messages

theorem Subscribed.step {t : LocalBroker M} (h : Subscribed s s' topic k n i)
    (hstep : Stepped s' t) : Subscribed s t topic k n i where
  inv := hstep.inv
  follows := h.follows.step h.inv hstep
  lt := Nat.lt_of_lt_of_le h.lt hstep.created
  topic_eq := (hstep.topic k h.lt).trans h.topic_eq
  log := h.log.trans (hstep.messages k h.lt)

theorem Subscribed.leads {t : LocalBroker M} (h : Subscribed s s' topic k n i)
    (hleads : Leads s' t) : Subscribed s t topic k n i := by
  induction hleads with
  | refl => exact h
  | cons _ hstep _ ih => exact ih (h.step (h.inv.step hstep))

/-- A new subscription follows the stream of its topic from its cursor on. -/
theorem subscribed (hinv : s.Inv) (hsub : s.step (.subscribe i topic cursor) = some s') :
    ∃ k, Subscribed s s' topic k (startIndex cursor (s.log topic)) i := by
  have hstep := hinv.step hsub
  rw [step] at hsub
  split_ifs at hsub with hnew
  have hgiven := hinv.getOrCreateStream topic rfl rfl
  obtain rfl := Option.some.inj hsub
  have hinv' := hstep.inv
  rw [LocalBroker.subscribe] at hinv' ⊢
  generalize s.getOrCreateStream topic = r at hgiven hinv' ⊢
  obtain ⟨t, k⟩ := r
  dsimp only at hgiven hinv' ⊢
  refine ⟨k, hinv', ⟨_, setSubscription_self .., rfl, ?_, ?_⟩, hgiven.lt, hgiven.topic_eq, ?_⟩
  · rw [hgiven.log]
  · have hlength : ((s.log topic).take (startIndex cursor (s.log topic))).length ≤
        startIndex cursor (s.log topic) := List.length_take_le ..
    rw [hgiven.log, setSubscription_objects, hgiven.log]
    exact (List.drop_eq_nil_of_le hlength).symm
  · rw [setSubscription_objects, hgiven.log]

/-- A subscription yields the messages after its cursor in the order in which they have been
    appended, each once. It has yielded all of them when it waits, and yields all of them if the
    tasks go on. -/
theorem subscribe_delivers {maxStreams : ℕ} (hsize : 0 < maxStreams) {s₁ s₂ : LocalBroker M}
    {ls : List (Label M)} (hs : (system M maxStreams).Reachable s)
    (hsub : s.step (.subscribe i topic cursor) = some s₁)
    (hcursor : cursor = "0" ∨ cursor ∈ (s.log topic).map Prod.fst)
    (hrun : (system M maxStreams).Run s₁ ls s₂) (hkept : topic ∉ s₂.evicted) :
    s.log topic <+: s₂.log topic ∧
    ((s₂.log topic).map Prod.fst).Nodup ∧
    (∀ p u, s₂.publishers p = some u → u.topic = topic → u.phase = .done →
      (u.cursor, u.message) ∈ s₂.log topic) ∧
    (∀ x ∈ s₂.log topic, ∃ p u, s₂.publishers p = some u ∧ u.topic = topic ∧
      x = (u.cursor, u.message)) ∧
    ∃ u, s₂.subscriptions i = some u ∧ u.received <+: after cursor (s₂.log topic) ∧
      (u.phase = .waiting → i ∈ (s₂.objects u.stream).waiters →
        (s₂.objects u.stream).holder = none → u.received = after cursor (s₂.log topic)) ∧
      (u.phase ≠ .expired → u.phase ≠ .timedOut → ∃ s₃ u₃, Leads s₂ s₃ ∧
        s₂.log topic <+: s₃.log topic ∧ s₃.subscriptions i = some u₃ ∧
          u₃.received = after cursor (s₃.log topic)) := by
  have hinv := inv_of_reachable hsize hs
  obtain ⟨k, hsubscribed⟩ := subscribed hinv hsub
  have h : Subscribed s s₂ topic k (startIndex cursor (s.log topic)) i :=
    hrun.invariant (I := fun t => Subscribed s t topic k (startIndex cursor (s.log topic)) i)
      hsubscribed fun _ _ _ _ h hstep => h.step (h.inv.step hstep)
  have hlog := h.inv.log_eq h.lt h.topic_eq hkept
  have hafter := drop_startIndex (hlog ▸ h.log) hcursor
  obtain ⟨u, hu, hstream, -, hreceived⟩ := h.follows
  have hinvu := h.inv.subscription i u hu
  refine ⟨hlog ▸ h.log, hlog ▸ h.inv.nodup k, fun p v hv htopic hdone => ?_, fun x hx => ?_, u, hu,
    ?_, fun hwaiting hwaits hfree => ?_, fun hexpired htimedOut => ?_⟩
  · have hinvv := h.inv.publisher p v hv
    rw [h.inv.log_eq hinvv.stream (hinvv.topic.trans htopic) hkept]
    exact hinvv.appended (.inr (.inr hdone))
  · obtain ⟨p, v, hv, hk, -, hx⟩ := h.inv.published k x (hlog ▸ hx)
    exact ⟨p, v, hv, (h.inv.publisher p v hv).topic.symm.trans (hk ▸ h.topic_eq), hx⟩
  · rw [← hafter, hlog]
    refine (List.prefix_append _ u.phase.pending).trans ?_
    rw [hreceived]
    exact List.IsPrefix.drop (List.take_prefix ..) _
  · have hindex := (hinvu.complete hwaiting hwaits).resolve_right
      fun ⟨p, v, hv, hk, hnotifying⟩ => by
        have hholder := (h.inv.publisher p v hv).holds.1 (.inr (.inl hnotifying))
        rw [hk, hfree] at hholder
        cases hholder
    rw [hwaiting, hindex, hstream, List.take_length] at hreceived
    rw [← hafter, hlog, ← hreceived]
    exact (List.append_nil _).symm
  · obtain ⟨s₃, u₃, hleads, hu₃, hall⟩ := exists_complete h.inv ⟨u, hu, hexpired, htimedOut⟩
      h.follows
    have h₃ := h.leads hleads
    have hkept₃ : topic ∉ s₃.evicted := (hleads.spec h.inv (k := k) (n := 0) (i := i)).2.2.2 ▸ hkept
    have hlog₃ := h₃.inv.log_eq h₃.lt h₃.topic_eq hkept₃
    refine ⟨s₃, u₃, hleads, ?_, hu₃, ?_⟩
    · have hgrows : Subscribed s₂ s₃ topic k (startIndex cursor (s.log topic)) i :=
        Subscribed.leads { h with log := hlog ▸ List.prefix_rfl } hleads
      exact hlog₃ ▸ hgrows.log
    · rw [← drop_startIndex (hlog₃ ▸ h₃.log) hcursor, hlog₃]
      exact hall

/-- Two messages are published, and a subscription starts after the first. -/
def publishedFirst : List (Label String) :=
  .publish 0 "topic" "first" :: List.replicate 4 (.publisher 0)

def publishedSecond : List (Label String) :=
  .publish 1 "topic" "second" :: List.replicate 4 (.publisher 1) ++ List.replicate 4 (.subscriber 0)

def firstPublished : LocalBroker String :=
  (publishedFirst.foldlM step (initial 1)).get (by decide +kernel)

def secondReceived : LocalBroker String :=
  (publishedSecond.foldlM step (firstPublished.subscribe 0 "topic" "1")).get (by decide +kernel)

theorem subscribe_delivers_second : ∃ u, secondReceived.subscriptions 0 = some u ∧
    u.received <+: after "1" (secondReceived.log "topic") ∧ u.received = [("2", "second")] := by
  have hs : (system String 1).Reachable firstPublished :=
    (System.Reachable.init (S := system String 1) rfl).run (System.run_of_replay _ _ _)
  have hnew : firstPublished.subscriptions 0 = none := by decide +kernel
  have hsub : firstPublished.step (.subscribe 0 "topic" "1") =
      some (firstPublished.subscribe 0 "topic" "1") := by rw [step, if_pos hnew]
  have hsecond : (system String 1).Run _ publishedSecond secondReceived :=
    System.run_of_replay _ _ _
  obtain ⟨-, -, -, -, u, hu, hreceived, -⟩ := subscribe_delivers Nat.one_pos hs hsub
    (.inr (by decide +kernel)) hsecond (by decide +kernel)
  have heq : (secondReceived.subscriptions 0).map Subscription.received =
      some [("2", "second")] := by decide +kernel
  rw [hu] at heq
  exact ⟨u, hu, hreceived, Option.some.inj heq⟩

end LocalBroker

end Hyperforge.Broker
