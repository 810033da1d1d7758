import Hyperforge.Broker.Local

/-!
# Streams of the local broker

Whatever the tasks of a broker do, a stream has at most one task that holds its lock, its messages
are those that publishers have appended, each once, and a subscription that waits has all of them,
or is about to be notified (`Inv`, `Inv.step`).
-/

namespace Hyperforge.Broker

open Transition

variable {M : Type}

/-- The publisher holds the lock. -/
def PublisherPhase.Holds (phase : PublisherPhase) : Prop :=
  phase = .appending ∨ phase = .notifying ∨ phase = .releasing

/-- The publisher has appended its message. -/
def PublisherPhase.Appended (phase : PublisherPhase) : Prop :=
  phase = .notifying ∨ phase = .releasing ∨ phase = .done

/-- The messages that a subscription has taken, but not yielded yet. -/
def SubscriptionPhase.pending : SubscriptionPhase M → List (String × M)
  | .batch l => l
  | .releasing l => l
  | _ => []

/-- The subscription holds the lock. -/
def SubscriptionPhase.Holds : SubscriptionPhase M → Prop
  | .scanning => True
  | .collecting => True
  | .releasing _ => True
  | _ => False

namespace LocalBroker

/-- A task is there, and is one of a stream. -/
def Uses (s : LocalBroker M) (k : ℕ) : Task → Prop
  | .publisher p => ∃ u, s.publishers p = some u ∧ u.stream = k
  | .subscriber i => ∃ u, s.subscriptions i = some u ∧ u.stream = k

/-- A publisher is about to notify those who wait. -/
def Notifies (s : LocalBroker M) (k : ℕ) : Prop :=
  ∃ p u, s.publishers p = some u ∧ u.stream = k ∧ u.phase = .notifying

/-- A publisher, in a state of the broker. -/
structure PublisherInv (s : LocalBroker M) (p : ℕ) (u : Publisher M) : Prop where
  stream : u.stream < s.created
  topic : (s.objects u.stream).topic = u.topic
  holds : u.phase.Holds ↔ (s.objects u.stream).holder = some (.publisher p)
  cursor : ∃ n, 0 < n ∧ n ≤ s.counter ∧ u.cursor = toString n
  appended : u.phase.Appended → (u.cursor, u.message) ∈ (s.objects u.stream).messages

/-- A subscription, in a state of the broker. -/
structure SubscriptionInv (s : LocalBroker M) (i : ℕ) (u : Subscription M) : Prop where
  stream : u.stream < s.created
  topic : (s.objects u.stream).topic = u.topic
  holds : u.phase.Holds ↔ (s.objects u.stream).holder = some (.subscriber i)
  bound : u.lastIndex ≤ (s.objects u.stream).messages.length
  /-- If it waits to be notified, it has all messages, or will be notified of the others. -/
  complete : u.phase = .waiting → i ∈ (s.objects u.stream).waiters →
    u.lastIndex = (s.objects u.stream).messages.length ∨ s.Notifies u.stream

structure Inv (s : LocalBroker M) : Prop where
  size : 0 < s.streams.size
  found : ∀ topic k, (topic, k) ∈ s.streams.entries → k < s.created ∧ (s.objects k).topic = topic
  kept : ∀ k < s.created, (s.objects k).topic ∉ s.evicted →
    ((s.objects k).topic, k) ∈ s.streams.entries
  publisher : ∀ p u, s.publishers p = some u → s.PublisherInv p u
  distinct : ∀ p q u v, s.publishers p = some u → s.publishers q = some v →
    u.cursor = v.cursor → p = q
  subscription : ∀ i u, s.subscriptions i = some u → s.SubscriptionInv i u
  holder : ∀ k task, (s.objects k).holder = some task → s.Uses k task
  published : ∀ k x, x ∈ (s.objects k).messages → ∃ p u, s.publishers p = some u ∧ u.stream = k ∧
    u.phase.Appended ∧ x = (u.cursor, u.message)
  nodup : ∀ k, ((s.objects k).messages.map Prod.fst).Nodup

variable {s s' : LocalBroker M}

theorem inv_initial {maxStreams : ℕ} (h : 0 < maxStreams) :
    (initial maxStreams : LocalBroker M).Inv where
  size := h
  found _ _ h := absurd h List.not_mem_nil
  kept _ h := absurd h (Nat.not_lt_zero _)
  publisher _ _ h := by cases h
  distinct _ _ _ _ h := by cases h
  subscription _ _ h := by cases h
  holder _ _ h := by cases h
  published _ _ h := absurd h List.not_mem_nil
  nodup _ := List.nodup_nil

/-- What a step of a task leaves to the others. -/
structure Leaves (task : Task) (s s' : LocalBroker M) : Prop where
  streams : s'.streams = s.streams
  evicted : s'.evicted = s.evicted
  created : s'.created = s.created
  counter : s.counter ≤ s'.counter
  topic : ∀ k, (s'.objects k).topic = (s.objects k).topic
  messages : ∀ k, (s.objects k).messages <+: (s'.objects k).messages
  holder : ∀ k, ∀ t ≠ task, (s'.objects k).holder = some t ↔ (s.objects k).holder = some t
  publisher : ∀ q, .publisher q ≠ task → s'.publishers q = s.publishers q
  subscription : ∀ i, .subscriber i ≠ task → s'.subscriptions i = s.subscriptions i
  waiters : ∀ k i, .subscriber i ≠ task → i ∈ (s'.objects k).waiters →
    s'.Notifies k ∨ i ∈ (s.objects k).waiters ∧
      (s'.objects k).messages = (s.objects k).messages ∧ (s.Notifies k → s'.Notifies k)

section Frame

variable {task : Task}

theorem PublisherInv.frame {q : ℕ} {v : Publisher M} (h : s.PublisherInv q v)
    (hleaves : Leaves task s s') (hne : .publisher q ≠ task) : s'.PublisherInv q v where
  stream := hleaves.created ▸ h.stream
  topic := (hleaves.topic _).trans h.topic
  holds := h.holds.trans (hleaves.holder _ _ hne).symm
  cursor := by
    obtain ⟨n, hpos, hn, hcursor⟩ := h.cursor
    exact ⟨n, hpos, Nat.le_trans hn hleaves.counter, hcursor⟩
  appended hv := (hleaves.messages _).subset (h.appended hv)

theorem SubscriptionInv.frame {i : ℕ} {v : Subscription M} (h : s.SubscriptionInv i v)
    (hleaves : Leaves task s s') (hne : .subscriber i ≠ task) : s'.SubscriptionInv i v where
  stream := hleaves.created ▸ h.stream
  topic := (hleaves.topic _).trans h.topic
  holds := h.holds.trans (hleaves.holder _ _ hne).symm
  bound := Nat.le_trans h.bound (hleaves.messages _).length_le
  complete hv hi := by
    rcases hleaves.waiters _ i hne hi with hnotifies | ⟨hi, hmessages, hnotifies⟩
    · exact .inr hnotifies
    · rw [hmessages]
      exact (h.complete hv hi).imp_right hnotifies

/-- A step keeps the invariant if it does of its own task, and of the messages. -/
theorem Inv.of_leaves (h : s.Inv) (hleaves : Leaves task s s')
    (hpublisher : ∀ p u, .publisher p = task → s'.publishers p = some u →
      s'.PublisherInv p u ∧
        ∀ q v, s.publishers q = some v → u.cursor = v.cursor → p = q)
    (hsubscription : ∀ i u, .subscriber i = task → s'.subscriptions i = some u →
      s'.SubscriptionInv i u)
    (hholder : ∀ k, (s'.objects k).holder = some task → s'.Uses k task)
    (hpublished : ∀ k x, x ∈ (s'.objects k).messages → ∃ p u, s'.publishers p = some u ∧
      u.stream = k ∧ u.phase.Appended ∧ x = (u.cursor, u.message))
    (hnodup : ∀ k, ((s'.objects k).messages.map Prod.fst).Nodup) : s'.Inv where
  size := hleaves.streams ▸ h.size
  found topic k hk := by
    rw [hleaves.streams] at hk
    rw [hleaves.created, hleaves.topic]
    exact h.found topic k hk
  kept k hk := by
    rw [hleaves.topic, hleaves.evicted, hleaves.streams]
    exact h.kept k (hleaves.created ▸ hk)
  publisher p u hu := by
    by_cases hp : .publisher p = task
    · exact (hpublisher p u hp hu).1
    · rw [hleaves.publisher p hp] at hu
      exact (h.publisher p u hu).frame hleaves hp
  distinct p q u v hu hv heq := by
    by_cases hp : .publisher p = task
    · by_cases hq : .publisher q = task
      · exact Task.publisher.inj (hp.trans hq.symm)
      · exact (hpublisher p u hp hu).2 q v (hleaves.publisher q hq ▸ hv) heq
    · rw [hleaves.publisher p hp] at hu
      by_cases hq : .publisher q = task
      · exact ((hpublisher q v hq hv).2 p u hu heq.symm).symm
      · exact h.distinct p q u v hu (hleaves.publisher q hq ▸ hv) heq
  subscription i u hu := by
    by_cases hi : .subscriber i = task
    · exact hsubscription i u hi hu
    · rw [hleaves.subscription i hi] at hu
      exact (h.subscription i u hu).frame hleaves hi
  holder k t ht := by
    by_cases heq : t = task
    · exact heq ▸ hholder k (heq ▸ ht)
    · have huses := h.holder k t ((hleaves.holder k t heq).1 ht)
      cases t with
      | publisher p =>
        rw [Uses, hleaves.publisher p heq]
        exact huses
      | subscriber i =>
        rw [Uses, hleaves.subscription i heq]
        exact huses
  published := hpublished
  nodup := hnodup

end Frame

section Publishers

variable {p k : ℕ} {u : Publisher M} {f : Stream M → Stream M} {phase : PublisherPhase}

theorem modify_objects (k l : ℕ) (f : Stream M → Stream M) :
    (s.modify k f).objects l = if l = k then f (s.objects k) else s.objects l := by
  rw [modify]
  dsimp only
  by_cases hl : l = k
  · rw [hl, Function.update_self, if_pos rfl]
  · rw [Function.update_of_ne hl, if_neg hl]

/-- A publisher changes its stream, and goes on. -/
def advance (s : LocalBroker M) (p : ℕ) (u : Publisher M) (f : Stream M → Stream M)
    (phase : PublisherPhase) : LocalBroker M :=
  (s.modify u.stream f).setPublisher p { u with phase := phase }

theorem advance_objects (p : ℕ) (u : Publisher M) (f : Stream M → Stream M)
    (phase : PublisherPhase) (l : ℕ) : (s.advance p u f phase).objects l =
      if l = u.stream then f (s.objects u.stream) else s.objects l := modify_objects ..

theorem advance_publishers (p : ℕ) (u : Publisher M) (f : Stream M → Stream M)
    (phase : PublisherPhase) (q : ℕ) : (s.advance p u f phase).publishers q =
      if q = p then some { u with phase := phase } else s.publishers q := by
  by_cases hq : q = p
  · rw [hq, if_pos rfl]
    exact Function.update_self ..
  · rw [if_neg hq]
    exact Function.update_of_ne hq ..

/-- What a publisher may do with its stream when it goes on. -/
structure Advances (p : ℕ) (u : Publisher M) (st st' : Stream M) (phase : PublisherPhase) :
    Prop where
  topic : st'.topic = st.topic
  messages : phase ≠ .notifying ∧ st'.messages = st.messages ∨
    phase = .notifying ∧ st'.messages = st.messages ++ [(u.cursor, u.message)]
  holder : ∀ t ≠ .publisher p, st'.holder = some t ↔ st.holder = some t
  holds : phase.Holds ↔ st'.holder = some (.publisher p)
  appended : phase.Appended ↔ u.phase.Appended ∨ phase = .notifying
  first : phase = .notifying → ¬u.phase.Appended
  waiters : ∀ i ∈ st'.waiters, i ∈ st.waiters ∧ u.phase ≠ .notifying

theorem Advances.leaves (h : Advances p u (s.objects u.stream) (f (s.objects u.stream)) phase)
    (hu : s.publishers p = some u) : Leaves (.publisher p) s (s.advance p u f phase) where
  streams := rfl
  evicted := rfl
  created := rfl
  counter := Nat.le_refl _
  topic l := by
    rw [advance_objects]
    split_ifs with hl
    · exact hl ▸ h.topic
    · rfl
  messages l := by
    rw [advance_objects]
    split_ifs with hl
    · subst hl
      rcases h.messages with ⟨-, heq⟩ | ⟨-, heq⟩
      · exact heq ▸ List.prefix_rfl
      · exact heq ▸ List.prefix_append ..
    · exact List.prefix_rfl
  holder l t ht := by
    rw [advance_objects]
    split_ifs with hl
    · exact hl ▸ h.holder t ht
    · rfl
  publisher q hq := by
    rw [advance_publishers, if_neg fun heq => hq (congrArg Task.publisher heq)]
  subscription _ _ := rfl
  waiters l i _ hi := by
    have hnotifies (hne : u.phase ≠ .notifying ∨ l ≠ u.stream) (hn : s.Notifies l) :
        (s.advance p u f phase).Notifies l := by
      obtain ⟨q, v, hv, hl, hphase⟩ := hn
      have hq : q ≠ p := by
        rintro rfl
        obtain rfl := Option.some.inj (hu.symm.trans hv)
        exact hne.elim (fun hne => hne hphase) fun hne => hne hl.symm
      exact ⟨q, v, by rw [advance_publishers, if_neg hq, hv], hl, hphase⟩
    rw [advance_objects] at hi ⊢
    split_ifs at hi ⊢ with hl
    · subst hl
      obtain ⟨hi, hne⟩ := h.waiters i hi
      rcases h.messages with ⟨-, heq⟩ | ⟨hphase, -⟩
      · exact .inr ⟨hi, heq, hnotifies (.inl hne)⟩
      · exact .inl ⟨p, { u with phase := phase }, by rw [advance_publishers, if_pos rfl], rfl,
          hphase⟩
    · exact .inr ⟨hi, rfl, hnotifies (.inr hl)⟩

theorem Inv.advance (h : s.Inv) (hu : s.publishers p = some u)
    (hadvances : Advances p u (s.objects u.stream) (f (s.objects u.stream)) phase) :
    (s.advance p u f phase).Inv := by
  have hinv := h.publisher p u hu
  refine h.of_leaves (hadvances.leaves hu) (fun q v hq hv => ?_) (fun _ _ hi => by cases hi)
    (fun k hk => ?_) (fun k x hx => ?_) fun k => ?_
  · cases hq
    rw [advance_publishers, if_pos rfl] at hv
    cases hv
    refine ⟨⟨hinv.stream, ?_, ?_, hinv.cursor, fun happended => ?_⟩, fun q v hv heq =>
      h.distinct p q u v hu hv heq⟩
    all_goals rw [advance_objects, if_pos rfl]
    · exact hadvances.topic.trans hinv.topic
    · exact hadvances.holds
    · rcases hadvances.messages with ⟨hne, heq⟩ | ⟨-, heq⟩
      · rw [heq]
        exact hinv.appended ((hadvances.appended.1 happended).resolve_right hne)
      · rw [heq]
        exact List.mem_append_right _ List.mem_cons_self
  · rw [advance_objects] at hk
    refine ⟨{ u with phase := phase }, by rw [advance_publishers, if_pos rfl], ?_⟩
    split_ifs at hk with heq
    · exact heq.symm
    · obtain ⟨v, hv, hk⟩ := h.holder k _ hk
      rw [← hk, Option.some.inj (hu.symm.trans hv)]
  · have hold {l : ℕ} (hx : x ∈ (s.objects l).messages) : ∃ q v,
        (s.advance p u f phase).publishers q = some v ∧ v.stream = l ∧ v.phase.Appended ∧
          x = (v.cursor, v.message) := by
      obtain ⟨q, v, hv, hl, happended, hx⟩ := h.published l x hx
      by_cases hq : q = p
      · subst hq
        obtain rfl := Option.some.inj (hu.symm.trans hv)
        exact ⟨q, { u with phase := phase }, by rw [advance_publishers, if_pos rfl], hl,
          hadvances.appended.2 (.inl happended), hx⟩
      · exact ⟨q, v, by rw [advance_publishers, if_neg hq, hv], hl, happended, hx⟩
    rw [advance_objects] at hx
    split_ifs at hx with hk
    · subst hk
      rcases hadvances.messages with ⟨-, heq⟩ | ⟨hphase, heq⟩
      · exact hold (heq ▸ hx)
      · rcases List.mem_append.1 (heq ▸ hx) with hx | hx
        · exact hold hx
        · exact ⟨p, { u with phase := phase }, by rw [advance_publishers, if_pos rfl], rfl,
            hadvances.appended.2 (.inr hphase), List.mem_singleton.1 hx⟩
    · exact hold hx
  · rw [advance_objects]
    split_ifs with hk
    · rcases hadvances.messages with ⟨-, heq⟩ | ⟨hphase, heq⟩
      · exact heq ▸ h.nodup _
      · rw [heq, List.map_append, List.map_singleton, ← List.concat_eq_append, List.nodup_concat]
        refine ⟨fun hmem => ?_, h.nodup _⟩
        -- the cursor is of this publisher alone, which has not appended its message yet
        obtain ⟨x, hx, hcursor⟩ := List.mem_map.1 hmem
        obtain ⟨q, v, hv, -, happended, rfl⟩ := h.published _ x hx
        obtain rfl := h.distinct q p v u hv hu hcursor
        obtain rfl := Option.some.inj (hu.symm.trans hv)
        exact hadvances.first hphase happended
    · exact h.nodup k

theorem acquire_eq_some {task : Task} :
    s.acquire k task = some s' ↔ (s.objects k).holder = none ∧
      s' = s.modify k fun st => { st with holder := some task } := by
  rw [acquire]
  split_ifs with hfree
  · exact ⟨fun h => ⟨hfree, (Option.some.inj h).symm⟩, fun h => h.2 ▸ rfl⟩
  · exact ⟨fun h => (by cases h), fun h => absurd h.1 hfree⟩

theorem runPublisher_cases (h : s.PublisherInv p u) (hstep : s.runPublisher p u = some s') :
    ∃ f phase, s' = s.advance p u f phase ∧
      Advances p u (s.objects u.stream) (f (s.objects u.stream)) phase := by
  have hholds := h.holds
  rw [runPublisher] at hstep
  cases hphase : u.phase with
  | acquiring =>
    simp only [hphase, Option.map_eq_some_iff] at hstep
    obtain ⟨t, ht, rfl⟩ := hstep
    obtain ⟨hfree, rfl⟩ := acquire_eq_some.1 ht
    refine ⟨_, _, rfl, rfl, .inl ⟨by simp, rfl⟩, fun t ht => ?_, ?_, ?_, by simp, fun i hi => ?_⟩
    · simp [hfree, Ne.symm ht]
    · simp [PublisherPhase.Holds]
    · simp [PublisherPhase.Appended, hphase]
    · exact ⟨hi, by simp [hphase]⟩
  | appending =>
    simp only [hphase, Option.some.injEq] at hstep
    refine ⟨_, _, hstep.symm, rfl, .inr ⟨rfl, rfl⟩, fun t ht => Iff.rfl, ?_, ?_, fun _ => ?_,
      fun i hi => ?_⟩
    · refine ⟨fun _ => hholds.1 ?_, fun _ => ?_⟩ <;> simp [PublisherPhase.Holds, hphase]
    · simp [PublisherPhase.Appended]
    · simp [PublisherPhase.Appended, hphase]
    · exact ⟨hi, by simp [hphase]⟩
  | notifying =>
    simp only [hphase, Option.some.injEq] at hstep
    refine ⟨_, _, hstep.symm, rfl, .inl ⟨by simp, rfl⟩, fun t ht => Iff.rfl, ?_, ?_, by simp,
      fun i hi => absurd hi List.not_mem_nil⟩
    · refine ⟨fun _ => hholds.1 ?_, fun _ => ?_⟩ <;> simp [PublisherPhase.Holds, hphase]
    · simp [PublisherPhase.Appended, hphase]
  | releasing =>
    simp only [hphase, Option.some.injEq] at hstep
    have hself : (s.objects u.stream).holder = some (.publisher p) :=
      hholds.1 (by simp [PublisherPhase.Holds, hphase])
    refine ⟨_, _, hstep.symm, rfl, .inl ⟨by simp, rfl⟩, fun t ht => ?_, ?_, ?_, by simp,
      fun i hi => ⟨hi, by simp [hphase]⟩⟩
    · simp [hself, Ne.symm ht]
    · simp [PublisherPhase.Holds]
    · simp [PublisherPhase.Appended, hphase]
  | done =>
    rw [hphase] at hstep
    cases hstep

/-- What a publisher does keeps the invariant. -/
theorem Inv.runPublisher (h : s.Inv) (hu : s.publishers p = some u)
    (hstep : s.runPublisher p u = some s') :
    s'.Inv ∧ Leaves (.publisher p) s s' := by
  obtain ⟨f, phase, rfl, hadvances⟩ := runPublisher_cases (h.publisher p u hu) hstep
  exact ⟨h.advance hu hadvances, hadvances.leaves hu⟩

end Publishers

section Subscriptions

variable {i k : ℕ} {u u' : Subscription M} {f : Stream M → Stream M}

/-- A subscription changes its stream, and goes on. -/
def move (s : LocalBroker M) (i : ℕ) (u : Subscription M) (f : Stream M → Stream M)
    (u' : Subscription M) : LocalBroker M :=
  (s.modify u.stream f).setSubscription i u'

theorem move_id (i : ℕ) (u u' : Subscription M) : s.move i u id u' = s.setSubscription i u' := by
  rw [move, modify, id, Function.update_eq_self]

theorem move_objects (i : ℕ) (u : Subscription M) (f : Stream M → Stream M)
    (u' : Subscription M) (l : ℕ) : (s.move i u f u').objects l =
      if l = u.stream then f (s.objects u.stream) else s.objects l := modify_objects ..

theorem move_subscriptions (i : ℕ) (u : Subscription M) (f : Stream M → Stream M)
    (u' : Subscription M) (j : ℕ) : (s.move i u f u').subscriptions j =
      if j = i then some u' else s.subscriptions j := by
  by_cases hj : j = i
  · rw [hj, if_pos rfl]
    exact Function.update_self ..
  · rw [if_neg hj]
    exact Function.update_of_ne hj ..

/-- The messages that a subscription has yielded and has taken: it takes all that there are, or
    none. -/
def Takes (u u' : Subscription M) (messages : List (String × M)) : Prop :=
  u'.lastIndex = u.lastIndex ∧ u'.received ++ u'.phase.pending = u.received ++ u.phase.pending ∨
  u.phase.pending = [] ∧ u'.lastIndex = messages.length ∧
    u'.received ++ u'.phase.pending = u.received ++ messages.drop u.lastIndex

/-- What a subscription may do with its stream when it goes on. -/
structure Moves (i : ℕ) (u u' : Subscription M) (st st' : Stream M) : Prop where
  topic : st'.topic = st.topic
  messages : st'.messages = st.messages
  holder : ∀ t ≠ .subscriber i, st'.holder = some t ↔ st.holder = some t
  waiters : ∀ j ≠ i, j ∈ st'.waiters → j ∈ st.waiters
  subscribed : u'.topic = u.topic ∧ u'.stream = u.stream
  holds : u'.phase.Holds ↔ st'.holder = some (.subscriber i)
  takes : Takes u u' st.messages
  complete : u'.phase = .waiting → i ∈ st'.waiters → ¬u'.lastIndex < st.messages.length

theorem Moves.leaves (h : Moves i u u' (s.objects u.stream) (f (s.objects u.stream))) :
    Leaves (.subscriber i) s (s.move i u f u') where
  streams := rfl
  evicted := rfl
  created := rfl
  counter := Nat.le_refl _
  topic l := by
    rw [move_objects]
    split_ifs with hl
    · exact hl ▸ h.topic
    · rfl
  messages l := by
    rw [move_objects]
    split_ifs with hl
    · subst hl
      exact h.messages ▸ List.prefix_rfl
    · exact List.prefix_rfl
  holder l t ht := by
    rw [move_objects]
    split_ifs with hl
    · exact hl ▸ h.holder t ht
    · rfl
  publisher _ _ := rfl
  subscription j hj := by
    rw [move_subscriptions, if_neg fun heq => hj (congrArg Task.subscriber heq)]
  waiters l j hj hwaiters := by
    rw [move_objects] at hwaiters ⊢
    split_ifs at hwaiters ⊢ with hl
    · subst hl
      exact .inr ⟨h.waiters j (fun heq => hj (congrArg Task.subscriber heq)) hwaiters, h.messages,
        id⟩
    · exact .inr ⟨hwaiters, rfl, id⟩

theorem Takes.bound {messages : List (String × M)} (h : Takes u u' messages)
    (hbound : u.lastIndex ≤ messages.length) : u'.lastIndex ≤ messages.length := by
  rcases h with ⟨heq, -⟩ | ⟨-, heq, -⟩
  · exact heq ▸ hbound
  · exact Nat.le_of_eq heq

theorem Inv.move (h : s.Inv) (hu : s.subscriptions i = some u)
    (hmoves : Moves i u u' (s.objects u.stream) (f (s.objects u.stream))) :
    (s.move i u f u').Inv := by
  have hinv := h.subscription i u hu
  have hmessages (l : ℕ) : ((s.move i u f u').objects l).messages = (s.objects l).messages := by
    rw [move_objects]
    split_ifs with hl
    · rw [hmoves.messages, hl]
    · rfl
  refine h.of_leaves hmoves.leaves (fun _ _ hp => by cases hp) (fun j v hj hv => ?_)
    (fun l hl => ?_) (fun l x hx => h.published l x (hmessages l ▸ hx))
    fun l => (hmessages l).symm ▸ h.nodup l
  · cases hj
    rw [move_subscriptions, if_pos rfl] at hv
    cases hv
    have hbound := hmoves.takes.bound hinv.bound
    refine ⟨hmoves.subscribed.2 ▸ hinv.stream, ?_, ?_, ?_, fun hwaiting hi => .inl ?_⟩
    all_goals rw [hmoves.subscribed.2]
    · rw [move_objects, if_pos rfl, hmoves.topic, hinv.topic, hmoves.subscribed.1]
    · rw [move_objects, if_pos rfl]
      exact hmoves.holds
    · rw [hmessages]
      exact hbound
    · rw [move_objects, hmoves.subscribed.2, if_pos rfl] at hi
      rw [hmessages]
      exact Nat.le_antisymm hbound (Nat.not_lt.1 (hmoves.complete hwaiting hi))
  · rw [move_objects] at hl
    refine ⟨u', by rw [move_subscriptions, if_pos rfl], ?_⟩
    rw [hmoves.subscribed.2]
    split_ifs at hl with heq
    · exact heq.symm
    · obtain ⟨v, hv, hl⟩ := h.holder l _ hl
      rw [← hl, Option.some.inj (hu.symm.trans hv)]

/-- A lock that has been acquired and released is as it was. -/
theorem release_acquired {task : Task} (hfree : (s.objects k).holder = none) :
    (s.modify k fun st => { st with holder := some task }).release k = s := by
  have hobjects : ((s.modify k fun st => { st with holder := some task }).release k).objects =
      s.objects := by
    funext l
    rw [release, modify_objects, modify_objects, modify_objects, if_pos rfl]
    split_ifs with hl
    · rw [← hfree, hl]
    · rfl
  exact congrArg (fun objects => { s with objects := objects }) hobjects

theorem moves_collect (hself : (s.objects u.stream).holder = some (.subscriber i))
    (hpending : u.phase.pending = []) :
    Moves i u { u with
      lastIndex := (s.objects u.stream).messages.length
      phase := .releasing ((s.objects u.stream).messages.drop u.lastIndex) }
      (s.objects u.stream) (id (s.objects u.stream)) where
  topic := rfl
  messages := rfl
  holder _ _ := Iff.rfl
  waiters _ _ h := h
  subscribed := ⟨rfl, rfl⟩
  holds := by simp [SubscriptionPhase.Holds, hself]
  takes := .inr ⟨hpending, rfl, rfl⟩
  complete h := by cases h

theorem runSubscriber_cases (h : s.SubscriptionInv i u) (hstep : s.runSubscriber i u = some s') :
    ∃ f u', s' = s.move i u f u' ∧ Moves i u u' (s.objects u.stream) (f (s.objects u.stream)) := by
  have hholds := h.holds
  have hsame (u' : Subscription M) (hs : s.setSubscription i u' = s') :
      s' = s.move i u id u' := by rw [move_id, hs]
  rw [runSubscriber] at hstep
  cases hphase : u.phase with
  | batch l =>
    cases l with
    | nil =>
      simp only [hphase, Option.map_eq_some_iff] at hstep
      obtain ⟨t, ht, rfl⟩ := hstep
      obtain ⟨hfree, rfl⟩ := acquire_eq_some.1 ht
      refine ⟨_, _, rfl, rfl, rfl, fun t ht => ?_, fun _ _ h => h, ⟨rfl, rfl⟩, ?_, .inl ⟨rfl, ?_⟩,
        by simp⟩
      · simp [hfree, Ne.symm ht]
      · simp [SubscriptionPhase.Holds]
      · simp [SubscriptionPhase.pending, hphase]
    | cons x l =>
      simp only [hphase, Option.some.injEq] at hstep
      refine ⟨id, _, hsame _ hstep, rfl, rfl, fun t ht => Iff.rfl, fun _ _ h => h, ⟨rfl, rfl⟩, ?_,
        .inl ⟨rfl, ?_⟩, by simp⟩
      · rw [id, ← hholds, hphase]
        rfl
      · simp [SubscriptionPhase.pending, hphase]
  | scanning =>
    have hself : (s.objects u.stream).holder = some (.subscriber i) :=
      hholds.1 (by simp [SubscriptionPhase.Holds, hphase])
    simp only [hphase] at hstep
    split_ifs at hstep with hlt
    · exact ⟨id, _, hsame _ (Option.some.inj hstep), moves_collect hself (by rw [hphase]; rfl)⟩
    · refine ⟨_, _, (Option.some.inj hstep).symm, rfl, rfl, fun t ht => ?_, fun j hj hwaits => ?_,
        ⟨rfl, rfl⟩, ?_, .inl ⟨rfl, ?_⟩, fun _ _ => hlt⟩
      · simp [hself, Ne.symm ht]
      · simpa [hj] using hwaits
      · simp [SubscriptionPhase.Holds]
      · simp [SubscriptionPhase.pending, hphase]
  | waiting =>
    simp only [hphase] at hstep
    split_ifs at hstep with hwaits
    obtain ⟨t, ht, rfl⟩ := Option.map_eq_some_iff.1 hstep
    obtain ⟨hfree, rfl⟩ := acquire_eq_some.1 ht
    refine ⟨_, _, rfl, rfl, rfl, fun t ht => ?_, fun _ _ h => h, ⟨rfl, rfl⟩, ?_, .inl ⟨rfl, ?_⟩,
      by simp⟩
    · simp [hfree, Ne.symm ht]
    · simp [SubscriptionPhase.Holds]
    · simp [SubscriptionPhase.pending, hphase]
  | collecting =>
    have hself : (s.objects u.stream).holder = some (.subscriber i) :=
      hholds.1 (by simp [SubscriptionPhase.Holds, hphase])
    simp only [hphase] at hstep
    exact ⟨id, _, hsame _ (Option.some.inj hstep), moves_collect hself (by rw [hphase]; rfl)⟩
  | releasing l =>
    have hself : (s.objects u.stream).holder = some (.subscriber i) :=
      hholds.1 (by simp [SubscriptionPhase.Holds, hphase])
    simp only [hphase] at hstep
    refine ⟨_, _, (Option.some.inj hstep).symm, rfl, rfl, fun t ht => ?_, fun _ _ h => h,
      ⟨rfl, rfl⟩, ?_, .inl ⟨rfl, ?_⟩, by simp⟩
    · simp [hself, Ne.symm ht]
    · simp [SubscriptionPhase.Holds]
    · simp [SubscriptionPhase.pending, hphase]
  | expired =>
    simp only [hphase, Option.map_eq_some_iff] at hstep
    obtain ⟨t, ht, rfl⟩ := hstep
    obtain ⟨hfree, rfl⟩ := acquire_eq_some.1 ht
    refine ⟨id, { u with phase := .timedOut }, ?_, rfl, rfl, fun t ht => Iff.rfl, fun _ _ h => h,
      ⟨rfl, rfl⟩, ?_, .inl ⟨rfl, ?_⟩, by simp⟩
    · -- the lock is free again
      rw [move_id, release_acquired hfree]
    · simp [SubscriptionPhase.Holds, hfree]
    · simp [SubscriptionPhase.pending, hphase]
  | timedOut =>
    rw [hphase] at hstep
    cases hstep

theorem timeout_cases (h : s.SubscriptionInv i u) (hstep : s.timeout i u = some s') :
    ∃ f u', s' = s.move i u f u' ∧ Moves i u u' (s.objects u.stream) (f (s.objects u.stream)) := by
  have hholds := h.holds
  rw [timeout] at hstep
  cases hphase : u.phase with
  | waiting =>
    simp only [hphase] at hstep
    refine ⟨_, _, (Option.some.inj hstep).symm, rfl, rfl, fun t ht => Iff.rfl,
      fun j _ hwaits => List.mem_of_mem_erase hwaits, ⟨rfl, rfl⟩, ?_, .inl ⟨rfl, ?_⟩, by simp⟩
    · rw [← hholds, hphase]
      rfl
    · simp [SubscriptionPhase.pending, hphase]
  | batch l => simp [hphase] at hstep
  | scanning => simp [hphase] at hstep
  | collecting => simp [hphase] at hstep
  | releasing l => simp [hphase] at hstep
  | expired => simp [hphase] at hstep
  | timedOut => simp [hphase] at hstep

end Subscriptions

/-! ## New tasks -/

section Creation

variable {topic : String} {k : ℕ}

/-- The topics of a cache that are not found after a new one has been set have been evicted. -/
theorem mem_set_or_evicted {c : Lru String ℕ} {topic : String} {k : ℕ} {m : String × ℕ}
    (hm : m ∈ c.entries) (hne : m.1 ≠ topic) : m ∈ (c.set topic k).entries ∨
      m.1 ∈ (c.entries.map Prod.fst).filter (· ∉ (c.set topic k).entries.map Prod.fst) := by
  by_cases hmem : m.1 ∈ (c.set topic k).entries.map Prod.fst
  · refine .inl ?_
    obtain ⟨m', hm', hkey⟩ := List.mem_map.1 hmem
    rcases Lru.mem_set hm' with rfl | hold
    · exact absurd hkey.symm hne
    · rwa [← List.inj_on_of_nodup_map c.nodup hold hm hkey]
  · exact .inr (List.mem_filter.2 ⟨List.mem_map_of_mem hm, decide_eq_true hmem⟩)

theorem PublisherInv.of_stream {p : ℕ} {u : Publisher M} (h : s.PublisherInv p u)
    (hstream : s'.objects u.stream = s.objects u.stream) (hcreated : s.created ≤ s'.created)
    (hcounter : s'.counter = s.counter) : s'.PublisherInv p u where
  stream := Nat.lt_of_lt_of_le h.stream hcreated
  topic := hstream ▸ h.topic
  holds := hstream ▸ h.holds
  cursor := hcounter ▸ h.cursor
  appended := hstream ▸ h.appended

theorem SubscriptionInv.of_stream {i : ℕ} {u : Subscription M} (h : s.SubscriptionInv i u)
    (hstream : s'.objects u.stream = s.objects u.stream) (hcreated : s.created ≤ s'.created)
    (hpublishers : s'.publishers = s.publishers) : s'.SubscriptionInv i u where
  stream := Nat.lt_of_lt_of_le h.stream hcreated
  topic := hstream ▸ h.topic
  holds := hstream ▸ h.holds
  bound := hstream ▸ h.bound
  complete := by
    rw [hstream, Notifies, hpublishers]
    exact h.complete

/-- The stream that a new task of a topic is given, and what there was before. -/
structure Given (s s' : LocalBroker M) (topic : String) (k : ℕ) : Prop where
  inv : s'.Inv
  lt : k < s'.created
  topic_eq : (s'.objects k).topic = topic
  log : (s'.objects k).messages = s.log topic
  publishers : s'.publishers = s.publishers
  subscriptions : s'.subscriptions = s.subscriptions
  created : s.created ≤ s'.created
  evicted : s.evicted ⊆ s'.evicted
  objects : ∀ l < s.created, s'.objects l = s.objects l

theorem Inv.getOrCreateStream (h : s.Inv) (topic : String)
    (hs' : s' = (s.getOrCreateStream topic).1) (hk : k = (s.getOrCreateStream topic).2) :
    Given s s' topic k := by
  rw [LocalBroker.getOrCreateStream] at hs' hk
  cases hfind : s.streams.find topic with
  | some l =>
    rw [hfind] at hs' hk
    dsimp only at hs' hk
    subst hs' hk
    have hmem := Lru.mem_of_find hfind
    exact {
      inv := {
        size := by rw [Lru.size_use]; exact h.size
        found := fun t l hl => h.found t l (Lru.mem_use hl)
        kept := fun l hl hne => Lru.mem_use_iff.2 (h.kept l hl hne)
        publisher := fun p u hu => (h.publisher p u hu).of_stream rfl (Nat.le_refl _) rfl
        distinct := h.distinct
        subscription := fun i u hu => (h.subscription i u hu).of_stream rfl (Nat.le_refl _) rfl
        holder := fun l t ht => by cases t <;> exact h.holder l _ ht
        published := h.published
        nodup := h.nodup }
      lt := (h.found _ _ hmem).1
      topic_eq := (h.found _ _ hmem).2
      log := by rw [log, hfind]
      publishers := rfl
      subscriptions := rfl
      created := Nat.le_refl _
      evicted := List.Subset.refl _
      objects := fun _ _ => rfl }
  | none =>
    rw [hfind] at hs' hk
    dsimp only at hs' hk
    have hobject : s'.objects s.created = ⟨topic, [], none, []⟩ := by
      rw [hs']
      exact Function.update_self ..
    have hother {l : ℕ} (hl : l ≠ s.created) : s'.objects l = s.objects l := by
      rw [hs']
      exact Function.update_of_ne hl ..
    have hcreated : s'.created = s.created + 1 := by rw [hs']
    have hstreams : s'.streams = s.streams.set topic s.created := by rw [hs']
    have hle : s.created ≤ s'.created := hcreated ▸ Nat.le_succ _
    have hnone : topic ∉ s.streams.entries.map Prod.fst := Json.lookup_eq_none.1 hfind
    have hset : s'.streams.find topic = some s.created := hstreams ▸ Lru.find_set h.size
    have hpublishers : s'.publishers = s.publishers := by rw [hs']
    have hsubscriptions : s'.subscriptions = s.subscriptions := by rw [hs']
    refine ⟨?_, ?_, ?_, ?_, hpublishers, hsubscriptions, hle, ?_,
      fun l hl => hother (Nat.ne_of_lt hl)⟩
    · exact {
        size := by rw [hstreams]; exact h.size
        found := fun t l hl => by
          rcases Lru.mem_set (hstreams ▸ hl) with heq | hl
          · obtain ⟨rfl, rfl⟩ := Prod.mk.inj heq
            exact ⟨hcreated ▸ Nat.lt_succ_self _, by rw [hobject]⟩
          · obtain ⟨hlt, htopic⟩ := h.found t l hl
            rw [hother (Nat.ne_of_lt hlt)]
            exact ⟨Nat.lt_of_lt_of_le hlt hle, htopic⟩
        kept := fun l hl hne => by
          rcases Nat.lt_succ_iff_lt_or_eq.1 (hcreated ▸ hl) with hlt | rfl
          · rw [hother (Nat.ne_of_lt hlt), hs'] at hne
            rw [hother (Nat.ne_of_lt hlt), hstreams]
            rw [List.mem_append, not_or] at hne
            have hold := h.kept l hlt hne.1
            refine (mem_set_or_evicted hold fun heq => hnone ?_).resolve_right hne.2
            exact List.mem_map.2 ⟨_, hold, heq⟩
          · rw [hobject]
            exact Lru.find_eq_some.1 hset
        publisher := fun p u hu => by
          have hinv := h.publisher p u (hpublishers ▸ hu)
          exact hinv.of_stream (hother (Nat.ne_of_lt hinv.stream)) hle (by rw [hs'])
        distinct := hpublishers ▸ h.distinct
        subscription := fun i u hu => by
          have hinv := h.subscription i u (hsubscriptions ▸ hu)
          exact hinv.of_stream (hother (Nat.ne_of_lt hinv.stream)) hle hpublishers
        holder := fun l t ht => by
          have hl : l ≠ s.created := by
            rintro rfl
            rw [hobject] at ht
            cases ht
          have huses := h.holder l t (hother hl ▸ ht)
          cases t with
          | publisher p =>
            rw [Uses, hpublishers]
            exact huses
          | subscriber i =>
            rw [Uses, hsubscriptions]
            exact huses
        published := fun l x hx => by
          have hl : l ≠ s.created := by
            rintro rfl
            rw [hobject] at hx
            exact absurd hx List.not_mem_nil
          rw [hpublishers]
          exact h.published l x (hother hl ▸ hx)
        nodup := fun l => by
          by_cases hl : l = s.created
          · rw [hl, hobject]
            exact List.nodup_nil
          · rw [hother hl]
            exact h.nodup l }
    · rw [hk, hcreated]
      exact Nat.lt_succ_self _
    · rw [hk, hobject]
    · rw [hk, hobject, log, hfind]
    · rw [hs']
      exact List.subset_append_left ..

/-- What a step does to a stream, and to a task of it. -/
structure Stepped (s s' : LocalBroker M) : Prop where
  inv : s'.Inv
  created : s.created ≤ s'.created
  evicted : s.evicted ⊆ s'.evicted
  topic : ∀ k < s.created, (s'.objects k).topic = (s.objects k).topic
  messages : ∀ k < s.created, (s.objects k).messages <+: (s'.objects k).messages
  subscription : ∀ i u, s.subscriptions i = some u → ∃ u', s'.subscriptions i = some u' ∧
    u'.stream = u.stream ∧ Takes u u' (s.objects u.stream).messages

theorem takes_refl (u : Subscription M) (messages : List (String × M)) : Takes u u messages :=
  .inl ⟨rfl, rfl⟩

theorem Given.stepped (h : Given s s' topic k) : Stepped s s' where
  inv := h.inv
  created := h.created
  evicted := h.evicted
  topic l hl := by rw [h.objects l hl]
  messages l hl := h.objects l hl ▸ List.prefix_rfl
  subscription i u hu := ⟨u, h.subscriptions ▸ hu, rfl, takes_refl ..⟩

theorem Stepped.trans {t : LocalBroker M} (h : Stepped s s') (h' : Stepped s' t)
    (hsame : ∀ i u, s.subscriptions i = some u → s'.subscriptions i = some u)
    (hmessages : ∀ k < s.created, (s'.objects k).messages = (s.objects k).messages)
    (hs : s.Inv) : Stepped s t where
  inv := h'.inv
  created := Nat.le_trans h.created h'.created
  evicted := List.Subset.trans h.evicted h'.evicted
  topic k hk := (h'.topic k (Nat.lt_of_lt_of_le hk h.created)).trans (h.topic k hk)
  messages k hk := (h.messages k hk).trans (h'.messages k (Nat.lt_of_lt_of_le hk h.created))
  subscription i u hu := by
    obtain ⟨u', hu', hstream, htakes⟩ := h'.subscription i u (hsame i u hu)
    exact ⟨u', hu', hstream, hmessages _ (hs.subscription i u hu).stream ▸ htakes⟩

theorem Leaves.stepped {task : Task} (h : Leaves task s s') (hinv : s'.Inv)
    (hown : ∀ i u, .subscriber i = task → s.subscriptions i = some u →
      ∃ u', s'.subscriptions i = some u' ∧ u'.stream = u.stream ∧
        Takes u u' (s.objects u.stream).messages) : Stepped s s' where
  inv := hinv
  created := Nat.le_of_eq h.created.symm
  evicted := h.evicted ▸ List.Subset.refl _
  topic k _ := h.topic k
  messages k _ := h.messages k
  subscription i u hu := by
    by_cases hi : .subscriber i = task
    · exact hown i u hi hu
    · exact ⟨u, h.subscription i hi ▸ hu, rfl, takes_refl ..⟩

/-- A publisher is given a new cursor. -/
theorem Inv.stepped_newPublisher (h : s.Inv) {p k : ℕ} (hnew : s.publishers p = none)
    (hk : k < s.created) {topic : String} (htopic : (s.objects k).topic = topic) (message : M) :
    Stepped s ({ s with counter := s.counter + 1 }.setPublisher p
      ⟨topic, message, k, toString (s.counter + 1), .acquiring⟩) := by
  have hother {q : ℕ} (hq : q ≠ p) : ({ s with counter := s.counter + 1 }.setPublisher p
      ⟨topic, message, k, toString (s.counter + 1), .acquiring⟩).publishers q = s.publishers q :=
    Function.update_of_ne hq ..
  have hne {q : ℕ} {v : Publisher M} (hv : s.publishers q = some v) : q ≠ p := by
    rintro rfl
    cases hnew.symm.trans hv
  have hleaves : Leaves (.publisher p) s ({ s with counter := s.counter + 1 }.setPublisher p
      ⟨topic, message, k, toString (s.counter + 1), .acquiring⟩) := by
    refine ⟨rfl, rfl, rfl, Nat.le_succ _, fun _ => rfl, fun _ => List.prefix_rfl,
      fun _ _ _ => Iff.rfl, fun q hq => hother fun heq => hq (congrArg Task.publisher heq),
      fun _ _ => rfl, fun l i _ hi => .inr ⟨hi, rfl, fun ⟨q, v, hv, hl, hphase⟩ => ?_⟩⟩
    exact ⟨q, v, (hother (hne hv)).trans hv, hl, hphase⟩
  refine hleaves.stepped (h.of_leaves hleaves (fun q v hq hv => ?_) (fun _ _ hi => by cases hi)
    (fun l hl => ?_) (fun l x hx => ?_) h.nodup) fun _ _ hi => by cases hi
  · cases hq
    rw [setPublisher_self] at hv
    cases hv
    refine ⟨⟨hk, htopic, ?_, ⟨_, Nat.succ_pos _, Nat.le_refl _, rfl⟩, fun happended => ?_⟩,
      fun q v hv heq => ?_⟩
    · refine ⟨fun hholds => ?_, fun hholder => ?_⟩
      · simp [PublisherPhase.Holds] at hholds
      · obtain ⟨v, hv, -⟩ := h.holder k _ hholder
        exact absurd rfl (hne hv)
    · simp [PublisherPhase.Appended] at happended
    · -- cursors are counted
      obtain ⟨n, -, hn, hcursor⟩ := (h.publisher q v hv).cursor
      have hdigits := congrArg (fun t : String => Nat.ofDigitChars 10 t.toList 0)
        (heq.trans hcursor)
      simp only [toString, Nat.toList_repr, Nat.ofDigitChars_ten_toDigits] at hdigits
      omega
  · obtain ⟨v, hv, -⟩ := h.holder l _ hl
    exact absurd rfl (hne hv)
  · obtain ⟨q, v, hv, hx⟩ := h.published l x hx
    exact ⟨q, v, (hother (hne hv)).trans hv, hx⟩

theorem Inv.stepped_newSubscription (h : s.Inv) {i k n : ℕ} (hnew : s.subscriptions i = none)
    (hk : k < s.created) {topic : String} (htopic : (s.objects k).topic = topic)
    (hn : n ≤ (s.objects k).messages.length) :
    Stepped s (s.setSubscription i ⟨topic, k, n, .batch [], []⟩) := by
  have hne {j : ℕ} {v : Subscription M} (hv : s.subscriptions j = some v) : j ≠ i := by
    rintro rfl
    cases hnew.symm.trans hv
  have hleaves : Leaves (.subscriber i) s (s.setSubscription i ⟨topic, k, n, .batch [], []⟩) :=
    ⟨rfl, rfl, rfl, Nat.le_refl _, fun _ => rfl, fun _ => List.prefix_rfl, fun _ _ _ => Iff.rfl,
      fun _ _ => rfl,
      fun j hj => Function.update_of_ne (fun heq => hj (congrArg Task.subscriber heq)) ..,
      fun _ _ _ hj => .inr ⟨hj, rfl, id⟩⟩
  refine hleaves.stepped (h.of_leaves hleaves (fun _ _ hp => by cases hp) (fun j v hj hv => ?_)
    (fun l hl => ?_) h.published h.nodup) fun j v hj hv => absurd (Task.subscriber.inj hj) (hne hv)
  · cases hj
    rw [setSubscription_self] at hv
    cases hv
    refine ⟨hk, htopic, ⟨fun hholds => hholds.elim, fun hholder => ?_⟩, hn, fun hwaiting => ?_⟩
    · obtain ⟨v, hv, -⟩ := h.holder k _ hholder
      exact absurd rfl (hne hv)
    · cases hwaiting
  · obtain ⟨v, hv, -⟩ := h.holder l _ hl
    exact absurd rfl (hne hv)

theorem Moves.stepped {i : ℕ} {u u' : Subscription M} {f : Stream M → Stream M}
    (hmoves : Moves i u u' (s.objects u.stream) (f (s.objects u.stream))) (h : s.Inv)
    (hu : s.subscriptions i = some u) : Stepped s (s.move i u f u') := by
  refine hmoves.leaves.stepped (h.move hu hmoves) fun j v hj hv => ?_
  cases hj
  obtain rfl := Option.some.inj (hu.symm.trans hv)
  exact ⟨u', by rw [move_subscriptions, if_pos rfl], hmoves.subscribed.2, hmoves.takes⟩

end Creation

theorem startIndex_le (fromCursor : String) (messages : List (String × M)) :
    startIndex fromCursor messages ≤ messages.length := by
  rw [startIndex]
  split_ifs
  · exact Nat.zero_le _
  · split
    · next i hi => exact (List.findIdx?_eq_some_iff_getElem.1 hi).1
    · exact Nat.zero_le _

/-- The invariant is kept, and a stream only grows. -/
theorem Inv.step {l : Label M} (h : s.Inv) (hstep : s.step l = some s') : Stepped s s' := by
  cases l with
  | publish p topic message =>
    rw [LocalBroker.step] at hstep
    split_ifs at hstep with hnew
    obtain rfl := Option.some.inj hstep
    have hgiven := h.getOrCreateStream topic rfl rfl
    exact hgiven.stepped.trans
      (hgiven.inv.stepped_newPublisher (hgiven.publishers ▸ hnew) hgiven.lt hgiven.topic_eq message)
      (fun i u hu => hgiven.subscriptions ▸ hu) (fun k hk => by rw [hgiven.objects k hk]) h
  | subscribe i topic fromCursor =>
    rw [LocalBroker.step] at hstep
    split_ifs at hstep with hnew
    obtain rfl := Option.some.inj hstep
    have hgiven := h.getOrCreateStream topic rfl rfl
    exact hgiven.stepped.trans
      (hgiven.inv.stepped_newSubscription (hgiven.subscriptions ▸ hnew) hgiven.lt hgiven.topic_eq
        (startIndex_le ..))
      (fun i u hu => hgiven.subscriptions ▸ hu) (fun k hk => by rw [hgiven.objects k hk]) h
  | publisher p =>
    obtain ⟨u, hu, hrun⟩ := Option.bind_eq_some_iff.1 hstep
    obtain ⟨hinv, hleaves⟩ := h.runPublisher hu hrun
    exact hleaves.stepped hinv fun _ _ hi => by cases hi
  | subscriber i =>
    obtain ⟨u, hu, hrun⟩ := Option.bind_eq_some_iff.1 hstep
    obtain ⟨f, u', rfl, hmoves⟩ := runSubscriber_cases (h.subscription i u hu) hrun
    exact hmoves.stepped h hu
  | timeout i =>
    obtain ⟨u, hu, hrun⟩ := Option.bind_eq_some_iff.1 hstep
    obtain ⟨f, u', rfl, hmoves⟩ := timeout_cases (h.subscription i u hu) hrun
    exact hmoves.stepped h hu

end LocalBroker

end Hyperforge.Broker
