import Hyperforge.Library.Lru
import Hyperforge.Library.Transition
import Mathlib.Logic.Function.Basic

/-!
# The local broker

Messages are published to topics within one process. Each topic has a stream: the messages
published to it so far, each with a cursor, and a condition. A publisher appends its message and
notifies those who wait, both under the lock of the condition. A subscription looks for messages
after those it has, under the lock as well, and waits to be notified if there are none.

Publishers and subscriptions are tasks that take turns at any point, except that one that needs a
lock waits for it to be free. The streams are kept in a cache of a limited size; a task goes on with
the stream it has, also where its topic has been evicted.
-/

namespace Hyperforge.Broker

open Transition

variable {M : Type}

inductive Task
  | publisher (p : ℕ)
  | subscriber (i : ℕ)
deriving DecidableEq

/-- The messages of a topic, with their cursors, and its condition: the task that holds the lock,
    and the subscriptions that wait to be notified. -/
structure Stream (M : Type) where
  topic : String
  messages : List (String × M)
  holder : Option Task
  waiters : List ℕ
deriving DecidableEq

/-- What a publisher does next. -/
inductive PublisherPhase
  | acquiring
  | appending
  | notifying
  | releasing
  | done
deriving DecidableEq

structure Publisher (M : Type) where
  topic : String
  message : M
  stream : ℕ
  cursor : String
  phase : PublisherPhase
deriving DecidableEq

/-- What a subscription does next. -/
inductive SubscriptionPhase (M : Type)
  /-- Yields what is left of a batch, and then acquires the lock. -/
  | batch (messages : List (String × M))
  | scanning
  /-- Waits until it is not among those to be notified any more, and acquires the lock again. -/
  | waiting
  | collecting
  | releasing (messages : List (String × M))
  /-- Has waited too long, and acquires the lock again, to release it. -/
  | expired
  | timedOut
deriving DecidableEq

structure Subscription (M : Type) where
  topic : String
  stream : ℕ
  lastIndex : ℕ
  phase : SubscriptionPhase M
  /-- What has been yielded. -/
  received : List (String × M)
deriving DecidableEq

structure LocalBroker (M : Type) where
  counter : ℕ
  /-- The streams that are found under their topics. -/
  streams : Lru String ℕ
  /-- The topics whose streams have been evicted. -/
  evicted : List String
  /-- The streams that have been created. -/
  objects : ℕ → Stream M
  created : ℕ
  publishers : ℕ → Option (Publisher M)
  subscriptions : ℕ → Option (Subscription M)

namespace LocalBroker

def initial (maxStreams : ℕ) : LocalBroker M where
  counter := 0
  streams := .empty maxStreams
  evicted := []
  objects _ := ⟨"", [], none, []⟩
  created := 0
  publishers _ := none
  subscriptions _ := none

variable (s : LocalBroker M)

/-- Changes a stream. -/
def modify (k : ℕ) (f : Stream M → Stream M) : LocalBroker M :=
  { s with objects := Function.update s.objects k (f (s.objects k)) }

def setPublisher (p : ℕ) (u : Publisher M) : LocalBroker M :=
  { s with publishers := Function.update s.publishers p (some u) }

def setSubscription (i : ℕ) (u : Subscription M) : LocalBroker M :=
  { s with subscriptions := Function.update s.subscriptions i (some u) }

@[simp]
theorem modify_self (k : ℕ) (f : Stream M → Stream M) :
    (s.modify k f).objects k = f (s.objects k) := Function.update_self ..

@[simp]
theorem setPublisher_objects (p : ℕ) (u : Publisher M) :
    (s.setPublisher p u).objects = s.objects := rfl

@[simp]
theorem setSubscription_objects (i : ℕ) (u : Subscription M) :
    (s.setSubscription i u).objects = s.objects := rfl

@[simp]
theorem setPublisher_self (p : ℕ) (u : Publisher M) :
    (s.setPublisher p u).publishers p = some u := Function.update_self ..

@[simp]
theorem setSubscription_self (i : ℕ) (u : Subscription M) :
    (s.setSubscription i u).subscriptions i = some u := Function.update_self ..

def getOrCreateStream (topic : String) : LocalBroker M × ℕ :=
  match s.streams.find topic with
  | some k => ({ s with streams := s.streams.use topic }, k)
  | none =>
    let streams := s.streams.set topic s.created
    ({ s with
        streams := streams
        evicted := s.evicted ++
          (s.streams.entries.map Prod.fst).filter (· ∉ streams.entries.map Prod.fst)
        objects := Function.update s.objects s.created ⟨topic, [], none, []⟩
        created := s.created + 1 }, s.created)

/-- The messages of the stream that is found under a topic. -/
def log (topic : String) : List (String × M) :=
  match s.streams.find topic with
  | some k => (s.objects k).messages
  | none => []

/-- A lock is acquired if it is free. -/
def acquire (k : ℕ) (task : Task) : Option (LocalBroker M) :=
  if (s.objects k).holder = none then some (s.modify k fun st => { st with holder := some task })
  else none

def release (k : ℕ) : LocalBroker M := s.modify k fun st => { st with holder := none }

/-- `condition.notify_all` -/
def notifyAll (k : ℕ) : LocalBroker M := s.modify k fun st => { st with waiters := [] }

/-! ## Publishers -/

/-- `publish`, until it acquires the lock. -/
def publish (p : ℕ) (topic : String) (message : M) : LocalBroker M :=
  let (s, k) := s.getOrCreateStream topic
  let s := { s with counter := s.counter + 1 }
  s.setPublisher p ⟨topic, message, k, toString s.counter, .acquiring⟩

def runPublisher (p : ℕ) (u : Publisher M) : Option (LocalBroker M) :=
  match u.phase with
  | .acquiring => (s.acquire u.stream (.publisher p)).map fun s =>
    s.setPublisher p { u with phase := .appending }
  | .appending => some ((s.modify u.stream fun st =>
      { st with messages := st.messages ++ [(u.cursor, u.message)] }).setPublisher p
        { u with phase := .notifying })
  | .notifying => some ((s.notifyAll u.stream).setPublisher p { u with phase := .releasing })
  | .releasing => some ((s.release u.stream).setPublisher p { u with phase := .done })
  | .done => none

/-! ## Subscriptions -/

/-- Where a subscription starts: after the message with the cursor. -/
def startIndex (fromCursor : String) (messages : List (String × M)) : ℕ :=
  if fromCursor = "0" then 0
  else match messages.findIdx? (·.1 = fromCursor) with
    | some i => i + 1
    | none => 0

/-- `subscribe`, until it acquires the lock. -/
def subscribe (i : ℕ) (topic fromCursor : String) : LocalBroker M :=
  let (s, k) := s.getOrCreateStream topic
  s.setSubscription i ⟨topic, k, startIndex fromCursor (s.objects k).messages, .batch [], []⟩

/-- The messages that a subscription has not taken yet are its next batch. -/
def collect (i : ℕ) (u : Subscription M) : LocalBroker M :=
  s.setSubscription i { u with
    lastIndex := (s.objects u.stream).messages.length
    phase := .releasing ((s.objects u.stream).messages.drop u.lastIndex) }

def runSubscriber (i : ℕ) (u : Subscription M) : Option (LocalBroker M) :=
  match u.phase with
  | .batch (x :: l) => some (s.setSubscription i
    { u with phase := .batch l, received := u.received ++ [x] })
  | .batch [] => (s.acquire u.stream (.subscriber i)).map fun s =>
    s.setSubscription i { u with phase := .scanning }
  | .scanning =>
    if u.lastIndex < (s.objects u.stream).messages.length then some (s.collect i u)
    else some ((s.modify u.stream fun st =>
      { st with holder := none, waiters := st.waiters ++ [i] }).setSubscription i
        { u with phase := .waiting })
  | .waiting =>
    if i ∈ (s.objects u.stream).waiters then none
    else (s.acquire u.stream (.subscriber i)).map fun s =>
      s.setSubscription i { u with phase := .collecting }
  | .collecting => some (s.collect i u)
  | .releasing l => some ((s.release u.stream).setSubscription i { u with phase := .batch l })
  | .expired => (s.acquire u.stream (.subscriber i)).map fun s =>
    (s.release u.stream).setSubscription i { u with phase := .timedOut }
  | .timedOut => none

/-- The wait of a subscription times out. -/
def timeout (i : ℕ) (u : Subscription M) : Option (LocalBroker M) :=
  match u.phase with
  | .waiting => some ((s.modify u.stream fun st =>
      { st with waiters := st.waiters.erase i }).setSubscription i { u with phase := .expired })
  | _ => none

/-! ## Steps -/

inductive Label (M : Type)
  | publish (p : ℕ) (topic : String) (message : M)
  | subscribe (i : ℕ) (topic fromCursor : String)
  | publisher (p : ℕ)
  | subscriber (i : ℕ)
  | timeout (i : ℕ)

def step (s : LocalBroker M) : Label M → Option (LocalBroker M)
  | .publish p topic message =>
    if s.publishers p = none then some (s.publish p topic message) else none
  | .subscribe i topic fromCursor =>
    if s.subscriptions i = none then some (s.subscribe i topic fromCursor) else none
  | .publisher p => (s.publishers p).bind (s.runPublisher p)
  | .subscriber i => (s.subscriptions i).bind (s.runSubscriber i)
  | .timeout i => (s.subscriptions i).bind (s.timeout i)

def system (M : Type) (maxStreams : ℕ) : System (LocalBroker M) (Label M) :=
  .ofStep (initial maxStreams) step

end LocalBroker

end Hyperforge.Broker
