import Nightingale.Lib.Heap
import Nightingale.Lib.MapOrder

/-!
# Memsto/Channels — tasks on the way to a notification channel

Every `http` channel has a queue, a quit channel and a number of consumers, made together by
`startHttpChannel` and given up together when the channel is removed or its configuration changes.
Nothing is handed over: the consumers of the old queue see the quit channel closed and return, and
the new consumers read a new queue.

    producer   lookup of the queue │ Len < 100000 │ PushFront
    consumer   quit? │ PopBack │ process
    Set        lock, per channel:  remove  or  stop │ start      unlock

Here is the cache with its goroutines, one atomic operation a step.
-/

namespace Nightingale.Channels

/-- `models.NotifyChannelConfig`, as far as `Set` reads it; without `HTTPRequestConfig` there is no
`Concurrency`. -/
structure Channel where
  updateAt : ℤ
  requestType : String
  concurrency : Option ℤ

/-- Where a `startNotifyConsumer` is: at its `select`, about to pop, processing, returned. -/
inductive Stage
  | select
  | pop
  | busy (t : ℕ)
  | done
  deriving DecidableEq

/-- What `startHttpChannel` makes for a channel: a queue, a quit channel, the consumers that were
given both.  Tasks are numbered by the call that brought them. -/
structure Line where
  channel : ℤ
  items : List ℕ := []
  quit : Bool := false
  consumers : List Stage

namespace Line

/-- `startNotifyConsumer`, one step of consumer `i`; with the task it has finished, if it has. -/
def consume (l : Line) (i : ℕ) : Line × List ℕ :=
  match l.consumers[i]? with
  | none | some .done => (l, [])
  | some .select => ({ l with consumers := l.consumers.set i (if l.quit then .done else .pop) }, [])
  | some .pop =>
    match l.items.getLast? with
    | none => ({ l with consumers := l.consumers.set i .select }, [])
    | some t =>
      ({ l with items := l.items.dropLast, consumers := l.consumers.set i (.busy t) }, [])
  | some (.busy t) => ({ l with consumers := l.consumers.set i .select }, [t])

/-- The consumers have not been told to stop, and there is one that has not returned. -/
def Running (l : Line) : Prop := l.quit = false ∧ ∃ st ∈ l.consumers, st ≠ .done

instance (l : Line) : Decidable l.Running := inferInstanceAs (Decidable (_ ∧ _))

end Line

/-- Where an `EnqueueNotifyTask` is: with the queue it found, and after `Len` was compared. -/
inductive Pc
  | idle
  | looked (t : ℕ) (c : ℤ) (r : Ref)
  | checked (t : ℕ) (c : ℤ) (r : Ref)
  deriving DecidableEq

/-- The task on its way, with its channel and the queue it will go to. -/
def Pc.cargo : Pc → Option (ℕ × ℤ × Ref)
  | idle => none
  | looked t c r | checked t c r => some (t, c, r)

/-- Where `Set` is; but for `idle` it has the lock. -/
inductive Setter
  | idle
  | removing (todo : List ℤ) (new : GoMap ℤ Channel) (order : MapOrder ℤ)
  | adding (todo : List ℤ) (new : GoMap ℤ Channel)
  | starting (id : ℤ) (ch : Channel) (todo : List ℤ) (new : GoMap ℤ Channel)

/-- Nobody has the lock. -/
def Setter.free : Setter → Bool
  | idle => true
  | removing _ _ _ | adding _ _ | starting _ _ _ _ => false

/-- `NotifyChannelCacheType` with all that moves in it; with the tasks that were accepted for a
channel there is, as long as there is that channel, and the tasks that have been processed. -/
structure World where
  lines : Heap Line := ⟨0, fun _ => { channel := 0, consumers := [] }⟩
  channels : GoMap ℤ Channel := ∅
  channelsQueue : GoMap ℤ Ref := ∅
  queueQuitCh : GoMap ℤ Ref := ∅
  setter : Setter := .idle
  producers : ℕ → Pc := fun _ => .idle
  calls : ℕ := 0
  watched : List (ℕ × ℤ) := []
  processed : List ℕ := []

/-- What may come next: a producer begins an `EnqueueNotifyTask` and looks the queue up, goes on, a
consumer goes on, `Set` is called and goes on. -/
inductive Move
  | lookup (p : ℕ) (c : ℤ)
  | produce (p : ℕ)
  | consume (r : Ref) (i : ℕ)
  | beginSet (new : GoMap ℤ Channel) (removing adding : MapOrder ℤ)
  | set

namespace World

variable (s : World)

/-- Producer `p` is at `pc` next. -/
def setPc (p : ℕ) (pc : Pc) : World := { s with producers := Function.update s.producers p pc }

/-- `EnqueueNotifyTask` up to its lookup. -/
def lookup (p : ℕ) (c : ℤ) : World :=
  if s.producers p = .idle ∧ s.setter.free then
    { s.setPc p ((s.channelsQueue.lookup c).elim .idle (.looked s.calls c)) with
      calls := s.calls + 1 }
  else s

/-- `PushFront`, after the length was compared; the call has returned `true`. -/
def pushFront (p t : ℕ) (c : ℤ) (r : Ref) : World :=
  { s.setPc p .idle with
    lines := s.lines.modify r fun l => { l with items := t :: l.items }
    watched := if c ∈ s.channels then s.watched ++ [(t, c)] else s.watched }

/-- The rest of `EnqueueNotifyTask`, one step. -/
def produce (p : ℕ) : World :=
  match s.producers p with
  | .idle => s
  | .looked t c r =>
    s.setPc p (if (s.lines.get r).items.length ≥ 100000 then .idle else .checked t c r)
  | .checked t c r => s.pushFront p t c r

/-- A step of consumer `i` of a line. -/
def consume (r : Ref) (i : ℕ) : World :=
  if r < s.lines.next then
    { s with
      lines := s.lines.modify r fun l => (l.consume i).1
      processed := s.processed ++ ((s.lines.get r).consume i).2 }
  else s

/-- The quit channel is closed, if there is one. -/
def quit (id : ℤ) : World :=
  (s.queueQuitCh.lookup id).elim s fun r =>
    { s with
      lines := s.lines.modify r fun l => { l with quit := true }
      queueQuitCh := s.queueQuitCh.erase id }

/-- `removeDeletedChannels`, at a channel that is deleted. -/
def removeChannel (id : ℤ) : World :=
  { s.quit id with
    channelsQueue := s.channelsQueue.erase id
    channels := s.channels.erase id
    watched := s.watched.filter fun x => x.2 ≠ id }

/-- `stopChannelResources`: the queue goes with the quit channel. -/
def stopChannelResources (id : ℤ) : World :=
  (s.queueQuitCh.lookup id).elim s fun _ =>
    { s.quit id with channelsQueue := s.channelsQueue.erase id }

/-- `startHttpChannel`. -/
def startHttpChannel (id : ℤ) (ch : Channel) : World :=
  ch.concurrency.elim s fun concurrency =>
    { s with
      lines := s.lines.alloc
        { channel := id, consumers := List.replicate concurrency.toNat .select }
      channelsQueue := s.channelsQueue.insert id s.lines.next
      queueQuitCh := s.queueQuitCh.insert id s.lines.next }

/-- `addOrUpdateChannels`, after the old resources of the channel were stopped. -/
def startChannel (id : ℤ) (ch : Channel) : World :=
  let s' := { s with channels := s.channels.insert id ch }
  if ch.requestType = "http" then s'.startHttpChannel id ch else s'

/-- The channel is known and its configuration is another. -/
def Changed (id : ℤ) (ch : Channel) : Prop :=
  (s.channels.lookup id).any fun old => old.updateAt ≠ ch.updateAt

instance (id : ℤ) (ch : Channel) : Decidable (s.Changed id ch) :=
  inferInstanceAs (Decidable (_ = true))

/-- `Set`, one step. -/
def set : World :=
  match s.setter with
  | .idle => s
  | .removing [] new order => { s with setter := .adding (order.list new.keys) new }
  | .removing (id :: todo) new order =>
    { (if id ∈ new then s else s.removeChannel id) with setter := .removing todo new order }
  | .adding [] _ => { s with setter := .idle }
  | .adding (id :: todo) new =>
    (new.lookup id).elim { s with setter := .adding todo new } fun ch =>
      if s.Changed id ch then
        { s.stopChannelResources id with setter := .starting id ch todo new }
      else if id ∈ s.channels then { s with setter := .adding todo new }
      else { s with setter := .starting id ch todo new }
  | .starting id ch todo new => { s.startChannel id ch with setter := .adding todo new }

/-- One step of the whole. -/
def step : Move → World
  | .lookup p c => s.lookup p c
  | .produce p => s.produce p
  | .consume r i => s.consume r i
  | .beginSet new removing adding =>
    if s.setter.free then
      { s with setter := .removing (removing.list s.channels.keys) new adding }
    else s
  | .set => s.set

/-! ## What is asked, and when it can be had -/

/-- The task is in the queue the channel's running consumers read, or is being processed, or has
been processed exactly once. -/
def Served (t : ℕ) (c : ℤ) : Prop :=
  (∃ r ∈ s.channelsQueue.lookup c, t ∈ (s.lines.get r).items ∧ (s.lines.get r).Running) ∨
    (∃ r < s.lines.next, .busy t ∈ (s.lines.get r).consumers) ∨ s.processed.count t = 1

instance (t : ℕ) (c : ℤ) : Decidable (s.Served t c) := inferInstanceAs (Decidable (_ ∨ _))

/-- No accepted task is lost as long as its channel is there. -/
def Safe : Prop := ∀ x ∈ s.watched, s.Served x.1 x.2

/-- The next step of `Set` stops the channel to start it with another configuration. -/
def Updates (id : ℤ) (ch : Channel) : Prop :=
  ∃ todo new, s.setter = .adding (id :: todo) new ∧ new.lookup id = some ch ∧ s.Changed id ch

/-- The next step updates only a channel whose queue is empty, and inserts a task for a channel
there is only into the queue it has now, with somebody to read it. -/
def Calm : Move → Prop
  | .set => ∀ id ch r, s.Updates id ch → s.queueQuitCh.lookup id = some r →
    (s.lines.get r).items = []
  | .produce p => ∀ t c r, s.producers p = .checked t c r → c ∈ s.channels →
    s.channelsQueue.lookup c = some r ∧ (s.lines.get r).consumers ≠ []
  | _ => True

end World

end Nightingale.Channels
