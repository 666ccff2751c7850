import Nightingale.Lib.Heap
import Nightingale.Lib.MapOrder

/-!
# Sender/Webhook — events on the way to a webhook

`BatchSendWebhooks` and `PushCallbackEvent` put an event on the queue of each webhook's URL, and
make the queue if the URL has none:

    queue, ok := EventQueue[url]  ──ok──▸ Push
              └─ no: register a new queue, StartConsumer, Push

`StartConsumer` is the loop that empties the queue, and it is called, not started: it ends only when
the queue is closed.  So the first event for a URL never gets to its `Push`, nor the webhooks after
it; `webhooks_served_iff` says when all is well.
-/

namespace Nightingale.Sender

open List Option Finmap

/-- `models.Webhook`, with the fields that are read here. -/
structure Webhook where
  url : String
  enable : Bool := true
  batch : ℤ := 1000
  retryCount : ℤ := 3

/-! ## The queue of a URL -/

/-- `SafeEventQueue`. -/
structure SafeEventQueue (ε : Type) where
  maxSize : ℕ
  queueHigh : List ε := []
  queueMiddle : List ε := []
  queueLow : List ε := []

namespace SafeEventQueue

variable {ε : Type}

/-- `SafeEventQueue.Len`. -/
def len (q : SafeEventQueue ε) : ℕ :=
  q.queueHigh.length + q.queueMiddle.length + q.queueLow.length

/-- `SafeEventQueue.Push` of an event of a severity; `none` if it is refused. -/
def push (severity : ℤ) (event : ε) (q : SafeEventQueue ε) : Option (SafeEventQueue ε) :=
  if q.len > q.maxSize then none
  else if severity = 1 then some { q with queueHigh := q.queueHigh ++ [event] }
  else if severity = 2 then some { q with queueMiddle := q.queueMiddle ++ [event] }
  else if severity = 3 then some { q with queueLow := q.queueLow ++ [event] }
  else none

/-- `SafeEventQueue.pop`. -/
def pop (q : SafeEventQueue ε) : Option (ε × SafeEventQueue ε) :=
  match q.queueHigh, q.queueMiddle, q.queueLow with
  | event :: rest, _, _ => some (event, { q with queueHigh := rest })
  | [], event :: rest, _ => some (event, { q with queueMiddle := rest })
  | [], [], event :: rest => some (event, { q with queueLow := rest })
  | [], [], [] => none

/-- `SafeEventQueue.PopN`. -/
def popN : ℕ → SafeEventQueue ε → List ε × SafeEventQueue ε
  | 0, q => ([], q)
  | n + 1, q =>
    match q.pop with
    | none => ([], q)
    | some (event, q) => (event :: (popN n q).1, (popN n q).2)

end SafeEventQueue

/-- `WebhookQueue`; its channel `closeCh` is closed or not. -/
structure WebhookQueue (ε : Type) where
  eventQueue : SafeEventQueue ε
  closed : Bool := false

/-- `QueueMaxSize`. -/
def queueMaxSize : ℕ := 100000

/-- The two tables of queues, `EventQueue` and `CallbackEventQueue`. -/
inductive Table
  | event
  | callback
  deriving DecidableEq

/-- The queues, the tables that register them under URLs, and what has been done: the events that
were pushed, with the queue each went to, the requests that were sent, and the time that passed. -/
structure World (ε : Type) where
  queues : Heap (WebhookQueue ε)
  tables : Table → GoMap String Ref
  pushed : List (Ref × ε) := []
  posted : List (String × List ε) := []
  moment : ℕ := 0

/-- The rest of the program: what the other goroutines have done to a queue by the time it is
reached, and whether a request is to be tried again. -/
structure Others (ε : Type) where
  queue : ℕ → Ref → WebhookQueue ε → WebhookQueue ε
  needRetry : ℕ → Bool

section Program

variable {ε : Type} (others : Others ε) (severity : ε → ℤ)

/-- A queue is reached. -/
def World.reach (r : Ref) (w : World ε) : World ε :=
  { w with queues := w.queues.modify r (others.queue w.moment r), moment := w.moment + 1 }

/-- `queue.eventQueue.Push(event)`. -/
def World.push (r : Ref) (event : ε) (w : World ε) : World ε :=
  let w := w.reach others r
  ((w.queues.get r).eventQueue.push (severity event) event).elim w fun q =>
    { w with
      queues := w.queues.modify r fun queue => { queue with eventQueue := q }
      pushed := w.pushed ++ [(r, event)] }

/-- The loop that sends the events, with the number of tries it has left.  `sendWebhook` sends
nothing, and asks for no other try, if the webhook is disabled. -/
def deliver (webhook : Webhook) (events : List ε) : ℕ → World ε → World ε
  | 0, w => w
  | tries + 1, w =>
    if webhook.url = "" ∨ webhook.enable = false then w
    else
      let w' := { w with posted := w.posted ++ [(webhook.url, events)], moment := w.moment + 1 }
      if others.needRetry w.moment then deliver webhook events tries w' else w'

/-- `StartConsumer`, for a number of rounds; `none` if it has not returned by then.  A negative
batch is a panic in `PopN`. -/
def startConsumer (r : Ref) (webhook : Webhook) : ℕ → World ε → Option (World ε)
  | 0, _ => none
  | rounds + 1, w =>
    let w := w.reach others r
    if (w.queues.get r).closed then some w
    else if webhook.batch < 0 then none
    else
      let popped := (w.queues.get r).eventQueue.popN webhook.batch.toNat
      let w := { w with
        queues := w.queues.modify r fun queue => { queue with eventQueue := popped.2 } }
      if popped.1.isEmpty then startConsumer r webhook rounds w
      else startConsumer r webhook rounds
        (deliver others webhook popped.1 webhook.retryCount.toNat w)

/-- What `PushEvent` and `PushCallbackEvent` do, each with its table. -/
def pushTo (table : Table) (rounds : ℕ) (webhook : Webhook) (event : ε) (w : World ε) :
    Option (World ε) :=
  match (w.tables table).lookup webhook.url with
  | some queue => some (w.push others severity queue event)
  | none =>
    let queue := w.queues.next
    let w := { w with
      queues := w.queues.alloc { eventQueue := { maxSize := queueMaxSize } }
      tables := Function.update w.tables table ((w.tables table).insert webhook.url queue) }
    (startConsumer others queue webhook rounds w).map (World.push others severity queue event)

/-- `PushEvent`. -/
def pushEvent := pushTo others severity .event

/-- `PushCallbackEvent`. -/
def pushCallbackEvent := pushTo others severity .callback

/-- The webhooks of a map, as a loop over it meets them. -/
def entries (order : MapOrder String) (webhooks : GoMap String Webhook) : List Webhook :=
  (order.list webhooks.keys).filterMap fun key => webhooks.lookup key

/-- `BatchSendWebhooks`. -/
def batchSendWebhooks (order : MapOrder String) (rounds : ℕ) (webhooks : GoMap String Webhook)
    (event : ε) (w : World ε) : Option (World ε) :=
  (entries order webhooks).foldlM (fun w conf => pushEvent others severity rounds conf event w) w

end Program

/-! ## What is asked of a call -/

section Spec

variable {ε : Type}

/-- The event was pushed exactly once onto the queue registered for each webhook's URL. -/
def Served (table : Table) (confs : List Webhook) (event : ε) (w w' : World ε) : Prop :=
  ∃ new, w'.pushed = w.pushed ++ new ∧ (∀ p ∈ new, p.2 = event) ∧
    ∀ conf ∈ confs, ∃ queue, (w'.tables table).lookup conf.url = some queue ∧
      (new.map Prod.fst).count queue = 1

/-- A sequence of calls: each returns, after some number of rounds, and has then done what is asked
of it. -/
def AllServed {α : Type} (call : α → ℕ → World ε → Option (World ε))
    (asked : α → World ε → World ε → Prop) : List α → World ε → Prop
  | [], _ => True
  | a :: calls, w =>
    ∃ rounds w', call a rounds w = some w' ∧ asked a w w' ∧ AllServed call asked calls w'

/-- No queue is ever found closed. -/
def Others.NeverClose (others : Others ε) : Prop :=
  ∀ moment r queue, (others.queue moment r queue).closed = false

/-- No queue is ever found full. -/
def Others.NeverFull (others : Others ε) : Prop :=
  ∀ moment r queue, (others.queue moment r queue).eventQueue.len ≤
    (others.queue moment r queue).eventQueue.maxSize

/-- A severity there is a list for. -/
def Ranked (severity : ℤ) : Prop := severity = 1 ∨ severity = 2 ∨ severity = 3

instance (severity : ℤ) : Decidable (Ranked severity) := inferInstanceAs (Decidable (_ ∨ _ ∨ _))

end Spec

/-! ## One push -/

section Push

variable {ε : Type} {others : Others ε} {severity : ε → ℤ}

theorem SafeEventQueue.push_isSome_iff {q : SafeEventQueue ε} (hroom : q.len ≤ q.maxSize)
    (severity : ℤ) (event : ε) : (q.push severity event).isSome ↔ Ranked severity := by
  unfold push Ranked
  rw [if_neg (not_lt.mpr hroom)]
  split_ifs <;> simp_all

@[simp] theorem tables_push (r : Ref) (event : ε) (w : World ε) :
    (w.push others severity r event).tables = w.tables := by
  unfold World.push
  dsimp only
  cases ((w.reach others r).queues.get r).eventQueue.push (severity event) event <;> rfl

/-- **A push is done** if the severity is one of the three. -/
theorem pushed_push (hroom : others.NeverFull) (r : Ref) (event : ε) (w : World ε) :
    (w.push others severity r event).pushed =
      w.pushed ++ if Ranked (severity event) then [(r, event)] else [] := by
  have hlen : ((w.reach others r).queues.get r).eventQueue.len ≤
      ((w.reach others r).queues.get r).eventQueue.maxSize := by
    unfold World.reach
    rw [Heap.get_modify_self]
    exact hroom _ _ _
  have hsome := SafeEventQueue.push_isSome_iff hlen (severity event) event
  unfold World.push
  dsimp only
  cases hpush : ((w.reach others r).queues.get r).eventQueue.push (severity event) event with
  | none =>
    rw [hpush] at hsome
    rw [if_neg fun h => by simpa using hsome.mpr h, append_nil]
    rfl
  | some q =>
    rw [hpush] at hsome
    rw [if_pos (hsome.mp rfl)]
    rfl

/-- **The consumer never returns** while its queue is open. -/
theorem startConsumer_eq_none (hopen : others.NeverClose) (r : Ref) (webhook : Webhook) :
    ∀ (rounds : ℕ) (w : World ε), startConsumer others r webhook rounds w = none
  | 0, _ => rfl
  | rounds + 1, w => by
    have hclosed : ((w.reach others r).queues.get r).closed = false := by
      unfold World.reach
      rw [Heap.get_modify_self]
      exact hopen _ _ _
    unfold startConsumer
    simp only [hclosed, Bool.false_eq_true, if_false, startConsumer_eq_none hopen r webhook rounds,
      ite_self]

/-- **A call for one webhook** returns exactly when the URL has a queue. -/
theorem pushTo_eq (hopen : others.NeverClose) (table : Table) (rounds : ℕ) (webhook : Webhook)
    (event : ε) (w : World ε) : pushTo others severity table rounds webhook event w =
      ((w.tables table).lookup webhook.url).map fun queue =>
        w.push others severity queue event := by
  unfold pushTo
  cases (w.tables table).lookup webhook.url with
  | some queue => rfl
  | none => simp only [startConsumer_eq_none hopen, map_none]

end Push

/-! ## One call -/

section Call

variable {ε : Type} {others : Others ε} {severity : ε → ℤ}

/-- The queue registered for a webhook's URL. -/
def queueOf (table : GoMap String Ref) (conf : Webhook) : Option Ref := table.lookup conf.url

/-- What `BatchSendWebhooks` and `PushCallbackEvent` do with a list of webhooks. -/
def pushAll (others : Others ε) (severity : ε → ℤ) (table : Table) (rounds : ℕ)
    (confs : List Webhook) (event : ε) (w : World ε) : Option (World ε) :=
  confs.foldlM (fun w conf => pushTo others severity table rounds conf event w) w

/-- **A loop that returns** has found a queue for each webhook, and has pushed the event onto each,
or onto none. -/
theorem pushAll_eq_some (hopen : others.NeverClose) (hroom : others.NeverFull) {table : Table}
    {rounds : ℕ} {event : ε} : ∀ {confs : List Webhook} {w w' : World ε},
      pushAll others severity table rounds confs event w = some w' →
        (∀ conf ∈ confs, conf.url ∈ w.tables table) ∧ w'.tables = w.tables ∧
          w'.pushed = w.pushed ++ if Ranked (severity event) then
            (confs.filterMap (queueOf (w.tables table))).map (·, event) else []
  | [], w, w', h => by
    obtain rfl := some.inj h
    simp
  | conf :: confs, w, w', h => by
    obtain ⟨w₁, hfirst, hrest⟩ := bind_eq_some_iff.mp h
    obtain ⟨queue, hqueue, rfl⟩ := map_eq_some_iff.mp
      ((pushTo_eq hopen table rounds conf event w).symm.trans hfirst)
    obtain ⟨hall, htables, hpushed⟩ := pushAll_eq_some hopen hroom hrest
    rw [tables_push] at hall htables hpushed
    refine ⟨?_, htables, ?_⟩
    · intro conf' hmem
      rcases mem_cons.mp hmem with rfl | hmem
      · exact mem_iff.mpr ⟨queue, hqueue⟩
      · exact hall conf' hmem
    · have hcons : queueOf (w.tables table) conf = some queue := hqueue
      rw [hpushed, pushed_push hroom, filterMap_cons_some hcons]
      split_ifs <;> simp

/-- …and a loop with a queue for each webhook returns. -/
theorem pushAll_isSome (hopen : others.NeverClose) {table : Table} (rounds : ℕ) (event : ε) :
    ∀ (confs : List Webhook) (w : World ε), (∀ conf ∈ confs, conf.url ∈ w.tables table) →
      ∃ w', pushAll others severity table rounds confs event w = some w'
  | [], w, _ => ⟨w, rfl⟩
  | conf :: confs, w, h => by
    obtain ⟨queue, hqueue⟩ := mem_iff.mp (h conf mem_cons_self)
    have hfirst : pushTo others severity table rounds conf event w =
        some (w.push others severity queue event) := by
      rw [pushTo_eq hopen, hqueue]
      rfl
    obtain ⟨w', hw'⟩ := pushAll_isSome hopen rounds event confs
      (w.push others severity queue event) fun conf' hmem => by
        rw [tables_push]
        exact h conf' (mem_cons_of_mem conf hmem)
    refine ⟨w', ?_⟩
    rw [pushAll, foldlM_cons, hfirst]
    exact hw'

/-- **One call serves its webhooks** exactly when each has a queue, no two have the same, and the
event has one of the three severities; or when there are none. -/
theorem call_served_iff (hopen : others.NeverClose) (hroom : others.NeverFull) (table : Table)
    (w : World ε) (confs : List Webhook) (event : ε) :
    (∃ rounds w', pushAll others severity table rounds confs event w = some w' ∧
      Served table confs event w w') ↔
        (∀ conf ∈ confs, conf.url ∈ w.tables table ∧ Ranked (severity event)) ∧
          (confs.filterMap (queueOf (w.tables table))).Nodup := by
  constructor
  · rintro ⟨rounds, w', hcall, new, hnew, -, hcount⟩
    obtain ⟨hall, htables, hpushed⟩ := pushAll_eq_some hopen hroom hcall
    have hnew := append_cancel_left (hnew.symm.trans hpushed)
    have hranked : ∀ conf ∈ confs, Ranked (severity event) := by
      intro conf hconf
      obtain ⟨queue, -, hone⟩ := hcount conf hconf
      by_contra hr
      rw [hnew, if_neg hr] at hone
      cases hone
    refine ⟨fun conf hconf => ⟨hall conf hconf, hranked conf hconf⟩, ?_⟩
    rw [nodup_iff_count_le_one]
    intro queue
    by_cases hmem : queue ∈ confs.filterMap (queueOf (w.tables table))
    · obtain ⟨conf, hconf, hqueue⟩ := mem_filterMap.mp hmem
      obtain ⟨queue', hqueue', hone⟩ := hcount conf hconf
      rw [htables] at hqueue'
      obtain rfl : queue = queue' := some.inj (hqueue.symm.trans hqueue')
      rw [hnew, if_pos (hranked conf hconf), List.map_map] at hone
      exact (map_id _ ▸ hone).le
    · rw [count_eq_zero.mpr hmem]
      exact zero_le_one
  · rintro ⟨hall, hnodup⟩
    obtain ⟨w', hw'⟩ := pushAll_isSome hopen 0 event confs w fun conf hconf => (hall conf hconf).1
    obtain ⟨-, htables, hpushed⟩ := pushAll_eq_some hopen hroom hw'
    refine ⟨0, w', hw', _, hpushed, ?_, fun conf hconf => ?_⟩
    · intro p hp
      split_ifs at hp
      · obtain ⟨queue, -, rfl⟩ := mem_map.mp hp
        rfl
      · cases hp
    · obtain ⟨queue, hqueue⟩ := mem_iff.mp (hall conf hconf).1
      refine ⟨queue, htables ▸ hqueue, ?_⟩
      rw [if_pos (hall conf hconf).2, List.map_map]
      have hid : (confs.filterMap (queueOf (w.tables table))).map
          (Prod.fst ∘ fun x => (x, event)) = confs.filterMap (queueOf (w.tables table)) := map_id _
      rw [hid]
      exact count_eq_one_of_mem hnodup (mem_filterMap.mpr ⟨conf, hconf, hqueue⟩)

end Call

/-! ## Sequences of calls -/

section Calls

variable {ε : Type} {others : Others ε} {severity : ε → ℤ}

/-- Calls that leave the tables are served together when each is served alone. -/
theorem allServed_iff {α : Type} {call : α → ℕ → World ε → Option (World ε)}
    {asked : α → World ε → World ε → Prop} (tables : Table → GoMap String Ref) {G : α → Prop}
    (htables : ∀ a rounds w w', call a rounds w = some w' → w'.tables = w.tables)
    (hcall : ∀ a w, w.tables = tables →
      ((∃ rounds w', call a rounds w = some w' ∧ asked a w w') ↔ G a)) :
    ∀ (calls : List α) (w : World ε), w.tables = tables →
      (AllServed call asked calls w ↔ ∀ a ∈ calls, G a)
  | [], w, _ => by simp [AllServed]
  | a :: calls, w, hw => by
    have hrest : ∀ rounds w', call a rounds w = some w' →
        (AllServed call asked calls w' ↔ ∀ a ∈ calls, G a) := fun rounds w' h =>
      allServed_iff tables htables hcall calls w' ((htables a rounds w w' h).trans hw)
    rw [forall_mem_cons, ← hcall a w hw]
    constructor
    · rintro ⟨rounds, w', h, hasked, hall⟩
      exact ⟨⟨rounds, w', h, hasked⟩, (hrest rounds w' h).mp hall⟩
    · rintro ⟨⟨rounds, w', h, hasked⟩, hall⟩
      exact ⟨rounds, w', h, hasked, (hrest rounds w' h).mpr hall⟩

theorem mem_entries {order : MapOrder String} {webhooks : GoMap String Webhook} {conf : Webhook} :
    conf ∈ entries order webhooks ↔ ∃ key, webhooks.lookup key = some conf := by
  rw [entries, mem_filterMap]
  refine exists_congr fun key => and_iff_right_of_imp fun h => ?_
  exact (order.mem_list_keys _ _).mpr (mem_iff.mpr ⟨conf, h⟩)

/-- The queues a loop meets are distinct when no two keys of the map have one queue. -/
theorem nodup_queues_iff (order : MapOrder String) (webhooks : GoMap String Webhook)
    (table : GoMap String Ref) : ((entries order webhooks).filterMap (queueOf table)).Nodup ↔
      ∀ key conf key' conf' queue, webhooks.lookup key = some conf →
        webhooks.lookup key' = some conf' → queueOf table conf = some queue →
          queueOf table conf' = some queue → key' = key := by
  have hmem : ∀ {key conf}, webhooks.lookup key = some conf → key ∈ order.list webhooks.keys :=
    fun h => (order.mem_list_keys _ _).mpr (mem_iff.mpr ⟨_, h⟩)
  rw [Nodup, pairwise_filterMap, entries, pairwise_filterMap]
  constructor
  · intro hpair key conf key' conf' queue h h' hqueue hqueue'
    by_contra hne
    have hsymm : Std.Symm fun key key' => ∀ conf, webhooks.lookup key = some conf →
        ∀ conf', webhooks.lookup key' = some conf' → ∀ queue, queueOf table conf = some queue →
          ∀ queue', queueOf table conf' = some queue' → queue ≠ queue' :=
      ⟨fun _ _ hab conf hconf conf' hconf' queue hq queue' hq' heq =>
        hab conf' hconf' conf hconf queue' hq' queue hq heq.symm⟩
    exact hpair.forall (hmem h') (hmem h) hne conf' h' conf h queue hqueue' queue hqueue rfl
  · intro hall
    refine (order.nodup _).pairwise_of_forall_ne
      fun key _ key' _ hne conf h conf' h' queue hq queue' hq' heq => ?_
    exact hne (hall key' conf' key conf queue h' h (heq ▸ hq') hq)

/-- **A map of webhooks is served** exactly when each has a queue, no other has the same, and the
event has one of the three severities. -/
theorem batchSendWebhooks_served_iff (hopen : others.NeverClose) (hroom : others.NeverFull)
    (order : MapOrder String) (webhooks : GoMap String Webhook) (event : ε) (w : World ε) :
    (∃ rounds w', batchSendWebhooks others severity order rounds webhooks event w = some w' ∧
      Served .event (entries order webhooks) event w w') ↔
        ∀ key conf, webhooks.lookup key = some conf →
          Ranked (severity event) ∧ ∃ queue, queueOf (w.tables .event) conf = some queue ∧
            ∀ key' conf', webhooks.lookup key' = some conf' →
              queueOf (w.tables .event) conf' = some queue → key' = key := by
  refine (call_served_iff hopen hroom .event w (entries order webhooks) event).trans ?_
  rw [nodup_queues_iff]
  constructor
  · rintro ⟨hall, hdistinct⟩ key conf h
    obtain ⟨hreg, hranked⟩ := hall conf (mem_entries.mpr ⟨key, h⟩)
    obtain ⟨queue, hqueue⟩ := mem_iff.mp hreg
    exact ⟨hranked, queue, hqueue, fun key' conf' h' hq =>
      hdistinct key conf key' conf' queue h h' hqueue hq⟩
  · intro hall
    refine ⟨fun conf hconf => ?_, fun key conf key' conf' queue h h' hq hq' => ?_⟩
    · obtain ⟨key, h⟩ := mem_entries.mp hconf
      obtain ⟨hranked, queue, hqueue, -⟩ := hall key conf h
      exact ⟨mem_iff.mpr ⟨queue, hqueue⟩, hranked⟩
    · obtain ⟨-, queue', hqueue, hdistinct⟩ := hall key conf h
      obtain rfl := some.inj (hq.symm.trans hqueue)
      exact hdistinct key' conf' h' hq'

/-- `PushCallbackEvent` is the loop over one webhook. -/
theorem pushCallbackEvent_eq (rounds : ℕ) (conf : Webhook) (event : ε) (w : World ε) :
    pushCallbackEvent others severity rounds conf event w =
      pushAll others severity .callback rounds [conf] event w := by
  rw [pushAll, foldlM_cons]
  exact (bind_pure _).symm

theorem pushCallbackEvent_served_iff (hopen : others.NeverClose) (hroom : others.NeverFull)
    (conf : Webhook) (event : ε) (w : World ε) :
    (∃ rounds w', pushCallbackEvent others severity rounds conf event w = some w' ∧
      Served .callback [conf] event w w') ↔
        Ranked (severity event) ∧ conf.url ∈ w.tables .callback := by
  simp only [pushCallbackEvent_eq]
  refine (call_served_iff hopen hroom .callback w [conf] event).trans ?_
  rw [forall_mem_singleton, and_comm (a := conf.url ∈ w.tables .callback)]
  refine and_iff_left_of_imp fun h => ?_
  obtain ⟨queue, hqueue⟩ : ∃ queue, queueOf (w.tables .callback) conf = some queue := mem_iff.mp h.2
  rw [filterMap_cons_some hqueue]
  exact nodup_singleton _

/-- **Every event reaches every webhook** exactly when every webhook's URL has its queue already, no
two webhooks of the map have the same queue, and every event has one of the three severities.  The
queues are never full and never closed; a loop over the map takes any order. -/
theorem webhooks_served_iff (hopen : others.NeverClose) (hroom : others.NeverFull) (w : World ε)
    (webhooks : GoMap String Webhook) (events : List (MapOrder String × ε))
    (callbacks : List (Webhook × ε)) :
    (AllServed (fun c rounds w => batchSendWebhooks others severity c.1 rounds webhooks c.2 w)
        (fun c => Served .event (entries c.1 webhooks) c.2) events w ↔
      ∀ c ∈ events, ∀ key conf, webhooks.lookup key = some conf →
        Ranked (severity c.2) ∧ ∃ queue, queueOf (w.tables .event) conf = some queue ∧
          ∀ key' conf', webhooks.lookup key' = some conf' →
            queueOf (w.tables .event) conf' = some queue → key' = key) ∧
    (AllServed (fun c rounds w => pushCallbackEvent others severity rounds c.1 c.2 w)
        (fun c => Served .callback [c.1] c.2) callbacks w ↔
      ∀ c ∈ callbacks, Ranked (severity c.2) ∧ c.1.url ∈ w.tables .callback) := by
  constructor
  · refine allServed_iff w.tables (fun c rounds w w' h =>
      (pushAll_eq_some hopen hroom h).2.1) (fun c w₁ hw₁ => ?_) events w rfl
    rw [← hw₁]
    exact batchSendWebhooks_served_iff hopen hroom c.1 webhooks c.2 w₁
  · refine allServed_iff w.tables (fun c rounds w w' h =>
      (pushAll_eq_some hopen hroom ((pushCallbackEvent_eq _ _ _ _).symm.trans h)).2.1)
      (fun c w₁ hw₁ => ?_) callbacks w rfl
    rw [← hw₁]
    exact pushCallbackEvent_served_iff hopen hroom c.1 c.2 w₁

end Calls

namespace Example

/-- Consumers that keep every queue empty and open, and requests that succeed. -/
def others : Others ℕ where
  queue _ _ _ := { eventQueue := { maxSize := queueMaxSize } }
  needRetry _ := false

/-- A world in which these URLs have queue 0. -/
def world (table : GoMap String Ref) : World ℕ where
  queues := ⟨1, fun _ => { eventQueue := { maxSize := queueMaxSize } }⟩
  tables _ := table

/-- One webhook. -/
def webhook : Webhook := { url := "http://10.0.0.1/hook" }

/-- The table with its queue. -/
def table : GoMap String Ref := singleton "http://10.0.0.1/hook" 0

end Example

open Sender.Example

/-- A webhook that has its queue. -/
theorem known_webhook_served :
    AllServed (fun c rounds w => pushCallbackEvent others (fun _ => 1) rounds c.1 c.2 w)
      (fun c => Served .callback [c.1] c.2) [(webhook, 7), (webhook, 8)]
      (world table) := by
  refine (webhooks_served_iff (fun _ _ _ => rfl) (fun _ _ _ => Nat.zero_le _)
    (world table) ∅ [] _).2.mpr ?_
  intro c hc
  have hurl : c.1.url = "http://10.0.0.1/hook" := by
    rcases mem_pair.mp hc with rfl | rfl <;> rfl
  rw [hurl]
  exact ⟨.inl rfl, (mem_singleton _ _ _).mpr rfl⟩

/-- **The first event never gets there**: however many rounds the consumer makes, the call that
found no queue has not returned, and has pushed nothing. -/
theorem first_event_waits_forever :
    (∀ rounds, batchSendWebhooks others (fun _ => 1) (MapOrder.sortBy (· ≤ ·)) rounds
        (singleton "hook" webhook) 7 (world ∅) = none) ∧
      ∀ rounds, pushCallbackEvent others (fun _ => 1) rounds webhook 7
        (world ∅) = none := by
  have hnone : ∀ table rounds, pushTo others (fun _ => 1) table rounds webhook 7
      (world ∅) = none := fun table rounds => by
    rw [pushTo_eq fun _ _ _ => rfl]
    rfl
  constructor
  · intro rounds
    rw [batchSendWebhooks, entries, keys_singleton, MapOrder.list_singleton]
    simp [pushEvent, hnone, lookup_singleton_eq]
  · exact hnone .callback

end Nightingale.Sender
