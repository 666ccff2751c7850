import Nightingale.Custom.Filters
import Nightingale.Memsto.Caches
import Nightingale.Process.Grouping

/-!
# Dispatch/Pairs — what a subscriber sees of an alert

A subscription wants the recovery of an alert exactly if it was told that the alert fires.
`handleSub` keeps no account of what it has forwarded; it decides each event on its own:

    fire ── repeat ── … ── repeat ── recovery        the stored event, written to and pushed again
     │        │              │          │
    handleSub: filters and ForDuration ≤ TriggerTime − FirstTriggerTime

The recovery *is* the event last pushed, so it passes exactly if that one did, and the durations of
an episode only grow.  What this rests on: that handleSub reads each event before RecoverSingle
writes to it, that no push is refused, and that a repeat passes the filters its alert passed.
-/

namespace Nightingale

open AlertCurEvent World List Option Heap Nat

/-- `MatchGroupsName`; `none` is a panic. -/
def Common.matchGroupsName (groupName : String) : List TagFilter → Option Bool
  | [] => some true
  | f :: fs =>
    match matchTag groupName f with
    | some true => matchGroupsName groupName fs
    | out => out

namespace Dispatch

/-! ## Subscriptions -/

/-- `models.AlertSubscribe`, with the columns `handleSub` reads decoded. -/
structure AlertSubscribe extends Memsto.AlertSubscribe where
  datasourceIdsJson : List ℤ := []
  prod : String := ""
  cate : String := ""
  iTags : List TagFilter := []
  iBusiGroups : List TagFilter := []
  forDuration : ℤ := 0
  severitiesJson : List ℤ := []

namespace AlertSubscribe

variable (sub : AlertSubscribe)

/-- `MatchCluster`. -/
def matchCluster (dsId : ℤ) : Bool :=
  if sub.datasourceIdsJson = [] ∨ dsId = 0 then true
  else sub.datasourceIdsJson.any fun id => id = dsId ∨ id = 0

/-- `MatchProd`. -/
def matchProd (prod : String) : Bool := if sub.prod = "" then true else sub.prod = prod

/-- `MatchCate`. -/
def matchCate (cate : String) : Bool :=
  if sub.cate = "" then true else if sub.cate = "host" then cate = "host" else true

/-- The loop of `handleSub` over the severities. -/
def matchSeverity (severity : ℤ) : Bool :=
  if sub.severitiesJson = [] then true else sub.severitiesJson.any fun s => s = severity ∨ s = 0

end AlertSubscribe

variable (decode : String → Option (GoMap String Json)) (sub : AlertSubscribe)

/-- `Dispatch.handleSub`: whether the event goes on to the subscribers. -/
def handleSub (event : AlertCurEvent) : Bool :=
  if sub.disabled = 1 then false
  else if !sub.matchCluster event.datasourceId then false
  else if !sub.matchProd event.ruleProd then false
  else if !sub.matchCate event.cate then false
  else if Common.matchTags decode event.tagsMap sub.iTags ≠ some true then false
  else if Common.matchGroupsName event.groupName sub.iBusiGroups ≠ some true then false
  else if sub.forDuration > event.triggerTime - event.firstTriggerTime then false
  else sub.matchSeverity event.severity

/-- `Dispatch.HandleEventNotify` on an event of a cached rule, as one subscription sees it. -/
def handleEventNotify (event : AlertCurEvent) : Bool :=
  if event.isRecovered ∧ event.notifyRecovered = 0 then false
  else handleSub decode sub event

/-- The event passes every filter but the duration. -/
def Admits (event : AlertCurEvent) : Prop :=
  sub.disabled ≠ 1 ∧ sub.matchCluster event.datasourceId ∧ sub.matchProd event.ruleProd ∧
    sub.matchCate event.cate ∧
    Common.matchTags decode event.tagsMap sub.iTags = some true ∧
    Common.matchGroupsName event.groupName sub.iBusiGroups = some true ∧
    sub.matchSeverity event.severity

instance (event : AlertCurEvent) : Decidable (Admits decode sub event) :=
  inferInstanceAs (Decidable (_ ∧ _))

variable {decode sub}

theorem handleSub_iff {event : AlertCurEvent} : handleSub decode sub event = true ↔
    Admits decode sub event ∧
      sub.forDuration ≤ event.triggerTime - event.firstTriggerTime := by
  unfold handleSub Admits
  split_ifs with h₁ h₂ h₃ h₄ h₅ h₆ h₇ <;> simp_all

/-- The decision does not read the times an evaluation writes. -/
theorem handleEventNotify_congr {a b : AlertCurEvent} (h : a.core = b.core) :
    handleEventNotify decode sub a = handleEventNotify decode sub b :=
  proj_eq_of_core_eq (handleEventNotify decode sub) (fun _ => rfl) h

/-! ## The episode under way -/

section UnderWay

variable {β : Type*} (π : β → AlertCurEvent)

/-- The episode under way when the events have been pushed: it begins with the last that was
numbered 1, and a recovery ends it. -/
def underWay (l : List β) : List β :=
  l.foldl (fun acc x =>
    if (π x).isRecovered then [] else if (π x).notifyCurNumber = 1 then [x] else acc ++ [x]) []

theorem underWay_concat (l : List β) (x : β) : underWay π (l ++ [x]) = if (π x).isRecovered then []
    else if (π x).notifyCurNumber = 1 then [x] else underWay π l ++ [x] := by
  simp [underWay]

theorem map_underWay (l : List β) : (underWay π l).map π = underWay (fun e => e) (l.map π) := by
  induction l using reverseRecOn with
  | nil => rfl
  | append_singleton l x ih =>
    rw [map_append, map_singleton, underWay_concat, underWay_concat, ← ih]
    split_ifs <;> simp

theorem underWay_subset (l : List β) : underWay π l ⊆ l := by
  induction l using reverseRecOn with
  | nil => exact Subset.refl _
  | append_singleton l x ih =>
    rw [underWay_concat]
    split_ifs
    · exact nil_subset _
    · exact subset_append_right l [x]
    · exact append_subset.mpr ⟨Subset.trans ih (subset_append_left l [x]),
        subset_append_right l [x]⟩

theorem firing_of_mem_underWay {l : List β} {y : β} (hy : y ∈ underWay π l) :
    (π y).isRecovered = false := by
  induction l using reverseRecOn with
  | nil => cases hy
  | append_singleton l x ih =>
    rw [underWay_concat] at hy
    split_ifs at hy with hrec hone
    · cases hy
    · rw [mem_singleton.mp hy]
      simpa using hrec
    · rcases mem_append.mp hy with hy | hy
      · exact ih hy
      · rw [mem_singleton.mp hy]
        simpa using hrec

end UnderWay

/-! ## The desk -/

/-- A push: the event as it was, the reference, whether the queue took it, and what `handleSubs`
read when the event came to it. -/
structure Entry where
  event : AlertCurEvent
  ref : Ref
  queued : Bool
  seen : Option AlertCurEvent := none

open Entry

/-- An event of the queue comes to `handleSubs`, once. -/
def Entry.handle (heap : Heap AlertCurEvent) (y : Entry) : Entry :=
  if y.queued ∧ y.seen.isNone then { y with seen := some (heap.get y.ref) } else y

section

variable (heap : Heap AlertCurEvent) (y : Entry)

@[simp] theorem Entry.handle_event : (y.handle heap).event = y.event := by
  unfold handle
  split_ifs <;> rfl

@[simp] theorem Entry.handle_ref : (y.handle heap).ref = y.ref := by
  unfold handle
  split_ifs <;> rfl

@[simp] theorem Entry.handle_queued : (y.handle heap).queued = y.queued := by
  unfold handle
  split_ifs <;> rfl

theorem Entry.handle_seen :
    (y.handle heap).seen.getD (heap.get y.ref) = y.seen.getD (heap.get y.ref) := by
  unfold handle
  split_ifs with h
  · rw [isNone_iff_eq_none.mp h.2]
    rfl
  · rfl

end

/-- Where an event that was not read yet is as it was, what would be read is the same. -/
theorem Entry.core_seen {heap heap' : Heap AlertCurEvent} (y : Entry)
    (h : y.seen = none → (heap'.get y.ref).core = (heap.get y.ref).core) :
    (y.seen.getD (heap'.get y.ref)).core = (y.seen.getD (heap.get y.ref)).core := by
  cases hseen : y.seen with
  | none => exact h hseen
  | some e => rfl

/-- The event was forwarded. -/
def Entry.Told (decode : String → Option (GoMap String Json)) (sub : AlertSubscribe)
    (y : Entry) : Prop := ∃ e ∈ y.seen, handleEventNotify decode sub e = true

/-- The event was forwarded, and as a firing one. -/
def Entry.ToldFiring (decode : String → Option (GoMap String Json)) (sub : AlertSubscribe)
    (y : Entry) : Prop :=
  ∃ e ∈ y.seen, e.isRecovered = false ∧ handleEventNotify decode sub e = true

instance (y : Entry) : Decidable (y.Told decode sub) :=
  inferInstanceAs (Decidable (∃ e ∈ y.seen, _))

instance (y : Entry) : Decidable (y.ToldFiring decode sub) :=
  inferInstanceAs (Decidable (∃ e ∈ y.seen, _))

/-- A processor with all it has pushed. -/
structure Desk where
  world : World
  entries : List Entry := []

open Desk

/-- What may come next.  The processor looks at an event it has built, fires one, recovers an alert,
drops one; or a goroutine of the consumer gets to an event, in whatever order. -/
inductive Move
  | look (event : AlertCurEvent)
  | fire (r : Ref)
  | recover (byRecover : Bool) (hash : Hash) (now : ℤ) (value : Option String)
      (values : List String)
  | drop (hash : Hash) (now : ℤ)
  | delete (hash : Hash) (now : ℤ)
  | forget (order : MapOrder String) (alertingKeys : List Hash)
  | handle (i : ℕ)

/-- What a step of the processor pushed. -/
def newly (w w' : World) : List AlertCurEvent := (pushed w'.log).drop (pushed w.log).length

namespace Desk

variable (s : Desk)

/-- The desk after a step of the processor, with what it pushed. -/
def push (w' : World) (r : Ref) (room : Bool) : Desk where
  world := w'
  entries := s.entries ++ (newly s.world w').map fun e => { event := e, ref := r, queued := room }

/-- One move. -/
def step (env : Env) : Move → Desk
  | .look event =>
    { s with world :=
      (look env { s.world with heap := s.world.heap.alloc event } s.world.heap.next).1 }
  | .fire r => s.push (s.world.fireEvent r) r (s.world.sched s.world.tick).room
  | .recover byRecover h now value values =>
    s.push (s.world.recoverSingle byRecover h now value values)
      ((s.world.fires.lookup h).getD 0) (s.world.sched (s.world.tick + 1)).room
  | .drop h now => { s with world := s.world.dropInhibited h now }
  | .delete h now => { s with world := s.world.deleteInhibited h now }
  | .forget order alertingKeys => { s with world := s.world.forget order alertingKeys }
  | .handle i => { s with entries := s.entries.modify i (handle s.world.heap) }

/-- The pushes of a hash. -/
def entriesOf (h : Hash) : List Entry := s.entries.filter fun y => y.event.hash = h

variable (decode sub)

/-- **The subscription sees matched pairs** of a hash: when all that was queued of an episode has
come to `handleSubs`, its recovery was forwarded exactly if a firing event was. -/
def Paired (h : Hash) : Prop :=
  Historic (fun before x => x.event.isRecovered = true →
    (∀ y ∈ x :: underWay event before, y.queued = true → y.seen.isSome = true) →
      (x.Told decode sub ↔
        ∃ y ∈ underWay event before, y.ToldFiring decode sub)) (s.entriesOf h)

instance (h : Hash) : Decidable (s.Paired decode sub h) :=
  inferInstanceAs (Decidable (Historic _ _))

/-- The processor runs one rule: an event is built with the rule's fields and not recovered, is
fired once, and its point is not older than that of the alert. -/
def Valid : Move → Prop
  | .look event => event.isRecovered = false ∧ s.world.rule.updateEvent event = event
  | .fire r => r < s.world.heap.next ∧ r ∉ s.entries.map ref ∧
    ∀ f ∈ s.world.fired (s.world.heap.get r).hash, f.triggerTime ≤ (s.world.heap.get r).triggerTime
  | _ => True

/-- The queue has room for what is pushed; a repeat that is pushed passes the filters the alert
passed; and a recovery is pushed only when the alert's event has come to `handleSubs`. -/
def Calm : Move → Prop
  | .fire r => newly s.world (s.world.fireEvent r) ≠ [] →
    (s.world.sched s.world.tick).room = true ∧
      ∀ f ∈ s.world.fired (s.world.heap.get r).hash,
        Admits decode sub (s.world.heap.get r) ↔ Admits decode sub f
  | .recover byRecover h now value values =>
    newly s.world (s.world.recoverSingle byRecover h now value values) ≠ [] →
      (s.world.sched (s.world.tick + 1)).room = true ∧
        ∀ y ∈ s.entries, s.world.fires.lookup h = some y.ref → y.seen.isSome = true
  | _ => True

instance : DecidablePred s.Valid
  | .look _ | .fire _ => inferInstanceAs (Decidable (_ ∧ _))
  | .recover .. | .drop .. | .delete .. | .forget .. | .handle _ => inferInstanceAs (Decidable True)

instance : DecidablePred (s.Calm decode sub)
  | .fire _ | .recover .. => inferInstanceAs (Decidable (_ → _))
  | .look _ | .drop .. | .delete .. | .forget .. | .handle _ => inferInstanceAs (Decidable True)

end Desk

/-! ## One episode after another -/

/-- What has been pushed of a hash, beside the alert that fires under it: every recovery passes
exactly if a firing event of its episode did, and so would the recovery of the alert. -/
structure Thread (decode : String → Option (GoMap String Json)) (sub : AlertSubscribe)
    (rule : AlertRule) (l : List AlertCurEvent) (o : Option AlertCurEvent) : Prop where
  pairs : Historic (fun before x => x.isRecovered = true →
    (handleEventNotify decode sub x = true ↔
      ∃ y ∈ underWay (fun e => e) before, handleEventNotify decode sub y = true)) l
  firing : ∀ f ∈ o, f.isRecovered = false
  ruled : ∀ f ∈ o, rule.updateEvent f.ident = f.ident
  number : ∀ f ∈ o, 1 ≤ f.notifyCurNumber
  standing : ∀ f ∈ o, (handleEventNotify decode sub f = true ↔
    ∃ y ∈ underWay (fun e => e) l, handleEventNotify decode sub y = true)

namespace Thread

variable {rule : AlertRule} {l : List AlertCurEvent} {o o' : Option AlertCurEvent}

theorem nil : Thread decode sub rule [] none where
  pairs := historic_nil
  firing _ hf := by cases hf
  ruled _ hf := by cases hf
  number _ hf := by cases hf
  standing _ hf := by cases hf

theorem of_core (h : o'.map core = o.map core) (th : Thread decode sub rule l o) :
    Thread decode sub rule l o' := by
  have hold : ∀ f' ∈ o', ∃ f ∈ o, f'.core = f.core := by
    rintro f' rfl
    obtain ⟨f, hf, hcore⟩ := map_eq_some_iff.mp h.symm
    exact ⟨f, hf, hcore.symm⟩
  refine ⟨th.pairs, fun f' hf' => ?_, fun f' hf' => ?_, fun f' hf' => ?_, fun f' hf' => ?_⟩ <;>
    obtain ⟨f, hf, hcore⟩ := hold f' hf'
  · exact (isRecovered_eq_of_ident_eq (ident_eq_of_core_eq hcore)).trans (th.firing f hf)
  · rw [ident_eq_of_core_eq hcore]
    exact th.ruled f hf
  · have hnumber : f'.notifyCurNumber = f.notifyCurNumber :=
      proj_eq_of_core_eq notifyCurNumber (fun _ => rfl) hcore
    rw [hnumber]
    exact th.number f hf
  · rw [handleEventNotify_congr hcore]
    exact th.standing f hf

theorem drop (th : Thread decode sub rule l o) : Thread decode sub rule l none where
  pairs := th.pairs
  firing _ hf := by cases hf
  ruled _ hf := by cases hf
  number _ hf := by cases hf
  standing _ hf := by cases hf

/-- A firing event is decided by the filters and the duration. -/
theorem handleEventNotify_of_firing {e : AlertCurEvent} (h : e.isRecovered = false) :
    handleEventNotify decode sub e = true ↔ Admits decode sub e ∧
      sub.forDuration ≤ e.triggerTime - e.firstTriggerTime := by
  rw [handleEventNotify, if_neg (by simp [h]), handleSub_iff]

/-- A repeat carries the number on, and the time the alert began. -/
theorem of_notifies_some {f e p : AlertCurEvent} (hn : rule.notifies (some f) e = some p) :
    p.notifyCurNumber = f.notifyCurNumber + 1 ∧ p.firstTriggerTime = f.firstTriggerTime := by
  simp only [AlertRule.notifies] at hn
  split_ifs at hn
  cases hn
  exact ⟨rfl, rfl⟩

theorem of_notifies_none {e p : AlertCurEvent} (hn : rule.notifies none e = some p) :
    p.notifyCurNumber = 1 := by
  cases hn
  rfl

/-- **A repeat passes if the alert did**: since then only its duration has grown. -/
theorem passes_again {f e p : AlertCurEvent} (hfiring : f.isRecovered = false)
    (hp : p.isRecovered = false) (htime : f.triggerTime ≤ e.triggerTime)
    (hsteady : Admits decode sub e ↔ Admits decode sub f)
    (hn : rule.notifies (some f) e = some p) (hf : handleEventNotify decode sub f = true) :
    handleEventNotify decode sub p = true := by
  have hident := AlertRule.notifies_ident hn
  have htrigger : p.triggerTime = e.triggerTime :=
    proj_eq_of_ident_eq triggerTime (fun _ => rfl) hident
  rw [handleEventNotify_of_firing hfiring] at hf
  have hadmits := iff_of_eq (proj_eq_of_ident_eq (Admits decode sub) (fun _ => rfl) hident)
  rw [handleEventNotify_of_firing hp, hadmits, hsteady, htrigger, (of_notifies_some hn).2]
  exact ⟨hf.1, by omega⟩

/-- **A notification begins an episode or goes on with one**, and passes if the alert did. -/
theorem notify {e p : AlertCurEvent} (th : Thread decode sub rule l o)
    (hfiring : e.isRecovered = false) (hruled : rule.updateEvent e.ident = e.ident)
    (htime : ∀ f ∈ o, f.triggerTime ≤ e.triggerTime)
    (hsteady : ∀ f ∈ o, Admits decode sub e ↔ Admits decode sub f)
    (hn : rule.notifies o e = some p) : Thread decode sub rule (l ++ [p]) (some p) := by
  have hident := AlertRule.notifies_ident hn
  have hp : p.isRecovered = false := (isRecovered_eq_of_ident_eq hident).trans hfiring
  have hpairs := historic_concat.mpr ⟨th.pairs, fun hrec => absurd hrec (by rw [hp]; simp)⟩
  refine ⟨hpairs, ?_, ?_, ?_, ?_⟩ <;> rintro _ ⟨⟩
  · exact hp
  · rw [hident]
    exact hruled
  · cases o with
    | none => exact (of_notifies_none hn).ge
    | some f =>
      have hf := th.number f rfl
      rw [(of_notifies_some hn).1]
      omega
  · rw [underWay_concat, if_neg (by simp [hp])]
    cases o with
    | none =>
      rw [if_pos (of_notifies_none hn)]
      simp
    | some f =>
      have hf := th.number f rfl
      have hnumber := (of_notifies_some hn).1
      rw [if_neg (by omega)]
      constructor
      · intro hfwd
        exact ⟨p, mem_append_right _ (mem_singleton_self p), hfwd⟩
      · rintro ⟨y, hy, hfwd⟩
        rcases mem_append.mp hy with hy | hy
        · exact passes_again (th.firing f rfl) hp (htime f rfl) (hsteady f rfl) hn
            ((th.standing f rfl).mpr ⟨y, hy, hfwd⟩)
        · rw [← mem_singleton.mp hy]
          exact hfwd

/-- **The recovery of an alert passes exactly if the alert does.** -/
theorem handleEventNotify_recovery {f : AlertCurEvent} (hfiring : f.isRecovered = false)
    (hruled : rule.updateEvent f.ident = f.ident) (hwants : rule.notifyRecovered ≠ 0) (now : ℤ)
    (v : Option String) (vs : List String) :
    handleEventNotify decode sub (recovery rule now v vs f) = true ↔
      handleEventNotify decode sub f = true := by
  have hprod : rule.prod = f.ruleProd := congrArg ruleProd hruled
  have hcate : rule.cate = f.cate := congrArg cate hruled
  have hwants' : ¬ ((recovery rule now v vs f).isRecovered = true ∧
      (recovery rule now v vs f).notifyRecovered = 0) := fun h => hwants h.2
  rw [handleEventNotify_of_firing hfiring, handleEventNotify, if_neg hwants', handleSub_iff, Admits,
    Admits, ← hprod, ← hcate]
  cases v <;> rfl

/-- **A recovery ends the episode.** -/
theorem recover {f : AlertCurEvent} (th : Thread decode sub rule l (some f))
    (hwants : rule.notifyRecovered ≠ 0) (now : ℤ) (v : Option String) (vs : List String) :
    Thread decode sub rule (l ++ [recovery rule now v vs f]) none := by
  have hpairs := historic_concat.mpr ⟨th.pairs, fun _ =>
    (handleEventNotify_recovery (th.firing f rfl) (th.ruled f rfl) hwants now v vs).trans
      (th.standing f rfl)⟩
  exact ⟨hpairs, by simp, by simp, by simp, by simp⟩

end Thread

/-! ## What the processor does to its cells -/

section Cells

variable {w : World} {r r' : Ref}

theorem get_pushEventToQueue_of_ne (hne : r' ≠ r) :
    (w.pushEventToQueue r).heap.get r' = w.heap.get r' := by
  cases hrec : (w.heap.get r).isRecovered with
  | true => rw [pushEventToQueue_of_recovered hrec, pushFront_heap]
  | false =>
    rw [pushEventToQueue_of_firing hrec, pushFront_heap]
    exact get_modify_of_ne _ _ hne

/-- **Firing an event writes to no other**, but for the time of evaluation. -/
theorem core_fireEvent_of_ne (hne : r' ≠ r) :
    ((w.fireEvent r).heap.get r').core = (w.heap.get r').core := by
  cases hf : w.fires.lookup (w.heap.get r).hash with
  | none =>
    have heq : w.fireEvent r = (w.modify r fun e =>
        { e with notifyCurNumber := 1, firstTriggerTime := e.triggerTime }).pushEventToQueue r := by
      simp [fireEvent, hf]
    rw [heq, get_pushEventToQueue_of_ne hne, World.modify, get_modify_of_ne _ _ hne]
  | some f =>
    rw [fireEvent_of_fired hf]
    cases w.rule.notifies (some (w.heap.get f)) (w.heap.get r) with
    | none => rw [core_refire, if_neg hne]
    | some p =>
      rw [get_pushEventToQueue_of_ne hne, World.modify, get_modify_of_ne _ _ hne, core_refire,
        if_neg hne]

/-- **A notification is stored as it is pushed.** -/
theorem fireEvent_stores (hw : w.WF) (hrec : (w.heap.get r).isRecovered = false)
    {p : AlertCurEvent}
    (hn : w.rule.notifies (w.fired (w.heap.get r).hash) (w.heap.get r) = some p) :
    (w.fireEvent r).fires = w.fires.insert (w.heap.get r).hash r ∧
      (w.fireEvent r).heap.get r = p := by
  obtain ⟨v, hv, hwrites, rfl, heq⟩ := fireEvent_of_notifies hw hn
  have hvrec : (v.heap.get r).isRecovered = false :=
    (isRecovered_eq_of_ident_eq (hwrites.ident r)).trans hrec
  rw [heq, pushEventToQueue_of_firing hvrec, pushFront_fires, pushFront_heap]
  refine ⟨?_, get_modify_self _ _ _⟩
  have hfires : v.fires = w.fires := by rw [hv]
  rw [markSent, hfires, hwrites.hash]

theorem newly_of_log {w' : World} {l : List Effect} (h : w'.log = w.log ++ l) :
    newly w w' = pushed l := by
  rw [newly, h, pushed_append, drop_left]

end Cells

/-! ## The desk stays in order -/

namespace Desk

/-- **The invariant.**  What is on its way to `handleSubs`, or was read there, is what was pushed;
an event not pushed yet is as it was built; and the pushes of every hash pair off. -/
structure Sound (decode : String → Option (GoMap String Json)) (sub : AlertSubscribe)
    (rule : AlertRule) (s : Desk) : Prop where
  wf : s.world.WF
  rule_eq : s.world.rule = rule
  old : ∀ y ∈ s.entries, y.ref < s.world.heap.next
  queued : ∀ y ∈ s.entries, y.queued = true
  honest : ∀ y ∈ s.entries, (y.seen.getD (s.world.heap.get y.ref)).core = y.event.core
  stored : ∀ h r, s.world.fires.lookup h = some r → r ∈ s.entries.map ref
  fresh : ∀ r < s.world.heap.next, r ∉ s.entries.map ref →
    (s.world.heap.get r).isRecovered = false ∧
      rule.updateEvent (s.world.heap.get r).ident = (s.world.heap.get r).ident
  thread : ∀ h, Thread decode sub rule ((s.entriesOf h).map event) (s.world.fired h)

section Steps

variable {rule : AlertRule} {s : Desk} {w' : World} {env : Env}

/-- What an event was built with shows that it fires, and under which rule. -/
theorem built_of_ident {a b : AlertCurEvent} (h : a.ident = b.ident)
    (hb : b.isRecovered = false ∧ rule.updateEvent b.ident = b.ident) :
    a.isRecovered = false ∧ rule.updateEvent a.ident = a.ident := by
  rw [h]
  exact ⟨(isRecovered_eq_of_ident_eq h).trans hb.1, hb.2⟩

/-- **A step that pushes nothing**, and writes nothing but times to what was pushed. -/
theorem Sound.frame (hs : s.Sound decode sub rule) (hwf : w'.WF)
    (hrule : w'.rule = s.world.rule) (hnext : s.world.heap.next ≤ w'.heap.next)
    (hcore : ∀ r ∈ s.entries.map ref, (w'.heap.get r).core = (s.world.heap.get r).core)
    (hident : ∀ r < s.world.heap.next, (w'.heap.get r).ident = (s.world.heap.get r).ident)
    (hnew : ∀ r, s.world.heap.next ≤ r → r < w'.heap.next → (w'.heap.get r).isRecovered = false ∧
      rule.updateEvent (w'.heap.get r).ident = (w'.heap.get r).ident)
    (hfires : ∀ h r, w'.fires.lookup h = some r → s.world.fires.lookup h = some r) :
    Sound decode sub rule { s with world := w' } where
  wf := hwf
  rule_eq := hrule.trans hs.rule_eq
  old y hy := (hs.old y hy).trans_le hnext
  queued := hs.queued
  honest y hy := (y.core_seen fun _ => hcore y.ref (mem_map_of_mem hy)).trans (hs.honest y hy)
  stored h r hr := hs.stored h r (hfires h r hr)
  fresh r hr hno := by
    rcases lt_or_ge r s.world.heap.next with hlt | hge
    · exact built_of_ident (hident r hlt) (hs.fresh r hlt hno)
    · exact hnew r hge hr
  thread h := by
    cases hr : w'.fires.lookup h with
    | none =>
      have hnone : w'.fired h = none := by rw [fired, hr, map_none]
      rw [hnone]
      exact (hs.thread h).drop
    | some r =>
      have hr' := hfires h r hr
      refine (hs.thread h).of_core ?_
      rw [fired, fired, hr, hr', map_some, map_some, map_some,
        map_some, hcore r (hs.stored h r hr')]

theorem Sound.look (hs : s.Sound decode sub rule) {event : AlertCurEvent}
    (hvalid : s.Valid (.look event)) : (s.step env (.look event)).Sound decode sub rule := by
  have hwf : WF { s.world with heap := s.world.heap.alloc event } := ⟨hs.wf.fires.alloc event,
    hs.wf.pendings.alloc event, hs.wf.pendingsUseByRecover.alloc event,
    fun r hr => lt_succ_of_lt (hs.wf.waiting r hr)⟩
  have ht := touches_look env hwf (r := s.world.heap.next) (lt_succ_self _)
  have hget : (s.world.heap.alloc event).get s.world.heap.next = event := get_alloc_self _ _
  have hcore : ∀ r < s.world.heap.next, (((World.look env
      { s.world with heap := s.world.heap.alloc event } s.world.heap.next).1).heap.get r).core =
        (s.world.heap.get r).core := fun r hr =>
    (ht.keeps.get r).trans (congrArg core (get_alloc_of_lt _ _ hr))
  refine hs.frame ht.wf ht.rule ?_ (fun r hr => ?_) (fun r hr => ident_eq_of_core_eq (hcore r hr))
    (fun r hge hlt => ?_) fun h r hr => ?_
  · rw [ht.keeps.next]
    exact le_succ _
  · obtain ⟨y, hy, rfl⟩ := mem_map.mp hr
    exact hcore y.ref (hs.old y hy)
  · rw [ht.keeps.next] at hlt
    obtain rfl : r = s.world.heap.next := Nat.le_antisymm (Nat.lt_succ_iff.mp hlt) hge
    have hident : (((World.look env { s.world with heap := s.world.heap.alloc event }
        s.world.heap.next).1).heap.get s.world.heap.next).ident = event.ident := by
      rw [ident_eq_of_core_eq (ht.keeps.get _)]
      exact congrArg ident hget
    refine built_of_ident hident ⟨hvalid.1, ?_⟩
    rw [← hs.rule_eq]
    exact congrArg ident hvalid.2
  · rw [ht.fires] at hr
    exact hr

theorem Sound.remove (hs : s.Sound decode sub rule) {h : Hash}
    (hr : Removes h s.world w') (hheap : w'.heap = s.world.heap)
    (hfires : w'.fires = s.world.fires.erase h) :
    Sound decode sub rule { s with world := w' } := by
  refine hs.frame hr.wf hr.rule hr.next.ge (fun r _ => by rw [hheap]) (fun r _ => by rw [hheap])
    (fun r hge hlt => ?_) fun h' r hr' => ?_
  · rw [hr.next] at hlt
    exact absurd hlt (not_lt.mpr hge)
  · rw [hfires] at hr'
    exact (GoMap.lookup_erase_eq_some.mp hr').2

theorem Sound.forget (hs : s.Sound decode sub rule) (order : MapOrder String)
    (alertingKeys : List Hash) :
    Sound decode sub rule { s with world := s.world.forget order alertingKeys } := by
  refine hs.frame (hs.wf.forget order alertingKeys) rfl le_rfl (fun _ _ => rfl) (fun _ _ => rfl)
    (fun r hge hlt => absurd hlt (not_lt.mpr hge)) fun _ _ hr => hr

/-! ### An event comes to `handleSubs` -/

theorem map_modify_of_eq {α β : Type*} {f : α → α} {g : α → β} (hf : ∀ a, g (f a) = g a) :
    ∀ (l : List α) (i : ℕ), (l.modify i f).map g = l.map g
  | [], i => by simp
  | a :: l, 0 => by simp [hf]
  | a :: l, i + 1 => by simp [map_modify_of_eq hf l i]

theorem forall_mem_modify {α : Type*} {f : α → α} {P : α → Prop} (hf : ∀ a, P a → P (f a)) :
    ∀ (l : List α) (i : ℕ), (∀ a ∈ l, P a) → ∀ a ∈ l.modify i f, P a
  | [], i, h => by simp
  | a :: l, 0, h => by
    simp only [modify_zero_cons, forall_mem_cons] at h ⊢
    exact ⟨hf a h.1, h.2⟩
  | a :: l, i + 1, h => by
    simp only [modify_succ_cons, forall_mem_cons] at h ⊢
    exact ⟨h.1, forall_mem_modify hf l i h.2⟩

theorem map_entriesOf (s : Desk) (h : Hash) : (s.entriesOf h).map event =
    (s.entries.map event).filter fun e => e.hash = h := by
  rw [List.filter_map]
  rfl

theorem Sound.handle (hs : s.Sound decode sub rule) (i : ℕ) :
    (s.step env (.handle i)).Sound decode sub rule := by
  have hevents := map_modify_of_eq (handle_event s.world.heap) s.entries i
  have hrefs := map_modify_of_eq (handle_ref s.world.heap) s.entries i
  refine ⟨hs.wf, hs.rule_eq, forall_mem_modify (fun y hy => ?_) _ _ hs.old,
    forall_mem_modify (fun y hy => ?_) _ _ hs.queued,
    forall_mem_modify (fun y hy => ?_) _ _ hs.honest, fun h r hr => ?_, fun r hr hno => ?_,
    fun h => ?_⟩
  · rw [handle_ref]
    exact hy
  · rw [handle_queued]
    exact hy
  · rw [handle_ref, handle_event]
    have hseen := handle_seen s.world.heap y
    exact (congrArg core hseen).trans hy
  · rw [step, hrefs]
    exact hs.stored h r hr
  · rw [step, hrefs] at hno
    exact hs.fresh r hr hno
  · rw [map_entriesOf, step, hevents, ← map_entriesOf]
    exact hs.thread h

/-! ### An event is pushed -/

section Push

variable {r : Ref} {room : Bool} {e : AlertCurEvent}

section

variable (hnewly : newly s.world w' = [e])

include hnewly

theorem entries_push : (s.push w' r room).entries =
    s.entries ++ [{ event := e, ref := r, queued := room }] := by
  rw [push, hnewly]
  rfl

theorem forall_mem_push {P : Entry → Prop} (hold : ∀ y ∈ s.entries, P y)
    (hnew : P { event := e, ref := r, queued := room }) :
    ∀ y ∈ (s.push w' r room).entries, P y := by
  rw [entries_push hnewly, forall_mem_append, forall_mem_singleton]
  exact ⟨hold, hnew⟩

theorem mem_refs_push {r' : Ref} :
    r' ∈ (s.push w' r room).entries.map ref ↔ r' ∈ s.entries.map ref ∨ r' = r := by
  rw [entries_push hnewly, map_append, mem_append]
  exact or_congr_right mem_singleton

theorem entriesOf_push (h : Hash) : ((s.push w' r room).entriesOf h).map event =
      (s.entriesOf h).map event ++ if h = e.hash then [e] else [] := by
  rw [map_entriesOf, entries_push hnewly, map_append, filter_append, ← map_entriesOf]
  split_ifs with hh
  · simp [hh]
  · simp [Ne.symm hh]

end

/-- **A push**: the pushed event is in its cell, no other cell of those pushed has changed unless
its event has been read already, and the thread of its hash goes on. -/
theorem Sound.push (hs : s.Sound decode sub rule) (hwf : w'.WF)
    (hrule : w'.rule = s.world.rule) (hnext : w'.heap.next = s.world.heap.next)
    (hnewly : newly s.world w' = [e]) (hroom : room = true) (hr : r < s.world.heap.next)
    (hget : (w'.heap.get r).core = e.core)
    (hhonest : ∀ y ∈ s.entries, y.seen = none →
      (w'.heap.get y.ref).core = (s.world.heap.get y.ref).core)
    (hident : ∀ r' ∉ s.entries.map ref, r' ≠ r →
      (w'.heap.get r').ident = (s.world.heap.get r').ident)
    (hfires : ∀ h r', w'.fires.lookup h = some r' → r' = r ∨ s.world.fires.lookup h = some r')
    (hself : Thread decode sub rule ((s.entriesOf e.hash).map event ++ [e])
      (w'.fired e.hash))
    (hother : ∀ h ≠ e.hash, w'.fired h = s.world.fired h) :
    (s.push w' r room).Sound decode sub rule where
  wf := hwf
  rule_eq := hrule.trans hs.rule_eq
  old := forall_mem_push hnewly (fun y hy => (hs.old y hy).trans_eq hnext.symm)
    (hr.trans_eq hnext.symm)
  queued := forall_mem_push hnewly hs.queued hroom
  honest := forall_mem_push hnewly
    (fun y hy => (y.core_seen (hhonest y hy)).trans (hs.honest y hy)) hget
  stored h r' hr' := by
    rw [mem_refs_push hnewly]
    rcases hfires h r' hr' with rfl | hr'
    · exact .inr rfl
    · exact .inl (hs.stored h r' hr')
  fresh r' hr' hno := by
    rw [mem_refs_push hnewly, not_or] at hno
    exact built_of_ident (hident r' hno.1 hno.2) (hs.fresh r' (hr'.trans_eq hnext) hno.1)
  thread h := by
    rw [entriesOf_push hnewly]
    split_ifs with hh
    · rw [hh]
      exact hself
    · rw [append_nil, Desk.push, hother h hh]
      exact hs.thread h

end Push

/-- **An event is fired.** -/
theorem Sound.fire (hs : s.Sound decode sub rule) {r : Ref} (hvalid : s.Valid (.fire r))
    (hcalm : s.Calm decode sub (.fire r)) :
    (s.push (s.world.fireEvent r) r (s.world.sched s.world.tick).room).Sound
      decode sub rule := by
  obtain ⟨hlt, hno, htime⟩ := hvalid
  obtain ⟨hrec, hruled⟩ := hs.fresh r hlt hno
  have hf := fires_fireEvent hs.wf hlt hrec
  have hcore : ∀ r' ∈ s.entries.map ref,
      ((s.world.fireEvent r).heap.get r').core = (s.world.heap.get r').core := fun r' hr' =>
    core_fireEvent_of_ne fun heq => hno (heq ▸ hr')
  have hnewly := newly_of_log hf.log
  cases hn : s.world.rule.notifies (s.world.fired (s.world.heap.get r).hash)
      (s.world.heap.get r) with
  | none =>
    rw [hn] at hnewly
    have hpush : s.push (s.world.fireEvent r) r (s.world.sched s.world.tick).room =
        { s with world := s.world.fireEvent r } := by
      rw [Desk.push, hnewly]
      simp [pushed]
    obtain ⟨f, -, heq⟩ := fireEvent_of_not_notifies hn
    rw [hpush]
    refine hs.frame hf.wf hf.rule hf.keeps.next.ge hcore (fun r' _ => hf.ident r')
      (fun r' hge hlt' => ?_) fun h r' hr' => ?_
    · rw [hf.keeps.next] at hlt'
      exact absurd hlt' (not_lt.mpr hge)
    · rw [heq] at hr'
      exact hr'
  | some p =>
    rw [hn] at hnewly hf
    have hnewly : newly s.world (s.world.fireEvent r) = [p] := hnewly
    obtain ⟨hroom, hsteady⟩ := hcalm (by rw [hnewly]; simp)
    obtain ⟨hfires, hget⟩ := fireEvent_stores hs.wf hrec hn
    have hhash : p.hash = (s.world.heap.get r).hash :=
      hash_eq_of_ident_eq (AlertRule.notifies_ident hn)
    refine hs.push hf.wf hf.rule hf.keeps.next hnewly hroom hlt (by rw [hget])
      (fun y hy _ => hcore y.ref (mem_map_of_mem hy)) (fun r' _ _ => hf.ident r')
      (fun h r' hr' => ?_) ?_ fun h hh => ?_
    · rw [hfires] at hr'
      exact (GoMap.lookup_insert_eq_some.mp hr').imp (fun h => h.2.symm) And.right
    · rw [hhash, hf.fired_self, some_or]
      rw [hs.rule_eq] at hn
      exact (hs.thread _).notify hrec hruled htime hsteady hn
    · rw [hhash] at hh
      exact (hf.sameAt h hh).fired

/-- **An alert is recovered**, whose event has been read. -/
theorem Sound.recover (hs : s.Sound decode sub rule) (hwants : rule.notifyRecovered ≠ 0)
    {b : Bool} {h : Hash} {now : ℤ} {v : Option String} {vs : List String}
    (hcalm : s.Calm decode sub (.recover b h now v vs)) :
    (s.push (s.world.recoverSingle b h now v vs) ((s.world.fires.lookup h).getD 0)
      (s.world.sched (s.world.tick + 1)).room).Sound decode sub rule := by
  rcases recoverSingle_cases hs.wf b h now v vs with heq | ⟨f, hf, hrem, -, hlog⟩
  · have hnewly : newly s.world s.world = [] := by rw [newly, drop_length]
    rw [heq, Desk.push, hnewly, map_nil, append_nil]
    exact hs
  · obtain ⟨r, hr, rfl⟩ := map_eq_some_iff.mp hf.fired
    obtain ⟨hlt, hhash⟩ := hs.wf.fires h r hr
    have hnewly : newly s.world (s.world.recoverSingle b h now v vs) =
        [recovery s.world.rule now v vs (s.world.heap.get r)] := newly_of_log hlog
    obtain ⟨hroom, hread⟩ := hcalm (by rw [hnewly]; simp)
    have heq := recoverSingle_eq_letGo v vs hr hf
    have hheap : (s.world.recoverSingle b h now v vs).heap =
        s.world.heap.modify r (recovery s.world.rule now v vs) := by
      rw [heq, pushFront_heap]
      simp [letGo, World.modify, deleteProcessEvent]
    have hfires : (s.world.recoverSingle b h now v vs).fires = s.world.fires.erase h := by
      rw [heq, pushFront_fires]
      simp [letGo, World.modify, deleteProcessEvent]
    have hrec : (recovery s.world.rule now v vs (s.world.heap.get r)).hash = h :=
      (recovery_hash _ _ _ _ _).trans hhash
    rw [hr, getD_some]
    refine hs.push hrem.wf hrem.rule hrem.next hnewly hroom hlt ?_ (fun y hy hseen => ?_)
      (fun r' _ hne => ?_) (fun h' r' hr' => .inr ?_) ?_ fun h' hh => ?_
    · rw [hheap, get_modify_self]
    · have hne : y.ref ≠ r := by
        rintro rfl
        have := hread y hy hr
        rw [hseen] at this
        cases this
      rw [hheap, get_modify_of_ne _ _ hne]
    · rw [hheap, get_modify_of_ne _ _ hne]
    · rw [hfires] at hr'
      exact (GoMap.lookup_erase_eq_some.mp hr').2
    · rw [hrec, hrem.fired, hs.rule_eq]
      have hthread := hs.thread h
      rw [hf.fired] at hthread
      exact hthread.recover hwants now v vs
    · rw [hrec] at hh
      exact (hrem.sameAt h' hh).fired

/-- **One move.** -/
theorem Sound.step (hs : s.Sound decode sub rule) (hwants : rule.notifyRecovered ≠ 0)
    {m : Move} (hm : s.Valid m ∧ s.Calm decode sub m) :
    (s.step env m).Sound decode sub rule := by
  cases m with
  | look event => exact hs.look hm.1
  | fire r => exact hs.fire hm.1 hm.2
  | recover b h now v vs => exact hs.recover hwants hm.2
  | drop h now =>
    refine hs.remove (removes_dropInhibited hs.wf h now).1 ?_ ?_ <;> simp [dropInhibited]
  | delete h now =>
    refine hs.remove (removes_deleteInhibited hs.wf h now).1 ?_ ?_ <;>
      simp [deleteInhibited, deleteProcessEvent]
  | forget order alertingKeys => exact hs.forget order alertingKeys
  | handle i => exact hs.handle i

theorem Sound.initial {w : World} (hw : w.WF) (hheap : w.heap.next = 0) :
    Sound decode sub w.rule { world := w } where
  wf := hw
  rule_eq := rfl
  old y hy := by cases hy
  queued y hy := by cases hy
  honest y hy := by cases hy
  stored h r hr := absurd (hw.fires h r hr).1 (hheap ▸ not_lt_zero r)
  fresh r hr := absurd hr (hheap ▸ not_lt_zero r)
  thread h := by
    have hnone : w.fires.lookup h = none := eq_none_iff_forall_ne_some.mpr fun r hr =>
      absurd (hw.fires h r hr).1 (hheap ▸ not_lt_zero r)
    rw [fired, hnone]
    exact .nil

section

variable {y : Entry} (hs : s.Sound decode sub rule) (hy : y ∈ s.entries)
  (hseen : y.seen.isSome = true)

include hs hy hseen

theorem Sound.read : ∃ e, y.seen = some e ∧ e.core = y.event.core := by
  obtain ⟨e, he⟩ := isSome_iff_exists.mp hseen
  have hcore := hs.honest y hy
  rw [he, getD_some] at hcore
  exact ⟨e, he, hcore⟩

theorem Sound.told_iff : y.Told decode sub ↔
      handleEventNotify decode sub y.event = true := by
  obtain ⟨e, he, hcore⟩ := hs.read hy hseen
  rw [Entry.Told, he, ← handleEventNotify_congr hcore]
  simp

theorem Sound.toldFiring_iff (hfiring : y.event.isRecovered = false) :
    y.ToldFiring decode sub ↔ handleEventNotify decode sub y.event = true := by
  obtain ⟨e, he, hcore⟩ := hs.read hy hseen
  have hrec : e.isRecovered = false :=
    (isRecovered_eq_of_ident_eq (ident_eq_of_core_eq hcore)).trans hfiring
  rw [Entry.ToldFiring, he, ← handleEventNotify_congr hcore]
  simp [hrec]

end

/-- **With every event read as it was pushed**, the pushes pair off for the subscription. -/
theorem Sound.paired (hs : s.Sound decode sub rule) (h : Hash) :
    s.Paired decode sub h := by
  intro before x rest heq hrec hall
  have hx : x ∈ s.entries := mem_of_mem_filter (show x ∈ s.entriesOf h by rw [heq]; simp)
  have hunder : ∀ y ∈ underWay event before, y ∈ s.entries := fun y hy => by
    refine mem_of_mem_filter (show y ∈ s.entriesOf h from ?_)
    rw [heq]
    exact mem_append_left _ (underWay_subset _ _ hy)
  have htold := hs.told_iff hx (hall x mem_cons_self (hs.queued x hx))
  have hfiring : ∀ y ∈ underWay event before, (y.ToldFiring decode sub ↔
      handleEventNotify decode sub y.event = true) := fun y hy =>
    hs.toldFiring_iff (hunder y hy)
      (hall y (mem_cons_of_mem x hy) (hs.queued y (hunder y hy)))
      (firing_of_mem_underWay _ hy)
  have hpair := (hs.thread h).pairs (before.map event) x.event (rest.map event)
    (by rw [heq, map_append, map_cons]) hrec
  rw [htold, hpair, ← map_underWay]
  simp only [List.mem_map, exists_exists_and_eq_and]
  exact exists_congr fun y => and_congr_right fun hy => (hfiring y hy).symm

end Steps

end Desk

/-- **Subscribers see matched pairs.**  A processor that has built nothing yet runs one rule that
notifies of recoveries, and its events come to `handleSubs` in any order.  If no push is refused, a
repeat passes the filters its alert passed, and an alert's event is read before the alert recovers,
then every recovery is forwarded exactly if a firing event of its episode was. -/
theorem subscribers_see_pairs (decode : String → Option (GoMap String Json))
    (sub : AlertSubscribe) (env : Env) {w : World} (hw : w.WF) (hheap : w.heap.next = 0)
    (hwants : w.rule.notifyRecovered ≠ 0) {moves : List Move}
    (hmoves : Along (step · env)
      (fun s m => s.Valid m ∧ s.Calm decode sub m) { world := w } moves) (h : Hash) :
    (moves.foldl (step · env) { world := w }).Paired decode sub h := by
  have hsound := hmoves.invariant (I := Desk.Sound decode sub w.rule)
    (fun _ _ hm hs => hs.step hwants hm) (Desk.Sound.initial hw hheap)
  exact hsound.paired h

namespace Example

/-- A rule that notifies again every minute, and of recoveries. -/
def rule : AlertRule := { id := 1, notifyRepeatStep := 1, notifyRecovered := 1 }

/-- An event of one alert, with the name its business group has. -/
def event (groupName : String) (now : ℤ) : AlertCurEvent :=
  rule.updateEvent { hash := "a", groupName, triggerTime := now, lastEvalTime := now }

/-- A processor of the rule. -/
def desk : Desk := { world := { rule } }

/-- …and one whose first push finds the queue full. -/
def full : Desk := { world := { rule, sched := fun n => { room := n ≠ 0 } } }

/-- A subscription to the alerts of one business group. -/
def infra : AlertSubscribe :=
  { id := 1, iBusiGroups := [{ key := "groups", func := .eq, value := .str "infra" }] }

/-- An alert and its repeat, the event of each read at once, and the recovery. -/
def told (again : String) : List Move :=
  [.look (event "infra" 1000), .fire 0, .handle 0, .look (event again 1060), .fire 1, .handle 1,
    .recover false "a" 1120 none [], .handle 2]

/-- An alert that recovers before its event is read. -/
def late : List Move :=
  [.look (event "infra" 1000), .fire 0, .recover false "a" 1060 none [], .handle 0, .handle 1]

end Example

open Dispatch.Example

/-- An alert that is told of is told to have recovered. -/
theorem told_alert_paired :
    ((told "infra").foldl (step · Nightingale.Example.env) desk).Paired
      (fun _ => none) infra "a" :=
  subscribers_see_pairs (fun _ => none) infra Nightingale.Example.env (WF.initial _ _ _) rfl
    (by decide) (by decide +kernel) "a"

/-- **Three ways to break a pair.**  The event is read after the alert has recovered, and no firing
event was forwarded; the business group is renamed between two notifications, and the recovery goes
by the new name; the queue refuses the alert and takes its recovery. -/
theorem pairs_broken : (Along (step · Nightingale.Example.env) Desk.Valid desk late ∧
      ¬ (late.foldl (step · Nightingale.Example.env) desk).Paired
        (fun _ => none) { id := 1 } "a") ∧
    (Along (step · Nightingale.Example.env) Desk.Valid desk (told "ops") ∧
      ¬ ((told "ops").foldl (step · Nightingale.Example.env) desk).Paired
        (fun _ => none) infra "a") ∧
    Along (step · Nightingale.Example.env) Desk.Valid full late ∧
      ¬ (late.foldl (step · Nightingale.Example.env) full).Paired
        (fun _ => none) { id := 1 } "a" := by
  decide +kernel

end Dispatch

end Nightingale
