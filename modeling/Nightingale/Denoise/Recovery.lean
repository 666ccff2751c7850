import Nightingale.Process.Grouping
import Nightingale.Denoise.Books

/-!
# Denoise/Recovery — recoveries that reach the aggregator

The dispatcher hands every event it consumes to the pipelines of the event's notify rules, a
recovery like any other (`HandleEventWithNotifyRule`).  `Aggregator.Handle` does not look at
`IsRecovered`, and nothing calls `MarkEventRecovered`:

    firing    ──▸ Handle ──▸ created or merged, joined
    recovery  ──▸ Handle ──▸ merged, counted, joined again       not: MarkEventRecovered ▸ Resolved

So a recovery is harmless only if it matches no aggregate rule and its incidents are not yet over:
each has another joined event that has not recovered (`Harmless`).  In a run of such recoveries none
is counted, and no incident whose events have all recovered is left open (`recoveries_reach`).
-/

namespace Nightingale.Denoise

open Aggregator List Option Entry Table Database Cluster

/-! ## The dispatcher -/

/-- `NotifyRule`, as far as it decides where an event goes. -/
structure NotifyRule where
  enable : Bool

/-- `Dispatch.HandleEventWithNotifyRule`, up to the pipelines: a copy of the event for the pipeline
of each of its notify rules that is known and enabled.  `IsRecovered` is looked at only afterwards.
-/
def handleEventWithNotifyRule (notifyRuleCache : ℤ → Option NotifyRule) (event : AlertCurEvent) :
    List AlertCurEvent :=
  event.notifyRuleIds.filterMap fun notifyRuleId =>
    match notifyRuleCache notifyRuleId with
    | none => none
    | some notifyRule => if notifyRule.enable then some event else none

/-! ## Recoveries on record -/

namespace Entry

/-- The entry delivers a recovery of the hash. -/
def recovers (h : Hash) : Entry → Bool
  | .delivered (some event) => event.isRecovered && decide (event.hash = h)
  | _ => false

/-- The entry joins an event of the hash to the incident. -/
def joinsHash (id : ℕ) (h : Hash) (e : Entry) : Bool :=
  (e.joins id).any fun event => decide (event.hash = h)

end Entry

/-- **A recovery of the hash has been delivered since it was last joined to the incident.** -/
def settled (id : ℕ) (h : Hash) (history : List Entry) : Bool :=
  (history.reverse.takeWhile fun e => !e.joinsHash id h).any (recovers h)

/-- Entries that neither join nor recover the hash change nothing for it. -/
theorem settled_append {id : ℕ} {h : Hash} {history new : List Entry}
    (hjoin : ∀ e ∈ new, e.joinsHash id h = false) (hrec : ∀ e ∈ new, e.recovers h = false) :
    settled id h (history ++ new) = settled id h history := by
  rw [settled, reverse_append, takeWhile_append_of_pos, any_append]
  · have hnone : new.reverse.any (recovers h) = false :=
      any_eq_false.mpr fun e he => by simp [hrec e (mem_reverse.mp he)]
    rw [hnone, Bool.false_or]
    rfl
  · intro e he
    rw [hjoin e (mem_reverse.mp he)]
    rfl

/-! ## What is asked for -/

namespace Cluster

variable (ext : Externals)

/-- How many event times a center's storm detector retains of an incident. -/
def stormCount (s : Cluster) (k id : ℕ) : ℕ := (((s.centers k).storm.lookup id).getD []).length

/-- **An action done for a recovery counts nothing.** -/
def Uncounted (s : Cluster) (a : Action) : Prop :=
  ∀ i now fault, a = .turn i now fault → ∀ call ∈ s.calls[i]?, ∀ event ∈ call.event,
    event.isRecovered = true → ∀ id, (s.step ext a).db.eventCount id ≤ s.db.eventCount id ∧
      ∀ k, (s.step ext a).stormCount k id ≤ s.stormCount k id

/-- **An incident whose joined events have all recovered is resolved**, or has been closed. -/
def Resolves (s : Cluster) : Prop :=
  ∀ x ∈ s.db.incidents.rows, x.2.status ≠ .closed → s.db.joins x.1 ≠ [] →
    (∀ h ∈ s.db.joins x.1, settled x.1 h s.history = true) → x.2.status = .resolved

/-- **A recovery that does no harm**: no aggregate rule takes it, and every open incident its hash
is joined to has another event that has not recovered. -/
def Harmless (s : Cluster) : Action → Prop
  | .start _ rules (some event) => event.isRecovered = true →
      (findSlot ext rules (some event)).isOk = false ∧
      ∀ x ∈ s.db.incidents.rows, x.2.status = .open → event.hash ∈ s.db.joins x.1 →
        ∃ h ∈ s.db.joins x.1, h ≠ event.hash ∧ settled x.1 h s.history = false
  | _ => True

instance (s : Cluster) (a : Action) : Decidable (s.Harmless ext a) := by
  unfold Harmless
  split <;> infer_instance

end Cluster

/-! ## The invariant -/

/-- **Recoveries have passed through, and every open incident is owed one**: a call for a recovery
has returned, and every open incident with events has one that has not recovered. -/
structure Owed (s : Cluster) : Prop where
  passed : ∀ call ∈ s.calls, ∀ event ∈ call.event, event.isRecovered = true →
    ∃ result, call.pc = .returned result
  owed : ∀ id, ∀ inc ∈ s.db.incidents.get? id, inc.status = .open → s.db.joins id ≠ [] →
    ∃ h ∈ s.db.joins id, settled id h s.history = false

section

variable {ext : Externals} {db : Database} {center : Center} {i : ℕ} {now : ℤ} {pc : Pc} {t : Turn}
  (h : Turns ext db center i now pc t)

include h

/-- **Where a turn leaves an open incident**: it was open before, or it is new. -/
theorem Turns.was_open {id : ℕ} {inc : CustomIncident} (hinc : inc ∈ t.db.incidents.get? id)
    (hopen : inc.status = .open) :
    (∃ old ∈ db.incidents.get? id, old.status = .open) ∨ db.incidents.get? id = none := by
  cases h with
  | @append slot j =>
    rw [mem_def, get?_appendEvent, map_eq_some_iff] at hinc
    obtain ⟨old, hold, rfl⟩ := hinc
    refine .inl ⟨old, hold, ?_⟩
    by_cases hj : id = j
    · rw [if_pos hj] at hopen
      exact hopen
    · rw [if_neg hj] at hopen
      exact hopen
  | @create slot =>
    rw [mem_def, get?_createIncident] at hinc
    by_cases hj : id = db.incidents.next
    · exact .inr (get?_eq_none_of_next_le hj.ge)
    · rw [if_neg hj] at hinc
      exact .inl ⟨inc, hinc, hopen⟩
  | @claimed slot j | @lost slot j =>
    rw [Turn.finish, mem_def, get?_markStormFired, map_eq_some_iff] at hinc
    obtain ⟨old, hold, rfl⟩ := hinc
    refine .inl ⟨old, hold, ?_⟩
    by_cases hj : id = j
    · rw [if_pos hj] at hopen
      exact hopen
    · rw [if_neg hj] at hopen
      exact hopen
  | _ => exact .inl ⟨inc, hinc, hopen⟩

/-- A turn joins nothing to the incident, or it records just that it joins. -/
theorem Turns.joins (id : ℕ) : (∀ e ∈ t.entries, e.joins id = none) ∨
      ∃ e event, t.entries = [e] ∧ e.joins id = some event := by
  cases h with
  | @append slot j | @link slot j created =>
    by_cases hj : j = id
    · exact .inr ⟨_, slot.event, rfl, if_pos hj⟩
    · exact .inl (by simp [Entry.joins, hj])
  | _ => exact .inl (by simp [Turn.finish, Entry.joins])

theorem Turns.recovers (hash : Hash) : ∀ e ∈ t.entries, e.recovers hash = false := by
  cases h <;> simp [Turn.finish, recovers]

end

theorem Counted.joins_eq_nil {s : Cluster} (h : Counted s) {id : ℕ}
    (hid : s.db.incidents.get? id = none) : s.db.joins id = [] := by
  have hcount := h.count id
  have hseeds := h.seeds id
  rw [eventCount, hid, elim_none] at hcount
  rw [h.rows id, map_eq_nil_iff]
  exact length_eq_zero_iff.mp (by omega)

namespace Owed

variable {s s' : Cluster} {ext : Externals}

/-- A turn joins an event, which is then owed its recovery, or leaves the joins alone. -/
theorem turn (h : Owed s) (hh : Held s) (hc : Counted s) {i : ℕ} {now : ℤ} {call : Call} {t : Turn}
    (hcall : s.calls[i]? = some call)
    (ht : Turns ext s.db (s.centers call.center) i now call.pc t) : Owed (s.after i call t) := by
  have hmem : call ∈ s.calls := mem_of_getElem? hcall
  refine ⟨fun c hc event he hrec => ?_, fun id inc hinc hopen hjoins => ?_⟩
  · rcases mem_or_eq_of_mem_set hc with hc | rfl
    · exact h.passed c hc event he hrec
    · obtain ⟨result, hret⟩ := h.passed call hmem event he hrec
      rw [hret] at ht
      cases ht
      exact ⟨result, rfl⟩
  · have hrows : t.db.joins id
        = s.db.joins id ++ (joined id t.entries).map AlertCurEvent.hash :=
      (ht.books (hh.calls call hmem) id).rows
    have hjoins' : t.db.joins id ≠ [] := hjoins
    change ∃ h ∈ t.db.joins id, settled id h (s.history ++ t.entries) = false
    rcases ht.joins id with hnone | ⟨e, event, hentries, hjoin⟩
    · have hnil : joined id t.entries = [] := filterMap_eq_nil_iff.mpr hnone
      rw [hnil, map_nil, append_nil] at hrows
      rw [hrows] at hjoins' ⊢
      rcases ht.was_open hinc hopen with ⟨old, hold, hwas⟩ | hnew
      · obtain ⟨hash, hmem, hset⟩ := h.owed id old hold hwas hjoins'
        refine ⟨hash, hmem, ?_⟩
        rw [settled_append (fun e he => ?_) (ht.recovers hash), hset]
        rw [joinsHash, hnone e he]
        rfl
      · exact absurd (hc.joins_eq_nil hnew) hjoins'
    · refine ⟨event.hash, ?_, ?_⟩
      · rw [hrows, hentries]
        simp [hjoin]
      · rw [hentries]
        simp [settled, joinsHash, hjoin]

/-- A delivery recovers its own hash only, and only if it is a recovery. -/
theorem delivered (h : Owed s) {center : ℕ} {rules : List CustomAggregateRule}
    {event : Option AlertCurEvent} (hharm : s.Harmless ext (.start center rules event))
    {new : List Entry}
    (hnew : ∀ e ∈ new, e = .delivered event ∨ ∃ i result, e = .returned i result) :
    ∀ id, ∀ inc ∈ s.db.incidents.get? id, inc.status = .open → s.db.joins id ≠ [] →
      ∃ h ∈ s.db.joins id, settled id h (s.history ++ new) = false := by
  intro id inc hinc hopen hjoins
  have hjoin : ∀ h', ∀ e ∈ new, e.joinsHash id h' = false := by
    intro h' e he
    rcases hnew e he with rfl | ⟨i, result, rfl⟩ <;> rfl
  have hkeep : ∀ h', (∀ e ∈ event, e.isRecovered = true → e.hash ≠ h') →
      settled id h' (s.history ++ new) = settled id h' s.history := by
    intro h' hno
    refine settled_append (hjoin h') fun e he => ?_
    rcases hnew e he with rfl | ⟨i, result, rfl⟩
    · cases event with
      | none => rfl
      | some e =>
        simp only [recovers, Bool.and_eq_false_iff, decide_eq_false_iff_not]
        by_cases hrec : e.isRecovered = true
        · exact .inr (hno e rfl hrec)
        · exact .inl (by simpa using hrec)
    · rfl
  obtain ⟨h', hmem, hset⟩ := h.owed id inc hinc hopen hjoins
  by_cases hhit : ∃ e ∈ event, e.isRecovered = true ∧ e.hash = h'
  · obtain ⟨e, he, hrec, rfl⟩ := hhit
    obtain rfl : event = some e := he
    obtain ⟨h'', hmem'', hne, hset''⟩ :=
      (hharm hrec).2 (id, inc) (get?_eq_some_iff.mp hinc) hopen hmem
    refine ⟨h'', hmem'', ?_⟩
    rw [hkeep h'' fun e' he' _ => ?_]
    · exact hset''
    · cases he'
      exact hne.symm
  · refine ⟨h', hmem, ?_⟩
    rw [hkeep h' fun e he hrec heq => hhit ⟨e, he, hrec, heq⟩]
    exact hset

/-- **A harmless action keeps it.** -/
theorem moves (h : Owed s) (hh : Held s) (hc : Counted s) {a : Action} (hm : Moves ext s a s')
    (hharm : s.Harmless ext a) : Owed s' := by
  cases hm with
  | @pass center rules event result hslot =>
    refine ⟨fun c hc e he hrec => ?_, h.delivered hharm (by simp)⟩
    rcases mem_append.mp hc with hc | hc
    · exact h.passed c hc e he hrec
    · rw [mem_singleton.mp hc]
      exact ⟨_, rfl⟩
  | @begins center rules event slot hslot =>
    refine ⟨fun c hc e he hrec => ?_, h.delivered hharm (by simp)⟩
    rcases mem_append.mp hc with hc | hc
    · exact h.passed c hc e he hrec
    · rw [mem_singleton.mp hc] at he
      obtain rfl : event = some e := he
      have hno := (hharm hrec).1
      rw [hslot] at hno
      cases hno
  | turn hcall ht => exact h.turn hh hc hcall ht
  | ends hends =>
    refine ⟨h.passed, fun id inc hinc hopen hjoins => ?_⟩
    have hjoins' : s.db.joins id ≠ [] := hends.joins id ▸ hjoins
    obtain ⟨h', hmem, hset⟩ := h.owed id inc (hends.open id inc hinc hopen) hopen hjoins'
    exact ⟨h', (hends.joins id).symm ▸ hmem, hset⟩
  | sweep | tick => exact ⟨h.passed, h.owed⟩

theorem resolves (h : Owed s) : s.Resolves := by
  intro x hx hclosed hjoins hall
  cases hs : x.2.status with
  | closed => exact absurd hs hclosed
  | resolved => rfl
  | «open» =>
    obtain ⟨h', hmem, hset⟩ := h.owed x.1 x.2 (get?_eq_some_iff.mpr hx) hs hjoins
    rw [hall h' hmem] at hset
    cases hset

theorem uncounted (h : Owed s) (a : Action) : s.Uncounted ext a := by
  rintro i now fault rfl call hcall event he hrec id
  obtain ⟨result, hret⟩ := h.passed call (mem_of_getElem? hcall) event he hrec
  have hstep : s.step ext (.turn i now fault) = s.after i call
      ⟨s.db, s.centers call.center, .returned result, []⟩ := by
    simp [Cluster.step, mem_def.mp hcall, hret, Denoise.turn]
  rw [hstep]
  refine ⟨le_rfl, fun k => le_of_eq ?_⟩
  simp [Cluster.stormCount, Cluster.after]

end Owed

/-- **Recoveries reach the incident, and are not counted.**  In every run of any number of workers,
from empty tables, whose recoveries are harmless when they are delivered: no turn taken for a
recovery increases an event count or a storm counter, and in every state an incident whose joined
events have all delivered a recovery since they were last joined is resolved or closed. -/
theorem Cluster.recoveries_reach (ext : Externals) (upgradeOn : ℕ → Bool) (actions : List Action)
    (h : Along (step ext) (Harmless ext) (fresh upgradeOn) actions) :
    ∀ before rest, actions = before ++ rest → ((fresh upgradeOn).run ext before).Resolves ∧
      ∀ a ∈ rest.head?, ((fresh upgradeOn).run ext before).Uncounted ext a := by
  rintro before rest rfl
  have h0 : Held (fresh upgradeOn) ∧ Counted (fresh upgradeOn) ∧ Owed (fresh upgradeOn) := by
    refine ⟨held_fresh upgradeOn, ⟨fun _ => rfl, fun _ => rfl, fun _ => rfl⟩, ?_, ?_⟩
    · exact fun call hc => absurd hc not_mem_nil
    · exact fun id inc hinc => absurd hinc (not_mem_none inc)
  have hrun : Held ((fresh upgradeOn).run ext before) ∧ Counted ((fresh upgradeOn).run ext before)
      ∧ Owed ((fresh upgradeOn).run ext before) :=
    (along_append.mp h).1.invariant (I := fun s => Held s ∧ Counted s ∧ Owed s)
      (fun s a hharm hs => ⟨hs.1.moves (moves_step s a), hs.2.1.moves (moves_step s a) hs.1,
        hs.2.2.moves hs.1 hs.2.1 (moves_step s a) hharm⟩) h0
  exact ⟨hrun.2.2.resolves, fun a _ => hrun.2.2.uncounted a⟩

namespace Example

/-- The recovery of an alert. -/
def recovered (hash : Hash) (severity : ℤ) : AlertCurEvent :=
  { alert hash severity with isRecovered := true }

/-- Two alerts of one incident; the first recovers when the aggregate rule has been switched off. -/
def oneOfTwo : List Action :=
  begins 0 "a" 2 :: takes 5 0 100 ++ begins 0 "b" 1 :: takes 5 1 101 ++
    [.start 0 [] (some (recovered "a" 2))]

/-- The one notify rule there is, enabled. -/
def notifyRules (id : ℤ) : Option NotifyRule := if id = 9 then some ⟨true⟩ else none

/-- An alert rule with that notify rule. -/
def notifyingRule : AlertRule := { id := 1, notifyRuleIds := [9] }

/-- An alert fires, and recovers a minute later. -/
def firesThenRecovers : List Nightingale.Op :=
  [.handle (Nightingale.Example.call notifyingRule 100 [Nightingale.Example.point "a" 2 100]),
    .handle (Nightingale.Example.call notifyingRule 160 [])]

/-- The events a processor has pushed, dispatched and handled one after the other. -/
def dispatched (ops : List Nightingale.Op) : List Action :=
  (((pushed (World.run Nightingale.Example.env { rule := notifyingRule } ops).log).flatMap
    (handleEventWithNotifyRule notifyRules)).zipIdx.flatMap
      fun x => .start 0 rules (some x.1) :: takes 7 x.2 160)

end Example

open Denoise.Example

/-- A recovery of one of two alerts leaves the incident open, and rightly so. -/
theorem one_of_two_recovered : ((fresh fun _ => true).run ext oneOfTwo).Resolves ∧
      settled 1 "a" ((fresh fun _ => true).run ext oneOfTwo).history = true :=
  ⟨(recoveries_reach ext (fun _ => true) oneOfTwo (by decide)
    oneOfTwo [] (by simp)).1, by decide⟩

/-- **A recovery is counted.**  The processor pushes an alert and its recovery; the dispatcher hands
both to the aggregator, and the recovery is merged into the incident of its own alert. -/
theorem recovery_counted : ¬ ∀ ops before rest, dispatched ops = before ++ rest →
      ((fresh fun _ => true).run ext before).Resolves ∧
      ∀ a ∈ rest.head?, ((fresh fun _ => true).run ext before).Uncounted
        ext a := by
  intro h
  have hcount := (h firesThenRecovers _ _ (take_append_drop 10 _).symm).2 _ rfl
    1 160 none rfl _ rfl _ rfl rfl 1
  have hle := hcount.1
  revert hle
  decide +kernel

end Nightingale.Denoise
