import Nightingale.Process.Episodes

/-!
# Dispatch/Consumer — the consumer's goroutines

`Consumer.consume` pops events in order and starts `consumeOne` for each in a goroutine of its own,
so the statements of several `EventPersist` calls interleave at will:

    PushFront ──▸ queue ──pop──▸ ┌ exists · insert history · delete current · insert current ┐
                                 └ exists · insert history · …                               ┘

Two calls of one hash can
both find no row and both insert one.  What saves the table is a condition on the newest event of a
hash alone: it is looked up when every older call of that hash has finished (`Awaits`).
-/

namespace Nightingale

open AlertCurEvent World List Option Heap Tables

/-! ## The pool -/

/-- A processor with its queue, and the calls of `EventPersist` started so far, each with the event
it was given and the statement it executes next. -/
structure Pool where
  world : World
  calls : List (Ref × PersistPc) := []

/-- What can happen next: the processor takes up its rule as edited, fires an event or recovers an
alert, the consumer starts the next call, or a call executes its next statement. -/
inductive Move where
  | update (rule : AlertRule)
  | fire (event : AlertCurEvent)
  | recover (byRecover : Bool) (hash : Hash) (now : ℤ) (value : Option String)
  | start
  | statement (call : ℕ)

namespace Pool

/-- Where `Consumer.persist` begins with an event. -/
def entry (event : AlertCurEvent) : PersistPc := if event.status ≠ 0 then .done else .exists

/-- One move. -/
def step (s : Pool) : Move → Pool
  | .update rule => { s with world := { s.world with rule := rule } }
  | .fire event =>
    { s with world :=
      fireEvent { s.world with heap := s.world.heap.alloc event } s.world.heap.next }
  | .recover byRecover h now value =>
    { s with world := s.world.recoverSingle byRecover h now value [] }
  | .start =>
    match s.world.queue.getLast? with
    | none => s
    | some r =>
      { world := { s.world with queue := s.world.queue.dropLast }
        calls := s.calls ++ [(r, entry (s.world.heap.get r))] }
  | .statement call =>
    match s.calls[call]? with
    | none => s
    | some (r, pc) =>
      let next := persistStep s.world.tables (s.world.heap.get r) pc
      { world := { s.world with tables := next.1 }, calls := s.calls.set call (r, next.2) }

/-- Every event pushed, oldest first; one that still waits stands before its first statement. -/
def entries (s : Pool) : List (Ref × PersistPc) :=
  s.calls ++ s.world.queue.reverse.map fun r => (r, .exists)

/-- The hash of the event behind a reference. -/
def hashOf (s : Pool) (r : Ref) : Hash := (s.world.heap.get r).hash

/-- Everything pushed has been persisted. -/
def Finished (s : Pool) : Prop := s.world.queue = [] ∧ ∀ call ∈ s.calls, call.2 = .done

/-- The rows of a hash are what its last pushed event asks for. -/
def Agreed (s : Pool) (h : Hash) : Prop :=
  ∀ e ∈ (pushes h s.world.log).getLast?,
    if e.isRecovered then s.world.tables.rowsOf h = []
    else (s.world.tables.rowsOf h).length = 1

end Pool

/-! ## One call -/

/-- What the rows of a hash are to a call that alone works on it. -/
def Stage (rows : List AlertCurEvent) (e : AlertCurEvent) : PersistPc → Prop
  | .exists => True
  | .addHis has => has = true ↔ rows ≠ []
  | .delCur hisId => 0 < hisId
  | .addCur _ => rows = [] ∧ e.isRecovered = false
  | .done => if e.isRecovered then rows = [] else rows.length = 1

theorem Stage.congr {rows : List AlertCurEvent} {e e' : AlertCurEvent} {pc : PersistPc}
    (h : Stage rows e pc) (he : e'.isRecovered = e.isRecovered) : Stage rows e' pc := by
  cases pc with
  | addCur hisId => exact ⟨h.1, he.trans h.2⟩
  | done => rw [Stage, he]; exact h
  | _ => exact h

/-- **A call that alone works on its hash leaves what its event asks for.** -/
theorem stage_persistStep (t : Tables) (e : AlertCurEvent) {pc : PersistPc}
    (h : Stage (t.rowsOf e.hash) e pc) :
    Stage ((persistStep t e pc).1.rowsOf e.hash) e (persistStep t e pc).2 := by
  have hpos := nextHisId_pos t
  cases pc with
  | «exists» =>
    change t.alertCurEventExists e.hash = true ↔ t.rowsOf e.hash ≠ []
    rw [← Bool.not_eq_false, Ne, alertCurEventExists_eq_false_iff]
  | addHis has =>
    cases has with
    | true => simpa [persistStep, Stage] using hpos
    | false =>
      have hnone : t.rowsOf e.hash = [] := by simpa [Stage] using h
      cases hrec : e.isRecovered <;> simp [persistStep, hrec, hpos, Stage, hnone]
  | delCur hisId =>
    have hid : 0 < hisId := h
    cases hrec : e.isRecovered <;> simp [persistStep, hrec, hid, Stage]
  | addCur hisId =>
    obtain ⟨hrows, hrec⟩ := h
    simp [persistStep, Stage, hrec, rowsOf_addCur, hrows]
  | done => exact h

/-- A statement touches the rows of its own hash only. -/
theorem rowsOf_persistStep_of_ne (t : Tables) (e : AlertCurEvent) (pc : PersistPc) {h : Hash}
    (hne : h ≠ e.hash) : (persistStep t e pc).1.rowsOf h = t.rowsOf h := by
  cases pc with
  | «exists» => rfl
  | addHis has => simp only [persistStep]; split_ifs <;> rfl
  | delCur hisId =>
    simp only [persistStep]
    split_ifs <;> exact rowsOf_alertCurEventDelByHash_of_ne t hne
  | addCur hisId => simp [persistStep, rowsOf_addCur, Ne.symm hne]
  | done => rfl

/-! ## What the processor does to the queue -/

namespace World

/-- The queue takes every event, and only the pool consumes it. -/
def Quiet (w : World) : Prop := ∀ n, (w.sched n).drains = 0 ∧ (w.sched n).room = true

theorem Quiet.yield {w : World} (hq : w.Quiet) : w.yield = { w with tick := w.tick + 1 } := by
  simp [World.yield, (hq w.tick).1, consume]

theorem Quiet.pushFront {w : World} (hq : w.Quiet) (r : Ref) :
    w.pushFront r = { w with queue := r :: w.queue, tick := w.tick + 1 } := by
  simp [World.pushFront, (hq w.tick).2, hq.yield]

/-- One move of the processor: at most one event is pushed, `new`; older events keep their hash, and
only those of its hash can turn into recoveries. -/
structure Advances (w w' : World) (new : Option Ref) : Prop where
  wf : w'.WF
  quiet : w'.Quiet
  tables : w'.tables = w.tables
  queue : w'.queue = new.toList ++ w.queue
  next : w.heap.next ≤ w'.heap.next
  fresh : ∀ q ∈ new, q < w'.heap.next ∧ (w'.heap.get q).status = 0
  hash : ∀ r < w.heap.next, (w'.heap.get r).hash = (w.heap.get r).hash
  status : ∀ r < w.heap.next, (w'.heap.get r).status = (w.heap.get r).status
  isRecovered : ∀ r < w.heap.next, (∀ q ∈ new, (w'.heap.get q).hash ≠ (w.heap.get r).hash) →
    (w'.heap.get r).isRecovered = (w.heap.get r).isRecovered
  live : ∀ h f, w'.fired h = some f → f.status = 0
  pushed : ∀ q ∈ new, ∃ e, (w'.heap.get q).isRecovered = e.isRecovered ∧
    pushes (w'.heap.get q).hash w'.log = pushes (w'.heap.get q).hash w.log ++ [e]
  silent : ∀ h, (∀ q ∈ new, (w'.heap.get q).hash ≠ h) → pushes h w'.log = pushes h w.log

section Advances

variable {w : World}

theorem advances_update (hw : w.WF) (hq : w.Quiet)
    (hlive : ∀ h f, w.fired h = some f → f.status = 0) (rule : AlertRule) :
    Advances w { w with rule := rule } none where
  wf := hw.beside
  quiet := hq
  tables := rfl
  queue := rfl
  next := le_rfl
  fresh _ hq := by cases hq
  hash _ _ := rfl
  status _ _ := rfl
  isRecovered _ _ _ := rfl
  live := hlive
  pushed _ hq := by cases hq
  silent _ _ := rfl

theorem advances_recoverSingle (hw : w.WF) (hq : w.Quiet)
    (hlive : ∀ h f, w.fired h = some f → f.status = 0) (b : Bool) (h : Hash) (now : ℤ)
    (v : Option String) : ∃ new, Advances w (w.recoverSingle b h now v []) new := by
  rcases recoverSingle_cases hw b h now v [] with heq | ⟨f, hf, hrem, -, hlog⟩
  · rw [heq]
    exact ⟨none, advances_update hw hq hlive w.rule⟩
  · obtain ⟨r, hr, rfl⟩ := map_eq_some_iff.mp hf.fired
    obtain ⟨hlt, hhash⟩ := hw.fires h r hr
    have hqlet : (w.letGo b h now v [] r).Quiet := by
      simpa [Quiet, letGo, modify, deleteProcessEvent] using hq
    have heq := (recoverSingle_eq_letGo v [] hr hf).trans (hqlet.pushFront r)
    have hget : (w.recoverSingle b h now v []).heap.get r
        = recovery w.rule now v [] (w.heap.get r) := by
      rw [heq]; simp [letGo, modify, deleteProcessEvent]
    have hother : ∀ r' ≠ r, (w.recoverSingle b h now v []).heap.get r' = w.heap.get r' :=
      fun r' hne => by
        rw [heq]; simp [letGo, modify, deleteProcessEvent, get_modify_of_ne _ _ hne]
    have hlog' : ∀ h', pushes h' (w.recoverSingle b h now v []).log = pushes h' w.log ++
        if (recovery w.rule now v [] (w.heap.get r)).hash = h'
          then [recovery w.rule now v [] (w.heap.get r)] else [] := fun h' => by
      rw [hlog, pushes_remove_push]
    refine ⟨some r, hrem.wf, by rw [heq]; exact hqlet, ?_, ?_, hrem.next.ge, ?_,
      fun r' _ => hrem.hash r', fun r' _ => ?_, fun r' _ hno => ?_, fun h' f hf' => ?_, ?_, ?_⟩
    · rw [heq]; simp [letGo, modify, deleteProcessEvent, hq.yield]
    · rw [heq]; simp [letGo, modify, deleteProcessEvent, hq.yield]
    · rintro q hq'
      cases hq'
      rw [hget, recovery_status, hrem.next]
      exact ⟨hlt, hlive h _ hf.fired⟩
    · by_cases hne : r' = r
      · subst hne; rw [hget, recovery_status]
      · rw [hother r' hne]
    · have hne : r' ≠ r := fun hrr => hno r rfl (by rw [hrem.hash, hrr])
      rw [hother r' hne]
    · exact hlive h' f (hrem.fired_of_fired hf')
    · rintro q ⟨⟩
      refine ⟨_, by rw [hget], ?_⟩
      rw [hlog', hget, if_pos rfl]
    · intro h' hno
      have hne : (recovery w.rule now v [] (w.heap.get r)).hash ≠ h' := by
        rw [← hget]; exact hno r rfl
      rw [hlog', if_neg hne, append_nil]

theorem Advances.of_alloc {event : AlertCurEvent} {w' : World} {new : Option Ref}
    (a : Advances { w with heap := w.heap.alloc event } w' new) : Advances w w' new := by
  have hold : ∀ r < w.heap.next, (w.heap.alloc event).get r = w.heap.get r :=
    fun r hr => get_alloc_of_lt _ _ hr
  have hlt : ∀ r < w.heap.next, r < (w.heap.alloc event).next := fun r hr => Nat.lt_succ_of_lt hr
  exact {
    a with
    next := (Nat.le_succ _).trans a.next
    hash := fun r hr => (a.hash r (hlt r hr)).trans (by rw [hold r hr])
    status := fun r hr => (a.status r (hlt r hr)).trans (by rw [hold r hr])
    isRecovered := fun r hr hno =>
      (a.isRecovered r (hlt r hr) (by simpa only [hold r hr] using hno)).trans (by rw [hold r hr]) }

section Fire

variable {r : Ref}

theorem live_fireEvent (hw : w.WF) (hlive : ∀ h f, w.fired h = some f → f.status = 0)
    (hr : r < w.heap.next) (hrec : (w.heap.get r).isRecovered = false)
    (hst : (w.heap.get r).status = 0) {h : Hash} {f : AlertCurEvent}
    (hf : (w.fireEvent r).fired h = some f) : f.status = 0 := by
  have hfires := fires_fireEvent hw hr hrec
  by_cases hh : h = (w.heap.get r).hash
  · subst hh
    have hself := hfires.fired_self
    rw [hf] at hself
    cases hn : w.rule.notifies (w.fired (w.heap.get r).hash) (w.heap.get r) with
    | none =>
      rw [hn, none_or] at hself
      obtain ⟨g, hg, rfl⟩ := map_eq_some_iff.mp hself.symm
      exact hlive _ g hg
    | some p =>
      rw [hn, some_or] at hself
      rw [some.inj hself, ← hst]
      exact status_eq_of_ident_eq (AlertRule.notifies_ident hn)
  · rw [(hfires.sameAt h hh).fired] at hf
    exact hlive h f hf

/-- **What firing does to the queue**: the event is put in front if the rule notifies of it. -/
theorem Quiet.fireEvent (hq : w.Quiet) (hw : w.WF) (hrec : (w.heap.get r).isRecovered = false) :
    (w.fireEvent r).Quiet ∧ (w.fireEvent r).tables = w.tables ∧ (w.fireEvent r).queue
      = ((w.rule.notifies (w.fired (w.heap.get r).hash) (w.heap.get r)).map fun _ => r).toList
        ++ w.queue := by
  cases hn : w.rule.notifies (w.fired (w.heap.get r).hash) (w.heap.get r) with
  | none =>
    obtain ⟨f, -, heq⟩ := fireEvent_of_not_notifies hn
    rw [heq]
    exact ⟨hq, rfl, rfl⟩
  | some p =>
    obtain ⟨v, hv, hvw, -, heq⟩ := fireEvent_of_notifies hw hn
    have hvrec : (v.heap.get r).isRecovered = false := by
      rw [← hrec]
      exact isRecovered_eq_of_ident_eq (hvw.ident r)
    have hvq : (v.markSent r).Quiet := by rw [hv]; exact hq
    rw [heq, pushEventToQueue_of_firing hvrec, hvq.pushFront]
    exact ⟨hvq, by rw [hv]; rfl, by rw [hv]; rfl⟩

theorem advances_fireEvent (hw : w.WF) (hq : w.Quiet)
    (hlive : ∀ h f, w.fired h = some f → f.status = 0) (hr : r < w.heap.next)
    (hrec : (w.heap.get r).isRecovered = false) (hst : (w.heap.get r).status = 0) :
    Advances w (w.fireEvent r)
      ((w.rule.notifies (w.fired (w.heap.get r).hash) (w.heap.get r)).map fun _ => r) := by
  have hf := fires_fireEvent hw hr hrec
  obtain ⟨hquiet, htables, hqueue⟩ := hq.fireEvent hw hrec
  have hstatus : ∀ r', ((w.fireEvent r).heap.get r').status = (w.heap.get r').status :=
    fun r' => status_eq_of_ident_eq (hf.ident r')
  have hflag : ∀ r', ((w.fireEvent r).heap.get r').isRecovered = (w.heap.get r').isRecovered :=
    fun r' => isRecovered_eq_of_ident_eq (hf.ident r')
  refine ⟨hf.wf, hquiet, htables, hqueue, hf.keeps.next.ge, fun q hq' => ?_, fun r' _ => hf.hash r',
    fun r' _ => hstatus r', fun r' _ _ => hflag r',
    fun _ _ => live_fireEvent hw hlive hr hrec hst, fun q hq' => ?_, fun h hno => ?_⟩
  · obtain ⟨p, -, rfl⟩ := map_eq_some_iff.mp hq'
    rw [hstatus, hf.keeps.next]
    exact ⟨hr, hst⟩
  · obtain ⟨p, hn, rfl⟩ := map_eq_some_iff.mp hq'
    refine ⟨p, ?_, ?_⟩
    · rw [hflag]
      exact (isRecovered_eq_of_ident_eq (AlertRule.notifies_ident hn)).symm
    · rw [hf.hash, hf.pushes_eq, if_pos rfl, hn, toList_some]
  · rw [hf.pushes_eq]
    split_ifs with hh
    · cases hn : w.rule.notifies (w.fired (w.heap.get r).hash) (w.heap.get r) with
      | none => rw [toList_none, append_nil]
      | some p => exact absurd ((hf.hash r).trans hh.symm) (hno r (by rw [hn]; rfl))
    · rw [append_nil]

end Fire

theorem advances_fire (hw : w.WF) (hq : w.Quiet)
    (hlive : ∀ h f, w.fired h = some f → f.status = 0) {event : AlertCurEvent}
    (hrec : event.isRecovered = false) (hst : event.status = 0) :
    ∃ new, Advances w (fireEvent { w with heap := w.heap.alloc event } w.heap.next) new := by
  have hwf : WF { w with heap := w.heap.alloc event } := ⟨hw.fires.alloc event,
    hw.pendings.alloc event, hw.pendingsUseByRecover.alloc event,
    fun r' hr' => Nat.lt_succ_of_lt (hw.waiting r' hr')⟩
  have hget : (w.heap.alloc event).get w.heap.next = event := get_alloc_self _ _
  have hlive' : ∀ h f, fired { w with heap := w.heap.alloc event } h = some f → f.status = 0 :=
    fun h f hf => hlive h f ((hw.fires.map_get_alloc event h).symm.trans hf)
  exact ⟨_, (advances_fireEvent hwf hq hlive' (Nat.lt_succ_self _) (by rw [hget]; exact hrec)
    (by rw [hget]; exact hst)).of_alloc⟩

end Advances

end World

/-! ## The newest call of a hash -/

namespace Pool

/-- The events the processor fires: neither recovered nor already handled. -/
def Firing : Move → Prop
  | .fire event => event.isRecovered = false ∧ event.status = 0
  | _ => True

/-- The newest call of a hash looks its row up when the older ones have finished. -/
def Awaits (s : Pool) : Move → Prop
  | .statement call =>
    ∀ c ∈ s.calls[call]?, c.2 = .exists →
      (∀ x ∈ s.entries.drop (call + 1), s.hashOf x.1 ≠ s.hashOf c.1) →
        ∀ x ∈ s.entries.take call, s.hashOf x.1 = s.hashOf c.1 → x.2 = .done
  | _ => True

instance : DecidablePred Firing
  | .fire _ => inferInstanceAs (Decidable (_ ∧ _))
  | .update _ | .recover .. | .start | .statement _ => inferInstanceAs (Decidable True)

instance (s : Pool) : DecidablePred s.Awaits
  | .statement call => inferInstanceAs (Decidable (∀ c ∈ s.calls[call]?, _))
  | .update _ | .fire _ | .recover .. | .start => inferInstanceAs (Decidable True)

instance : DecidablePred Finished := fun _ => inferInstanceAs (Decidable (_ ∧ _))

instance (s : Pool) : DecidablePred s.Agreed :=
  fun h => inferInstanceAs (Decidable (∀ e ∈ (pushes h s.world.log).getLast?, _))

/-- The `i`-th event pushed is the last one of its hash. -/
def Newest (s : Pool) (i : ℕ) (r : Ref) : Prop :=
  ∀ j x, i < j → s.entries[j]? = some x → s.hashOf x.1 ≠ s.hashOf r

/-- Every other call of the hash of `r` has finished. -/
def Alone (s : Pool) (i : ℕ) (r : Ref) : Prop :=
  ∀ j x, j ≠ i → s.entries[j]? = some x → s.hashOf x.1 = s.hashOf r → x.2 = .done

/-- **The invariant.**  Once the newest call of a hash has looked its row up, it works alone; and
the last event logged for a hash is the newest there is of it. -/
structure Orderly (s : Pool) : Prop where
  wf : s.world.WF
  quiet : s.world.Quiet
  fresh : ∀ x ∈ s.entries, x.1 < s.world.heap.next ∧ (s.world.heap.get x.1).status = 0
  live : ∀ h f, s.world.fired h = some f → f.status = 0
  alone : ∀ i r pc, s.entries[i]? = some (r, pc) → s.Newest i r → pc ≠ .exists →
    s.Alone i r ∧ Stage (s.world.tables.rowsOf (s.hashOf r)) (s.world.heap.get r) pc
  recorded : ∀ h, ∀ e ∈ (pushes h s.world.log).getLast?, ∃ i r pc, s.entries[i]? = some (r, pc) ∧
    s.Newest i r ∧ s.hashOf r = h ∧ (s.world.heap.get r).isRecovered = e.isRecovered

theorem Orderly.initial {w : World} (hw : w.WF) (hq : w.Quiet) (hqueue : w.queue = [])
    (hfires : w.fires = ∅) (hlog : w.log = []) : Orderly { world := w } where
  wf := hw
  quiet := hq
  fresh := by simp [entries, hqueue]
  live h f hf := by simp [fired, hfires] at hf
  alone i r pc hi := by simp [entries, hqueue] at hi
  recorded h e he := by simp [hlog, pushes] at he

/-- With nothing left to do, the invariant is the agreement. -/
theorem Orderly.agreed {s : Pool} (o : s.Orderly) (hf : s.Finished) (h : Hash) : s.Agreed h := by
  intro e he
  obtain ⟨i, r, pc, hi, hn, rfl, hflag⟩ := o.recorded h e he
  have hpc : pc = .done := by
    have hm := mem_of_getElem? hi
    rw [entries, hf.1] at hm
    exact hf.2 (r, pc) (by simpa using hm)
  subst hpc
  obtain ⟨-, hst⟩ := o.alone i r _ hi hn (by simp)
  rw [← hflag]
  exact hst

section Step

variable {s : Pool}

section Advance

variable {w' : World} {new : Option Ref} {i : ℕ} {x : Ref × PersistPc}

section

variable (a : Advances s.world w' new)

include a

theorem entries_advance :
    entries { s with world := w' } = s.entries ++ new.toList.map fun r => (r, .exists) := by
  have hrev : new.toList.reverse = new.toList := by cases new <;> rfl
  simp [entries, a.queue, hrev]

theorem getElem?_advance (hi : s.entries[i]? = some x) :
    (entries { s with world := w' })[i]? = some x := by
  rw [entries_advance a, List.getElem?_append_left (List.getElem?_eq_some_iff.mp hi).1, hi]

theorem getElem?_advance_new {q : Ref} (hq : q ∈ new) :
    (entries { s with world := w' })[s.entries.length]? = some (q, .exists) := by
  rw [entries_advance a, getElem?_append_right le_rfl, Nat.sub_self, mem_def.mp hq]
  rfl

/-- An entry afterwards was one before, or is the event pushed. -/
theorem getElem?_advance_cases (hi : (entries { s with world := w' })[i]? = some x) :
    s.entries[i]? = some x ∨ i = s.entries.length ∧ x.2 = .exists ∧ x.1 ∈ new := by
  rw [entries_advance a] at hi
  rcases lt_or_ge i s.entries.length with h | h
  · exact .inl (by rwa [getElem?_append_left h] at hi)
  · rw [getElem?_append_right h] at hi
    cases new with
    | none => simp at hi
    | some q =>
      rw [toList_some, map_singleton, getElem?_singleton] at hi
      split_ifs at hi with h0
      cases hi
      exact .inr ⟨by omega, rfl, rfl⟩

end

section

variable (o : s.Orderly) (a : Advances s.world w' new)

include o a

theorem Orderly.hashOf_advance (hi : s.entries[i]? = some x)
    : hashOf { s with world := w' } x.1 = s.hashOf x.1 :=
  a.hash _ (o.fresh _ (mem_of_getElem? hi)).1

/-- **An event stays the newest of its hash** until another one is pushed. -/
theorem Orderly.newest_advance_iff (hi : s.entries[i]? = some x)
    : Newest { s with world := w' } i x.1 ↔
      s.Newest i x.1 ∧ ∀ q ∈ new, (w'.heap.get q).hash ≠ s.hashOf x.1 := by
  unfold Newest
  rw [o.hashOf_advance a hi]
  constructor
  · intro hn
    refine ⟨fun j y hij hj => ?_, fun q hq => ?_⟩
    · rw [← o.hashOf_advance a hj]
      exact hn j y hij (getElem?_advance a hj)
    · exact hn _ (q, .exists) (List.getElem?_eq_some_iff.mp hi).1 (getElem?_advance_new a hq)
  · rintro ⟨hn, hno⟩ j y hij hj
    rcases getElem?_advance_cases a hj with hj | ⟨-, -, hy⟩
    · rw [o.hashOf_advance a hj]
      exact hn j y hij hj
    · exact hno y.1 hy

theorem Orderly.alone_advance {r : Ref} {pc : PersistPc} (hi : s.entries[i]? = some (r, pc))
    (hn : Newest { s with world := w' } i r) (hpc : pc ≠ .exists)
    : Alone { s with world := w' } i r ∧
      Stage (w'.tables.rowsOf (hashOf { s with world := w' } r)) (w'.heap.get r) pc := by
  obtain ⟨hn, hno⟩ := (o.newest_advance_iff a hi).mp hn
  obtain ⟨hal, hst⟩ := o.alone i r pc hi hn hpc
  have hhash := o.hashOf_advance a hi
  refine ⟨fun j y hj hy hyh => ?_, ?_⟩
  · rcases getElem?_advance_cases a hy with hy | ⟨-, -, hq⟩
    · exact hal j y hj hy (by rw [← o.hashOf_advance a hy, ← hhash]; exact hyh)
    · exact absurd (hyh.trans hhash) (hno y.1 hq)
  · rw [hhash, a.tables]
    exact hst.congr (a.isRecovered r (o.fresh _ (mem_of_getElem? hi)).1 hno)

/-- The last event logged is the one just pushed, or the one it was. -/
theorem Orderly.recorded_advance {h : Hash} {e : AlertCurEvent}
    (he : e ∈ (pushes h w'.log).getLast?) :
    ∃ i r pc, (entries { s with world := w' })[i]? = some (r, pc) ∧
      Newest { s with world := w' } i r ∧ hashOf { s with world := w' } r = h ∧
        (w'.heap.get r).isRecovered = e.isRecovered := by
  by_cases hno : ∀ q ∈ new, (w'.heap.get q).hash ≠ h
  · rw [a.silent h hno] at he
    obtain ⟨i, r, pc, hi, hn, rfl, hflag⟩ := o.recorded h e he
    exact ⟨i, r, pc, getElem?_advance a hi, (o.newest_advance_iff a hi).mpr ⟨hn, hno⟩,
      o.hashOf_advance a hi, (a.isRecovered r (o.fresh _ (mem_of_getElem? hi)).1 hno).trans hflag⟩
  · push Not at hno
    obtain ⟨q, hq, rfl⟩ := hno
    obtain ⟨e', hflag, hlog⟩ := a.pushed q hq
    rw [hlog, getLast?_concat] at he
    cases he
    refine ⟨_, q, .exists, getElem?_advance_new a hq, fun j x hj hx => ?_, rfl, hflag⟩
    rcases getElem?_advance_cases a hx with hx | ⟨rfl, -, -⟩
    · exact absurd (List.getElem?_eq_some_iff.mp hx).1 (by omega)
    · exact absurd hj (lt_irrefl _)

/-- **A move of the processor.** -/
theorem Orderly.advance : Orderly { s with world := w' } where
  wf := a.wf
  quiet := a.quiet
  fresh x hx := by
    rw [entries_advance a, mem_append] at hx
    rcases hx with hx | hx
    · obtain ⟨hlt, hst⟩ := o.fresh x hx
      exact ⟨hlt.trans_le a.next, (a.status _ hlt).trans hst⟩
    · obtain ⟨q, hq, rfl⟩ := mem_map.mp hx
      exact a.fresh q (mem_toList.mp hq)
  live := a.live
  alone i r pc hi hn hpc := by
    rcases getElem?_advance_cases a hi with hi | ⟨-, rfl, -⟩
    · exact o.alone_advance a hi hn hpc
    · exact absurd rfl hpc
  recorded _ _ he := o.recorded_advance a he

end

end Advance

/-- Starting a call moves the boundary between the calls and the queue, no entry. -/
theorem entries_start (hfresh : ∀ x ∈ s.entries, (s.world.heap.get x.1).status = 0) :
    (s.step .start).entries = s.entries := by
  cases hq : s.world.queue.getLast? with
  | none => simp [step, hq]
  | some r =>
    obtain ⟨older, hqueue⟩ := getLast?_eq_some_iff.mp hq
    have hst : (s.world.heap.get r).status = 0 := hfresh (r, .exists) (by simp [entries, hqueue])
    simp [step, entries, hqueue, entry, hst]

theorem Orderly.start (o : s.Orderly) : (s.step .start).Orderly := by
  have hentries := entries_start fun x hx => (o.fresh x hx).2
  cases hq : s.world.queue.getLast? with
  | none => simpa [step, hq] using o
  | some r =>
    have hworld : (s.step .start).world = { s.world with queue := s.world.queue.dropLast } := by
      simp [step, hq]
    have hhash : (s.step .start).hashOf = s.hashOf := by
      funext r; rw [hashOf, hworld]; rfl
    have hwait : ∀ r' ∈ (s.step .start).world.waiting, r' < s.world.heap.next := fun r' hr' => by
      refine o.wf.waiting r' ?_
      rw [hworld] at hr'
      simp only [waiting, mem_append, mem_reverse] at hr' ⊢
      exact hr'.imp_right mem_of_mem_dropLast
    exact {
      wf := by
        rw [hworld] at hwait ⊢
        exact ⟨o.wf.fires, o.wf.pendings, o.wf.pendingsUseByRecover, hwait⟩
      quiet := by rw [hworld]; exact o.quiet
      fresh := by rw [hentries, hworld]; exact o.fresh
      live := by rw [hworld]; exact o.live
      alone := by
        unfold Newest Alone
        rw [hentries, hhash, hworld]; exact o.alone
      recorded := by
        unfold Newest
        rw [hentries, hhash, hworld]; exact o.recorded }

section Statement

variable {call : ℕ} {r : Ref} {pc : PersistPc}

section

variable (hc : s.calls[call]? = some (r, pc))

include hc

/-- A statement of a call changes the tables and the place of this call, nothing else. -/
theorem step_statement : s.step (.statement call) =
      let next := persistStep s.world.tables (s.world.heap.get r) pc
      { world := { s.world with tables := next.1 }, calls := s.calls.set call (r, next.2) } := by
  simp [step, hc]

theorem entries_statement : (s.step (.statement call)).entries
      = s.entries.set call (r, (persistStep s.world.tables (s.world.heap.get r) pc).2) := by
  rw [step_statement hc, entries, entries,
    List.set_append_left _ _ (List.getElem?_eq_some_iff.mp hc).1]

theorem hashOf_statement : (s.step (.statement call)).hashOf = s.hashOf := by
  funext q
  rw [step_statement hc]
  rfl

theorem getElem?_entries_of_calls : s.entries[call]? = some (r, pc) := by
  rw [entries, List.getElem?_append_left (List.getElem?_eq_some_iff.mp hc).1, hc]

theorem getElem?_statement_self : (s.step (.statement call)).entries[call]?
      = some (r, (persistStep s.world.tables (s.world.heap.get r) pc).2) := by
  rw [entries_statement hc, getElem?_set_self
    (List.getElem?_eq_some_iff.mp (getElem?_entries_of_calls hc)).1]

theorem getElem?_statement_of_ne {j : ℕ} (hj : j ≠ call) :
    (s.step (.statement call)).entries[j]? = s.entries[j]? := by
  rw [entries_statement hc, getElem?_set_ne hj.symm]

theorem map_entries_statement (j : ℕ) :
    ((s.step (.statement call)).entries[j]?).map Prod.fst = (s.entries[j]?).map Prod.fst := by
  by_cases hj : j = call
  · subst hj
    rw [getElem?_statement_self hc, getElem?_entries_of_calls hc]
    rfl
  · rw [getElem?_statement_of_ne hc hj]

theorem newest_statement_iff {i : ℕ} {q : Ref} :
    (s.step (.statement call)).Newest i q ↔ s.Newest i q := by
  have hmap : ∀ t : Pool, t.Newest i q ↔ ∀ j, i < j → ∀ p ∈ (t.entries[j]?).map Prod.fst,
      t.hashOf p ≠ t.hashOf q := by
    intro t
    constructor
    · intro hn j hij p hp
      obtain ⟨x, hx, rfl⟩ := map_eq_some_iff.mp hp
      exact hn j x hij hx
    · exact fun hn j x hij hx => hn j hij x.1 (map_eq_some_iff.mpr ⟨x, hx, rfl⟩)
  rw [hmap, hmap, hashOf_statement hc]
  simp only [map_entries_statement hc]

end

/-- The newest call of a hash waits for the others before it looks at the rows. -/
theorem Awaits.alone (ha : s.Awaits (.statement call)) (hc : s.calls[call]? = some (r, .exists))
    (hn : s.Newest call r) : s.Alone call r := by
  intro j x hj hx hxh
  rcases lt_or_gt_of_ne hj with hlt | hgt
  · refine ha _ hc rfl (fun y hy => ?_) x ?_ hxh
    · obtain ⟨k, hk⟩ := mem_iff_getElem?.mp hy
      rw [getElem?_drop] at hk
      exact hn _ y (by omega) hk
    · exact mem_iff_getElem?.mpr ⟨j, by rw [getElem?_take_of_lt hlt, hx]⟩
  · exact absurd hxh (hn j x hgt hx)

theorem Orderly.alone_statement_self (o : s.Orderly) (ha : s.Awaits (.statement call))
    (hc : s.calls[call]? = some (r, pc)) (hn : s.Newest call r) :
    (s.step (.statement call)).Alone call r ∧
      Stage ((s.step (.statement call)).world.tables.rowsOf (s.hashOf r)) (s.world.heap.get r)
        (persistStep s.world.tables (s.world.heap.get r) pc).2 := by
  have hbefore : s.Alone call r ∧
      Stage (s.world.tables.rowsOf (s.hashOf r)) (s.world.heap.get r) pc := by
    by_cases hpc : pc = .exists
    · subst hpc
      exact ⟨ha.alone hc hn, trivial⟩
    · exact o.alone call r pc (getElem?_entries_of_calls hc) hn hpc
  refine ⟨fun j x hj hx => ?_, ?_⟩
  · rw [getElem?_statement_of_ne hc hj] at hx
    rw [hashOf_statement hc]
    exact hbefore.1 j x hj hx
  · rw [step_statement hc]
    exact stage_persistStep _ _ hbefore.2

/-- Another newest call: the statement was of another hash, or of a call that had finished. -/
theorem Orderly.alone_statement_of_ne (o : s.Orderly) (hc : s.calls[call]? = some (r, pc)) {i : ℕ}
    {q : Ref} {qpc : PersistPc} (hic : i ≠ call) (hi : s.entries[i]? = some (q, qpc))
    (hn : s.Newest i q) (hqpc : qpc ≠ .exists) : (s.step (.statement call)).Alone i q ∧
      Stage ((s.step (.statement call)).world.tables.rowsOf (s.hashOf q)) (s.world.heap.get q)
        qpc := by
  obtain ⟨hal, hst⟩ := o.alone i q qpc hi hn hqpc
  have hdone : s.hashOf r = s.hashOf q → pc = .done :=
    hal call _ hic.symm (getElem?_entries_of_calls hc)
  refine ⟨fun j x hj hx hxh => ?_, ?_⟩
  · rw [hashOf_statement hc] at hxh
    by_cases hjc : j = call
    · subst hjc
      obtain rfl := some.inj ((getElem?_statement_self hc).symm.trans hx)
      obtain rfl := hdone hxh
      rfl
    · exact hal j x hj ((getElem?_statement_of_ne hc hjc).symm.trans hx) hxh
  · rw [step_statement hc]
    by_cases hh : s.hashOf r = s.hashOf q
    · obtain rfl := hdone hh
      exact hst
    · have hrows := rowsOf_persistStep_of_ne s.world.tables (s.world.heap.get r) pc (Ne.symm hh)
      exact hrows ▸ hst

/-- **A statement of a call.**  The newest call of its hash, if it is to look at the rows, works
alone from now on; an older one has finished or works on rows nobody relies on yet. -/
theorem Orderly.statement (o : s.Orderly) (ha : s.Awaits (.statement call)) :
    (s.step (.statement call)).Orderly := by
  cases hc : s.calls[call]? with
  | none => simpa [step, hc] using o
  | some c =>
    obtain ⟨r, pc⟩ := c
    have hworld := congrArg Pool.world (step_statement hc)
    have hat := getElem?_entries_of_calls hc
    refine ⟨?_, by rw [hworld]; exact o.quiet, fun x hx => ?_, by rw [hworld]; exact o.live,
      fun i q qpc hi hn hqpc => ?_, fun h p hp => ?_⟩
    · rw [hworld]
      exact o.wf.beside
    · rw [hworld]
      rw [entries_statement hc] at hx
      rcases mem_or_eq_of_mem_set hx with hx | rfl
      · exact o.fresh x hx
      · exact o.fresh (r, pc) (mem_of_getElem? hat)
    · rw [newest_statement_iff hc] at hn
      rw [hashOf_statement hc, show (s.step (.statement call)).world.heap = s.world.heap by
        rw [hworld]]
      by_cases hic : i = call
      · subst hic
        obtain ⟨rfl, rfl⟩ := Prod.mk.inj (some.inj ((getElem?_statement_self hc).symm.trans hi))
        exact o.alone_statement_self ha hc hn
      · rw [getElem?_statement_of_ne hc hic] at hi
        exact o.alone_statement_of_ne hc hic hi hn hqpc
    · rw [hworld] at hp ⊢
      obtain ⟨i, q, qpc, hi, hn, hh, hflag⟩ := o.recorded h p hp
      rw [hashOf_statement hc]
      by_cases hic : i = call
      · subst hic
        obtain ⟨rfl, rfl⟩ := Prod.mk.inj (some.inj (hat.symm.trans hi))
        exact ⟨i, r, _, getElem?_statement_self hc, (newest_statement_iff hc).mpr hn, hh, hflag⟩
      · exact ⟨i, q, qpc, (getElem?_statement_of_ne hc hic).trans hi,
          (newest_statement_iff hc).mpr hn, hh, hflag⟩

end Statement

/-- **One move keeps the invariant.** -/
theorem Orderly.step (o : s.Orderly) {m : Move} (hm : Firing m ∧ s.Awaits m) :
    (s.step m).Orderly := by
  cases m with
  | update rule => exact o.advance (advances_update o.wf o.quiet o.live rule)
  | fire event =>
    obtain ⟨new, a⟩ := advances_fire o.wf o.quiet o.live hm.1.1 hm.1.2
    exact o.advance a
  | recover byRecover h now value =>
    obtain ⟨new, a⟩ := advances_recoverSingle o.wf o.quiet o.live byRecover h now value
    exact o.advance a
  | start => exact o.start
  | statement call => exact o.statement hm.2

end Step

end Pool

/-- **The table agrees with the stream.**  A processor that has pushed nothing yet fires events,
repeats them and recovers them in any order, and its events are persisted by calls whose statements
interleave in any way in which the newest event of a hash is looked up after the older calls of that
hash.  When all calls have finished, a hash whose last pushed event is a recovery has no row, and
any other pushed hash exactly one. -/
theorem rows_agree_with_pushes {w : World} (hw : w.WF) (hq : w.Quiet) (hqueue : w.queue = [])
    (hfires : w.fires = ∅) (hlog : w.log = []) {moves : List Move}
    (h : Along Pool.step (fun s m => Pool.Firing m ∧ s.Awaits m) { world := w } moves)
    (hf : (moves.foldl Pool.step { world := w }).Finished) (hash : Hash) :
    (moves.foldl Pool.step { world := w }).Agreed hash := by
  have o := h.invariant (fun _ _ hm o => Pool.Orderly.step o hm)
    (Pool.Orderly.initial hw hq hqueue hfires hlog)
  exact o.agreed hf hash

namespace Example

/-- A processor whose rule repeats every minute. -/
def repeating : World := { rule := repeatRule }

/-- An event of one alert. -/
def eventAt (now : ℤ) : AlertCurEvent :=
  { hash := "a", triggerTime := now, lastEvalTime := now }

/-- An alert and its repeat, both looked up before either is stored. -/
def bothLookedUp : List Move :=
  [.fire (eventAt 1000), .fire (eventAt 1060), .start, .start,
    .statement 0, .statement 1, .statement 0, .statement 1, .statement 0, .statement 1]

/-- An alert, its repeat and its recovery: the first two calls overlap, the third waits for them. -/
def recoveredLast : List Move :=
  [.fire (eventAt 1000), .fire (eventAt 1060), .recover false "a" 1120 none, .start, .start, .start,
    .statement 0, .statement 1, .statement 1, .statement 0, .statement 0,
    .statement 2, .statement 2, .statement 2]

end Example

open Example

/-- The recovery of an alert, looked up last, clears its row. -/
theorem rows_agree_with_pushes_recovered :
    (recoveredLast.foldl Pool.step { world := repeating }).Agreed "a" ∧
      (pushes "a" (recoveredLast.foldl Pool.step
        { world := repeating }).world.log).length = 3 :=
  ⟨rows_agree_with_pushes (WF.initial _ _ _) (fun _ => ⟨rfl, rfl⟩) rfl rfl rfl (by decide)
      (by decide)
    "a", by decide⟩

/-- **Two rows for one alert.**  An alert and its repeat are popped together; both calls find no
row, and both insert one. -/
theorem alert_stored_twice : (∀ m ∈ bothLookedUp, Pool.Firing m) ∧
      (bothLookedUp.foldl Pool.step { world := repeating }).Finished ∧
      ((bothLookedUp.foldl Pool.step
        { world := repeating }).world.tables.rowsOf "a").length = 2 ∧
      ¬ (bothLookedUp.foldl Pool.step { world := repeating }).Agreed "a" := by
  decide

end Nightingale
