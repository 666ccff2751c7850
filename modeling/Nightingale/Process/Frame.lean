import Nightingale.Process.Processor

/-!
# Process/Frame — well-formed worlds and what an operation leaves alone

The maps of a processor hold references, so an operation on one hash could in principle be felt at
another.  It is not: in a well-formed world (`World.WF`) the cell a map holds under `h` has hash
`h`, every write goes to a cell of the hash at hand, and what the three maps show of any other hash
is unchanged.  The three views

    fired    what `fires` shows            pending    what `pendings` shows
    observed what `pendingsUseByRecover` shows

are therefore the state as one hash sees it, and the later modules never look at a reference.
-/

namespace Nightingale

open List Finmap Heap

/-! ## What an evaluation can write to an event -/

namespace AlertCurEvent

/-- The part of an event that stays as it was built, until it recovers. -/
def ident (e : AlertCurEvent) : AlertCurEvent :=
  { e with
    lastEvalTime := 0
    firstEvalTime := 0
    promEvalInterval := 0
    lastSentTime := 0
    notifyCurNumber := 0
    firstTriggerTime := 0 }

/-- The part of a fired event that stays as it was pushed, until it recovers. -/
def core (e : AlertCurEvent) : AlertCurEvent :=
  { e with lastEvalTime := 0, firstEvalTime := 0, promEvalInterval := 0 }

section

variable {a b : AlertCurEvent} {β : Type*}

theorem ident_eq_of_core_eq (h : a.core = b.core) : a.ident = b.ident := by
  have hi := congrArg ident h
  exact hi

/-- A field `ident` keeps is the same in events of equal `ident`. -/
theorem proj_eq_of_ident_eq (π : AlertCurEvent → β) (hπ : ∀ e, π e.ident = π e)
    (h : a.ident = b.ident) : π a = π b := by
  rw [← hπ a, h, hπ b]

/-- A field `core` keeps is the same in events of equal `core`. -/
theorem proj_eq_of_core_eq (π : AlertCurEvent → β) (hπ : ∀ e, π e.core = π e) (h : a.core = b.core)
    : π a = π b := by
  rw [← hπ a, h, hπ b]

theorem hash_eq_of_ident_eq (h : a.ident = b.ident) : a.hash = b.hash :=
  proj_eq_of_ident_eq hash (fun _ => rfl) h

theorem isRecovered_eq_of_ident_eq (h : a.ident = b.ident) :
    a.isRecovered = b.isRecovered := proj_eq_of_ident_eq isRecovered (fun _ => rfl) h

theorem status_eq_of_ident_eq (h : a.ident = b.ident) :
    a.status = b.status := proj_eq_of_ident_eq status (fun _ => rfl) h

theorem hash_eq_of_core_eq (h : a.core = b.core) : a.hash = b.hash :=
  hash_eq_of_ident_eq (ident_eq_of_core_eq h)

end

end AlertCurEvent

open AlertCurEvent

/-! ## Maps and the heap behind them -/

/-- Every entry of the map is allocated and lies under its own hash. -/
def Owns (heap : Heap AlertCurEvent) (m : EventMap) : Prop :=
  ∀ h r, m.lookup h = some r → r < heap.next ∧ (heap.get r).hash = h

namespace Owns

variable {heap heap' : Heap AlertCurEvent} {m : EventMap}

theorem empty (heap : Heap AlertCurEvent) : Owns heap ∅ := fun h r hr => by simp at hr

section

variable {r : Ref} (ho : Owns heap m)

include ho

theorem keeps (k : heap.Keeps hash heap') : Owns heap' m := fun h r hr => by
  obtain ⟨hlt, hh⟩ := ho h r hr
  exact ⟨by rw [k.next]; exact hlt, (k.get r).trans hh⟩

theorem alloc (e : AlertCurEvent) : Owns (heap.alloc e) m := fun h r hr => by
  obtain ⟨hlt, hh⟩ := ho h r hr
  exact ⟨Nat.lt_succ_of_lt hlt, by rw [get_alloc_of_lt heap e hlt]; exact hh⟩

theorem insert (hr : r < heap.next) : Owns heap (m.insert (heap.get r).hash r) :=
  GoMap.forall_lookup_insert ⟨hr, rfl⟩ ho

theorem insert_of_get {e : AlertCurEvent} (hr : r < heap.next) (hget : heap.get r = e)
    : Owns heap (m.insert e.hash r) := by
  rw [← hget]
  exact ho.insert hr

theorem erase (k : Hash) : Owns heap (m.erase k) := fun h r hr =>
  ho h r (GoMap.lookup_erase_eq_some.mp hr).2

/-- **A write is felt under its own hash only.** -/
theorem map_get_modify_of_ne {h : Hash} (hne : h ≠ (heap.get r).hash)
    (f : AlertCurEvent → AlertCurEvent) :
    (m.lookup h).map (heap.modify r f).get = (m.lookup h).map heap.get := by
  cases hl : m.lookup h with
  | none => rfl
  | some r' =>
    have hrr : r' ≠ r := fun hrr => hne (by rw [← hrr]; exact (ho h r' hl).2.symm)
    simp [get_modify_of_ne heap f hrr]

theorem map_get_alloc (e : AlertCurEvent) (h : Hash) :
    (m.lookup h).map (heap.alloc e).get = (m.lookup h).map heap.get :=
  Option.map_congr fun r hr => get_alloc_of_lt heap e (ho h r hr).1

/-- What a map shows once one of two copies of an event lies in it. -/
theorem map_get_insert_copy {e : AlertCurEvent} (hget : ((heap.alloc e).alloc e).get r = e)
    (h : Hash) : ((m.insert e.hash r).lookup h).map ((heap.alloc e).alloc e).get
      = if h = e.hash then some e else (m.lookup h).map heap.get := by
  by_cases hh : h = e.hash
  · subst hh
    rw [lookup_insert, Option.map_some, hget, if_pos rfl]
  · rw [lookup_insert_of_ne _ hh, if_neg hh, (ho.alloc e).map_get_alloc, ho.map_get_alloc]

end

end Owns

theorem map_proj_of_keeps {β : Type*} {π : AlertCurEvent → β} {heap heap' : Heap AlertCurEvent}
    (k : heap.Keeps π heap') (o : Option Ref) :
    (o.map heap'.get).map π = (o.map heap.get).map π := by
  cases o with
  | none => rfl
  | some r => simp [k.get r]

namespace World

/-- The event `fires` shows under a hash. -/
def fired (w : World) (h : Hash) : Option AlertCurEvent := (w.fires.lookup h).map w.heap.get

/-- The event `pendings` shows under a hash. -/
def pending (w : World) (h : Hash) : Option AlertCurEvent := (w.pendings.lookup h).map w.heap.get

/-- The event `pendingsUseByRecover` shows under a hash. -/
def observed (w : World) (h : Hash) : Option AlertCurEvent :=
  (w.pendingsUseByRecover.lookup h).map w.heap.get

theorem seen_eq (w : World) (h : Hash) : w.seen h = (w.observed h).map lastEvalTime := by
  simp [seen, observed, Function.comp_def]

theorem fired_eq_none_iff (w : World) (h : Hash) : w.fired h = none ↔ h ∉ w.fires := by
  simp [fired, lookup_eq_none]

theorem pending_eq_none_iff (w : World) (h : Hash) : w.pending h = none ↔ h ∉ w.pendings := by
  simp [pending, lookup_eq_none]

theorem fired_isSome_iff (w : World) (h : Hash) : (w.fired h).isSome ↔ h ∈ w.fires := by
  simp [fired, lookup_isSome]

theorem exists_fired_of_mem {w : World} {h : Hash} (hm : h ∈ w.fires) :
    ∃ f, w.fired h = some f := Option.isSome_iff_exists.mp ((w.fired_isSome_iff h).mpr hm)

theorem mem_fires_of_fired {w : World} {h : Hash} {f : AlertCurEvent} (hf : w.fired h = some f) :
    h ∈ w.fires := (w.fired_isSome_iff h).mp (by rw [hf]; rfl)

/-- The events waiting to be persisted, oldest first. -/
def waiting (w : World) : List Ref := w.batch ++ w.queue.reverse

/-- A world whose maps lie over its heap, hash by hash. -/
structure WF (w : World) : Prop where
  fires : Owns w.heap w.fires
  pendings : Owns w.heap w.pendings
  pendingsUseByRecover : Owns w.heap w.pendingsUseByRecover
  waiting : ∀ r ∈ w.waiting, r < w.heap.next

theorem WF.initial (rule : AlertRule) (tables : Tables) (sched : ℕ → Choice) :
    WF { rule := rule, tables := tables, sched := sched } :=
  ⟨Owns.empty _, Owns.empty _, Owns.empty _, by simp [World.waiting]⟩

/-- Well-formedness is about the events, the maps and what waits. -/
theorem WF.beside {w : World} (hw : w.WF) {rule : AlertRule} {inhibit : Bool} {tables : Tables}
    {sched : ℕ → Choice} {tick : ℕ} {log : List Effect} :
    WF { w with rule, inhibit, tables, sched, tick, log } :=
  ⟨hw.fires, hw.pendings, hw.pendingsUseByRecover, hw.waiting⟩

theorem WF.hash_of_fired {w : World} (hw : w.WF) {h : Hash} {f : AlertCurEvent}
    (hf : w.fired h = some f) : f.hash = h := by
  obtain ⟨r, hr, rfl⟩ := Option.map_eq_some_iff.mp hf
  exact (hw.fires h r hr).2

theorem WF.modify {w : World} (hw : w.WF) (r : Ref) {f : AlertCurEvent → AlertCurEvent}
    (hf : ∀ e, (f e).hash = e.hash) : (w.modify r f).WF where
  fires := hw.fires.keeps (Keeps.modify _ r hf)
  pendings := hw.pendings.keeps (Keeps.modify _ r hf)
  pendingsUseByRecover := hw.pendingsUseByRecover.keeps (Keeps.modify _ r hf)
  waiting := hw.waiting

/-! ## The consumer touches only the queue and the tables -/

theorem consume_eq (n : ℕ) (w : World) :
    ∃ q b t, consume n w = { w with queue := q, batch := b, tables := t } := by
  induction n generalizing w with
  | zero => exact ⟨w.queue, w.batch, w.tables, rfl⟩
  | succ n ih =>
    obtain ⟨q, b, t, h⟩ := ih w.consumeStep
    have hstep : ∃ q b t, w.consumeStep = { w with queue := q, batch := b, tables := t } := by
      unfold consumeStep
      split
      · exact ⟨w.queue, _, _, rfl⟩
      · exact ⟨_, _, w.tables, rfl⟩
    obtain ⟨q', b', t', h'⟩ := hstep
    exact ⟨q, b, t, by rw [consume, h, h']⟩

/-- **At a yield point the processor's own state stands still.** -/
theorem yield_eq (w : World) :
    ∃ q b t, w.yield = { w with queue := q, batch := b, tables := t, tick := w.tick + 1 } := by
  obtain ⟨q, b, t, h⟩ := consume_eq (w.sched w.tick).drains { w with tick := w.tick + 1 }
  exact ⟨q, b, t, h⟩

/-- A consumer step takes at most the oldest waiting event away. -/
theorem waiting_consumeStep (w : World) :
    w.consumeStep.waiting = w.waiting ∧ w.consumeStep.tables = w.tables ∨
      ∃ r, w.waiting = r :: w.consumeStep.waiting ∧
        w.consumeStep.tables = w.tables.persist (w.heap.get r) := by
  cases hb : w.batch with
  | nil =>
    refine Or.inl ⟨?_, by simp [consumeStep, hb]⟩
    simp only [waiting, consumeStep, hb, nil_append]
    rw [← reverse_append, take_append_drop]
  | cons r rest => exact Or.inr ⟨r, by simp [waiting, consumeStep, hb], by simp [consumeStep, hb]⟩

theorem waiting_consume_suffix (n : ℕ) (w : World) : (consume n w).waiting <:+ w.waiting := by
  induction n generalizing w with
  | zero => exact suffix_refl _
  | succ n ih =>
    refine (ih w.consumeStep).trans ?_
    rcases w.waiting_consumeStep with ⟨h, -⟩ | ⟨r, h, -⟩
    · rw [h]
    · rw [h]; exact suffix_cons r _

theorem waiting_yield_suffix (w : World) : w.yield.waiting <:+ w.waiting :=
  waiting_consume_suffix _ _

theorem mem_waiting_pushFront {w : World} {r r' : Ref} (h : r' ∈ (w.pushFront r).waiting) :
    r' = r ∨ r' ∈ w.waiting := by
  have hsub := (w.waiting_yield_suffix).subset
  cases hroom : (w.sched w.tick).room with
  | true =>
    have h' : r' ∈ w.yield.waiting ∨ r' = r := by
      simpa [waiting, pushFront, hroom, or_assoc] using h
    exact h'.elim (fun hm => .inr (hsub hm)) .inl
  | false => exact .inr (hsub (by simpa [pushFront, hroom] using h))

section

variable (w : World)

@[simp] theorem yield_heap : w.yield.heap = w.heap := by
  obtain ⟨q, b, t, h⟩ := w.yield_eq; rw [h]

@[simp] theorem yield_rule : w.yield.rule = w.rule := by
  obtain ⟨q, b, t, h⟩ := w.yield_eq; rw [h]

@[simp] theorem yield_inhibit : w.yield.inhibit = w.inhibit := by
  obtain ⟨q, b, t, h⟩ := w.yield_eq; rw [h]

@[simp] theorem yield_fires : w.yield.fires = w.fires := by
  obtain ⟨q, b, t, h⟩ := w.yield_eq; rw [h]

@[simp] theorem yield_pendings : w.yield.pendings = w.pendings := by
  obtain ⟨q, b, t, h⟩ := w.yield_eq; rw [h]

@[simp] theorem yield_pendingsUseByRecover :
    w.yield.pendingsUseByRecover = w.pendingsUseByRecover := by
  obtain ⟨q, b, t, h⟩ := w.yield_eq; rw [h]

@[simp] theorem yield_log : w.yield.log = w.log := by
  obtain ⟨q, b, t, h⟩ := w.yield_eq; rw [h]

@[simp] theorem yield_sched : w.yield.sched = w.sched := by
  obtain ⟨q, b, t, h⟩ := w.yield_eq; rw [h]

theorem pushFront_eq (r : Ref) : ∃ q b t,
      w.pushFront r = { w with queue := q, batch := b, tables := t, tick := w.tick + 1 } := by
  obtain ⟨q, b, t, h⟩ := w.yield_eq
  cases hroom : (w.sched w.tick).room with
  | true => exact ⟨r :: q, b, t, by simp [pushFront, hroom, h]⟩
  | false => exact ⟨q, b, t, by simp [pushFront, hroom, h]⟩

end

section

variable (w : World) (r : Ref)

@[simp] theorem pushFront_heap : (w.pushFront r).heap = w.heap := by
  obtain ⟨q, b, t, h⟩ := w.pushFront_eq r; rw [h]

@[simp] theorem pushFront_rule : (w.pushFront r).rule = w.rule := by
  obtain ⟨q, b, t, h⟩ := w.pushFront_eq r; rw [h]

@[simp] theorem pushFront_inhibit : (w.pushFront r).inhibit = w.inhibit := by
  obtain ⟨q, b, t, h⟩ := w.pushFront_eq r; rw [h]

@[simp] theorem pushFront_fires : (w.pushFront r).fires = w.fires := by
  obtain ⟨q, b, t, h⟩ := w.pushFront_eq r; rw [h]

@[simp] theorem pushFront_pendings : (w.pushFront r).pendings = w.pendings := by
  obtain ⟨q, b, t, h⟩ := w.pushFront_eq r; rw [h]

@[simp] theorem pushFront_pendingsUseByRecover :
    (w.pushFront r).pendingsUseByRecover = w.pendingsUseByRecover := by
  obtain ⟨q, b, t, h⟩ := w.pushFront_eq r; rw [h]

@[simp] theorem pushFront_log : (w.pushFront r).log = w.log := by
  obtain ⟨q, b, t, h⟩ := w.pushFront_eq r; rw [h]

@[simp] theorem pushFront_sched : (w.pushFront r).sched = w.sched := by
  obtain ⟨q, b, t, h⟩ := w.pushFront_eq r; rw [h]

@[simp] theorem pushFront_tick : (w.pushFront r).tick = w.tick + 1 := by
  obtain ⟨q, b, t, h⟩ := w.pushFront_eq r; rw [h]

end

end World

end Nightingale
