import Nightingale.Process.Effects

/-!
# Process/Queue — the tables the consumer is heading for

The consumer runs at its own pace, so the table lags behind the processor.  `World.drained` is where
it is heading: the tables once everything that waits is persisted, each event as it stands now.

    tables ──persist r₁──▸ · ──persist r₂──▸ ⋯ ──persist rₙ──▸ drained     waiting = [r₁, …, rₙ]

The consumer's own steps do not move it, and under each hash only the last event counts.  What is
compared with memory is the `image` of a row: the part of an event that a restart reads back.
-/

namespace Nightingale

open AlertCurEvent List Tables

/-! ## Persisting one event -/

/-- **What the consumer leaves under each hash when it persists one event.** -/
theorem Tables.rowsOf_persist (t : Tables) (e : AlertCurEvent) (h : Hash) : (t.persist e).rowsOf h
      = if e.status = 0 ∧ e.hash = h then
          if e.isRecovered then [] else [{ e.columns with id := t.nextHisId }]
        else t.rowsOf h := by
  by_cases hs : e.status = 0
  · simp [persist, hs, rowsOf_eventPersist]
  · simp [persist, hs]

/-- Persisting events one after another, each as the heap holds it. -/
def Tables.drain (t : Tables) (heap : Heap AlertCurEvent) (refs : List Ref) : Tables :=
  refs.foldl (fun t r => t.persist (heap.get r)) t

@[simp] theorem Tables.drain_nil (t : Tables) (heap : Heap AlertCurEvent) : t.drain heap [] = t :=
  rfl

@[simp] theorem Tables.drain_cons (t : Tables) (heap : Heap AlertCurEvent) (r : Ref)
    (refs : List Ref) : t.drain heap (r :: refs) = (t.persist (heap.get r)).drain heap refs := rfl

@[simp] theorem Tables.drain_concat (t : Tables) (heap : Heap AlertCurEvent) (refs : List Ref)
    (r : Ref) : t.drain heap (refs ++ [r]) = (t.drain heap refs).persist (heap.get r) := by
  simp [drain]

theorem Tables.rowsOf_drain_of_ne {t : Tables} {heap : Heap AlertCurEvent} {refs : List Ref}
    {h : Hash} (hno : ∀ r ∈ refs, (heap.get r).hash ≠ h) :
    (t.drain heap refs).rowsOf h = t.rowsOf h := by
  induction refs using reverseRecOn with
  | nil => rfl
  | append_singleton refs r ih =>
    rw [drain_concat, rowsOf_persist, if_neg fun hr => hno r (by simp) hr.2]
    exact ih fun r' hr' => hno r' (mem_append_left _ hr')

/-- **The last event of a hash decides**: there is its row and no other, or none after a
recovery. -/
theorem Tables.rowsOf_drain (t : Tables) (heap : Heap AlertCurEvent) (refs : List Ref) (h : Hash) :
    ∃ id, (t.drain heap refs).rowsOf h =
      ((refs.map heap.get).reverse.find? fun e => e.status = 0 ∧ e.hash = h).elim (t.rowsOf h)
        fun e => if e.isRecovered then [] else [{ e.columns with id }] := by
  induction refs using reverseRecOn with
  | nil => exact ⟨0, rfl⟩
  | append_singleton refs r ih =>
    rw [drain_concat, rowsOf_persist]
    by_cases hr : (heap.get r).status = 0 ∧ (heap.get r).hash = h
    · exact ⟨(t.drain heap refs).nextHisId, by simp [hr]⟩
    · simpa [hr] using ih

namespace World

variable {w : World} {r : Ref}

/-- The tables once everything that waits is persisted. -/
def drained (w : World) : Tables := w.tables.drain w.heap w.waiting

/-- No event of a hash waits to be persisted. -/
def Settled (w : World) (h : Hash) : Prop := ∀ r ∈ w.waiting, (w.heap.get r).hash ≠ h

instance (w : World) (h : Hash) : Decidable (w.Settled h) :=
  inferInstanceAs (Decidable (∀ _ ∈ _, _))

theorem drained_of_waiting_eq_nil (h : w.waiting = []) : w.drained = w.tables := by
  simp [drained, h]

theorem drained_consumeStep (w : World) : w.consumeStep.drained = w.drained := by
  have hheap : w.consumeStep.heap = w.heap := by unfold consumeStep; split <;> rfl
  rcases w.waiting_consumeStep with ⟨hw, ht⟩ | ⟨r, hw, ht⟩
  · rw [drained, drained, hw, ht, hheap]
  · rw [drained, drained, hw, ht, hheap, drain_cons]

/-- **The consumer does not move what it is heading for.** -/
theorem drained_consume (n : ℕ) (w : World) : (consume n w).drained = w.drained := by
  induction n generalizing w with
  | zero => rfl
  | succ n ih => rw [consume, ih, drained_consumeStep]

@[simp] theorem drained_yield (w : World) : w.yield.drained = w.drained :=
  drained_consume _ { w with tick := w.tick + 1 }

/-- **An event the queue takes is persisted last.** -/
theorem drained_pushFront (hroom : (w.sched w.tick).room = true) (r : Ref) :
    (w.pushFront r).drained = w.drained.persist (w.heap.get r) := by
  have hw : (w.pushFront r).waiting = w.yield.waiting ++ [r] := by
    simp [waiting, pushFront, hroom]
  have ht : (w.pushFront r).tables = w.yield.tables := by simp [pushFront, hroom]
  rw [drained, hw, ht, pushFront_heap, drain_concat, ← drained_yield w, drained, yield_heap]

/-- The rows of a settled hash stay as they are while the consumer runs. -/
theorem Settled.rowsOf_yield {h : Hash} (hs : w.Settled h) :
    w.yield.tables.rowsOf h = w.tables.rowsOf h := by
  have hy : w.yield.Settled h := fun r hr => by
    rw [yield_heap]
    exact hs r (w.waiting_yield_suffix.subset hr)
  have hdrained := congrArg (·.rowsOf h) w.drained_yield
  exact (rowsOf_drain_of_ne hy).symm.trans (hdrained.trans (rowsOf_drain_of_ne hs))

end World

/-! ## Rows as memory would have them -/

/-- The part of an event that a row keeps and a restart reads back, times and ids aside. -/
def AlertCurEvent.image (e : AlertCurEvent) : AlertCurEvent :=
  { e.columns.db2Mem.core with id := 0, notifyRuleIds := [] }

theorem AlertCurEvent.image_eq_of_core_eq {a b : AlertCurEvent} (h : a.core = b.core) :
    a.image = b.image := by
  have hi := congrArg image h
  exact hi

/-- A field `image` keeps is the same in events of equal `image`. -/
theorem AlertCurEvent.proj_eq_of_image_eq {β : Type*} (π : AlertCurEvent → β)
    (hπ : ∀ e, π e.image = π e) {a b : AlertCurEvent} (h : a.image = b.image) : π a = π b := by
  rw [← hπ a, h, hπ b]

/-- An event that shows what another does may take its first trigger time. -/
theorem AlertCurEvent.image_firstTriggerTime {a b : AlertCurEvent} (h : a.image = b.image) :
    image { a with firstTriggerTime := b.firstTriggerTime } = a.image := by
  have htime : a.image.triggerTime = b.image.triggerTime := congrArg triggerTime h
  have hfirst : a.image.firstTriggerTime = b.image.firstTriggerTime := congrArg firstTriggerTime h
  calc image { a with firstTriggerTime := b.firstTriggerTime }
      = { a.image with firstTriggerTime :=
          if b.firstTriggerTime = 0 then a.image.triggerTime else b.firstTriggerTime } := rfl
    _ = { a.image with firstTriggerTime := a.image.firstTriggerTime } := by rw [htime, hfirst]; rfl
    _ = a.image := rfl

/-- A row shows the image of the event it was written from. -/
@[simp] theorem AlertCurEvent.image_columns (e : AlertCurEvent) (id : ℤ) :
    image { e.columns with id := id } = e.image := rfl

theorem AlertCurEvent.image_reload (c : RestartCall) (row : AlertCurEvent) :
    (c.reload row).image = row.image := by
  by_cases h : row.firstTriggerTime = 0 <;>
    simp [image, RestartCall.reload, columns, db2Mem, core, h]

/-- The rows of one rule and datasource under a hash, as images. -/
def Tables.mirror (t : Tables) (ruleId datasourceId : ℤ) (h : Hash) : List AlertCurEvent :=
  ((t.rowsOf h).filter fun row => row.ruleId = ruleId ∧ row.datasourceId = datasourceId).map image

namespace Tables

variable {ruleId datasourceId : ℤ} {h : Hash}

theorem mirror_persist (t : Tables) (e : AlertCurEvent) : (t.persist e).mirror ruleId datasourceId h
      = if e.status = 0 ∧ e.hash = h then
          if e.isRecovered = false ∧ e.ruleId = ruleId ∧ e.datasourceId = datasourceId then
            [e.image]
          else []
        else t.mirror ruleId datasourceId h := by
  rw [mirror, rowsOf_persist]
  split
  · cases e.isRecovered with
    | true => simp
    | false =>
      by_cases ho : e.ruleId = ruleId ∧ e.datasourceId = datasourceId
      · simp [columns, ho, ← image_columns e t.nextHisId]
      · simp [columns, ho]
  · rfl

/-- **What writes do to the tables ahead**: under `h` nothing, if the start agrees, the events of
hash `h` keep what they are, and an event that shows what the tables will hold goes on showing it.
-/
theorem mirror_drain_congr {t t' : Tables} {heap heap' : Heap AlertCurEvent} {refs : List Ref}
    (ht : t'.mirror ruleId datasourceId h = t.mirror ruleId datasourceId h)
    (hkeep : ∀ r ∈ refs, (heap'.get r).ident = (heap.get r).ident ∨
      (heap.get r).hash ≠ h ∧ (heap'.get r).hash ≠ h)
    (himage : ∀ r ∈ refs, (heap.get r).hash = h →
      [(heap.get r).image] = (t.drain heap refs).mirror ruleId datasourceId h →
      (heap'.get r).image = (heap.get r).image) : (t'.drain heap' refs).mirror ruleId datasourceId h
      = (t.drain heap refs).mirror ruleId datasourceId h := by
  induction refs using reverseRecOn with
  | nil => exact ht
  | append_singleton refs r ih =>
    simp only [drain_concat] at himage ⊢
    rw [mirror_persist, mirror_persist]
    rcases hkeep r (by simp) with hid | ⟨hne, hne'⟩
    · have hstatus := status_eq_of_ident_eq hid
      have hhash := hash_eq_of_ident_eq hid
      have hrec := isRecovered_eq_of_ident_eq hid
      have hrule := proj_eq_of_ident_eq AlertCurEvent.ruleId (fun _ => rfl) hid
      have hds := proj_eq_of_ident_eq AlertCurEvent.datasourceId (fun _ => rfl) hid
      rw [hstatus, hhash, hrec, hrule, hds]
      by_cases hlast : (heap.get r).status = 0 ∧ (heap.get r).hash = h
      · rw [if_pos hlast, if_pos hlast]
        by_cases hown : (heap.get r).isRecovered = false ∧ (heap.get r).ruleId = ruleId ∧
            (heap.get r).datasourceId = datasourceId
        · rw [if_pos hown, if_pos hown, himage r (by simp) hlast.2 (by
            rw [mirror_persist, if_pos hlast, if_pos hown])]
        · rw [if_neg hown, if_neg hown]
      · rw [if_neg hlast, if_neg hlast]
        refine ih (fun r' hr' => hkeep r' (mem_append_left _ hr')) fun r' hr' hh hshow => ?_
        refine himage r' (mem_append_left _ hr') hh ?_
        rw [mirror_persist, if_neg hlast]
        exact hshow
    · rw [if_neg fun hl => hne' hl.2, if_neg fun hl => hne hl.2]
      refine ih (fun r' hr' => hkeep r' (mem_append_left _ hr')) fun r' hr' hh hshow => ?_
      refine himage r' (mem_append_left _ hr') hh ?_
      rw [mirror_persist, if_neg fun hl => hne hl.2]
      exact hshow

theorem mirror_drain_of_cells {t t' : Tables} {heap heap' : Heap AlertCurEvent} {refs : List Ref}
    (ht : t'.mirror ruleId datasourceId h = t.mirror ruleId datasourceId h)
    (hcell : ∀ r ∈ refs, heap'.get r = heap.get r ∨
      (heap.get r).hash ≠ h ∧ (heap'.get r).hash ≠ h) :
    (t'.drain heap' refs).mirror ruleId datasourceId h
      = (t.drain heap refs).mirror ruleId datasourceId h :=
  mirror_drain_congr ht (fun r hr => (hcell r hr).imp_left fun heq => by rw [heq])
    fun r hr hh _ => (hcell r hr).elim (fun heq => by rw [heq]) fun hne => absurd hh hne.1

end Tables

/-- The hashes stored for the rule and datasource of a processor. -/
theorem World.mem_stored_iff (env : Env) (w : World) (h : Hash) : h ∈ (w.curEvents env).map hash
      ↔ w.tables.mirror w.rule.id env.datasourceId h ≠ [] := by
  simp only [mirror, ne_eq, map_eq_nil_iff, filter_eq_nil_iff, not_forall,
    rowsOf, mem_filter, World.curEvents, mem_map]
  constructor
  · rintro ⟨row, ⟨hrow, hown⟩, rfl⟩
    exact ⟨row, ⟨hrow, by simp⟩, by simpa using hown⟩
  · rintro ⟨row, ⟨hrow, hh⟩, hown⟩
    exact ⟨row, ⟨hrow, by simpa using hown⟩, by simpa using hh⟩

end Nightingale
