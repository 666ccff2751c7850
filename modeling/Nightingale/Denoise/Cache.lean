import Nightingale.Lib.Run
import Nightingale.Denoise.Aggregator

/-!
# Denoise/Cache — the index against the table

`ActiveIncidentIndex` should be invisible: a `Handle` call that hits it should answer what a
lookup in the table would have answered.  Nothing evicts an entry when its incident is closed or
resolved, so an event can still be merged into an incident that has ended.  That is the only way the
two part: while no event meets the entry of an ended incident, the answers of a run are those of the
same run without the index.

    index entry (r, k) ↦ id, t
         │  newest open incident of (r, k) is not newer than id          `Holds`
         ▼  and the row of id had its last event at t or later
    incidents of (r, k), by id:   older  ≤  …  ≤  newest open             `Coherent.ordered`
                                  last_event_at in the same order
-/

namespace Nightingale.Denoise

open Database Table Aggregator GoMap Option ActiveIncidentIndex

namespace Aggregator

/-- What is left of an aggregator without its index. -/
def visible (a : Aggregator) : Aggregator := { a with index := ∅ }

/-- **No event meets the entry of an ended incident**: a hit is a hit on an open one.  And no
statement fails where only one of the two lookups would notice: the lookup in the table, on a hit;
the append, on a miss; the join row of a new incident, when an older entry of its key is still
there. -/
structure Sound (a : Aggregator) (now : ℤ) (faults : Faults) (slot : Slot) : Prop where
  isOpen : ∀ id ∈ a.lookup now slot, ∀ inc ∈ a.db.incidents.get? id, inc.status = .open
  find : faults.find ≠ none → a.lookup now slot = none
  append : faults.append ≠ none → a.lookup now slot ≠ none
  link : faults.link ≠ none → a.index.lookup (slot.rule.id, slot.key) = none

instance (a : Aggregator) (now : ℤ) (faults : Faults) (slot : Slot) :
    Decidable (a.Sound now faults slot) :=
  decidable_of_iff
    ((∀ id ∈ a.lookup now slot, ∀ inc ∈ a.db.incidents.get? id, inc.status = .open) ∧
      (faults.find ≠ none → a.lookup now slot = none) ∧
      (faults.append ≠ none → a.lookup now slot ≠ none) ∧
      (faults.link ≠ none → a.index.lookup (slot.rule.id, slot.key) = none))
    ⟨fun ⟨h₁, h₂, h₃, h₄⟩ => ⟨h₁, h₂, h₃, h₄⟩, fun ⟨h₁, h₂, h₃, h₄⟩ => ⟨h₁, h₂, h₃, h₄⟩⟩

end Aggregator

/-! ## Runs -/

/-- An aggregator, the clock, and the answers of its `Handle` calls so far. -/
structure System where
  aggregator : Aggregator
  now : ℤ
  answers : List (Except String Result) := []

/-- What can happen to it. -/
inductive Op where
  | handle (event : Option AlertCurEvent) (faults : Faults)
  | advance (seconds : ℕ)
  | setRules (rules : List CustomAggregateRule)
  | close (id : ℕ)
  | markRecovered (id : ℕ) (hash : Hash)
  | sweep (order : MapOrder (ℤ × String)) (maxAgeSec : ℤ)
  | forget (ruleId : ℤ) (key : String)

namespace System

variable (ext : Externals)

/-- One operation. -/
def step (s : System) : Op → System
  | .handle event faults =>
    let (answer, aggregator) := s.aggregator.handle ext s.now faults event
    { s with aggregator := aggregator, answers := s.answers ++ [answer] }
  | .advance seconds => { s with now := s.now + seconds }
  | .setRules rules => { s with aggregator := { s.aggregator with rules := rules } }
  | .close id =>
    { s with aggregator := { s.aggregator with db := s.aggregator.db.incidentClose id s.now } }
  | .markRecovered id hash =>
    { s with aggregator :=
      { s.aggregator with db := s.aggregator.db.markEventRecovered id hash s.now } }
  | .sweep order maxAgeSec =>
    { s with aggregator :=
      { s.aggregator with index := (s.aggregator.index.sweep order s.now maxAgeSec).2 } }
  | .forget ruleId key =>
    { s with aggregator := { s.aggregator with index := s.aggregator.index.forget ruleId key } }

/-- The system with nothing in the index. -/
def visible (s : System) : System := { s with aggregator := s.aggregator.visible }

/-- One operation when the index always misses. -/
def stepUncached (s : System) (op : Op) : System := s.visible.step ext op

/-- The condition on a `Handle` call, in the state it is made in. -/
def Current (s : System) : Op → Prop
  | .handle event faults =>
    match findSlot ext s.aggregator.rules event with
    | .error _ => True
    | .ok slot => s.aggregator.Sound s.now faults slot
  | _ => True

instance (s : System) : (op : Op) → Decidable (s.Current ext op)
  | .handle event faults =>
    match h : findSlot ext s.aggregator.rules event with
    | .error _ => .isTrue (by simp only [Current, h])
    | .ok slot =>
      decidable_of_iff (s.aggregator.Sound s.now faults slot) (by simp only [Current, h])
  | .advance _ | .setRules _ | .close _ | .markRecovered .. | .sweep .. | .forget .. =>
    inferInstanceAs (Decidable True)

end System

/-! ## Coherence -/

/-- What an index entry says of the table. -/
def Holds (db : Database) (r : ℤ) (k : String) (e : ActiveIncidentEntry) : Prop :=
  ∃ inc, (e.incidentId, inc) ∈ db.incidents.rows ∧ inc.ruleId = r ∧ inc.incidentKey = k ∧
    e.lastEventAt ≤ inc.lastEventAt ∧
    ∀ y ∈ db.incidents.rows, y.2.ruleId = r → y.2.incidentKey = k → y.2.status = .open →
      y.1 ≤ e.incidentId

/-- No event lies in the future, and of the open incidents of a key the newer had the later last
event. -/
structure InOrder (db : Database) (now : ℤ) : Prop where
  past : ∀ x ∈ db.incidents.rows, x.2.lastEventAt ≤ now
  ordered : ∀ x ∈ db.incidents.rows, ∀ y ∈ db.incidents.rows, x.2.ruleId = y.2.ruleId →
    x.2.incidentKey = y.2.incidentKey → x.2.status = .open → y.2.status = .open → x.1 ≤ y.1 →
      x.2.lastEventAt ≤ y.2.lastEventAt

/-- …and every entry of the index but the refreshes under the empty key tells the truth. -/
structure Coherent (db : Database) (idx : ActiveIncidentIndex) (now : ℤ) : Prop
    extends InOrder db now where
  cached : ∀ r k e, k ≠ "" → idx.lookup (r, k) = some e → Holds db r k e

section Statements

variable {db : Database} {idx : ActiveIncidentIndex} {now : ℤ}

theorem Coherent.advance (h : Coherent db idx now) {now' : ℤ} (hle : now ≤ now') :
    Coherent db idx now' := ⟨⟨fun x hx => (h.past x hx).trans hle, h.ordered⟩, h.cached⟩

theorem Coherent.shrink (h : Coherent db idx now) {idx' : ActiveIncidentIndex}
    (hidx : ∀ k e, idx'.lookup k = some e → idx.lookup k = some e) : Coherent db idx' now :=
  ⟨h.toInOrder, fun r k e hk he => h.cached r k e hk (hidx _ e he)⟩

/-- The refresh of `merge` enters nothing that is ever looked up. -/
theorem Coherent.put_empty (h : Coherent db idx now) (r : ℤ) (id : ℕ) :
    Coherent db (idx.put now r "" id) now := by
  refine ⟨h.toInOrder, fun r' k e hk he => h.cached r' k e hk ?_⟩
  have hne : (r', k) ≠ (r, "") := fun heq => hk (congrArg Prod.snd heq)
  rwa [put, Finmap.lookup_insert_of_ne _ hne] at he

theorem Coherent.forget (h : Coherent db idx now) (r : ℤ) (k : String) :
    Coherent db (idx.forget r k) now := h.shrink fun _ _ he => (lookup_erase_eq_some.mp he).2

theorem Coherent.put {r : ℤ} {k : String} (h : Coherent db (idx.forget r k) now) {id : ℕ}
    (hid : Holds db r k ⟨id, now⟩) : Coherent db (idx.put now r k id) now := by
  refine ⟨h.toInOrder, fun r' k' e hk he => ?_⟩
  rcases lookup_insert_eq_some.mp he with ⟨heq, rfl⟩ | hold
  · cases heq
    exact hid
  · exact h.cached r' k' e hk (lookup_erase_eq_some.mpr hold)

/-- What may become of the row of an incident: it stays in its slot, it is not opened again, and
only the newest open incident of the slot has a new event. -/
structure Tame (db : Database) (now : ℤ) (id : ℕ) (inc inc' : CustomIncident) : Prop where
  ruleId : inc'.ruleId = inc.ruleId
  incidentKey : inc'.incidentKey = inc.incidentKey
  status : inc'.status = .open → inc.status = .open
  last : inc'.lastEventAt = inc.lastEventAt ∨ inc'.lastEventAt = now ∧
    ∀ y ∈ db.incidents.rows, y.2.ruleId = inc.ruleId → y.2.incidentKey = inc.incidentKey →
      y.2.status = .open → y.1 ≤ id

theorem Tame.refl (i : ℕ) (inc : CustomIncident) : Tame db now i inc inc :=
  ⟨rfl, rfl, fun h => h, .inl rfl⟩

/-- **An update keeps coherence when it is tame on every row it touches.** -/
theorem Coherent.update (h : Coherent db idx now) {p : ℕ → CustomIncident → Bool}
    {f : CustomIncident → CustomIncident} {l : Table CustomIncidentEvent}
    (hf : ∀ x ∈ db.incidents.rows, p x.1 x.2 → Tame db now x.1 x.2 (f x.2)) :
    Coherent ⟨db.incidents.update p f, l⟩ idx now := by
  have hnew : ∀ x ∈ db.incidents.rows, Tame db now x.1 x.2 (if p x.1 x.2 then f x.2 else x.2) := by
    intro x hx
    by_cases hp : p x.1 x.2
    · rw [if_pos hp]; exact hf x hx hp
    · rw [if_neg hp]; exact Tame.refl _ _
  have hback : ∀ x ∈ (db.incidents.update p f).rows, ∃ inc, (x.1, inc) ∈ db.incidents.rows ∧
      Tame db now x.1 inc x.2 := by
    intro x hx
    obtain ⟨inc, hinc, heq⟩ := mem_rows_update.mp (show (x.1, x.2) ∈ _ from hx)
    exact ⟨inc, hinc, heq ▸ hnew _ hinc⟩
  have hpast : ∀ x ∈ (db.incidents.update p f).rows, x.2.lastEventAt ≤ now := by
    intro x hx
    obtain ⟨inc, hinc, ht⟩ := hback x hx
    rcases ht.last with hl | ⟨hl, -⟩
    · rw [hl]; exact h.past _ hinc
    · exact hl.le
  refine ⟨⟨hpast, fun x hx y hy hr hk hxo hyo hle => ?_⟩, fun r k e hk he => ?_⟩
  · obtain ⟨a, ha, hat⟩ := hback x hx
    obtain ⟨b, hb, hbt⟩ := hback y hy
    have hab : a.ruleId = b.ruleId := hat.ruleId ▸ hbt.ruleId ▸ hr
    have hab' : a.incidentKey = b.incidentKey := hat.incidentKey ▸ hbt.incidentKey ▸ hk
    rcases hbt.last with hbl | ⟨hbl, -⟩
    · rcases hat.last with hal | ⟨-, hmax⟩
      · rw [hal, hbl]
        exact h.ordered _ ha _ hb hab hab' (hat.status hxo) (hbt.status hyo) hle
      · have heq : x.1 = y.1 := hle.antisymm (hmax (y.1, b) hb hab.symm hab'.symm (hbt.status hyo))
        rw [eq_of_key_eq hx hy heq]
    · rw [hbl]; exact hpast x hx
  · obtain ⟨inc, hinc, hr, hkey, hlast, hmax⟩ := h.cached r k e hk he
    have ht := hnew _ hinc
    refine ⟨_, mem_rows_update.mpr ⟨inc, hinc, rfl⟩, ht.ruleId.trans hr,
      ht.incidentKey.trans hkey, ?_, fun y hy hyr hyk hyo => ?_⟩
    · rcases ht.last with hl | ⟨hl, -⟩
      · rw [hl]; exact hlast
      · rw [hl]; exact hlast.trans (h.past _ hinc)
    · obtain ⟨b, hb, hbt⟩ := hback y hy
      exact hmax (y.1, b) hb (hbt.ruleId ▸ hyr) (hbt.incidentKey ▸ hyk) (hbt.status hyo)

theorem Coherent.insert (h : Coherent db idx now) {inc : CustomIncident}
    {l : Table CustomIncidentEvent} (hlast : inc.lastEventAt = now)
    (hno : idx.lookup (inc.ruleId, inc.incidentKey) = none) :
    Coherent ⟨db.incidents.insert inc, l⟩ idx now := by
  have hrows : ∀ x, x ∈ (db.incidents.insert inc).rows ↔
      x ∈ db.incidents.rows ∨ x = (db.incidents.next, inc) := fun x => mem_rows_insert
  have hpast : ∀ x ∈ (db.incidents.insert inc).rows, x.2.lastEventAt ≤ now := by
    intro x hx
    rcases (hrows x).mp hx with hx | rfl
    · exact h.past x hx
    · exact hlast.le
  refine ⟨⟨hpast, fun x hx y hy hr hk hxo hyo hle => ?_⟩, fun r k e hk he => ?_⟩
  · rcases (hrows y).mp hy with hy | rfl
    · rcases (hrows x).mp hx with hx | rfl
      · exact h.ordered x hx y hy hr hk hxo hyo hle
      · exact absurd ((db.incidents.issued y hy).2.trans_le hle) (lt_irrefl _)
    · rw [hlast]; exact hpast x hx
  · obtain ⟨i, hi, hr, hkey, hl, hmax⟩ := h.cached r k e hk he
    refine ⟨i, (hrows _).mpr (.inl hi), hr, hkey, hl, fun y hy hyr hyk hyo => ?_⟩
    rcases (hrows y).mp hy with hy | rfl
    · exact hmax y hy hyr hyk hyo
    · rw [hyr, hyk, he] at hno
      cases hno

theorem Coherent.appendEvent (h : Coherent db idx now) {id : ℕ} {inc : CustomIncident}
    (hid : (id, inc) ∈ db.incidents.rows) (hmax : ∀ y ∈ db.incidents.rows,
      y.2.ruleId = inc.ruleId → y.2.incidentKey = inc.incidentKey → y.2.status = .open → y.1 ≤ id)
    (event : AlertCurEvent) (up : Bool) : Coherent (db.appendEvent id event up now) idx now := by
  change Coherent ⟨db.incidents.update (fun i _ => i == id) (absorb event up now), _⟩ idx now
  refine h.update fun x hx hp => ?_
  obtain rfl : x = (id, inc) := eq_of_key_eq hx hid (by simpa using hp)
  exact ⟨rfl, rfl, fun ho => ho, .inr ⟨rfl, hmax⟩⟩

theorem Coherent.incidentClose (h : Coherent db idx now) (id : ℕ) (t : ℤ) :
    Coherent (db.incidentClose id t) idx now := by
  unfold Database.incidentClose
  split
  · exact h
  · split_ifs with hs
    · exact h
    · exact h.update fun _ _ _ => ⟨rfl, rfl, nofun, .inl rfl⟩

theorem Coherent.markEventRecovered (h : Coherent db idx now) (id : ℕ) (hash : Hash) (t : ℤ) :
    Coherent (db.markEventRecovered id hash t) idx now := by
  unfold Database.markEventRecovered
  dsimp only
  split_ifs with hs
  · exact ⟨⟨h.past, h.ordered⟩, h.cached⟩
  · exact h.update fun _ _ _ => ⟨rfl, rfl, nofun, .inl rfl⟩

theorem Coherent.markStormFired (h : Coherent db idx now) (id : ℕ) :
    Coherent (db.markStormFired id).2 idx now :=
  h.update fun _ _ _ => ⟨rfl, rfl, fun ho => ho, .inl rfl⟩

/-! ### The two lookups -/

theorem findActiveIncident_eq_some_iff {r w t : ℤ} {k : String} {x : ℕ × CustomIncident} :
    db.findActiveIncident r k w t = some x ↔ x ∈ db.incidents.rows ∧ Active r k w t x.2 ∧
      ∀ y ∈ db.incidents.rows, Active r k w t y.2 → y.1 ≤ x.1 := by
  rw [findActiveIncident, filter_eq_some_iff, newest_eq_some_iff]
  refine and_iff_left_of_imp fun h => ?_
  simpa using (db.incidents.issued x h.1).1.ne'

/-- What the table finds is the newest open incident of the slot: a newer one would have had a later
event. -/
theorem InOrder.newest_of_find (h : InOrder db now) {r w t : ℤ} {k : String}
    {x : ℕ × CustomIncident} (hx : db.findActiveIncident r k w t = some x) :
    ∀ y ∈ db.incidents.rows, y.2.ruleId = x.2.ruleId → y.2.incidentKey = x.2.incidentKey →
      y.2.status = .open → y.1 ≤ x.1 := by
  obtain ⟨hmem, hact, hmax⟩ := findActiveIncident_eq_some_iff.mp hx
  simp only [Active, decide_eq_true_eq] at hact hmax
  obtain ⟨hr, hk, ho, hw⟩ := hact
  intro y hy hyr hyk hyo
  rcases le_total y.1 x.1 with hle | hle
  · exact hle
  · have hlast := h.ordered x hmem y hy hyr.symm hyk.symm ho hyo hle
    exact hmax y hy ⟨hyr.trans hr, hyk.trans hk, hyo, hw.trans hlast⟩

/-- **A hit on an open incident is what the table finds.** -/
theorem Holds.find {r w t : ℤ} {k : String} {e : ActiveIncidentEntry} (h : Holds db r k e)
    (ho : ∀ inc ∈ db.incidents.get? e.incidentId, inc.status = .open) (hw : t - e.lastEventAt ≤ w) :
    ∃ inc, db.findActiveIncident r k w t = some (e.incidentId, inc) := by
  obtain ⟨inc, hinc, hr, hk, hlast, hmax⟩ := h
  have hopen := ho inc (get?_eq_some_iff.mpr hinc)
  refine ⟨inc, findActiveIncident_eq_some_iff.mpr ⟨hinc, ?_, fun y hy hact => ?_⟩⟩
  · simp only [Active, decide_eq_true_eq]
    exact ⟨hr, hk, hopen, by omega⟩
  · simp only [Active, decide_eq_true_eq] at hact
    exact hmax y hy hact.1 hact.2.1 hact.2.2.1

theorem holds_appendEvent {id : ℕ} {inc : CustomIncident} (hid : (id, inc) ∈ db.incidents.rows)
    (hmax : ∀ y ∈ db.incidents.rows, y.2.ruleId = inc.ruleId →
      y.2.incidentKey = inc.incidentKey → y.2.status = .open → y.1 ≤ id)
    (event : AlertCurEvent) (up : Bool) :
    Holds (db.appendEvent id event up now) inc.ruleId inc.incidentKey ⟨id, now⟩ := by
  refine ⟨absorb event up now inc, mem_rows_update.mpr ⟨inc, hid, by simp⟩, rfl, rfl, le_rfl,
    fun y hy hyr hyk hyo => ?_⟩
  obtain ⟨a, ha, heq⟩ := mem_rows_update.mp (show (y.1, y.2) ∈ _ from hy)
  have hsame : y.2.ruleId = a.ruleId ∧ y.2.incidentKey = a.incidentKey ∧ y.2.status = a.status := by
    rw [heq]
    split_ifs <;> exact ⟨rfl, rfl, rfl⟩
  exact hmax (y.1, a) ha (hsame.1 ▸ hyr) (hsame.2.1 ▸ hyk) (hsame.2.2 ▸ hyo)

end Statements

/-! ## One call -/

section Handle

variable {ext : Externals} {a : Aggregator} {now : ℤ} {faults : Faults}

/-- The storm count changes neither the index nor a last event. -/
theorem Coherent.observeStorm (h : Coherent a.db a.index now) (rule : CustomAggregateRule)
    (id : ℕ) :
    Coherent (a.observeStorm now faults rule id).2.db (a.observeStorm now faults rule id).2.index
      now := by
  unfold Aggregator.observeStorm
  dsimp only
  split_ifs
  · exact h.markStormFired id
  · exact h.markStormFired id
  · exact h

section

variable {event : AlertCurEvent} {rule : CustomAggregateRule} {id : ℕ} {inc : CustomIncident}
  {slot : Aggregator.Slot}

theorem Coherent.merge (hf : faults.append = none)
    (h : Coherent (a.db.appendEvent id event a.upgradeOn now) a.index now) :
    Coherent (a.merge now faults event rule id).2.db (a.merge now faults event rule id).2.index
      now := by
  unfold Aggregator.merge
  rw [hf]
  exact Coherent.observeStorm (a := { a with
    db := a.db.appendEvent id event a.upgradeOn now
    index := a.index.put now rule.id "" id }) (h.put_empty rule.id id) rule id

theorem holds_createIncident {l : Table CustomIncidentEvent} (hlast : inc.lastEventAt = now) :
    Holds ⟨a.db.incidents.insert inc, l⟩ inc.ruleId inc.incidentKey ⟨a.db.incidents.next, now⟩ := by
  refine ⟨inc, mem_rows_insert.mpr (.inr rfl), rfl, rfl, hlast.ge, fun y hy _ _ _ => ?_⟩
  rcases mem_rows_insert.mp hy with hy | rfl
  · exact (a.db.incidents.issued y hy).2.le
  · exact le_rfl

theorem stamp_lastEventAt (now : ℤ) (hf : inc.firstEventAt = now) (hl : inc.lastEventAt = now)
    : (stamp now inc).lastEventAt = now := by
  simp only [stamp, hf, hl]
  split_ifs <;> rfl

theorem Coherent.createNew (h : Coherent a.db a.index now) {dims : List String} {key : String}
    (hlink : faults.link ≠ none → a.index.lookup (rule.id, key) = none) :
    Coherent (a.createNew ext now faults event rule dims key).2.db
      (a.createNew ext now faults event rule dims key).2.index now := by
  unfold Aggregator.createNew
  split
  · exact h
  · split
    next hl =>
      exact h.insert (stamp_lastEventAt now rfl rfl) (hlink (by simp [hl]))
    next =>
      refine Coherent.put ?_ (holds_createIncident (stamp_lastEventAt now rfl rfl))
      exact (h.forget rule.id key).insert (stamp_lastEventAt now rfl rfl)
        (by simp [ActiveIncidentIndex.forget, stamp])

theorem lookup_eq_some (h : a.lookup now slot = some id) :
    ∃ e, a.index.lookup (slot.rule.id, slot.key) = some e ∧ e.incidentId = id ∧
      now - e.lastEventAt ≤ slot.rule.windowSec := by
  unfold lookup ActiveIncidentIndex.get at h
  split at h
  · cases h
  next e he =>
    split_ifs at h with hw
    exact ⟨e, he, some.inj h, not_lt.mp hw⟩

/-- **A sound call keeps coherence.** -/
theorem Coherent.resolve (h : Coherent a.db a.index now) (hkey : slot.key ≠ "")
    (hs : a.Sound now faults slot) :
    Coherent (a.resolve ext now faults slot).2.db (a.resolve ext now faults slot).2.index now := by
  unfold Aggregator.resolve
  cases hl : a.lookup now slot with
  | some id =>
    obtain ⟨e, he, rfl, -⟩ := lookup_eq_some hl
    obtain ⟨inc, hinc, hr, hk, -, hmax⟩ := h.cached _ _ e hkey he
    rw [← hr, ← hk] at hmax
    cases hf : faults.append with
    | some err => simpa [Aggregator.merge, hf] using h
    | none => exact Coherent.merge hf (h.appendEvent hinc hmax _ _)
  | none =>
    have hf : faults.append = none := by
      by_contra hne
      exact hs.append hne hl
    cases faults.find with
    | some err => exact h
    | none =>
      cases hx : a.db.findActiveIncident slot.rule.id slot.key slot.rule.windowSec now with
      | none => exact h.createNew hs.link
      | some x =>
        obtain ⟨hmem, hact, -⟩ := findActiveIncident_eq_some_iff.mp hx
        have hmax := h.newest_of_find hx
        simp only [Active, decide_eq_true_eq] at hact
        refine Coherent.merge hf (Coherent.put (h.forget _ _ |>.appendEvent hmem hmax _ _) ?_)
        have hh : Holds (a.db.appendEvent _ slot.event a.upgradeOn now) _ _ _ :=
          holds_appendEvent hmem hmax slot.event a.upgradeOn
        rwa [hact.1, hact.2.1] at hh

end

theorem merge_visible {b : Aggregator} (hab : a.visible = b.visible) (event : AlertCurEvent)
    (rule : CustomAggregateRule) (id : ℕ) :
    (a.merge now faults event rule id).1 = (b.merge now faults event rule id).1 ∧
      (a.merge now faults event rule id).2.visible
        = (b.merge now faults event rule id).2.visible := by
  obtain ⟨rules, up, db, idx, storm⟩ := a
  obtain ⟨rules', up', db', idx', storm'⟩ := b
  simp only [Aggregator.visible, Aggregator.mk.injEq] at hab
  obtain ⟨rfl, rfl, rfl, -, rfl⟩ := hab
  unfold Aggregator.merge
  cases faults.append with
  | some err => exact ⟨rfl, rfl⟩
  | none =>
    simp only [observeStorm]
    split_ifs <;> exact ⟨rfl, rfl⟩

theorem createNew_visible (a : Aggregator) (event : AlertCurEvent) (rule : CustomAggregateRule)
    (dims : List String) (key : String) : (a.visible.createNew ext now faults event rule dims key).1
        = (a.createNew ext now faults event rule dims key).1 ∧
      (a.visible.createNew ext now faults event rule dims key).2.visible
        = (a.createNew ext now faults event rule dims key).2.visible := by
  unfold createNew
  cases faults.create with
  | some err => exact ⟨rfl, rfl⟩
  | none => cases faults.link <;> exact ⟨rfl, rfl⟩

variable (ext) in
/-- **A sound call answers what the table alone would answer**, and leaves the same table. -/
theorem resolve_visible (h : Coherent a.db a.index now) {slot : Aggregator.Slot}
    (hkey : slot.key ≠ "") (hs : a.Sound now faults slot) :
    (a.visible.resolve ext now faults slot).1 = (a.resolve ext now faults slot).1 ∧
      (a.visible.resolve ext now faults slot).2.visible
        = (a.resolve ext now faults slot).2.visible := by
  have hmiss : a.visible.lookup now slot = none := by
    simp [lookup, ActiveIncidentIndex.get, visible]
  unfold resolve
  rw [hmiss]
  cases hl : a.lookup now slot with
  | none =>
    cases faults.find with
    | some err => exact ⟨rfl, rfl⟩
    | none =>
      rw [show a.visible.db = a.db from rfl]
      cases a.db.findActiveIncident slot.rule.id slot.key slot.rule.windowSec now with
      | some x => refine merge_visible ?_ _ _ _; rfl
      | none => exact createNew_visible a _ _ _ _
  | some id =>
    have hf : faults.find = none := by
      by_contra hne
      rw [hs.find hne] at hl
      cases hl
    obtain ⟨e, he, rfl, hw⟩ := lookup_eq_some hl
    obtain ⟨inc, hfind⟩ := (h.cached _ _ e hkey he).find (hs.isOpen _ hl) hw
    have hfind' : a.visible.db.findActiveIncident slot.rule.id slot.key slot.rule.windowSec now
        = some (e.incidentId, inc) := hfind
    simp only [hf, hfind']
    refine merge_visible ?_ _ _ _
    rfl

end Handle

/-! ## Whole runs -/

section Run

variable {ext : Externals}

namespace System

/-- **One operation**: coherence stays, and the system without an index keeps up. -/
theorem step_visible {s : System} (h : Coherent s.aggregator.db s.aggregator.index s.now) {op : Op}
    (hc : s.Current ext op) :
    Coherent (s.step ext op).aggregator.db (s.step ext op).aggregator.index (s.step ext op).now ∧
      (s.stepUncached ext op).visible = (s.step ext op).visible := by
  cases op with
  | handle event faults =>
    simp only [Current] at hc
    simp only [step, stepUncached, visible, handle]
    rw [show s.aggregator.visible.rules = s.aggregator.rules from rfl]
    cases ha : findSlot ext s.aggregator.rules event with
    | error result => exact ⟨h, rfl⟩
    | ok slot =>
      rw [ha] at hc
      have hkey := (of_findSlot_ok ha).2
      obtain ⟨hanswer, hleft⟩ := resolve_visible ext h hkey hc
      refine ⟨h.resolve hkey hc, ?_⟩
      rw [hanswer, hleft]
  | advance seconds => exact ⟨h.advance (by simp [step]), rfl⟩
  | setRules rules => exact ⟨h, rfl⟩
  | close id => exact ⟨h.incidentClose id s.now, rfl⟩
  | markRecovered id hash => exact ⟨h.markEventRecovered id hash s.now, rfl⟩
  | sweep order maxAgeSec =>
    refine ⟨h.shrink fun k e he => ?_, rfl⟩
    simp only [step, sweep, MapOrder.lookup_deleteWhere] at he
    exact (filter_eq_some_iff.mp he).1
  | forget ruleId key => exact ⟨h.forget ruleId key, rfl⟩

/-- **A run without the index shadows the run with it.** -/
theorem run_visible {ops : List Op} {s : System}
    (h : Coherent s.aggregator.db s.aggregator.index s.now)
    (hops : Along (step ext) (Current ext) s ops) :
    (ops.foldl (stepUncached ext) s).visible = (ops.foldl (step ext) s).visible := by
  suffices hsuff : ∀ t : System, t.visible = s.visible →
      (ops.foldl (stepUncached ext) t).visible = (ops.foldl (step ext) s).visible from hsuff s rfl
  induction ops generalizing s with
  | nil => exact fun t ht => ht
  | cons op ops ih =>
    intro t ht
    obtain ⟨hstep, hvis⟩ := step_visible h hops.1
    refine ih hstep hops.2 _ (Eq.trans ?_ hvis)
    rw [stepUncached, ht, stepUncached]

end System

/-- **The index is invisible while no event meets the entry of an ended incident.**  Start with an
empty index on tables in order, and let `Handle` calls, clock advances, rule changes, closes,
recoveries and sweeps follow in any order, every call sound in the state it is made in: the answers
are those of a run in which every lookup misses the index. -/
theorem answers_without_index {s : System} (hidx : s.aggregator.index = ∅)
    (hdb : InOrder s.aggregator.db s.now) {ops : List Op}
    (hops : Along (System.step ext) (System.Current ext) s ops) :
    (ops.foldl (System.step ext) s).answers = (ops.foldl (System.stepUncached ext) s).answers := by
  have h : Coherent s.aggregator.db s.aggregator.index s.now := by
    rw [hidx]
    exact ⟨hdb, fun r k e _ he => by simp at he⟩
  exact (congrArg System.answers (System.run_visible h hops)).symm

end Run

/-! ## An incident that absorbs events after its end -/

namespace Example

/-- One rule, no incidents. -/
def start : System where
  aggregator := { rules := [{ id := 7, dimensions := "[\"host\"]" }] }
  now := 1000

/-- An event of one host. -/
def event : Option AlertCurEvent :=
  some { hash := "e", severity := 2, tagsMap := Finmap.singleton "host" "db" }

/-- Decisions and incidents of a run. -/
def verdicts (s : System) : List (Option (Decision × ℕ)) :=
  s.answers.map fun answer => answer.toOption.map fun r => (r.decision, r.incidentId)

/-- An incident is opened, hit, left to expire, reopened as another, forgotten and closed. -/
def ended : List Op :=
  [.handle event {}, .advance 10, .handle event {}, .advance 400, .handle event {},
    .forget 7 "host=db", .close 2, .handle event {}]

/-- An incident is opened and closed. -/
def closedEarly : List Op := [.handle event {}, .close 1, .handle event {}]

end Example

open Example

/-- A run in which an entry is hit, one expires and one is forgotten. -/
theorem answers_without_index_ended : (ended.foldl (System.step ext) start).answers
        = (ended.foldl (System.stepUncached ext) start).answers ∧
      verdicts (ended.foldl (System.step ext) start)
        = [some (.fireFirst, 1), some (.merged, 1), some (.fireFirst, 2), some (.fireFirst, 3)] :=
  ⟨answers_without_index rfl ⟨by simp [start], by simp [start]⟩ (by decide), by decide⟩

/-- **An event merged into a closed incident.**  The operator closes the incident; the index still
names it, so the next event of the key is absorbed silently, where the table would have opened a new
one. -/
theorem closed_incident_absorbs : verdicts (closedEarly.foldl (System.step ext) start)
        = [some (.fireFirst, 1), some (.merged, 1)] ∧
      verdicts (closedEarly.foldl (System.stepUncached ext) start)
        = [some (.fireFirst, 1), some (.fireFirst, 2)] := by
  decide

end Nightingale.Denoise
