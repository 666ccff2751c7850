import Nightingale.Denoise.Books

/-!
# Denoise/Race — one open incident per key

`Handle` looks an incident up and then writes, and nothing holds the two together.  Between them
another worker may write, in two ways that matter:

    find ── none ───────── create       another create or append in between: two open incidents
    get / find ─ x ─────── append x     x expired, another incident y created: x comes to life again

If no write comes in between, for the incidents of one rule and key, at most one of them is ever
open with its last event inside the window (`one_active_incident`).  Two workers that both find
nothing already make two (`two_open_incidents`).
-/

namespace Nightingale.Denoise

open Aggregator List Option Database Table Entry Cluster

/-! ## What a call has missed -/

namespace Entry

/-- The entry writes to the incidents of the rule and key. -/
def touches (ruleId : ℤ) (key : String) : Entry → Bool
  | .created _ _ slot | .appended _ _ slot => decide (slot.rule.id = ruleId ∧ slot.key = key)
  | _ => false

/-- The call has found no incident. -/
def misses (i : ℕ) : Entry → Bool
  | .missed j => decide (j = i)
  | _ => false

end Entry

/-- What has been recorded since a call found no incident, the latest first. -/
def since (i : ℕ) (history : List Entry) : List Entry :=
  history.reverse.takeWhile fun e => !e.misses i

theorem since_append {i : ℕ} {history new : List Entry} (h : ∀ e ∈ new, e.misses i = false) :
    since i (history ++ new) = new.reverse ++ since i history := by
  rw [since, reverse_append, takeWhile_append_of_pos]
  · rfl
  · intro e he
    rw [h e (mem_reverse.mp he)]
    rfl

/-- Nothing has been written to the key since the call found no incident. -/
def Undisturbed (ruleId : ℤ) (key : String) (i : ℕ) (history : List Entry) : Prop :=
  ∀ e ∈ since i history, e.touches ruleId key = false

instance (ruleId : ℤ) (key : String) (i : ℕ) (history : List Entry) :
    Decidable (Undisturbed ruleId key i history) :=
  inferInstanceAs (Decidable (∀ e ∈ since i history, e.touches ruleId key = false))

theorem Undisturbed.of_append {ruleId : ℤ} {key : String} {i : ℕ} {history new : List Entry}
    (hnew : ∀ e ∈ new, e.misses i = false) (h : Undisturbed ruleId key i (history ++ new)) :
    Undisturbed ruleId key i history := by
  intro e he
  refine h e ?_
  rw [since_append hnew]
  exact mem_append_right _ he

theorem not_undisturbed {ruleId : ℤ} {key : String} {i : ℕ} {history : List Entry} {e : Entry}
    (hmiss : e.misses i = false) (htouch : e.touches ruleId key = true) :
    ¬ Undisturbed ruleId key i (history ++ [e]) := by
  intro h
  have hno := h e (by rw [since_append (by simpa using hmiss)]; simp)
  rw [htouch] at hno
  cases hno

/-! ## Steps in order -/

section Key

variable (rule : CustomAggregateRule) (key : String)

/-- **The statement a call executes next comes in time** for the incidents of the key: the clock it
looked with was not ahead, an append goes to the newest incident, a creation follows an undisturbed
miss. -/
def Pc.InTime (s : Cluster) (i : ℕ) (now : ℤ) : Pc → Prop
  | .find _ => now ≤ s.clock
  | .append slot id => slot.rule.id = rule.id → slot.key = key →
      ∀ x ∈ s.db.incidents.rows, x.2.ruleId = rule.id → x.2.incidentKey = key → x.1 ≤ id
  | .create slot => slot.rule.id = rule.id → slot.key = key →
      Undisturbed rule.id key i s.history
  | _ => True

/-- A call that starts under the rule has the rule's window; a call that takes a turn is in time. -/
def Cluster.Orderly (ext : Externals) (s : Cluster) : Action → Prop
  | .start _ rules event =>
    match findSlot ext rules event with
    | .ok slot => slot.rule.id = rule.id → slot.rule.windowSec = rule.windowSec
    | .error _ => True
  | .turn i now _ => ∀ call ∈ s.calls[i]?, call.pc.InTime rule key s i now
  | _ => True

instance (s : Cluster) (i : ℕ) (now : ℤ) (pc : Pc) : Decidable (pc.InTime rule key s i now) := by
  cases pc <;> unfold Pc.InTime <;> infer_instance

instance (ext : Externals) (s : Cluster) (a : Action) : Decidable (s.Orderly rule key ext a) := by
  unfold Cluster.Orderly
  split
  · split <;> infer_instance
  · infer_instance
  · infer_instance

/-! ## The invariant -/

/-- The incident counts for the key, at a time. -/
abbrev active (now : ℤ) (inc : CustomIncident) : Bool :=
  Database.Active rule.id key rule.windowSec now inc

variable {rule key}

theorem active_iff {now : ℤ} {inc : CustomIncident} :
    active rule key now inc = true ↔ inc.ruleId = rule.id ∧ inc.incidentKey = key ∧
      inc.status = .open ∧ now - rule.windowSec ≤ inc.lastEventAt := by
  simp [active, Active]

theorem active_of_le {now now' : ℤ} (hle : now ≤ now') {inc : CustomIncident}
    (h : active rule key now' inc = true) : active rule key now inc = true := by
  obtain ⟨hr, hk, hopen, hlast⟩ := active_iff.mp h
  exact active_iff.mpr ⟨hr, hk, hopen, by omega⟩

/-- **A write that spares the key**: it makes no incident of the key, and none of them active. -/
def Database.Spares (rule : CustomAggregateRule) (key : String) (db db' : Database) : Prop :=
  ∀ x, ∀ inc' ∈ db'.incidents.get? x, inc'.ruleId = rule.id → inc'.incidentKey = key →
    ∃ inc ∈ db.incidents.get? x, inc.ruleId = rule.id ∧ inc.incidentKey = key ∧
      ∀ now, active rule key now inc' = true → active rule key now inc = true

namespace Database

theorem Spares.refl (db : Database) : db.Spares rule key db :=
  fun _ inc hinc hr hk => ⟨inc, hinc, hr, hk, fun _ h => h⟩

theorem Ends.spares {db db' : Database} (h : db.Ends db') : db.Spares rule key db' := by
  intro x inc' hinc' hr hk
  obtain ⟨inc, hinc, heq⟩ := h.exists_core hinc'
  have hr' : inc.core.ruleId = inc'.core.ruleId := congrArg CustomIncident.ruleId heq
  have hk' : inc.core.incidentKey = inc'.core.incidentKey := congrArg CustomIncident.incidentKey heq
  refine ⟨inc, hinc, hr'.trans hr, hk'.trans hk, fun now hact => ?_⟩
  have hsame := h.open x inc' hinc' (active_iff.mp hact).2.2.1
  obtain rfl : inc = inc' := some.inj (hinc.symm.trans hsame)
  exact hact

theorem spares_markStormFired (db : Database) (id : ℕ) :
    db.Spares rule key (db.markStormFired id).2 := by
  intro x inc' hinc' hr hk
  rw [mem_def, get?_markStormFired, map_eq_some_iff] at hinc'
  obtain ⟨inc, hinc, rfl⟩ := hinc'
  by_cases hx : x = id
  · rw [if_pos hx] at hr hk ⊢
    exact ⟨inc, hinc, hr, hk, fun _ h => h⟩
  · rw [if_neg hx] at hr hk ⊢
    exact ⟨inc, hinc, hr, hk, fun _ h => h⟩

theorem spares_appendEvent {db : Database} {ruleId : ℤ} {key' : String} {id : ℕ}
    (hof : db.Of ruleId key' id) (hne : ¬ (ruleId = rule.id ∧ key' = key)) (event : AlertCurEvent)
    (up : Bool) (now : ℤ) : db.Spares rule key (db.appendEvent id event up now) := by
  intro x inc' hinc' hr hk
  rw [mem_def, get?_appendEvent, map_eq_some_iff] at hinc'
  obtain ⟨inc, hinc, rfl⟩ := hinc'
  by_cases hx : x = id
  · subst hx
    obtain ⟨old, hold, hr', hk'⟩ := hof
    obtain rfl : inc = old := some.inj (hinc.symm.trans hold)
    rw [if_pos rfl] at hr hk
    exact absurd ⟨hr'.symm.trans hr, hk'.symm.trans hk⟩ hne
  · rw [if_neg hx] at hr hk ⊢
    exact ⟨inc, hinc, hr, hk, fun _ h => h⟩

theorem spares_createIncident {db : Database} {inc : CustomIncident}
    (hne : ¬ (inc.ruleId = rule.id ∧ inc.incidentKey = key)) (now : ℤ) :
    db.Spares rule key (db.createIncident now inc) := by
  intro x inc' hinc' hr hk
  rw [mem_def, get?_createIncident] at hinc'
  by_cases hx : x = db.incidents.next
  · rw [if_pos hx] at hinc'
    cases hinc'
    exact absurd ⟨hr, hk⟩ hne
  · rw [if_neg hx] at hinc'
    exact ⟨inc', hinc', hr, hk, fun _ h => h⟩

theorem inactive_of_findActiveIncident {db : Database} {now : ℤ}
    (h : db.findActiveIncident rule.id key rule.windowSec now = none) :
    ∀ x, ∀ inc ∈ db.incidents.get? x, active rule key now inc = false := by
  intro x inc hinc
  cases hn : db.incidents.newest (Active rule.id key rule.windowSec now) with
  | none =>
    have hmem := get?_eq_some_iff.mp hinc
    have := find?_eq_none.mp hn (x, inc) (mem_reverse.mpr hmem)
    simpa [active] using this
  | some y =>
    have hpos := (db.incidents.issued y (newest_eq_some_iff.mp hn).1).1
    rw [findActiveIncident, hn, filter_some, if_pos (by simpa using hpos.ne')] at h
    cases h

end Database

/-- **Only the newest incident of the key can be active**, and none is where a call is about to
create one after an undisturbed miss. -/
structure Single (rule : CustomAggregateRule) (key : String) (s : Cluster) : Prop where
  window : ∀ call ∈ s.calls, ∀ slot ∈ call.pc.slot, slot.rule.id = rule.id →
    slot.rule.windowSec = rule.windowSec
  newest : ∀ x, ∀ inc ∈ s.db.incidents.get? x, active rule key s.clock inc = true →
    ∀ y, ∀ inc' ∈ s.db.incidents.get? y, inc'.ruleId = rule.id → inc'.incidentKey = key → y ≤ x
  clear : ∀ i, ∀ call ∈ s.calls[i]?, ∀ slot, call.pc = .create slot → slot.rule.id = rule.id →
    slot.key = key → Undisturbed rule.id key i s.history →
    ∀ x, ∀ inc ∈ s.db.incidents.get? x, active rule key s.clock inc = false

section

variable {ext : Externals} {db : Database} {center : Center} {i : ℕ} {now : ℤ} {pc : Pc} {t : Turn}
  (h : Turns ext db center i now pc t)

include h

/-- A turn that neither appends to the key nor creates under it spares it. -/
theorem Turns.spares (hpc : ∀ x ∈ pc.holds, db.Of x.1.rule.id x.1.key x.2)
    (happ : ∀ slot id, pc = .append slot id → ¬ (slot.rule.id = rule.id ∧ slot.key = key))
    (hcre : ∀ slot, pc = .create slot → ¬ (slot.rule.id = rule.id ∧ slot.key = key)) :
    db.Spares rule key t.db := by
  cases h with
  | @append slot id =>
    exact spares_appendEvent (hpc (slot, id) rfl) (happ slot id rfl) _ _ _
  | @create slot => exact spares_createIncident (hcre slot rfl) now
  | @claimed slot id | @lost slot id => exact db.spares_markStormFired id
  | _ => exact Spares.refl db

theorem Turns.misses {j : ℕ} (hj : j ≠ i) : ∀ e ∈ t.entries, e.misses j = false := by
  cases h <;> simp [Turn.finish, misses, Ne.symm hj]

/-- A call that is about to create has just found nothing. -/
theorem Turns.at_create {slot : Slot} (ht : t.pc = .create slot) : pc = .find slot ∧ t.db = db ∧
      db.findActiveIncident slot.rule.id slot.key slot.rule.windowSec now = none := by
  cases h with
  | absent hnone =>
    obtain rfl := Pc.create.inj ht
    exact ⟨rfl, rfl, hnone⟩
  | _ => cases ht

end

namespace Single

variable {s s' : Cluster}

theorem window_after (h : Single rule key s) {i : ℕ} {call : Call} {t : Turn}
    (hcall : s.calls[i]? = some call) (hslot : ∀ slot ∈ t.pc.slot, call.pc.slot = some slot) :
    ∀ c ∈ (s.after i call t).calls, ∀ slot ∈ c.pc.slot, slot.rule.id = rule.id →
      slot.rule.windowSec = rule.windowSec := by
  intro c hc slot hs
  rcases mem_or_eq_of_mem_set hc with hc | rfl
  · exact h.window c hc slot hs
  · exact h.window call (mem_of_getElem? hcall) slot (hslot slot hs)

theorem spared (h : Single rule key s) (hsp : s.db.Spares rule key s'.db) (hle : s.clock ≤ s'.clock)
    (hwindow : ∀ call ∈ s'.calls, ∀ slot ∈ call.pc.slot, slot.rule.id = rule.id →
      slot.rule.windowSec = rule.windowSec)
    (hclear : ∀ i, ∀ call ∈ s'.calls[i]?, ∀ slot, call.pc = .create slot →
      slot.rule.id = rule.id → slot.key = key → Undisturbed rule.id key i s'.history →
      ∀ x, ∀ inc ∈ s.db.incidents.get? x, active rule key s.clock inc = false) :
    Single rule key s' := by
  have hback : ∀ x, ∀ inc' ∈ s'.db.incidents.get? x, active rule key s'.clock inc' = true →
      ∃ inc ∈ s.db.incidents.get? x, active rule key s.clock inc = true := by
    intro x inc' hinc' hact
    obtain ⟨hr, hk, -⟩ := active_iff.mp hact
    obtain ⟨inc, hinc, -, -, hwas⟩ := hsp x inc' hinc' hr hk
    exact ⟨inc, hinc, active_of_le hle (hwas _ hact)⟩
  refine ⟨hwindow, fun x inc' hinc' hact y incy hincy hr hk => ?_,
    fun i call hc slot hpc hr hk hund x inc' hinc' => ?_⟩
  · obtain ⟨inc, hinc, hwas⟩ := hback x inc' hinc' hact
    obtain ⟨old, hold, hr', hk', -⟩ := hsp y incy hincy hr hk
    exact h.newest x inc hinc hwas y old hold hr' hk'
  · by_contra hact
    obtain ⟨inc, hinc, hwas⟩ := hback x inc' hinc' (by simpa using hact)
    rw [hclear i call hc slot hpc hr hk hund x inc hinc] at hwas
    cases hwas

section

variable {slot : Slot} {call : Call} {now : ℤ} (h : Single rule key s)

include h

theorem append {i id : ℕ} (hcall : s.calls[i]? = some call) (hpc : call.pc = .append slot id)
    (hr : slot.rule.id = rule.id) (hk : slot.key = key) (hin : call.pc.InTime rule key s i now)
    (center : Center) : Single rule key (s.after i call
      ⟨s.db.appendEvent id slot.event center.upgradeOn now, center, .refresh slot id,
        [.appended i id slot]⟩) := by
  have htouch : (appended i id slot).touches rule.id key = true := decide_eq_true ⟨hr, hk⟩
  refine ⟨h.window_after hcall (by rw [hpc]; exact fun _ hs => hs),
    fun x inc hinc hact y incy hincy hry hky => ?_, fun j c hc slot' hpc' hr' hk' hund => ?_⟩
  · rw [Cluster.after, mem_def, get?_appendEvent, map_eq_some_iff]
      at hinc hincy
    obtain ⟨oldy, holdy, rfl⟩ := hincy
    have hkey : oldy.ruleId = rule.id ∧ oldy.incidentKey = key := by
      by_cases hy : y = id
      · rw [if_pos hy] at hry hky
        exact ⟨hry, hky⟩
      · rw [if_neg hy] at hry hky
        exact ⟨hry, hky⟩
    by_cases hx : x = id
    · rw [hpc] at hin
      rw [hx]
      exact hin hr hk (y, oldy) (get?_eq_some_iff.mp holdy) hkey.1 hkey.2
    · obtain ⟨old, hold, rfl⟩ := hinc
      rw [if_neg hx] at hact
      exact h.newest x old hold hact y oldy holdy hkey.1 hkey.2
  · exact absurd hund (not_undisturbed rfl htouch)

theorem create {i : ℕ} (hcall : s.calls[i]? = some call) (hpc : call.pc = .create slot)
    (hr : slot.rule.id = rule.id) (hk : slot.key = key) (hin : call.pc.InTime rule key s i now)
    (ext : Externals) (center : Center) : Single rule key (s.after i call
      ⟨s.db.createIncident now (slot.incident ext now), center, .link slot s.db.incidents.next now,
        [.created i s.db.incidents.next slot]⟩) := by
  have htouch : (created i s.db.incidents.next slot).touches rule.id key = true :=
    decide_eq_true ⟨hr, hk⟩
  have hund : Undisturbed rule.id key i s.history := by
    rw [hpc] at hin
    exact hin hr hk
  refine ⟨h.window_after hcall (by rw [hpc]; exact fun _ hs => hs),
    fun x inc hinc hact y incy hincy hry hky => ?_, fun j c hc slot' hpc' hr' hk' hund' => ?_⟩
  · rw [Cluster.after, mem_def, get?_createIncident] at hinc hincy
    by_cases hx : x = s.db.incidents.next
    · split at hincy
      · next hy => rw [hx, hy]
      · rw [hx]
        exact (lt_next_of_get? hincy).le
    · rw [if_neg hx] at hinc
      have hno := h.clear i call hcall slot hpc hr hk hund x inc hinc
      exact absurd (hno.symm.trans hact) Bool.false_ne_true
  · exact absurd hund' (not_undisturbed rfl htouch)

theorem clear_of_absent {ext : Externals} {i : ℕ} {t : Turn} (hcall : call ∈ s.calls)
    (ht : Turns ext s.db (s.centers call.center) i now call.pc t)
    (hin : call.pc.InTime rule key s i now) (hpc : t.pc = .create slot)
    (hr : slot.rule.id = rule.id) (hk : slot.key = key) :
    ∀ x, ∀ inc ∈ s.db.incidents.get? x, active rule key s.clock inc = false := by
  obtain ⟨hfind, -, hnone⟩ := ht.at_create hpc
  have hwin := h.window call hcall slot (by rw [hfind]; rfl) hr
  rw [hr, hk, hwin] at hnone
  rw [hfind] at hin
  intro x inc hinc
  by_contra hact
  have hwas := active_of_le hin (by simpa using hact)
  rw [inactive_of_findActiveIncident hnone x inc hinc] at hwas
  cases hwas

end

section

variable {ext : Externals} {i : ℕ} {now : ℤ} {call : Call} {t : Turn} (h : Single rule key s)
  (hh : Held s) (hcall : s.calls[i]? = some call)
  (ht : Turns ext s.db (s.centers call.center) i now call.pc t)
  (hin : call.pc.InTime rule key s i now)

include h hh hcall ht hin

theorem quiet (hsp : s.db.Spares rule key t.db) : Single rule key (s.after i call t) := by
  have hmem : call ∈ s.calls := mem_of_getElem? hcall
  have hhold := ht.holds (fun slot hs => (hh.slot call hmem slot hs).1) (hh.calls call hmem)
    (hh.index call.center)
  refine h.spared hsp le_rfl (h.window_after hcall hhold.slot) fun j c hc slot hpc hr hk hund => ?_
  rw [getElem?_after hcall] at hc
  split_ifs at hc with hj
  · cases hc
    exact h.clear_of_absent hmem ht hin hpc hr hk
  · exact h.clear j c hc slot hpc hr hk (hund.of_append (ht.misses hj))

/-- **A turn in time keeps it.** -/
theorem turn : Single rule key (s.after i call t) := by
  have hhold := hh.calls call (mem_of_getElem? hcall)
  by_cases happ : ∃ slot id, call.pc = .append slot id ∧ slot.rule.id = rule.id ∧ slot.key = key
  · obtain ⟨slot, id, hpc, hr, hk⟩ := happ
    have hgoes := ht
    rw [hpc] at hgoes
    cases hgoes with
    | append => exact h.append hcall hpc hr hk hin _
    | appendFails => exact h.quiet hh hcall ht hin (Spares.refl _)
  · by_cases hcre : ∃ slot, call.pc = .create slot ∧ slot.rule.id = rule.id ∧ slot.key = key
    · obtain ⟨slot, hpc, hr, hk⟩ := hcre
      have hgoes := ht
      rw [hpc] at hgoes
      cases hgoes with
      | create => exact h.create hcall hpc hr hk hin ext _
      | createFails => exact h.quiet hh hcall ht hin (Spares.refl _)
    · exact h.quiet hh hcall ht hin (ht.spares hhold
        (fun slot id hpc hkey => happ ⟨slot, id, hpc, hkey⟩)
        fun slot hpc hkey => hcre ⟨slot, hpc, hkey⟩)

end

/-- A call that starts with the rule's window, and does not stand before a creation. -/
theorem start (h : Single rule key s) {call : Call} {new : List Entry}
    (hwindow : ∀ slot ∈ call.pc.slot, slot.rule.id = rule.id → slot.rule.windowSec = rule.windowSec)
    (hpc : ∀ slot, call.pc ≠ .create slot) (hnew : ∀ i, ∀ e ∈ new, e.misses i = false) :
    Single rule key { s with calls := s.calls ++ [call], history := s.history ++ new } := by
  refine h.spared (Spares.refl _) le_rfl (fun c hc => ?_)
    fun i c hc slot hcpc hr hk hund => ?_
  · rcases mem_append.mp hc with hc | hc
    · exact h.window c hc
    · rw [mem_singleton.mp hc]
      exact hwindow
  · rcases mem_of_mem_concat hc with hc | rfl
    · exact h.clear i c hc slot hcpc hr hk (hund.of_append (hnew i))
    · exact absurd hcpc (hpc slot)

/-- **An orderly action keeps it.** -/
theorem moves (h : Single rule key s) (hh : Held s) {ext : Externals} {a : Action}
    (hm : Moves ext s a s') (horder : s.Orderly rule key ext a) : Single rule key s' := by
  cases hm with
  | pass hslot =>
    exact h.start (fun slot hs => absurd hs (not_mem_none slot)) (by simp)
      (by simp [misses])
  | @begins center rules event slot hslot =>
    rw [Orderly, hslot] at horder
    refine h.start (fun slot' hs => ?_) (by simp) (by simp [misses])
    cases hs
    exact horder
  | turn hcall ht => exact h.turn hh hcall ht (horder _ hcall)
  | ends hends => exact h.spared hends.spares le_rfl h.window h.clear
  | sweep => exact ⟨h.window, h.newest, h.clear⟩
  | tick =>
    exact h.spared (Database.Spares.refl _) (by simp) h.window h.clear

end Single

end Key

/-- **One open incident per key.**  In every run of any number of workers of any number of centers,
from empty tables, in which every statement comes in time for the rule and key: in every state at
most one incident of the rule and key is open with its last event inside the rule's window. -/
theorem Cluster.one_active_incident (ext : Externals) (upgradeOn : ℕ → Bool)
    (rule : CustomAggregateRule) (key : String) (actions : List Action)
    (h : Along (step ext) (Orderly rule key ext) (fresh upgradeOn) actions) :
    ∀ before rest, actions = before ++ rest →
      ∀ x ∈ ((fresh upgradeOn).run ext before).db.incidents.rows,
      ∀ y ∈ ((fresh upgradeOn).run ext before).db.incidents.rows,
        active rule key ((fresh upgradeOn).run ext before).clock x.2 = true →
        active rule key ((fresh upgradeOn).run ext before).clock y.2 = true → x = y := by
  rintro before rest rfl x hx y hy hactx hacty
  have h0 : Held (fresh upgradeOn) ∧ Single rule key (fresh upgradeOn) := by
    refine ⟨held_fresh upgradeOn, ?_, ?_, ?_⟩ <;> simp [fresh, empty, get?]
  have hrun : Held ((fresh upgradeOn).run ext before)
      ∧ Single rule key ((fresh upgradeOn).run ext before) :=
    (along_append.mp h).1.invariant (I := fun s => Held s ∧ Single rule key s)
      (fun s a hord hs => ⟨hs.1.moves (moves_step s a), hs.2.moves hs.1 (moves_step s a) hord⟩) h0
  generalize (fresh upgradeOn).run ext before = s at hrun hx hy hactx hacty
  have hgetx := get?_eq_some_iff.mpr hx
  have hgety := get?_eq_some_iff.mpr hy
  obtain ⟨hrx, hkx, -⟩ := active_iff.mp hactx
  obtain ⟨hry, hky, -⟩ := active_iff.mp hacty
  refine eq_of_key_eq hx hy (le_antisymm ?_ ?_)
  · exact hrun.2.newest y.1 y.2 hgety hacty x.1 x.2 hgetx hrx hkx
  · exact hrun.2.newest x.1 x.2 hgetx hactx y.1 y.2 hgety hry hky

namespace Example

/-- The rule of `rules`. -/
def hostRule : CustomAggregateRule := { id := 7, dimensions := "[\"host\"]" }

/-- Two workers of one center, one after the other. -/
def inTurn : List Action :=
  .tick 100 :: begins 0 "a" 2 :: takes 5 0 100 ++ begins 0 "b" 1 :: takes 5 1 100

/-- Two workers of one center that both look before either creates. -/
def atOnce : List Action :=
  .tick 100 :: begins 0 "a" 2 :: begins 0 "b" 1 ::
    takes 2 0 100 ++ takes 2 1 100 ++ takes 1 0 100 ++ takes 1 1 100

end Example

open Example

/-- Worker after worker, there is one incident. -/
theorem one_incident_in_turn : (∀ x ∈ ((fresh fun _ => true).run ext inTurn).db.incidents.rows,
      ∀ y ∈ ((fresh fun _ => true).run ext inTurn).db.incidents.rows,
        active hostRule "host=db" 100 x.2 = true →
        active hostRule "host=db" 100 y.2 = true → x = y) ∧
    ∃ x ∈ ((fresh fun _ => true).run ext inTurn).db.incidents.rows,
      active hostRule "host=db" 100 x.2 = true :=
  ⟨one_active_incident ext (fun _ => true) hostRule "host=db" inTurn
    (by decide) inTurn [] rfl, by decide⟩

/-- **Two open incidents.**  Both workers find nothing, both create. -/
theorem two_open_incidents : ¬ ∀ actions,
      ∀ x ∈ ((fresh fun _ => true).run ext actions).db.incidents.rows,
      ∀ y ∈ ((fresh fun _ => true).run ext actions).db.incidents.rows,
        active hostRule "host=db"
          ((fresh fun _ => true).run ext actions).clock x.2 = true →
        active hostRule "host=db"
          ((fresh fun _ => true).run ext actions).clock y.2 = true → x.1 = y.1 := by
  intro h
  have htwo := h atOnce
  revert htwo
  decide

end Nightingale.Denoise
