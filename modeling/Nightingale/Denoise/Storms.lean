import Mathlib.Order.Bounds.Basic
import Nightingale.Denoise.Books

/-!
# Denoise/Storms — one storm per incident, and the severity of a merge

Every center has a storm detector of its own, and each of them may cross its threshold, again and
again.  What limits the notifications is one column: `MarkStormFired` updates `storm_fired = 0` rows
only, and a call answers `Storm` only if its update changed one:

    answers Storm  ≤  storm_fired                                   `Stormed`

The severity of an incident is folded into the row by `AppendEvent`, one `CASE` at a time, so it is
the least of the severities written, in whatever order they were committed (`Severe`).
-/

namespace Nightingale.Denoise

open Aggregator List Option Database Entry Table Function Turn

/-! ## One storm -/

/-- An answer `Storm` on an incident. -/
def Entry.storms (id : ℕ) : Entry → Bool
  | .returned _ (.ok result) => decide (result.decision = .storm ∧ result.incidentId = id)
  | _ => false

/-- `storm_fired`, of an incident that may not exist. -/
def Database.stormFired (db : Database) (id : ℕ) : ℕ :=
  (db.incidents.get? id).elim 0 fun inc => inc.stormFired.toNat

namespace Database

theorem markStormFired_fst {db : Database} {id : ℕ} (h : (db.markStormFired id).1 = true) :
    ∃ inc ∈ db.incidents.get? id, inc.stormFired = false := by
  obtain ⟨⟨i, inc⟩, hmem, hi⟩ := any_eq_true.mp h
  simp only [Bool.and_eq_true, beq_iff_eq, Bool.not_eq_true'] at hi
  obtain ⟨rfl, hfired⟩ := hi
  exact ⟨inc, get?_eq_some_iff.mpr hmem, hfired⟩

theorem stormFired_markStormFired (db : Database) (i id : ℕ) : (db.markStormFired i).2.stormFired id
      = (db.incidents.get? id).elim 0 fun inc => if id = i then 1 else inc.stormFired.toNat := by
  unfold stormFired
  rw [get?_markStormFired]
  cases db.incidents.get? id with
  | none => rfl
  | some inc => by_cases h : id = i <;> simp [h]

theorem stormFired_appendEvent (db : Database) (i id : ℕ) (event : AlertCurEvent) (up : Bool)
    (now : ℤ) : (db.appendEvent i event up now).stormFired id = db.stormFired id := by
  unfold stormFired
  rw [get?_appendEvent]
  cases db.incidents.get? id with
  | none => rfl
  | some inc => by_cases hi : id = i <;> simp [hi, absorb]

theorem stormFired_le_createIncident (db : Database) (id : ℕ) (now : ℤ) (inc : CustomIncident) :
    db.stormFired id ≤ (db.createIncident now inc).stormFired id := by
  unfold stormFired
  rw [get?_createIncident]
  by_cases hi : id = db.incidents.next
  · rw [get?_eq_none_of_next_le hi.ge]
    exact Nat.zero_le _
  · rw [if_neg hi]

theorem stormFired_le_markStormFired (db : Database) (i id : ℕ) :
    db.stormFired id ≤ (db.markStormFired i).2.stormFired id := by
  rw [stormFired_markStormFired, stormFired]
  cases db.incidents.get? id with
  | none => exact le_rfl
  | some inc => by_cases hi : id = i <;> simp [hi, Bool.toNat_le]

theorem stormFired_lt_markStormFired {db : Database} {id : ℕ}
    (h : (db.markStormFired id).1 = true) :
    db.stormFired id + 1 ≤ (db.markStormFired id).2.stormFired id := by
  obtain ⟨inc, hinc, hfalse⟩ := markStormFired_fst h
  rw [stormFired_markStormFired, stormFired, mem_def.mp hinc]
  simp [hfalse]

theorem Ends.stormFired {db db' : Database} (h : db.Ends db') (id : ℕ) :
    db'.stormFired id = db.stormFired id := by
  have hcore := congrArg (Option.elim · 0 fun inc : CustomIncident => inc.stormFired.toNat)
    (h.core id)
  simp only [Option.elim_map] at hcore
  exact hcore

end Database

/-- **A turn that answers `Storm` has set `storm_fired`**, and no turn clears it. -/
theorem Turns.storms {ext : Externals} {db : Database} {center : Center} {call : ℕ} {now : ℤ}
    {pc : Pc} {t : Turn} (h : Turns ext db center call now pc t) (id : ℕ) :
    t.entries.countP (Entry.storms id) + db.stormFired id ≤ t.db.stormFired id := by
  cases h with
  | @append slot i =>
    simp [Entry.storms, db.stormFired_appendEvent]
  | create => simpa [Entry.storms] using db.stormFired_le_createIncident id now _
  | @claimed slot i hfired =>
    by_cases hi : id = i
    · subst hi
      have hlt := Database.stormFired_lt_markStormFired hfired
      simpa [finish, Entry.storms, Result.stormOn, Nat.add_comm] using hlt
    · simpa [finish, Entry.storms, Result.stormOn, Ne.symm hi]
        using db.stormFired_le_markStormFired i id
  | @lost slot i hfired =>
    simpa [finish, Entry.storms, Result.mergedInto] using db.stormFired_le_markStormFired i id
  | quiet | unmarked => simp [finish, Entry.storms, Result.mergedInto]
  | unlinked | enter => simp [finish, Entry.storms, Result.firstOf]
  | findFails | appendFails | createFails => simp [finish, Entry.storms]
  | link => simp [Entry.storms, Database.stormFired, Database.link]
  | _ => simp [Entry.storms]

/-- **As many answers `Storm` as the flag allows.** -/
def Stormed (s : Cluster) : Prop :=
  ∀ id, s.history.countP (Entry.storms id) ≤ s.db.stormFired id

theorem Stormed.moves {ext : Externals} {s s' : Cluster} {a : Action} (hm : Moves ext s a s')
    (h : Stormed s) : Stormed s' := by
  intro id
  have hid := h id
  cases hm with
  | pass hslot =>
    simp only [countP_append]
    simpa [storms, decision_of_findSlot hslot] using hid
  | begins hslot =>
    simp only [countP_append]
    simpa [storms] using hid
  | turn hcall ht =>
    have hturn := ht.storms id
    simp only [Cluster.after, countP_append]
    omega
  | ends hends => exact hid.trans (hends.stormFired id).ge
  | sweep | tick => exact hid

/-! ## The least severity -/

/-- The severities written to an incident. -/
def severities (id : ℕ) (history : List Entry) : Set ℤ :=
  {v | ∃ e ∈ written id history, e.severity = v}

theorem severities_append (id : ℕ) (xs ys : List Entry) :
    severities id (xs ++ ys) = severities id xs ∪ severities id ys := by
  ext v
  simp [severities, or_and_right, exists_or]

/-- Entries that write nothing to the incident add no severity. -/
theorem severities_append_of_quiet {id : ℕ} {entries : List Entry} (h : written id entries = [])
    (past : List Entry) : severities id (past ++ entries) = severities id past := by
  simp [severities, h]

theorem severities_append_appended (id call : ℕ) (slot : Slot) (past : List Entry) :
    severities id (past ++ [.appended call id slot])
      = insert slot.event.severity (severities id past) := by
  rw [severities_append, Set.union_comm, Set.insert_eq]
  refine congrArg (· ∪ severities id past) ?_
  simp [severities, writes]

theorem Database.severity_absorb (event : AlertCurEvent) (now : ℤ) (inc : CustomIncident) :
    (absorb event true now inc).severity = min event.severity inc.severity := by
  simp only [absorb, true_and]
  split <;> omega

/-- **A turn folds what it writes into the severity**: a new incident has that of its event, an old
one the lesser of its own and the event's. -/
theorem Turns.severity {ext : Externals} {db : Database} {center : Center} {call : ℕ} {now : ℤ}
    {pc : Pc} {t : Turn} (h : Turns ext db center call now pc t) (hup : center.upgradeOn = true)
    (id : ℕ) (past : List Entry) (hnew : db.incidents.get? id = none → written id past = [])
    (hold : ∀ inc ∈ db.incidents.get? id, IsLeast (severities id past) inc.severity) :
    ∀ inc ∈ t.db.incidents.get? id, IsLeast (severities id (past ++ t.entries)) inc.severity := by
  intro inc hinc
  cases h with
  | @append slot i =>
    rw [mem_def, get?_appendEvent, map_eq_some_iff] at hinc
    obtain ⟨old, hmem, rfl⟩ := hinc
    have hleast := hold old hmem
    by_cases hi : id = i
    · subst hi
      rw [if_pos rfl, hup, severity_absorb, severities_append_appended]
      exact hleast.insert _
    · rw [if_neg hi, severities_append_of_quiet (by simp [writes, Ne.symm hi])]
      exact hleast
  | @create slot =>
    rw [mem_def, get?_createIncident] at hinc
    by_cases hi : id = db.incidents.next
    · rw [if_pos hi] at hinc
      cases hinc
      have hset : severities id (past ++ [.created call db.incidents.next slot])
          = {slot.event.severity} := by
        rw [severities_append]
        simp [severities, writes, hi.symm, hnew (get?_eq_none_of_next_le hi.ge)]
      rw [hset]
      exact isLeast_singleton
    · rw [if_neg hi] at hinc
      rw [severities_append_of_quiet (by simp [writes, Ne.symm hi])]
      exact hold inc hinc
  | @claimed slot i hfired | @lost slot i hfired =>
    rw [finish, mem_def, get?_markStormFired, map_eq_some_iff] at hinc
    obtain ⟨old, hmem, rfl⟩ := hinc
    rw [severities_append_of_quiet rfl]
    have hsev : (if id = i then { old with stormFired := true } else old).severity
        = old.severity := by
      split <;> rfl
    rw [hsev]
    exact hold old hmem
  | _ =>
    rw [severities_append_of_quiet rfl]
    exact hold inc hinc

/-- **Every incident has the least severity written to it.** -/
structure Severe (s : Cluster) : Prop where
  up : ∀ k, (s.centers k).upgradeOn = true
  least : ∀ id, ∀ inc ∈ s.db.incidents.get? id, IsLeast (severities id s.history) inc.severity

theorem Turns.upgradeOn {ext : Externals} {db : Database} {center : Center} {call : ℕ} {now : ℤ}
    {pc : Pc} {t : Turn} (h : Turns ext db center call now pc t) :
    t.center.upgradeOn = center.upgradeOn := by
  cases h <;> rfl

theorem Counted.written_eq_nil {s : Cluster} (h : Counted s) {id : ℕ}
    (hid : s.db.incidents.get? id = none) : written id s.history = [] := by
  have hcount := h.count id
  rw [eventCount, hid, elim_none] at hcount
  exact length_eq_zero_iff.mp (by omega)

theorem Severe.moves {ext : Externals} {s s' : Cluster} {a : Action} (hm : Moves ext s a s')
    (hc : Counted s) (h : Severe s) : Severe s' := by
  cases hm with
  | pass hslot | begins hslot =>
    exact ⟨h.up, fun id inc hinc => by
      rw [severities_append_of_quiet rfl]
      exact h.least id inc hinc⟩
  | @turn i now fault call t hcall ht =>
    refine ⟨fun k => ?_, fun id => ?_⟩
    · by_cases hk : k = call.center
      · subst hk
        simpa [Cluster.after, ht.upgradeOn] using h.up call.center
      · simpa [Cluster.after, update_of_ne hk] using h.up k
    · exact ht.severity (h.up call.center) id s.history hc.written_eq_nil (h.least id)
  | @ends a db closing hends =>
    refine ⟨h.up, fun id inc hinc => ?_⟩
    obtain ⟨old, hold, heq⟩ := hends.exists_core hinc
    have hsev : old.core.severity = inc.core.severity := congrArg CustomIncident.severity heq
    have hleast := h.least id old hold
    rwa [show old.severity = inc.severity from hsev] at hleast
  | @sweep a center k hup hidx =>
    refine ⟨fun j => ?_, h.least⟩
    dsimp only
    by_cases hj : j = k
    · rw [hj, update_self, hup, h.up]
    · rw [update_of_ne hj, h.up]
  | tick => exact ⟨h.up, h.least⟩

/-- **One storm notification per incident, and the least severity.**  In every run of any number of
centers that upgrade severities, from empty tables, whatever interleaves and whatever fails: on each
incident at most one call answers `Storm`, and the incident's severity is at every time the least
among those of the event it was created with and of the events appended to it. -/
theorem Cluster.one_storm_least_severity (ext : Externals) (actions : List Action) (id : ℕ) :
    ((fresh fun _ => true).run ext actions).history.countP (Entry.storms id) ≤ 1 ∧
    ∀ inc ∈ ((fresh fun _ => true).run ext actions).db.incidents.get? id,
      IsLeast (severities id ((fresh fun _ => true).run ext actions).history) inc.severity := by
  have h0 : Held (fresh fun _ => true) ∧ Counted (fresh fun _ => true)
      ∧ Stormed (fresh fun _ => true) ∧ Severe (fresh fun _ => true) := by
    refine ⟨held_fresh _, ⟨fun _ => rfl, fun _ => rfl, fun _ => rfl⟩, fun _ => le_rfl,
      fun _ => rfl, fun id inc hinc => ?_⟩
    exact absurd hinc (not_mem_none inc)
  obtain ⟨-, -, hstorm, hsev⟩ := run_invariant
    (I := fun s => Held s ∧ Counted s ∧ Stormed s ∧ Severe s)
    (fun _ _ _ hm h => ⟨h.1.moves hm, h.2.1.moves hm h.1, h.2.2.1.moves hm,
      h.2.2.2.moves hm h.2.1⟩) h0 actions
  refine ⟨(hstorm id).trans ?_, hsev.least id⟩
  unfold stormFired
  cases ((fresh fun _ => true).run ext actions).db.incidents.get? id with
  | none => exact Nat.zero_le 1
  | some inc => exact Bool.toNat_le inc.stormFired

end Nightingale.Denoise
