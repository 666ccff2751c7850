import Nightingale.Denoise.Workers

/-!
# Denoise/Lifecycle — an incident that has ended

An incident should leave `Open` once, and stand still afterwards.  Two statements do not ask for the
status they are to start from: `AppendEvent` updates by id whatever the status, and the update of
`incidentClose` comes after a read that only rules out `Closed`:

    Open ──MarkEventRecovered──▸ Resolved ──incidentClose──▸ Closed
      └──────incidentClose───────────────────────────────────▴    AppendEvent anywhere

A run keeps every ended incident exactly when each of those two statements comes in time.
-/

namespace Nightingale.Denoise

open Aggregator Option Example Database Table CustomIncident

/-- What stands still once an incident has ended. -/
def CustomIncident.fixed (inc : CustomIncident) : IncidentStatus × ℤ × ℤ × ℤ :=
  (inc.status, inc.eventCount, inc.severity, inc.lastEventAt)

/-- Every incident that has ended in `db` is in `db'` as it was. -/
def Database.Keeps (db db' : Database) : Prop :=
  ∀ id, ∀ inc ∈ db.incidents.get? id, inc.status ≠ .open →
    (db'.incidents.get? id).map fixed = some inc.fixed

namespace Database

variable {db db' db'' : Database}

theorem Keeps.refl (db : Database) : db.Keeps db := fun id inc hinc _ => by
  rw [mem_def.mp hinc, map_some]

theorem Keeps.trans (h₁ : db.Keeps db') (h₂ : db'.Keeps db'') : db.Keeps db'' := by
  intro id inc hinc hend
  obtain ⟨inc', hinc', hfix⟩ := map_eq_some_iff.mp (h₁ id inc hinc hend)
  have hstatus : inc'.status = inc.status := congrArg Prod.fst hfix
  have hend' : inc'.status ≠ .open := by rw [hstatus]; exact hend
  rw [h₂ id inc' hinc' hend', hfix]

theorem Keeps.of_get? (f : ℕ → CustomIncident → CustomIncident)
    (hget : ∀ i, db'.incidents.get? i = (db.incidents.get? i).map (f i))
    (hf : ∀ i inc, inc.status ≠ .open → (f i inc).fixed = inc.fixed) : db.Keeps db' := by
  intro id inc hinc hend
  rw [hget, mem_def.mp hinc, map_some, map_some, hf id inc hend]

theorem keeps_createIncident (db : Database) (now : ℤ) (inc : CustomIncident) :
    db.Keeps (db.createIncident now inc) := by
  intro id old hold _
  have hne : id ≠ db.incidents.next := (lt_next_of_get? hold).ne
  rw [get?_createIncident, if_neg hne, mem_def.mp hold, map_some]

theorem keeps_markStormFired (db : Database) (id : ℕ) : db.Keeps (db.markStormFired id).2 :=
  Keeps.of_get? (fun i inc => if i = id then { inc with stormFired := true } else inc)
    (fun i => db.get?_markStormFired i id) fun i inc _ => by
      split <;> rfl

theorem keeps_markEventRecovered (db : Database) (id : ℕ) (hash : Hash) (now : ℤ) :
    db.Keeps (db.markEventRecovered id hash now) := by
  unfold markEventRecovered
  dsimp only
  split
  · exact Keeps.refl db
  · refine Keeps.of_get? (fun i inc => if i == id && inc.status == .open then
      { inc with status := .resolved, resolvedAt := now } else inc)
      (fun i => get?_update _ _ i) fun i inc hend => ?_
    simp [hend]

/-- **An append keeps the ended incidents exactly if it goes to an open one.** -/
theorem keeps_appendEvent_iff (db : Database) (id : ℕ) (event : AlertCurEvent) (up : Bool)
    (now : ℤ) : db.Keeps (db.appendEvent id event up now)
      ↔ ∀ inc ∈ db.incidents.get? id, inc.status = .open := by
  constructor
  · intro h inc hinc
    by_contra hend
    have hfix := h id inc hinc hend
    rw [get?_appendEvent, mem_def.mp hinc, map_some, map_some, if_pos rfl] at hfix
    have hcount : inc.eventCount + 1 = inc.eventCount := congrArg (·.2.1) (some.inj hfix)
    omega
  · intro h i inc hinc hend
    have hne : i ≠ id := fun heq => hend (h inc (heq ▸ hinc))
    rw [get?_appendEvent, mem_def.mp hinc, map_some, map_some, if_neg hne]

theorem get?_setClosed (db : Database) (id i : ℕ) (now : ℤ) : (db.setClosed id now).incidents.get? i
      = (db.incidents.get? i).map fun inc =>
          if i = id then { inc with status := .closed, closedAt := now } else inc := by
  have h := get?_update (t := db.incidents) (fun id' _ => id' == id)
    (fun inc => { inc with status := .closed, closedAt := now }) i
  simp only [beq_iff_eq] at h
  exact h

/-- **A close keeps the ended incidents exactly if it does not close a resolved one.** -/
theorem keeps_setClosed_iff (db : Database) (id : ℕ) (now : ℤ) :
    db.Keeps (db.setClosed id now) ↔ ∀ inc ∈ db.incidents.get? id, inc.status ≠ .resolved := by
  constructor
  · intro h inc hinc hres
    have hfix := h id inc hinc (by rw [hres]; decide)
    rw [get?_setClosed, mem_def.mp hinc, map_some, map_some, if_pos rfl] at hfix
    have hstatus : IncidentStatus.closed = inc.status := congrArg Prod.fst (some.inj hfix)
    rw [hres] at hstatus
    cases hstatus
  · intro h i inc hinc hend
    rw [get?_setClosed, mem_def.mp hinc, map_some, map_some]
    by_cases heq : i = id
    · have hclosed : inc.status = .closed := by
        have hres := h inc (heq ▸ hinc)
        cases hs : inc.status with
        | «open» => exact absurd hs hend
        | resolved => exact absurd hs hres
        | closed => rfl
      rw [if_pos heq, fixed, fixed, hclosed]
    · rw [if_neg heq]

end Database

/-! ## Steps and runs -/

theorem Turns.keeps {ext : Externals} {db : Database} {center : Center} {call : ℕ} {now : ℤ}
    {pc : Pc} {t : Turn} (h : Turns ext db center call now pc t)
    (hpc : ∀ slot id, pc ≠ .append slot id) : db.Keeps t.db := by
  cases h with
  | append => exact absurd rfl (hpc _ _)
  | create => exact db.keeps_createIncident _ _
  | claimed | lost => exact db.keeps_markStormFired _
  | _ => exact Keeps.refl db

namespace Cluster

/-- **The statement an action executes comes in time**: an append finds its incident open, the
update of a close does not find it resolved. -/
def Timely (s : Cluster) : Action → Prop
  | .turn i _ fault => ∀ call ∈ s.calls[i]?, fault = none → ∀ slot id, call.pc = .append slot id →
      ∀ inc ∈ s.db.incidents.get? id, inc.status = .open
  | .closeUpdate close _ =>
      ∀ id ∈ s.closing[close]?, ∀ inc ∈ s.db.incidents.get? id, inc.status ≠ .resolved
  | _ => True

variable (ext : Externals)

/-- **An action keeps the ended incidents exactly if it comes in time.** -/
theorem keeps_step_iff (s : Cluster) (a : Action) : s.db.Keeps (s.step ext a).db ↔ s.Timely a := by
  cases a with
  | start center rules event =>
    refine iff_of_true ?_ trivial
    simp only [step]
    split <;> exact Keeps.refl _
  | turn i now fault =>
    cases hcall : s.calls[i]? with
    | none =>
      exact iff_of_true (by simp [step, hcall, Keeps.refl]) (by simp [Timely, hcall])
    | some call =>
      have hstep : (s.step ext (.turn i now fault)).db
          = (turn ext s.db (s.centers call.center) i now fault call.pc).db := by
        simp [step, hcall, after]
      rw [hstep]
      have hturn := turns_turn ext s.db (s.centers call.center) i now fault call.pc
      cases hpc : call.pc with
      | append slot id =>
        cases fault with
        | some err => exact iff_of_true (Keeps.refl _) (by simp [Timely, hcall])
        | none =>
          refine (s.db.keeps_appendEvent_iff id slot.event _ now).trans ?_
          simp [Timely, hcall, hpc]
      | _ =>
        rw [hpc] at hturn
        exact iff_of_true (hturn.keeps fun _ _ h => by cases h) (by simp [Timely, hcall, hpc])
  | close id =>
    refine iff_of_true ?_ trivial
    simp only [step]
    split <;> exact Keeps.refl _
  | closeUpdate close now =>
    cases hid : s.closing[close]? with
    | none => exact iff_of_true (by simp [step, hid, Keeps.refl]) (by simp [Timely, hid])
    | some id =>
      have hstep : (s.step ext (.closeUpdate close now)).db = s.db.setClosed id now := by
        simp [step, hid]
      rw [hstep, s.db.keeps_setClosed_iff]
      simp [Timely, hid]
  | markEventRecovered id hash now =>
    exact iff_of_true (s.db.keeps_markEventRecovered id hash now) trivial
  | sweep center order now maxAgeSec => exact iff_of_true (Keeps.refl _) trivial
  | tick seconds => exact iff_of_true (Keeps.refl _) trivial

theorem keeps_run {s : Cluster} {actions : List Action}
    (h : Along (step ext) Timely s actions) : s.db.Keeps (s.run ext actions).db := by
  induction actions generalizing s with
  | nil => exact Keeps.refl _
  | cons a actions ih => exact ((s.keeps_step_iff ext a).mpr h.1).trans (ih h.2)

/-- **An ended incident stands still all along a run exactly if every statement comes in time**:
between any two moments of the run, an incident that is not open at the first has at the second the
status, the event count, the severity and the last event time it had. -/
theorem ended_incidents_stand_iff (s : Cluster) (actions : List Action) :
    (∀ before between rest, actions = before ++ between ++ rest →
      (s.run ext before).db.Keeps (s.run ext (before ++ between)).db)
    ↔ Along (step ext) Timely s actions := by
  constructor
  · intro h
    induction actions generalizing s with
    | nil => trivial
    | cons a actions ih =>
      refine ⟨(s.keeps_step_iff ext a).mp (h [] [a] actions rfl),
        ih _ fun before between rest heq => ?_⟩
      exact h (a :: before) between rest (by rw [heq]; rfl)
  · rintro h before between rest rfl
    have hbetween := (along_append.mp (along_append.mp h).1).2
    have hk := keeps_run ext (s := before.foldl (step ext) s) hbetween
    rw [run, run, List.foldl_append]
    exact hk

end Cluster

/-- **A closed incident takes an event.**  The second worker has found the incident in the index;
the operator closes it; the worker appends. -/
theorem closed_incident_moves :
    ¬ ∀ actions before between rest : List Action, actions = before ++ between ++ rest →
      (({} : Cluster).run ext before).db.Keeps
        (({} : Cluster).run ext (before ++ between)).db := by
  intro h
  have hk := h _ (begins 0 "a" 2 :: takes 5 0 100 ++ begins 0 "b" 1 ::
    takes 1 1 101 ++ [.close 1, .closeUpdate 0 102]) (takes 1 1 103) [] rfl
  have hmoved := hk 1
  revert hmoved
  decide

end Nightingale.Denoise
