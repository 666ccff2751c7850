import Nightingale.Denoise.Workers

/-!
# Denoise/Books — the tables against the history

Two invariants of a cluster, whatever interleaves and whatever fails:

* `Held` — an incident id a call or an index holds is the id of an incident of that rule and key;
* `Counted` — the tables hold what the history records, incident by incident.

`CreateIncident` and the insertion of its first join row are two statements, so a created incident
passes through a state without its row, and stays in it when the second statement fails:

    created  =  linked + unlinked + calls between the two           `Counted.seeds`
    event_count  =  1 + appended      join rows  =  linked + appended
-/

namespace Nightingale.Denoise

open Aggregator List Option Function Database Entry Table

/-! ## Incidents of a rule and key -/

/-- `id` is the id of an incident of the rule and the key. -/
def Database.Of (db : Database) (ruleId : ℤ) (key : String) (id : ℕ) : Prop :=
  ∃ inc ∈ db.incidents.get? id, inc.ruleId = ruleId ∧ inc.incidentKey = key

/-- No incident is lost, or given to another rule or key. -/
def Database.Grows (db db' : Database) : Prop :=
  ∀ ruleId key id, db.Of ruleId key id → db'.Of ruleId key id

namespace Database

variable {db db' : Database}

theorem Grows.refl (db : Database) : db.Grows db := fun _ _ _ h => h

theorem Grows.of_get? (f : ℕ → CustomIncident → CustomIncident)
    (hget : ∀ i, db'.incidents.get? i = (db.incidents.get? i).map (f i))
    (hf : ∀ i inc, (f i inc).ruleId = inc.ruleId ∧ (f i inc).incidentKey = inc.incidentKey) :
    db.Grows db' := by
  rintro ruleId key id ⟨inc, hinc, hr, hk⟩
  refine ⟨f id inc, ?_, (hf id inc).1.trans hr, (hf id inc).2.trans hk⟩
  rw [hget, mem_def.mp hinc]
  rfl

theorem grows_createIncident (db : Database) (now : ℤ) (inc : CustomIncident) :
    db.Grows (db.createIncident now inc) := by
  rintro ruleId key id ⟨old, hold, hof⟩
  have hne : id ≠ db.incidents.next := (lt_next_of_get? hold).ne
  exact ⟨old, by rw [get?_createIncident, if_neg hne]; exact hold, hof⟩

theorem of_createIncident (db : Database) (now : ℤ) (inc : CustomIncident) :
    (db.createIncident now inc).Of inc.ruleId inc.incidentKey db.incidents.next :=
  ⟨stamp now inc, by rw [get?_createIncident, if_pos rfl]; rfl, rfl, rfl⟩

theorem grows_appendEvent (db : Database) (id : ℕ) (event : AlertCurEvent) (up : Bool) (now : ℤ) :
    db.Grows (db.appendEvent id event up now) :=
  Grows.of_get? (fun i inc => if i = id then absorb event up now inc else inc)
    (fun i => db.get?_appendEvent i id event up now) fun i inc => by
      split <;> exact ⟨rfl, rfl⟩

theorem grows_markStormFired (db : Database) (id : ℕ) : db.Grows (db.markStormFired id).2 :=
  Grows.of_get? (fun i inc => if i = id then { inc with stormFired := true } else inc)
    (fun i => db.get?_markStormFired i id) fun i inc => by
      split <;> exact ⟨rfl, rfl⟩

theorem findActiveIncident_of {db : Database} {ruleId : ℤ} {key : String} {windowSec now : ℤ}
    {existing : ℕ × CustomIncident}
    (h : db.findActiveIncident ruleId key windowSec now = some existing) :
    db.Of ruleId key existing.1 := by
  obtain ⟨hn, -⟩ := filter_eq_some_iff.mp h
  obtain ⟨hmem, hact, -⟩ := newest_eq_some_iff.mp hn
  simp only [Active, decide_eq_true_eq] at hact
  exact ⟨existing.2, get?_eq_some_iff.mpr hmem, hact.1, hact.2.1⟩

end Database

/-! ## Ids that are held -/

/-- What a running call looks up by. -/
def Pc.slot : Pc → Option Slot
  | .lookup slot | .find slot | .create slot => some slot
  | .adopt slot _ | .append slot _ | .refresh slot _ | .observe slot _ => some slot
  | .markStorm slot _ | .link slot _ _ | .enter slot _ => some slot
  | .returned _ => none

/-- The incident a running call works on. -/
def Pc.holds : Pc → Option (Slot × ℕ)
  | .adopt slot id | .append slot id | .refresh slot id | .observe slot id => some (slot, id)
  | .markStorm slot id | .link slot id _ | .enter slot id => some (slot, id)
  | .lookup _ | .find _ | .create _ | .returned _ => none

/-- The ids of an index are ids of incidents of their rule and key. -/
def Center.Indexes (center : Center) (db : Database) : Prop :=
  ∀ ruleId key e, center.index.lookup (ruleId, key) = some e → key ≠ "" →
    db.Of ruleId key e.incidentId

theorem Center.Indexes.put {center : Center} {db : Database} (h : center.Indexes db) {now : ℤ}
    {ruleId : ℤ} {key : String} {id : ℕ} (hof : key ≠ "" → db.Of ruleId key id) :
    Center.Indexes { center with index := center.index.put now ruleId key id } db := by
  intro r k e he hk
  rcases GoMap.lookup_insert_eq_some.mp he with ⟨heq, rfl⟩ | ⟨-, hold⟩
  · cases heq
    exact hof hk
  · exact h r k e hold hk

theorem Center.Indexes.grows {center : Center} {db db' : Database} (h : center.Indexes db)
    (hg : db.Grows db') : center.Indexes db' := fun r k e he hk => hg r k _ (h r k e he hk)

theorem Center.Indexes.get {center : Center} {db : Database} (h : center.Indexes db) {now : ℤ}
    {ruleId : ℤ} {key : String} {windowSec : ℤ} {id : ℕ} (hk : key ≠ "")
    (hget : center.index.get now ruleId key windowSec = some id) : db.Of ruleId key id := by
  unfold ActiveIncidentIndex.get at hget
  split at hget
  · cases hget
  · next e he =>
    split_ifs at hget
    cases hget
    exact h ruleId key e he hk

/-- A turn of a call whose slot has a key: it works on a known incident then as before, its index
knows its incidents, and no incident is lost. -/
structure Turn.Holds (db : Database) (pc : Pc) (t : Turn) : Prop where
  grows : db.Grows t.db
  slot : ∀ slot ∈ t.pc.slot, pc.slot = some slot
  calls : ∀ x ∈ t.pc.holds, t.db.Of x.1.rule.id x.1.key x.2
  index : t.center.Indexes t.db

theorem Turn.Holds.finish {db db' : Database} {center : Center} {pc : Pc} (hg : db.Grows db')
    (hidx : center.Indexes db') (call : ℕ) (result : Except String Result) (entries : List Entry) :
    Turn.Holds db pc (Turn.finish db' center call result entries) where
  grows := hg
  slot slot h := absurd h (not_mem_none slot)
  calls x h := absurd h (not_mem_none x)
  index := hidx

theorem Turns.holds {ext : Externals} {db : Database} {center : Center} {call : ℕ} {now : ℤ}
    {pc : Pc} {t : Turn} (h : Turns ext db center call now pc t)
    (hkey : ∀ slot ∈ pc.slot, slot.key ≠ "") (hpc : ∀ x ∈ pc.holds, db.Of x.1.rule.id x.1.key x.2)
    (hidx : center.Indexes db) : Turn.Holds db pc t := by
  cases h with
  | hit h =>
    refine ⟨.refl db, fun _ h => h, fun x hx => ?_, hidx⟩
    cases hx
    exact hidx.get (hkey _ rfl) h
  | miss => exact ⟨.refl db, fun _ h => h, fun x hx => absurd hx (not_mem_none x), hidx⟩
  | found h =>
    refine ⟨.refl db, fun _ h => h, fun x hx => ?_, hidx⟩
    cases hx
    exact findActiveIncident_of h
  | absent h => exact ⟨.refl db, fun _ h => h, fun x hx => absurd hx (not_mem_none x), hidx⟩
  | adopt => exact ⟨.refl db, fun _ h => h, hpc, hidx.put fun _ => hpc _ rfl⟩
  | @append slot id =>
    have hg := db.grows_appendEvent id slot.event center.upgradeOn now
    exact ⟨hg, fun _ h => h, fun x hx => hg _ _ _ (hpc x hx), hidx.grows hg⟩
  | refresh => exact ⟨.refl db, fun _ h => h, hpc, hidx.put fun h => absurd rfl h⟩
  | storm => exact ⟨.refl db, fun _ h => h, hpc, hidx⟩
  | @claimed _ id _ | @lost _ id _ =>
    have hg := db.grows_markStormFired id
    exact .finish hg (hidx.grows hg) _ _ _
  | @create slot =>
    have hg := db.grows_createIncident now (slot.incident ext now)
    refine ⟨hg, fun _ h => h, fun x hx => ?_, hidx.grows hg⟩
    cases hx
    exact db.of_createIncident now _
  | link => exact ⟨.refl db, fun _ h => h, hpc, hidx⟩
  | enter => exact .finish (.refl db) (hidx.put fun _ => hpc _ rfl) _ _ _
  | done => exact ⟨.refl db, fun _ h => h, hpc, hidx⟩
  | @quiet _ _ detector =>
    have hquiet : Center.Indexes { center with storm := detector } db := hidx
    exact .finish (.refl db) hquiet _ _ _
  | unmarked | unlinked | findFails | appendFails | createFails =>
    exact .finish (.refl db) hidx _ _ _

/-- **Ids that are held are ids of incidents** of the rule and key they are held under. -/
structure Held (s : Cluster) : Prop where
  slot : ∀ call ∈ s.calls, ∀ slot ∈ call.pc.slot, slot.key ≠ "" ∧ call.event = some slot.event
  calls : ∀ call ∈ s.calls, ∀ x ∈ call.pc.holds, s.db.Of x.1.rule.id x.1.key x.2
  index : ∀ k, (s.centers k).Indexes s.db

/-! ## What an action can do -/

/-- The join rows of an incident, by the hashes they carry. -/
def Database.joins (db : Database) (id : ℕ) : List Hash :=
  (db.links.rows.filter fun row => row.2.incidentId == id).map fun row => row.2.eventHash

/-- An incident without its status. -/
def CustomIncident.core (inc : CustomIncident) : CustomIncident :=
  { inc with status := .open, resolvedAt := 0, closedAt := 0 }

/-- **A write that only ends incidents**: it changes statuses, away from `Open`, and marks join rows
as recovered. -/
structure Database.Ends (db db' : Database) : Prop where
  core : ∀ id, (db'.incidents.get? id).map CustomIncident.core
    = (db.incidents.get? id).map CustomIncident.core
  «open» : ∀ id, ∀ inc ∈ db'.incidents.get? id, inc.status = .open →
    db.incidents.get? id = some inc
  next : db'.incidents.next = db.incidents.next
  joins : ∀ id, db'.joins id = db.joins id

namespace Database

theorem joins_insert (db : Database) (id i : ℕ) (event : AlertCurEvent) (now : ℤ) :
    (db.link i event now).joins id = db.joins id ++ if i = id then [event.hash] else [] := by
  by_cases h : i = id <;> simp [joins, link, Table.insert, filter_append, h]

theorem joins_updated (db : Database) (p : ℕ → CustomIncidentEvent → Bool) (id : ℕ) :
    (({ db with links := db.links.update p fun row => { row with isRecovered := true } } :
      Database).joins id) = db.joins id := by
  simp only [joins, Table.update, List.filter_map, List.map_map]
  refine congrArg₂ map (funext fun row => ?_)
    (congrArg (List.filter · _) (funext fun row => ?_))
  · simp only [comp]
    split <;> rfl
  · simp only [comp]
    split <;> rfl

theorem Ends.of_update (db : Database) {links : Table CustomIncidentEvent}
    (hlinks : ∀ id, Database.joins { db with links := links } id = db.joins id)
    (p : ℕ → CustomIncident → Bool) (f : CustomIncident → CustomIncident)
    (hcore : ∀ inc, (f inc).core = inc.core) (hends : ∀ inc, (f inc).status ≠ .open) :
    db.Ends { incidents := db.incidents.update p f, links := links } where
  core id := by
    rw [Table.get?_update, Option.map_map]
    refine Option.map_congr fun inc _ => ?_
    simp only [comp]
    split
    · exact hcore inc
    · rfl
  «open» id inc hinc hopen := by
    rw [Option.mem_def, Table.get?_update, Option.map_eq_some_iff] at hinc
    obtain ⟨old, hold, rfl⟩ := hinc
    split at hopen
    · exact absurd hopen (hends old)
    · next hp => rw [hold, if_neg hp]
  next := rfl
  joins := hlinks

theorem Ends.refl (db : Database) : db.Ends db :=
  ⟨fun _ => rfl, fun _ _ h _ => h, rfl, fun _ => rfl⟩

theorem ends_setClosed (db : Database) (id : ℕ) (now : ℤ) : db.Ends (db.setClosed id now) :=
  Ends.of_update db (fun _ => rfl) _ _ (fun _ => rfl) fun _ => by simp

theorem ends_markEventRecovered (db : Database) (id : ℕ) (hash : Hash) (now : ℤ) :
    db.Ends (db.markEventRecovered id hash now) := by
  unfold markEventRecovered
  dsimp only
  split
  · exact ⟨fun _ => rfl, fun _ _ h _ => h, rfl, db.joins_updated _⟩
  · exact Ends.of_update db (db.joins_updated _) _ _ (fun _ => rfl) fun _ => by simp

theorem Ends.exists_core {db db' : Database} (h : db.Ends db') {id : ℕ} {inc' : CustomIncident}
    (hinc' : inc' ∈ db'.incidents.get? id) :
    ∃ inc ∈ db.incidents.get? id, inc.core = inc'.core := by
  have hcore := h.core id
  rw [mem_def.mp hinc', map_some, eq_comm, map_eq_some_iff] at hcore
  exact hcore

theorem Ends.grows {db db' : Database} (h : db.Ends db') : db.Grows db' := by
  rintro ruleId key id ⟨inc, hinc, hof⟩
  have hcore := h.core id
  rw [mem_def.mp hinc, map_some, map_eq_some_iff] at hcore
  obtain ⟨inc', hinc', heq⟩ := hcore
  have hr : inc'.core.ruleId = inc.core.ruleId := congrArg CustomIncident.ruleId heq
  have hk : inc'.core.incidentKey = inc.core.incidentKey := congrArg CustomIncident.incidentKey heq
  exact ⟨inc', hinc', hr.trans hof.1, hk.trans hof.2⟩

end Database

/-- **What an action can do to a cluster.**  A call starts, with or without a rule for its event; a
call takes a turn; incidents end; index entries are swept; time passes. -/
inductive Moves (ext : Externals) (s : Cluster) : Action → Cluster → Prop
  | pass {center : ℕ} {rules : List CustomAggregateRule} {event : Option AlertCurEvent}
      {result : Result} (h : findSlot ext rules event = .error result) :
      Moves ext s (.start center rules event)
        { s with
          calls := s.calls ++ [⟨center, event, .returned (.ok result)⟩]
          history := s.history ++ [.delivered event, .returned s.calls.length (.ok result)] }
  | begins {center : ℕ} {rules : List CustomAggregateRule} {event : Option AlertCurEvent}
      {slot : Slot} (h : findSlot ext rules event = .ok slot) :
      Moves ext s (.start center rules event)
        { s with
          calls := s.calls ++ [⟨center, event, .lookup slot⟩]
          history := s.history ++ [.delivered event] }
  | turn {i : ℕ} {now : ℤ} {fault : Option String} {call : Call} {t : Turn}
      (hcall : s.calls[i]? = some call)
      (ht : Turns ext s.db (s.centers call.center) i now call.pc t) :
      Moves ext s (.turn i now fault) (s.after i call t)
  | ends {a : Action} {db : Database} {closing : List ℕ} (h : s.db.Ends db) :
      Moves ext s a { s with db := db, closing := closing }
  | sweep {a : Action} {center : Center} {k : ℕ}
      (hup : center.upgradeOn = (s.centers k).upgradeOn)
      (hidx : ∀ x e, center.index.lookup x = some e → (s.centers k).index.lookup x = some e) :
      Moves ext s a { s with centers := update s.centers k center }
  | tick {seconds : ℕ} : Moves ext s (.tick seconds) { s with clock := s.clock + seconds }

namespace Cluster

variable {ext : Externals}

theorem moves_step (s : Cluster) (a : Action) : Moves ext s a (s.step ext a) := by
  cases a with
  | start center rules event =>
    cases h : findSlot ext rules event with
    | error result => simpa only [step, h] using Moves.pass h
    | ok slot => simpa only [step, h] using Moves.begins h
  | turn i now fault =>
    cases hcall : s.calls[i]? with
    | none => simpa only [step, hcall] using Moves.ends (Ends.refl s.db)
    | some call =>
      simpa only [step, hcall] using Moves.turn hcall (turns_turn ext _ _ i now fault call.pc)
  | close id =>
    simp only [step]
    split <;> exact .ends (Ends.refl s.db)
  | closeUpdate close now =>
    simp only [step]
    split
    · exact .ends (Ends.refl s.db)
    · exact .ends (s.db.ends_setClosed _ now)
  | markEventRecovered id hash now => exact .ends (s.db.ends_markEventRecovered id hash now)
  | sweep center order now maxAgeSec =>
    refine .sweep rfl fun x e he => ?_
    rw [ActiveIncidentIndex.sweep, MapOrder.lookup_deleteWhere] at he
    exact (filter_eq_some_iff.mp he).1
  | tick seconds => exact .tick

theorem getElem?_after {s : Cluster} {i : ℕ} {call : Call} (hcall : s.calls[i]? = some call)
    (t : Turn) (j : ℕ) : (s.after i call t).calls[j]?
      = if j = i then some { call with pc := t.pc } else s.calls[j]? := by
  have hlt : i < s.calls.length := (List.getElem?_eq_some_iff.mp hcall).1
  rw [after, getElem?_set]
  by_cases h : i = j
  · rw [if_pos h, if_pos (h ▸ hlt), if_pos h.symm]
  · rw [if_neg h, if_neg (Ne.symm h)]

/-- **What every move keeps holds all along a run.** -/
theorem run_invariant {I : Cluster → Prop} (hmove : ∀ s a s', Moves ext s a s' → I s → I s')
    {s : Cluster} (hs : I s) (actions : List Action) : I (s.run ext actions) := by
  induction actions using reverseRecOn with
  | nil => exact hs
  | append_singleton actions a ih =>
    rw [run_concat]
    exact hmove _ a _ (moves_step _ a) ih

end Cluster

theorem mem_concat {calls : List Call} {i : ℕ} {call : Call} (h : call ∈ calls[i]?) (new : Call) :
    call ∈ (calls ++ [new])[i]? := by
  have hlt : i < calls.length := (List.getElem?_eq_some_iff.mp h).1
  rw [getElem?_append_left hlt]
  exact h

theorem mem_of_mem_concat {calls : List Call} {i : ℕ} {call new : Call}
    (h : call ∈ (calls ++ [new])[i]?) : call ∈ calls[i]? ∨ call = new := by
  by_cases hlt : i < calls.length
  · rw [getElem?_append_left hlt] at h
    exact .inl h
  · rw [getElem?_append_right (not_lt.mp hlt)] at h
    exact .inr (mem_singleton.mp (mem_of_getElem? h))

namespace Held

variable {s : Cluster}

theorem start (h : Held s) {call : Call} (history : List Entry)
    (hslot : ∀ slot ∈ call.pc.slot, slot.key ≠ "" ∧ call.event = some slot.event)
    (hpc : call.pc.holds = none) :
    Held { s with calls := s.calls ++ [call], history := history } := by
  refine ⟨fun c hc slot hs => ?_, fun c hc x hx => ?_, h.index⟩
  · rcases mem_append.mp hc with hc | hc
    · exact h.slot c hc slot hs
    · obtain rfl := mem_singleton.mp hc
      exact hslot slot hs
  · rcases mem_append.mp hc with hc | hc
    · exact h.calls c hc x hx
    · obtain rfl := mem_singleton.mp hc
      rw [hpc] at hx
      exact absurd hx (not_mem_none x)

/-- **Every move keeps it.** -/
theorem moves {ext : Externals} {s' : Cluster} {a : Action} (hm : Moves ext s a s')
    (h : Held s) : Held s' := by
  cases hm with
  | pass hslot => exact h.start _ (fun slot hs => absurd hs (not_mem_none slot)) rfl
  | begins hslot =>
    refine h.start _ (fun slot' hs => ?_) rfl
    cases hs
    exact (of_findSlot_ok hslot).symm
  | @turn i now fault call t hcall ht =>
    have hmem : call ∈ s.calls := mem_of_getElem? hcall
    have hh := ht.holds (fun slot hs => (h.slot call hmem slot hs).1) (h.calls call hmem)
      (h.index call.center)
    refine ⟨fun c hc slot hs => ?_, fun c hc x hx => ?_, fun k => ?_⟩
    · rcases mem_or_eq_of_mem_set hc with hc | rfl
      · exact h.slot c hc slot hs
      · exact h.slot call hmem slot (hh.slot slot hs)
    · rcases mem_or_eq_of_mem_set hc with hc | rfl
      · exact hh.grows _ _ _ (h.calls c hc x hx)
      · exact hh.calls x hx
    · by_cases hk : k = call.center
      · subst hk
        simpa [Cluster.after] using hh.index
      · simpa [Cluster.after, update_of_ne hk] using (h.index k).grows hh.grows
  | ends hends =>
    exact ⟨h.slot, fun call hc x hx => hends.grows _ _ _ (h.calls call hc x hx),
      fun k => (h.index k).grows hends.grows⟩
  | @sweep _ center k hup hidx =>
    refine ⟨h.slot, h.calls, fun j => ?_⟩
    dsimp only
    by_cases hj : j = k
    · subst hj
      rw [update_self]
      exact fun ruleId key e he hne => h.index j ruleId key e (hidx _ e he) hne
    · rw [update_of_ne hj]
      exact h.index j
  | tick => exact ⟨h.slot, h.calls, h.index⟩

end Held

/-! ## What the history records -/

namespace Entry

/-- The event an entry counts on an incident: of a creation or of an append. -/
def writes (id : ℕ) : Entry → Option AlertCurEvent
  | .created _ i slot | .appended _ i slot => if i = id then some slot.event else none
  | _ => none

/-- The event an entry joins to an incident. -/
def joins (id : ℕ) : Entry → Option AlertCurEvent
  | .linked i slot | .appended _ i slot => if i = id then some slot.event else none
  | _ => none

/-- A seed event that was not joined to its incident. -/
def unlinks (id : ℕ) : Entry → Bool
  | .unlinked i => decide (i = id)
  | _ => false

end Entry

/-- The events counted on an incident. -/
def written (id : ℕ) (history : List Entry) : List AlertCurEvent :=
  history.filterMap (writes id)

/-- The events joined to an incident. -/
def joined (id : ℕ) (history : List Entry) : List AlertCurEvent :=
  history.filterMap (joins id)

@[simp] theorem written_nil (id : ℕ) : written id [] = [] := rfl

@[simp] theorem written_cons (id : ℕ) (e : Entry) (es : List Entry) :
    written id (e :: es) = (e.writes id).toList ++ written id es := by
  rw [written, filterMap_cons]
  cases e.writes id <;> rfl

@[simp] theorem written_append (id : ℕ) (xs ys : List Entry) :
    written id (xs ++ ys) = written id xs ++ written id ys := filterMap_append

@[simp] theorem joined_nil (id : ℕ) : joined id [] = [] := rfl

@[simp] theorem joined_cons (id : ℕ) (e : Entry) (es : List Entry) :
    joined id (e :: es) = (e.joins id).toList ++ joined id es := by
  rw [joined, filterMap_cons]
  cases e.joins id <;> rfl

@[simp] theorem joined_append (id : ℕ) (xs ys : List Entry) :
    joined id (xs ++ ys) = joined id xs ++ joined id ys := filterMap_append

/-- A call that has created its incident and not yet joined its event to it. -/
def Pc.seeds (id : ℕ) : Pc → Bool
  | .link _ i _ => decide (i = id)
  | _ => false

/-- `event_count`, of an incident that may not exist. -/
def Database.eventCount (db : Database) (id : ℕ) : ℤ :=
  (db.incidents.get? id).elim 0 CustomIncident.eventCount

/-- **What a turn writes is what it records.** -/
structure Turn.Books (db : Database) (pc : Pc) (t : Turn) (id : ℕ) : Prop where
  count : t.db.eventCount id = db.eventCount id + (written id t.entries).length
  rows : t.db.joins id = db.joins id ++ (joined id t.entries).map AlertCurEvent.hash
  seeds : (written id t.entries).length + (pc.seeds id).toNat
    = (joined id t.entries).length + t.entries.countP (unlinks id) + (t.pc.seeds id).toNat

namespace Database

theorem eventCount_createIncident (db : Database) (id : ℕ) (now : ℤ) (inc : CustomIncident) :
    (db.createIncident now inc).eventCount id
      = if id = db.incidents.next then (stamp now inc).eventCount else db.eventCount id := by
  unfold eventCount
  rw [get?_createIncident]
  split <;> rfl

theorem eventCount_appendEvent {db : Database} {i : ℕ} (hi : (db.incidents.get? i).isSome)
    (id : ℕ) (event : AlertCurEvent) (up : Bool) (now : ℤ) :
    (db.appendEvent i event up now).eventCount id
      = db.eventCount id + if i = id then 1 else 0 := by
  unfold eventCount
  rw [get?_appendEvent]
  by_cases h : i = id
  · obtain ⟨inc, hinc⟩ := isSome_iff_exists.mp hi
    subst h
    simp [hinc, absorb]
  · simp only [Ne.symm h, h, if_false, add_zero]
    cases db.incidents.get? id <;> rfl

theorem eventCount_markStormFired (db : Database) (i id : ℕ) :
    (db.markStormFired i).2.eventCount id = db.eventCount id := by
  unfold eventCount
  rw [get?_markStormFired]
  cases db.incidents.get? id with
  | none => rfl
  | some inc =>
    simp only [map_some, elim_some]
    split <;> rfl

theorem Ends.eventCount {db db' : Database} (h : db.Ends db') (id : ℕ) :
    db'.eventCount id = db.eventCount id := by
  have hcore := congrArg (Option.elim · 0 CustomIncident.eventCount) (h.core id)
  simp only [Option.elim_map] at hcore
  exact hcore

end Database

theorem Turn.Books.of_quiet {db : Database} {pc : Pc} {t : Turn} {id : ℕ}
    (hcount : t.db.eventCount id = db.eventCount id) (hrows : t.db.joins id = db.joins id)
    (hw : written id t.entries = []) (hj : joined id t.entries = [])
    (hu : t.entries.countP (unlinks id) = 0) (hs : pc.seeds id = false)
    (hs' : t.pc.seeds id = false) : Turn.Books db pc t id :=
  ⟨by simp [hcount, hw], by simp [hrows, hj], by simp [hw, hj, hu, hs, hs']⟩

theorem Turns.books {ext : Externals} {db : Database} {center : Center} {call : ℕ} {now : ℤ}
    {pc : Pc} {t : Turn} (h : Turns ext db center call now pc t)
    (hpc : ∀ x ∈ pc.holds, db.Of x.1.rule.id x.1.key x.2) (id : ℕ) : Turn.Books db pc t id := by
  cases h with
  | @append slot i =>
    obtain ⟨inc, hinc, -⟩ := hpc (slot, i) rfl
    have hsome : (db.incidents.get? i).isSome := by rw [mem_def.mp hinc]; rfl
    refine ⟨?_, ?_, ?_⟩
    · rw [Database.eventCount_appendEvent hsome]
      by_cases hi : i = id <;> simp [Entry.writes, hi]
    · refine (Database.joins_insert _ _ _ _ _).trans ?_
      by_cases hi : i = id <;> simp [Entry.joins, hi, Database.joins]
    · by_cases hi : i = id <;> simp [Entry.writes, Entry.joins, Entry.unlinks, Pc.seeds, hi]
  | @create slot =>
    refine ⟨?_, ?_, ?_⟩
    · rw [Database.eventCount_createIncident]
      by_cases hi : id = db.incidents.next
      · have hnone : db.eventCount id = 0 := by
          unfold Database.eventCount
          rw [Table.get?_eq_none_of_next_le hi.ge, elim_none]
        simp [Entry.writes, hi.symm, hnone, Database.stamp, Slot.incident]
      · simp [Entry.writes, hi, Ne.symm hi]
    · simp [Entry.joins, Database.joins, Database.createIncident]
    · by_cases hi : db.incidents.next = id <;>
        simp [Entry.writes, Entry.joins, Entry.unlinks, Pc.seeds, hi]
  | @link slot i created =>
    refine ⟨by simp [Entry.writes, Database.link, Database.eventCount], ?_, ?_⟩
    · rw [Database.joins_insert]
      by_cases hi : i = id <;> simp [Entry.joins, hi]
    · by_cases hi : i = id <;> simp [Entry.writes, Entry.joins, Entry.unlinks, Pc.seeds, hi]
  | @unlinked slot i created reason =>
    refine ⟨by simp [Turn.finish, Entry.writes], by simp [Turn.finish, Entry.joins], ?_⟩
    by_cases hi : i = id <;>
      simp [Turn.finish, Entry.writes, Entry.joins, Entry.unlinks, Pc.seeds, hi]
  | claimed | lost =>
    exact .of_quiet (db.eventCount_markStormFired _ id) rfl rfl rfl rfl rfl rfl
  | _ => exact .of_quiet rfl rfl rfl rfl rfl rfl rfl

/-! ## The books balance -/

theorem countP_set_add {α : Type*} (p : α → Bool) {l : List α} {i : ℕ} {x : α} (h : l[i]? = some x)
    (y : α) : (l.set i y).countP p + (p x).toNat = l.countP p + (p y).toNat := by
  induction l generalizing i with
  | nil => cases h
  | cons z l ih =>
    cases i with
    | zero =>
      obtain rfl : z = x := by simpa using h
      simp only [set_cons_zero, countP_cons]
      cases p z <;> cases p y <;> simp
    | succ i =>
      have := ih (i := i) (by simpa using h)
      simp only [set_cons_succ, countP_cons]
      omega

/-- **The tables hold what the history records**, incident by incident, and every creation is
accounted for: its event was joined, was not, or is about to be. -/
structure Counted (s : Cluster) : Prop where
  count : ∀ id, s.db.eventCount id = (written id s.history).length
  rows : ∀ id, s.db.joins id = (joined id s.history).map AlertCurEvent.hash
  seeds : ∀ id, (written id s.history).length = (joined id s.history).length
    + s.history.countP (unlinks id) + s.calls.countP fun call => call.pc.seeds id

theorem Counted.moves {ext : Externals} {s s' : Cluster} {a : Action} (hm : Moves ext s a s')
    (hh : Held s) (h : Counted s) : Counted s' := by
  cases hm with
  | pass hslot | begins hslot =>
    exact ⟨fun id => by simpa [writes] using h.count id,
      fun id => by simpa [Entry.joins] using h.rows id,
      fun id => by simpa [Entry.writes, Entry.joins, Entry.unlinks, Pc.seeds] using h.seeds id⟩
  | @turn i now fault call t hcall ht =>
    have hb := ht.books (hh.calls call (mem_of_getElem? hcall))
    refine ⟨fun id => ?_, fun id => ?_, fun id => ?_⟩
    · simp only [Cluster.after, written_append, length_append]
      push_cast
      rw [(hb id).count, h.count]
    · simp only [Cluster.after, joined_append, map_append]
      rw [(hb id).rows, h.rows]
    · have hset := countP_set_add (fun c : Call => c.pc.seeds id) hcall { call with pc := t.pc }
      have hold := h.seeds id
      have hnew := (hb id).seeds
      simp only [Cluster.after, written_append, joined_append, length_append, countP_append]
      dsimp only at hset
      omega
  | ends hends =>
    exact ⟨fun id => (hends.eventCount id).trans (h.count id),
      fun id => (hends.joins id).trans (h.rows id), h.seeds⟩
  | sweep | tick => exact ⟨h.count, h.rows, h.seeds⟩

/-! ## Runs from empty tables -/

namespace Cluster

/-- Centers that have just started, on empty tables. -/
def fresh (upgradeOn : ℕ → Bool) : Cluster where
  centers k := { upgradeOn := upgradeOn k }

variable (ext : Externals) (upgradeOn : ℕ → Bool)

theorem held_fresh : Held (fresh upgradeOn) where
  slot call hc := absurd hc not_mem_nil
  calls call hc := absurd hc not_mem_nil
  index k ruleId key e he := by
    rw [fresh, Finmap.lookup_empty] at he
    cases he

theorem counted_run (actions : List Action) : Counted ((fresh upgradeOn).run ext actions) := by
  have h0 : Held (fresh upgradeOn) ∧ Counted (fresh upgradeOn) :=
    ⟨held_fresh upgradeOn, fun _ => rfl, fun _ => rfl, fun _ => rfl⟩
  exact (run_invariant (I := fun s => Held s ∧ Counted s)
    (fun _ _ _ hm h => ⟨h.1.moves hm, h.2.moves hm h.1⟩) h0 actions).2

/-- **Ids do not stray**: in every interleaving, what a call holds and what an index has under a
key is an incident of that rule and key. -/
theorem held_run (actions : List Action) : Held ((fresh upgradeOn).run ext actions) :=
  run_invariant (fun _ _ _ hm h => h.moves hm) (held_fresh upgradeOn) actions

/-- **How far the counter is ahead of the rows**: by the seeds whose row failed and those still on
their way. -/
theorem eventCount_run (actions : List Action) (id : ℕ) :
    let s := (fresh upgradeOn).run ext actions
    s.db.eventCount id = ((s.db.joins id).length + s.history.countP (unlinks id)
      + s.calls.countP fun call => call.pc.seeds id : ℕ) := by
  intro s
  have h : Counted s := counted_run ext upgradeOn actions
  rw [h.count, h.rows, length_map, h.seeds]

/-- The insertion of a seed event's join row does not fail. -/
def SeedsJoin (s : Cluster) : Action → Prop
  | .turn i _ fault => ∀ call ∈ s.calls[i]?, ∀ slot id created,
      call.pc = .link slot id created → fault = none
  | _ => True

/-- A turn leaves a seed event unjoined exactly if the insertion of its row fails. -/
theorem unlinked_turn_iff (db : Database) (center : Center) (i : ℕ) (now : ℤ)
    (fault : Option String) (pc : Pc) :
    (∀ id, .unlinked id ∉ (turn ext db center i now fault pc).entries)
      ↔ ∀ slot id created, pc = .link slot id created → fault = none := by
  have hturn := turns_turn ext db center i now fault pc
  cases pc with
  | link slot id created =>
    cases fault with
    | none => simp [turn]
    | some err => exact iff_of_false (fun h => h id (by simp [turn, Turn.finish])) (by simp)
  | _ =>
    refine iff_of_true (fun id => ?_) (by simp)
    generalize turn ext db center i now fault _ = t at hturn ⊢
    cases hturn <;> simp [Turn.finish]

/-- A seed event is not joined exactly where the insertion of its row fails. -/
theorem unlinked_step_iff (s : Cluster) (a : Action) : (∀ id, .unlinked id ∉ (s.step ext a).history)
      ↔ (∀ id, .unlinked id ∉ s.history) ∧ s.SeedsJoin a := by
  cases a with
  | turn i now fault =>
    cases hcall : s.calls[i]? with
    | none => simp [step, SeedsJoin, hcall]
    | some call =>
      have hstep : (s.step ext (.turn i now fault)).history
          = s.history ++ (turn ext s.db (s.centers call.center) i now fault call.pc).entries := by
        simp [step, hcall, after]
      have hturn := unlinked_turn_iff ext s.db (s.centers call.center) i now fault call.pc
      have hjoin : s.SeedsJoin (.turn i now fault) ↔ ∀ slot id created,
          call.pc = .link slot id created → fault = none := by
        simp [SeedsJoin, hcall]
      rw [hjoin, ← hturn, ← forall_and, hstep]
      simp only [mem_append, not_or]
  | start center rules event =>
    simp only [step, SeedsJoin, and_true]
    split <;> simp
  | close id | closeUpdate close now =>
    simp only [step, SeedsJoin, and_true]
    split <;> rfl
  | _ => simp [step, SeedsJoin]

theorem unlinked_run_iff (s : Cluster) (actions : List Action) :
    (∀ id, .unlinked id ∉ (s.run ext actions).history)
      ↔ (∀ id, .unlinked id ∉ s.history) ∧ Along (step ext) SeedsJoin s actions := by
  induction actions generalizing s with
  | nil => simp [Along]
  | cons a actions ih =>
    rw [Along, ← and_assoc, ← unlinked_step_iff]
    exact ih (s.step ext a)

end Cluster

section Agree

variable {s : Cluster}

/-- What an incident counts: its join rows, the seed events not joined, those about to be. -/
theorem Counted.eventCount_eq (h : Counted s) {id : ℕ} {inc : CustomIncident}
    (hinc : inc ∈ s.db.incidents.get? id) :
    inc.eventCount = (s.db.joins id).length + s.history.countP (unlinks id)
      + s.calls.countP fun call => call.pc.seeds id := by
  have hev := h.count id
  rw [eventCount, mem_def.mp hinc, elim_some] at hev
  rw [hev, h.seeds id, h.rows id, length_map]
  push_cast
  rfl

theorem Counted.isSome_of_written (h : Counted s) {id : ℕ}
    (hpos : 0 < (written id s.history).length) : (s.db.incidents.get? id).isSome := by
  by_contra hnone
  have hev := h.count id
  rw [eventCount, not_isSome_iff_eq_none.mp hnone, elim_none] at hev
  omega

theorem Counted.agree_iff (h : Counted s) :
    (∀ id, ∀ inc ∈ s.db.incidents.get? id, inc.eventCount = (s.db.joins id).length)
      ↔ (∀ id, s.history.countP (unlinks id) = 0) ∧
        ∀ id, (s.calls.countP fun call => call.pc.seeds id) = 0 := by
  rw [← forall_and]
  refine forall_congr' fun id => ⟨fun hagree => ?_, fun hzero inc hinc => ?_⟩
  · by_contra hne
    have hpos : 0 < (written id s.history).length := by
      have := h.seeds id
      omega
    obtain ⟨inc, hinc⟩ := isSome_iff_exists.mp (h.isSome_of_written hpos)
    have h₁ := hagree inc hinc
    have h₂ := h.eventCount_eq hinc
    omega
  · rw [h.eventCount_eq hinc, hzero.1, hzero.2]
    simp

theorem countP_unlinks_eq_zero_iff (history : List Entry) :
    (∀ id, history.countP (unlinks id) = 0) ↔ ∀ id, .unlinked id ∉ history := by
  refine ⟨fun h id hmem => ?_, fun h id => countP_eq_zero.mpr fun e he hun => ?_⟩
  · exact countP_eq_zero.mp (h id) _ hmem (by simp [unlinks])
  · cases e with
    | unlinked i => exact h i he
    | _ => cases hun

theorem countP_seeds_eq_zero_iff (calls : List Call) :
    (∀ id, (calls.countP fun call => call.pc.seeds id) = 0)
      ↔ ∀ call ∈ calls, ∀ slot id created, call.pc ≠ .link slot id created := by
  refine ⟨fun h call hcall slot id created hpc => ?_,
    fun h id => countP_eq_zero.mpr fun call hcall hseed => ?_⟩
  · exact countP_eq_zero.mp (h id) call hcall (by simp [hpc, Pc.seeds])
  · cases hpc : call.pc with
    | link slot i created => exact h call hcall slot i created hpc
    | _ =>
      rw [hpc] at hseed
      cases hseed

end Agree

/-- **Counter and join rows agree exactly between creations.**  In every state of every run from
empty tables, whatever fails: each `event_count` is the number of the incident's join rows if and
only if no insertion of a seed event's row has failed and no call stands before one. -/
theorem Cluster.counts_agree_iff (ext : Externals) (upgradeOn : ℕ → Bool) (actions : List Action) :
    (∀ id, ∀ inc ∈ ((fresh upgradeOn).run ext actions).db.incidents.get? id,
      inc.eventCount = (((fresh upgradeOn).run ext actions).db.joins id).length)
    ↔ Along (step ext) SeedsJoin (fresh upgradeOn) actions ∧
      ∀ call ∈ ((fresh upgradeOn).run ext actions).calls, ∀ slot id created,
        call.pc ≠ .link slot id created := by
  have hunlinked := unlinked_run_iff ext (fresh upgradeOn) actions
  have hempty : ∀ id, .unlinked id ∉ (fresh upgradeOn).history := fun id => not_mem_nil
  rw [(counted_run ext upgradeOn actions).agree_iff, countP_unlinks_eq_zero_iff,
    countP_seeds_eq_zero_iff, hunlinked, and_iff_right hempty]

/-- **A seed event lost.**  The incident is created, the insertion of its join row fails, and the
call returns: the incident counts one event and has no row. -/
theorem seed_event_not_joined : ¬ ∀ actions,
    ∀ inc ∈ ((Cluster.fresh fun _ => true).run Example.ext actions).db.incidents.get? 1,
      inc.eventCount
        = (((Cluster.fresh fun _ => true).run Example.ext actions).db.joins 1).length := by
  intro h
  have h1 := h (Example.begins 0 "a" 2 :: Example.takes 3 0 100 ++ [.turn 0 100 (some "timeout")])
  revert h1
  decide

end Nightingale.Denoise
