import Nightingale.Lib.History
import Nightingale.Denoise.Books

/-!
# Denoise/Accounts — what stands behind a dropped event

`AggregateConfig.Process` drops an event that was merged.  In return the event is on record: its
append has committed, with its join row, and the incident it went to was created by one other call,
earlier, which lets its own event pass.

    creator     create ▸ link ▸ enter ─────────────────▸ FireFirst, passes
    merger           find ▸ adopt ▸ append ▸ … ▸ Merged, dropped

The creator need not have returned by then (`merged_before_first`): an incident can be found as soon
as its row is in the table.
-/

namespace Nightingale.Denoise

open Aggregator List Option Example Database Entry Cluster

/-! ## Answers -/

/-- An answer that drops its event. -/
def Result.Absorbed (r : Result) : Prop := r.decision = .merged ∨ r.decision = .storm

/-- **What `Process` drops**: the events whose answer says that they were merged. -/
theorem conclude_eq_none_iff (event : AlertCurEvent) (answer : Except String Result) :
    (({} : AggregateConfig).conclude event answer).1 = none ↔ ∃ r, answer = .ok r ∧ r.Absorbed := by
  cases answer with
  | error err => simp [AggregateConfig.conclude]
  | ok r => cases hd : r.decision <;> simp [AggregateConfig.conclude, Result.Absorbed, hd]

/-! ## Where a call stands -/

/-- The call has appended its event and not yet answered. -/
def Pc.merging : Pc → Option (Slot × ℕ)
  | .refresh slot id | .observe slot id | .markStorm slot id => some (slot, id)
  | _ => none

theorem Pc.holds_of_merging {pc : Pc} {x : Slot × ℕ} (h : pc.merging = some x) :
    pc.holds = some x := by
  cases pc with
  | refresh | observe | markStorm => exact h
  | _ => cases h

/-- The call has created the incident: it is about to answer `FireFirst`, or has. -/
def Pc.Opens (slot : Slot) (id : ℕ) : Pc → Prop
  | .link slot' id' _ | .enter slot' id' => slot' = slot ∧ id' = id
  | .returned result => ∃ reason, result = .ok (.firstOf slot id reason)
  | _ => False

/-- The calls that created an incident. -/
def Entry.creates (id : ℕ) : Entry → Option (ℕ × Slot)
  | .created call i slot => if i = id then some (call, slot) else none
  | _ => none

/-- The calls that created an incident, in the order of the history. -/
def creators (id : ℕ) (history : List Entry) : List (ℕ × Slot) :=
  history.filterMap (Entry.creates id)

/-- **What a turn says of its call**: what its history has of it, it stands by. -/
structure Turn.Accounts (i : ℕ) (pc : Pc) (t : Turn) : Prop where
  merging : ∀ x ∈ t.pc.merging, pc.merging = some x ∨ .appended i x.2 x.1 ∈ t.entries
  opens : ∀ slot id, pc.Opens slot id → t.pc.Opens slot id
  stays : ∀ result, pc = .returned result → t.pc = .returned result
  created : ∀ j id slot, .created j id slot ∈ t.entries → j = i ∧ t.pc.Opens slot id
    ∧ pc.slot = some slot
  appended : ∀ j id slot, .appended j id slot ∈ t.entries → j = i ∧ pc.slot = some slot
  returned : ∀ j result, .returned j result ∈ t.entries → j = i ∧ t.pc = .returned result ∧
    ∀ r, result = .ok r → r.Absorbed → ∃ slot, pc.merging = some (slot, r.incidentId)

/-- The entry tells of no creation, no append and no answer. -/
def Entry.silent : Entry → Bool
  | .created _ _ _ | .appended _ _ _ | .returned _ _ => false
  | .delivered _ | .missed _ | .linked _ _ | .unlinked _ => true

namespace Turn.Accounts

variable {i : ℕ} {pc : Pc}

/-- **A turn goes on**: it has nothing to tell, and what the call had done is done still. -/
theorem goes {t : Turn} (hsilent : ∀ e ∈ t.entries, e.silent = true)
    (hmerging : ∀ x ∈ t.pc.merging, pc.merging = some x)
    (hopens : ∀ slot id, pc.Opens slot id → t.pc.Opens slot id)
    (hstays : ∀ result, pc = .returned result → t.pc = .returned result) :
    Turn.Accounts i pc t where
  merging x hx := .inl (hmerging x hx)
  opens := hopens
  stays := hstays
  created j id slot he := by cases hsilent _ he
  appended j id slot he := by cases hsilent _ he
  returned j result he := by cases hsilent _ he

/-- **A turn answers**: with `FireFirst` if the call has created its incident, and that the event
was absorbed only if the call has appended it. -/
theorem answers {db : Database} {center : Center} {result : Except String Result}
    {entries : List Entry} (hsilent : ∀ e ∈ entries, e.silent = true)
    (hopens : ∀ slot id, pc.Opens slot id → ∃ reason, result = .ok (.firstOf slot id reason))
    (habsorbed : ∀ r, result = .ok r → r.Absorbed → ∃ slot, pc.merging = some (slot, r.incidentId))
    (hruns : ∀ result, pc ≠ .returned result) :
    Turn.Accounts i pc (.finish db center i result entries) := by
  have hentry : ∀ e ∈ (Turn.finish db center i result entries).entries,
      e.silent = true ∨ e = .returned i result := fun e he =>
    (mem_append.mp he).imp (hsilent e) mem_singleton.mp
  refine ⟨fun x hx => ?_, hopens, fun r hr => absurd hr (hruns r), fun j id slot he => ?_,
    fun j id slot he => ?_, fun j r he => ?_⟩
  · cases hx
  all_goals rcases hentry _ he with h | h <;> cases h
  exact ⟨rfl, rfl, habsorbed⟩

end Turn.Accounts

theorem Turns.accounts {ext : Externals} {db : Database} {center : Center} {i : ℕ} {now : ℤ}
    {pc : Pc} {t : Turn} (h : Turns ext db center i now pc t) : Turn.Accounts i pc t := by
  cases h with
  | hit | miss | found | absent | adopt =>
    exact .goes (by simp [silent]) (fun _ hx => by cases hx) (fun _ _ h => h.elim)
      fun _ h => by cases h
  | append => constructor <;> simp +contextual [Pc.merging, Pc.Opens, Pc.slot]
  | refresh | storm =>
    exact .goes (by simp) (fun _ hx => hx) (fun _ _ h => h.elim) fun _ h => by cases h
  | quiet | unmarked | claimed | lost =>
    exact .answers (by simp) (fun _ _ h => h.elim) (fun _ hr _ => ⟨_, by cases hr; rfl⟩)
      fun _ h => by cases h
  | create => constructor <;> simp +contextual [Pc.merging, Pc.Opens, Pc.slot]
  | link =>
    exact .goes (by simp [silent]) (fun _ hx => by cases hx) (fun _ _ h => h)
      fun _ h => by cases h
  | unlinked | enter =>
    refine .answers (by simp [silent]) (fun _ _ h => ?_) (fun r hr habs => ?_)
      fun _ h => by cases h
    · obtain ⟨rfl, rfl⟩ := h
      exact ⟨_, rfl⟩
    · cases hr
      rcases habs with h | h <;> cases h
  | findFails | appendFails | createFails =>
    exact .answers (by simp) (fun _ _ h => h.elim) (fun _ hr => by cases hr) fun _ h => by cases h
  | done => exact .goes (by simp) (fun _ hx => by cases hx) (fun _ _ h => h) fun _ h => h

/-! ## Accounts -/

/-- **The history and the calls tell the same story.** -/
structure Accounted (s : Cluster) : Prop where
  merging : ∀ i, ∀ call ∈ s.calls[i]?, ∀ x ∈ call.pc.merging, .appended i x.2 x.1 ∈ s.history
  created : ∀ j id slot, .created j id slot ∈ s.history →
    ∃ call ∈ s.calls[j]?, call.event = some slot.event ∧ call.pc.Opens slot id
  appended : ∀ i id slot, .appended i id slot ∈ s.history →
    ∃ call ∈ s.calls[i]?, call.event = some slot.event
  returned : ∀ i result, .returned i result ∈ s.history →
    ∃ call ∈ s.calls[i]?, call.pc = .returned result
  once : ∀ id, (creators id s.history).length = (s.db.incidents.get? id).isSome.toNat
  dropped : Historic (fun past entry => ∀ i r, entry = .returned i (.ok r) → r.Absorbed →
    (∃ slot, .appended i r.incidentId slot ∈ past) ∧ creators r.incidentId past ≠ []) s.history

theorem creators_append (id : ℕ) (xs ys : List Entry) :
    creators id (xs ++ ys) = creators id xs ++ creators id ys := filterMap_append

theorem Turns.creates_once {ext : Externals} {db : Database} {center : Center} {i : ℕ} {now : ℤ}
    {pc : Pc} {t : Turn} (h : Turns ext db center i now pc t) (id : ℕ) :
    (creators id t.entries).length + (db.incidents.get? id).isSome.toNat
      = (t.db.incidents.get? id).isSome.toNat := by
  cases h with
  | @create slot =>
    rw [get?_createIncident]
    by_cases hi : id = db.incidents.next
    · rw [Table.get?_eq_none_of_next_le hi.ge]
      simp [creators, creates, hi]
    · simp [creators, creates, hi, Ne.symm hi]
  | append => simp [creators, creates, get?_appendEvent]
  | claimed | lost =>
    simp [creators, creates, Turn.finish, get?_markStormFired]
  | _ => simp [creators, Entry.creates, Turn.finish, Database.link]

theorem Database.Ends.isSome {db db' : Database} (h : db.Ends db') (id : ℕ) :
    (db'.incidents.get? id).isSome = (db.incidents.get? id).isSome := by
  have hcore := congrArg Option.isSome (h.core id)
  simpa using hcore

namespace Accounted

variable {s : Cluster}

theorem exists_call_concat {P : Call → Prop} {j : ℕ} (call : Call)
    (h : ∃ c ∈ s.calls[j]?, P c) : ∃ c ∈ (s.calls ++ [call])[j]?, P c := by
  obtain ⟨c, hc, hP⟩ := h
  exact ⟨c, mem_concat hc call, hP⟩

theorem start (h : Accounted s) {call : Call} {new : List Entry} (hpc : call.pc.merging = none)
    (hnew : ∀ e ∈ new, (∃ event, e = .delivered event) ∨ ∃ result, e = .returned s.calls.length
      (.ok result) ∧ call.pc = .returned (.ok result) ∧ ¬ result.Absorbed) :
    Accounted { s with calls := s.calls ++ [call], history := s.history ++ new } where
  merging i c hc x hx := by
    rcases mem_of_mem_concat hc with hc | rfl
    · exact mem_append_left _ (h.merging i c hc x hx)
    · rw [hpc] at hx
      exact absurd hx (not_mem_none x)
  created j id slot hmem := by
    rcases mem_append.mp hmem with hmem | hmem
    · exact exists_call_concat call (h.created j id slot hmem)
    · rcases hnew _ hmem with ⟨_, he⟩ | ⟨_, he, -⟩ <;> cases he
  appended i id slot hmem := by
    rcases mem_append.mp hmem with hmem | hmem
    · exact exists_call_concat call (h.appended i id slot hmem)
    · rcases hnew _ hmem with ⟨_, he⟩ | ⟨_, he, -⟩ <;> cases he
  returned i result hmem := by
    rcases mem_append.mp hmem with hmem | hmem
    · exact exists_call_concat call (h.returned i result hmem)
    · rcases hnew _ hmem with ⟨_, he⟩ | ⟨r, he, hr, -⟩
      · cases he
      · cases he
        exact ⟨call, by simp, hr⟩
  once id := by
    have hnone : creators id new = [] := by
      refine filterMap_eq_nil_iff.mpr fun e he => ?_
      rcases hnew e he with ⟨_, rfl⟩ | ⟨_, rfl, -⟩ <;> rfl
    rw [creators_append, hnone, append_nil]
    exact h.once id
  dropped := h.dropped.append fun past e he i r heq habs => by
    rcases hnew e he with ⟨_, rfl⟩ | ⟨_, rfl, -, hno⟩
    · cases heq
    · cases heq
      exact absurd habs hno

/-- What a turn keeps true of its call, it keeps true of every call. -/
theorem exists_call_after {P : Call → Prop} {i j : ℕ} {call : Call} {t : Turn}
    (hcall : s.calls[i]? = some call) (hkeep : P call → P { call with pc := t.pc })
    (h : ∃ c ∈ s.calls[j]?, P c) : ∃ c ∈ (s.after i call t).calls[j]?, P c := by
  obtain ⟨c, hc, hP⟩ := h
  by_cases hj : j = i
  · subst hj
    obtain rfl : call = c := mem_unique hcall hc
    exact ⟨_, by rw [getElem?_after hcall, if_pos rfl]; rfl, hkeep hP⟩
  · exact ⟨c, by rw [getElem?_after hcall, if_neg hj]; exact hc, hP⟩

theorem creators_ne_nil (h : Accounted s) {ruleId : ℤ} {key : String} {id : ℕ}
    (hof : s.db.Of ruleId key id) : creators id s.history ≠ [] := by
  intro hnil
  obtain ⟨inc, hinc, -⟩ := hof
  have hone := h.once id
  rw [mem_def.mp hinc, hnil] at hone
  cases hone

/-- An incident that a call is merging into has been appended to and created. -/
theorem backed_of_merging (h : Accounted s) (hh : Held s) {i id : ℕ} {call : Call} {slot : Slot}
    (hcall : s.calls[i]? = some call) (hmerging : call.pc.merging = some (slot, id))
    {past : List Entry} (hpast : s.history <+: past) :
    (∃ slot, .appended i id slot ∈ past) ∧ creators id past ≠ [] := by
  have hof : s.db.Of slot.rule.id slot.key id :=
    hh.calls call (mem_of_getElem? hcall) (slot, id) (Pc.holds_of_merging hmerging)
  refine ⟨⟨slot, hpast.subset (h.merging i call hcall _ hmerging)⟩, fun hnil => ?_⟩
  obtain ⟨rest, rfl⟩ := hpast
  rw [creators_append] at hnil
  exact h.creators_ne_nil hof (append_eq_nil_iff.mp hnil).1

theorem turn (h : Accounted s) (hh : Held s) {ext : Externals} {i : ℕ} {now : ℤ} {call : Call}
    {t : Turn} (hcall : s.calls[i]? = some call)
    (ht : Turns ext s.db (s.centers call.center) i now call.pc t) :
    Accounted (s.after i call t) := by
  have hmem : call ∈ s.calls := mem_of_getElem? hcall
  have ha := ht.accounts
  have hself : { call with pc := t.pc } ∈ (s.after i call t).calls[i]? := by
    rw [getElem?_after hcall, if_pos rfl]
    rfl
  constructor
  case merging =>
    intro j c hc x hx
    rw [getElem?_after hcall] at hc
    split_ifs at hc with hj
    · cases hc
      subst hj
      rcases ha.merging x hx with hold | hnew
      · exact mem_append_left _ (h.merging j call hcall x hold)
      · exact mem_append_right _ hnew
    · exact mem_append_left _ (h.merging j c hc x hx)
  case created =>
    intro j id slot hentry
    rcases mem_append.mp hentry with hentry | hentry
    · exact exists_call_after hcall (fun hc => ⟨hc.1, ha.opens slot id hc.2⟩)
        (h.created j id slot hentry)
    · obtain ⟨rfl, hopens, hslot⟩ := ha.created j id slot hentry
      exact ⟨_, hself, (hh.slot call hmem slot hslot).2, hopens⟩
  case appended =>
    intro j id slot hentry
    rcases mem_append.mp hentry with hentry | hentry
    · exact exists_call_after hcall (fun hevent => hevent) (h.appended j id slot hentry)
    · obtain ⟨rfl, hslot⟩ := ha.appended j id slot hentry
      exact ⟨_, hself, (hh.slot call hmem slot hslot).2⟩
  case returned =>
    intro j result hentry
    rcases mem_append.mp hentry with hentry | hentry
    · exact exists_call_after hcall (ha.stays result) (h.returned j result hentry)
    · obtain ⟨rfl, hret, -⟩ := ha.returned j result hentry
      exact ⟨_, hself, hret⟩
  case once =>
    intro id
    have hturn := ht.creates_once id
    have hold := h.once id
    simp only [Cluster.after, creators_append, length_append]
    omega
  case dropped =>
    refine h.dropped.append_of_prefix fun past hpast e he j r heq habs => ?_
    obtain rfl := heq
    obtain ⟨rfl, -, hdrop⟩ := ha.returned j _ he
    obtain ⟨slot, hmerging⟩ := hdrop r rfl habs
    exact h.backed_of_merging hh hcall hmerging hpast

/-- **Every move keeps it.** -/
theorem moves {ext : Externals} {s' : Cluster} {a : Action} (hm : Moves ext s a s') (hh : Held s)
    (h : Accounted s) : Accounted s' := by
  cases hm with
  | pass hslot =>
    refine h.start rfl fun e he => ?_
    rcases mem_pair.mp he with rfl | rfl
    · exact .inl ⟨_, rfl⟩
    · refine .inr ⟨_, rfl, rfl, ?_⟩
      rw [Result.Absorbed, decision_of_findSlot hslot]
      decide
  | begins hslot =>
    exact h.start rfl fun e he => .inl ⟨_, mem_singleton.mp he⟩
  | turn hcall ht => exact h.turn hh hcall ht
  | ends hends =>
    exact ⟨h.merging, h.created, h.appended, h.returned,
      fun id => by rw [hends.isSome]; exact h.once id, h.dropped⟩
  | sweep | tick => exact ⟨h.merging, h.created, h.appended, h.returned, h.once, h.dropped⟩

end Accounted

/-! ## Dropped events -/

/-- An answer `FireFirst` on an incident. -/
def Entry.fires (id : ℕ) : Entry → Bool
  | .returned _ (.ok result) => decide (result.decision = .fireFirst ∧ result.incidentId = id)
  | _ => false

/-- **What stands behind the drop of an event** into an incident by call `i`, after `past`: a join
row, and the one call that created the incident, before.  That call has let its event pass with
`FireFirst`, or is about to. -/
structure Backed (s : Cluster) (past : List Entry) (i : ℕ) (event : AlertCurEvent) (id : ℕ) :
    Prop where
  row : event.hash ∈ s.db.joins id
  creator : ∃ j slot, j ≠ i ∧ creators id s.history = [(j, slot)] ∧ (j, slot) ∈ creators id past ∧
    ∃ call ∈ s.calls[j]?, call.event = some slot.event ∧
      ((∃ created, call.pc = .link slot id created) ∨ call.pc = .enter slot id ∨
        ∃ r, call.pc = .returned (.ok r) ∧ r.decision = .fireFirst ∧ r.incidentId = id ∧
          (({} : AggregateConfig).conclude slot.event (.ok r)).1 = some slot.event)

theorem mem_creators {id : ℕ} {x : ℕ × Slot} {history : List Entry}
    (h : x ∈ creators id history) : .created x.1 id x.2 ∈ history := by
  obtain ⟨e, he, hx⟩ := mem_filterMap.mp h
  cases e with
  | created j i slot =>
    simp only [creates] at hx
    split_ifs at hx with hi
    cases hx
    exact hi ▸ he
  | _ => cases hx

/-- Where a call that has created an incident stands. -/
theorem Pc.Opens.cases {slot : Slot} {id : ℕ} {pc : Pc} (h : pc.Opens slot id) :
    (∃ created, pc = .link slot id created) ∨ pc = .enter slot id ∨
      ∃ r, pc = .returned (.ok r) ∧ r.decision = .fireFirst ∧ r.incidentId = id ∧
        (({} : AggregateConfig).conclude slot.event (.ok r)).1 = some slot.event := by
  cases pc with
  | link slot' id' created =>
    obtain ⟨rfl, rfl⟩ := h
    exact .inl ⟨created, rfl⟩
  | enter slot' id' =>
    obtain ⟨rfl, rfl⟩ := h
    exact .inr (.inl rfl)
  | returned result =>
    obtain ⟨reason, rfl⟩ := h
    exact .inr (.inr ⟨_, rfl, rfl, rfl, rfl⟩)
  | _ => cases h

theorem Accounted.backed {s : Cluster} (h : Accounted s) (hc : Counted s) {past rest : List Entry}
    {i : ℕ} {r : Result} (hsplit : s.history = past ++ .returned i (.ok r) :: rest)
    (habs : r.Absorbed) {call : Call} (hcall : call ∈ s.calls[i]?) {event : AlertCurEvent}
    (hevent : event ∈ call.event) : Backed s past i event r.incidentId := by
  obtain ⟨⟨slot, happ⟩, hcreated⟩ := h.dropped past _ rest hsplit i r rfl habs
  have hpast : past ⊆ s.history := fun e he => hsplit ▸ mem_append_left _ he
  obtain ⟨x, hx⟩ := exists_mem_of_ne_nil _ hcreated
  obtain ⟨creator, hj, hfirst, hopens⟩ := h.created x.1 r.incidentId x.2 (hpast (mem_creators hx))
  refine ⟨?_, x.1, x.2, ?_, ?_, hx, creator, hj, hfirst, hopens.cases⟩
  · obtain ⟨call', hcall', hslot⟩ := h.appended i r.incidentId slot (hpast happ)
    obtain rfl : call = call' := some.inj (hcall.symm.trans hcall')
    obtain rfl : event = slot.event := some.inj (hevent.symm.trans hslot)
    rw [hc.rows]
    exact mem_map_of_mem (mem_filterMap.mpr ⟨_, hpast happ, by simp [Entry.joins]⟩)
  · rintro rfl
    obtain ⟨call', hcall', hret⟩ := h.returned x.1 (.ok r) (hsplit ▸ by simp)
    obtain rfl : creator = call' := some.inj (hj.symm.trans hcall')
    rw [hret] at hopens
    obtain ⟨reason, heq⟩ := hopens
    rw [Except.ok.inj heq] at habs
    rcases habs with hd | hd <;> cases hd
  · have hmem : x ∈ creators r.incidentId s.history := by
      rw [hsplit, creators_append]
      exact mem_append_left _ hx
    have hone : (creators r.incidentId s.history).length ≤ 1 := by
      rw [h.once]
      exact Bool.toNat_le _
    obtain ⟨y, hy⟩ := length_eq_one_iff.mp
      (le_antisymm hone (length_pos_of_mem hmem))
    rw [hy, mem_singleton] at hmem
    rw [hy, hmem]

/-- **Merged events are accounted for, and failures fail open.**  In every run of any number of
workers, from empty tables and whatever fails: behind every event that `Process` drops in its
default mode there stand a join row and one earlier call, the creator of the incident in the answer,
that has let its event pass or can do nothing else; and an event whose `Handle` fails passes. -/
theorem Cluster.dropped_events_backed (ext : Externals) (upgradeOn : ℕ → Bool)
    (actions : List Action) : Historic (fun past entry => ∀ i answer, entry = .returned i answer →
      ∀ call ∈ ((fresh upgradeOn).run ext actions).calls[i]?, ∀ event ∈ call.event,
        (({} : AggregateConfig).conclude event answer).1 = none → ∃ r, answer = .ok r ∧
            Backed ((fresh upgradeOn).run ext actions) past i event r.incidentId)
      ((fresh upgradeOn).run ext actions).history ∧
    ∀ event err, (({} : AggregateConfig).conclude event (.error err)).1 = some event := by
  refine ⟨?_, fun event err => rfl⟩
  have h0 : Held (fresh upgradeOn) ∧ Accounted (fresh upgradeOn) := by
    refine ⟨held_fresh upgradeOn, ?_, ?_, ?_, ?_, fun _ => rfl, historic_nil⟩ <;>
      simp [fresh]
  have hrun : Held ((fresh upgradeOn).run ext actions)
      ∧ Accounted ((fresh upgradeOn).run ext actions) :=
    run_invariant (I := fun s => Held s ∧ Accounted s)
      (fun _ _ _ hm h => ⟨h.1.moves hm, h.2.moves hm h.1⟩) h0 actions
  have hc := counted_run ext upgradeOn actions
  generalize (fresh upgradeOn).run ext actions = s at hrun hc ⊢
  rintro past entry rest hsplit i answer rfl call hcall event hevent hnone
  obtain ⟨r, rfl, habs⟩ := (conclude_eq_none_iff event answer).mp hnone
  exact ⟨r, rfl, hrun.2.backed hc hsplit habs hcall hevent⟩

/-- **Merged before the first.**  The creator has joined its event and not returned; a worker of
another center finds the incident, and its event is dropped while no call has answered `FireFirst`.
-/
theorem merged_before_first :
    ¬ ∀ actions, Historic (fun past entry => ∀ i r, entry = .returned i (.ok r) →
      ∀ call ∈ ((fresh fun _ => true).run ext actions).calls[i]?,
        ∀ event ∈ call.event, (({} : AggregateConfig).conclude event (.ok r)).1 = none →
          past.any (Entry.fires r.incidentId) = true)
      ((fresh fun _ => true).run ext actions).history := by
  intro h
  have hlast := h (begins 0 "a" 2 :: takes 4 0 100 ++
    begins 1 "b" 1 :: takes 6 1 100) _ _ []
    (dropLast_append_getLast (by decide)).symm 1 _ rfl _ rfl _ rfl rfl
  revert hlast
  decide

end Nightingale.Denoise
