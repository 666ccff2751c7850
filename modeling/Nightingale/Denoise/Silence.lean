import Nightingale.Process.Onward
import Nightingale.Denoise.Accounts

/-!
# Denoise/Silence — an aggregation node in the pipeline of a rule

`Processor.Handle` runs the pipeline of a rule on every event it builds, and with an aggregation
node in it the answers of the `Aggregator` come before everything else the processor does:

    BuildEvent ▸ pipeline[ … aggregate … ] ▸ mutes ▸ for-duration, inhibition, repeats ▸ push
                             └▸ FireFirst passes, Merged is dropped

The first event of an incident may be held back anywhere behind, or refused by a full queue; those
merged into its incident are dropped all the same.  If nothing holds back the events that open an
incident (`Unhindered`), and no two events of one evaluation fall into one new incident, then no
event is dropped before the queue took one of its incident (`dropped_after_push`).
-/

namespace Nightingale.Denoise

open Aggregator List Option Database Center.Indexes

/-! ## The aggregator, one event after the other -/

/-- The ids of the index are ids of incidents of their rule and key. -/
def Aggregator.Indexed (a : Aggregator) : Prop :=
  Center.Indexes { upgradeOn := a.upgradeOn, index := a.index, storm := a.storm } a.db

/-- No incident is lost, and there is no other. -/
structure Database.Same (db db' : Database) : Prop where
  grows : db.Grows db'
  isSome : ∀ x, (db'.incidents.get? x).isSome = (db.incidents.get? x).isSome

theorem Database.Same.trans {db db' db'' : Database} (h₁ : db.Same db') (h₂ : db'.Same db'') :
    db.Same db'' :=
  ⟨fun r k id h => h₂.grows r k id (h₁.grows r k id h), fun x => (h₂.isSome x).trans (h₁.isSome x)⟩

theorem Database.same_markStormFired (db : Database) (id : ℕ) : db.Same (db.markStormFired id).2 :=
  ⟨db.grows_markStormFired id, fun x => by rw [get?_markStormFired, isSome_map]⟩

/-- The storm of a merge: the answer says that the event was merged. -/
theorem observeStorm_spec (a : Aggregator) (now : ℤ) (rule : CustomAggregateRule) (id : ℕ) :
    (a.observeStorm now {} rule id).1.Absorbed ∧ (a.observeStorm now {} rule id).1.incidentId = id ∧
    (a.observeStorm now {} rule id).2.rules = a.rules ∧
    (a.observeStorm now {} rule id).2.index = a.index ∧
    a.db.Same (a.observeStorm now {} rule id).2.db := by
  have hrefl : a.db.Same a.db := ⟨.refl _, fun _ => rfl⟩
  unfold observeStorm
  dsimp only
  split
  · split
    · exact ⟨.inr rfl, rfl, rfl, rfl, a.db.same_markStormFired id⟩
    · exact ⟨.inl rfl, rfl, rfl, rfl, a.db.same_markStormFired id⟩
  · exact ⟨.inl rfl, rfl, rfl, rfl, hrefl⟩

/-- **A merge into an incident**, when no statement fails. -/
theorem merge_spec (a : Aggregator) (now : ℤ) (event : AlertCurEvent) (rule : CustomAggregateRule)
    (id : ℕ) : ∃ r, (a.merge now {} event rule id).1 = .ok r ∧ r.Absorbed ∧ r.incidentId = id ∧
      (a.merge now {} event rule id).2.rules = a.rules ∧
      (a.merge now {} event rule id).2.index = a.index.put now rule.id "" id ∧
      a.db.Same (a.merge now {} event rule id).2.db := by
  obtain ⟨habs, hid, hrules, hindex, hsame⟩ := observeStorm_spec
    { a with
      db := a.db.appendEvent id event a.upgradeOn now
      index := a.index.put now rule.id "" id } now rule id
  have happend : a.db.Same (a.db.appendEvent id event a.upgradeOn now) :=
    ⟨a.db.grows_appendEvent id event _ now, fun x => by rw [get?_appendEvent, isSome_map]⟩
  exact ⟨_, rfl, habs, hid, hrules, hindex, happend.trans hsame⟩

/-- **The three ways `Handle` can go** when no statement fails: the event passes, it is merged into
an incident of its rule and key, or there is none and it opens one. -/
inductive Answered (ext : Externals) (a : Aggregator) (now : ℤ) (event : AlertCurEvent) :
    Except String Result → Aggregator → Prop
  | passed {result : Result} (h : findSlot ext a.rules (some event) = .error result) :
      Answered ext a now event (.ok result) a
  | merged {slot : Slot} {r : Result} {a' : Aggregator}
      (h : findSlot ext a.rules (some event) = .ok slot) (habs : r.Absorbed)
      (hof : a.db.Of slot.rule.id slot.key r.incidentId) (hsame : a.db.Same a'.db)
      (hidx : a'.Indexed) (hrules : a'.rules = a.rules) : Answered ext a now event (.ok r) a'
  | first {slot : Slot} {r : Result} {a' : Aggregator}
      (h : findSlot ext a.rules (some event) = .ok slot) (hlookup : a.lookup now slot = none)
      (hfind : a.db.findActiveIncident slot.rule.id slot.key slot.rule.windowSec now = none)
      (hfirst : r.decision = .fireFirst) (hgrows : a.db.Grows a'.db)
      (hof : a'.db.Of slot.rule.id slot.key r.incidentId)
      (hsome : ∀ x, (a'.db.incidents.get? x).isSome →
        x = r.incidentId ∨ (a.db.incidents.get? x).isSome)
      (hidx : a'.Indexed) (hrules : a'.rules = a.rules) : Answered ext a now event (.ok r) a'

theorem Aggregator.Indexed.put {a : Aggregator} (h : a.Indexed) {db : Database}
    (hg : a.db.Grows db) {now : ℤ} {ruleId : ℤ} {key : String} {id : ℕ}
    (hof : key ≠ "" → db.Of ruleId key id) (up : Bool) (storm : StormDetector) :
    Center.Indexes ⟨up, a.index.put now ruleId key id, storm⟩ db := by
  have hgrown : Center.Indexes ⟨up, a.index, storm⟩ db := grows h hg
  exact hgrown.put hof

theorem answered_merge {ext : Externals} {a b : Aggregator} (now : ℤ) {event : AlertCurEvent}
    {slot : Slot} {id : ℕ} (hslot : findSlot ext a.rules (some event) = .ok slot)
    (hof : a.db.Of slot.rule.id slot.key id) (hb : b.Indexed) (hdb : b.db = a.db)
    (hrules : b.rules = a.rules) : Answered ext a now event
      (b.merge now {} slot.event slot.rule id).1 (b.merge now {} slot.event slot.rule id).2 := by
  obtain ⟨r, heq, habs, rfl, hr, hindex, hsame⟩ := merge_spec b now slot.event slot.rule id
  rw [heq]
  refine .merged hslot habs hof (hdb ▸ hsame) ?_ (hr.trans hrules)
  rw [Indexed, hindex]
  exact hb.put hsame.grows (fun hne => absurd rfl hne) _ _

theorem answered_createNew {ext : Externals} {a : Aggregator} (h : a.Indexed) (now : ℤ)
    {event : AlertCurEvent} {slot : Slot} (hslot : findSlot ext a.rules (some event) = .ok slot)
    (hlookup : a.lookup now slot = none)
    (hfind : a.db.findActiveIncident slot.rule.id slot.key slot.rule.windowSec now = none) :
    Answered ext a now event
      (a.createNew ext now {} slot.event slot.rule slot.dims slot.key).1
      (a.createNew ext now {} slot.event slot.rule slot.dims slot.key).2 := by
  have hgrows := a.db.grows_createIncident now (slot.incident ext now)
  have hof : (a.db.createIncident now (slot.incident ext now)).Of slot.rule.id slot.key
      a.db.incidents.next := a.db.of_createIncident now (slot.incident ext now)
  refine .first hslot hlookup hfind rfl hgrows hof (fun x hx => ?_)
    (h.put hgrows (fun _ => hof) _ _) rfl
  change (((a.db.createIncident now (slot.incident ext now)).incidents.get? x).isSome = true) at hx
  rw [get?_createIncident] at hx
  by_cases heq : x = a.db.incidents.next
  · exact .inl heq
  · rw [if_neg heq] at hx
    exact .inr hx

theorem answered_handle (ext : Externals) {a : Aggregator} (h : a.Indexed) (now : ℤ)
    (event : AlertCurEvent) : Answered ext a now event (a.handle ext now {} (some event)).1
      (a.handle ext now {} (some event)).2 := by
  unfold handle
  cases hslot : findSlot ext a.rules (some event) with
  | error result => exact .passed hslot
  | ok slot =>
    simp only [resolve]
    cases hlookup : a.lookup now slot with
    | some id =>
      have hof : a.db.Of slot.rule.id slot.key id := get h (of_findSlot_ok hslot).2 hlookup
      exact answered_merge now hslot hof h rfl rfl
    | none =>
      cases hfind : a.db.findActiveIncident slot.rule.id slot.key slot.rule.windowSec now with
      | some existing =>
        have hof := findActiveIncident_of hfind
        exact answered_merge now hslot hof (h.put (.refl _) (fun _ => hof) _ _) rfl rfl
      | none => exact answered_createNew h now hslot hlookup hfind

/-! ## Evaluations with an aggregation node -/

/-- `Handle` for a rule with an aggregation node in its pipeline: `pipeline` is what comes before
the node, `after` what comes behind it, `clock` the time at which the aggregator takes the event of
a point. -/
structure AggregatedCall extends HandleCall where
  after : ℕ → AlertCurEvent → Option AlertCurEvent
  clock : ℕ → ℤ

open AggregatedCall

/-- The event of a point at the aggregation node, if it gets there, and the aggregator it finds. -/
structure Visit where
  index : ℕ
  now : ℤ
  found : Aggregator
  event : Option AlertCurEvent

open Visit

namespace Visit

variable (ext : Externals) (v : Visit)

/-- The answer of the aggregator. -/
def answer : Option (Except String Result) :=
  v.event.map fun event => (v.found.handle ext v.now {} (some event)).1

/-- The aggregator after the visit. -/
def left : Aggregator :=
  match v.event with
  | none => v.found
  | some event => (v.found.handle ext v.now {} (some event)).2

/-- What `Process` leaves of the event. -/
def kept : Option AlertCurEvent :=
  v.event.bind fun event =>
    (({} : AggregateConfig).conclude event (v.found.handle ext v.now {} (some event)).1).1

/-- What the event is looked up by. -/
def slot : Option Slot :=
  v.event.bind fun event => (findSlot ext v.found.rules (some event)).toOption

/-- The event finds no active incident of its rule and key. -/
def Opens (slot : Slot) : Prop :=
  v.found.lookup v.now slot = none ∧
    v.found.db.findActiveIncident slot.rule.id slot.key slot.rule.windowSec v.now = none

instance (slot : Slot) : Decidable (v.Opens slot) := inferInstanceAs (Decidable (_ ∧ _))

/-- The event is dropped because it was merged into the incident. -/
def Drops (id : ℕ) : Prop :=
  ∃ r, v.answer ext = some (.ok r) ∧ r.incidentId = id ∧ v.event.isSome ∧ v.kept ext = none

end Visit

namespace AggregatedCall

variable (ext : Externals) (env : Env) (c : AggregatedCall) (rule : AlertRule)

/-- The event of a point at the aggregation node. -/
def visit (a : Aggregator) (p : AnomalyPoint × ℕ) : Visit where
  index := p.2
  now := c.clock p.2
  found := a
  event := c.pipeline p.2 (buildEvent env rule p.1 c.src c.now)

/-- The events of the points at the aggregation node, one after the other. -/
def visits : Aggregator → List (AnomalyPoint × ℕ) → List Visit
  | _, [] => []
  | a, p :: ps => c.visit env rule a p :: visits ((c.visit env rule a p).left ext) ps

/-- The aggregator after the point loop. -/
def leaves (a : Aggregator) (ps : List (AnomalyPoint × ℕ)) : Aggregator :=
  ps.foldl (fun a p => (c.visit env rule a p).left ext) a

/-- What comes out of the pipeline. -/
def out (v : Visit) : Option AlertCurEvent := (v.kept ext).bind (c.after v.index)

/-- The call, with the answers of the aggregator in its pipeline. -/
def handleCall (vs : List Visit) : HandleCall :=
  { c.toHandleCall with pipeline := fun i _ => (vs[i]?).bind (c.out ext) }

/-- The incident the aggregator puts an event in, and the event as it comes out of the pipeline. -/
def member (v : Visit) : Option (ℕ × AlertCurEvent) :=
  match v.answer ext, c.out ext v with
  | some (.ok r), some event =>
    if r.decision = .passThrough then none else some (r.incidentId, event)
  | _, _ => none

/-- What would come out of the pipeline if its aggregation node let everything pass. -/
def candidates : List AlertCurEvent :=
  c.points.zipIdx.filterMap fun p =>
    (c.pipeline p.2 (buildEvent env rule p.1 c.src c.now)).bind (c.after p.2)

end AggregatedCall

/-! ## A processor and the aggregator -/

/-- A processor with the aggregator of its pipeline, and the events that left the pipeline as events
of an incident. -/
structure Desk where
  world : World
  aggregator : Aggregator := {}
  members : List (ℕ × AlertCurEvent) := []

/-- What the two do. -/
inductive DeskOp where
  | evaluate (c : AggregatedCall)
  | process (op : Nightingale.Op)
  | syncRules (rules : List CustomAggregateRule)
  | close (id : ℕ) (now : ℤ)
  | sweep (order : MapOrder (ℤ × String)) (now maxAgeSec : ℤ)
  | reboot (upgradeOn : Bool)

namespace Desk

variable (ext : Externals) (env : Env) (d : Desk)

/-- The visits of an evaluation. -/
def visits (c : AggregatedCall) (rule : AlertRule) : List Visit :=
  c.visits ext env rule d.aggregator c.points.zipIdx

/-- One operation of the processor, of the aggregator, or of both. -/
def step : DeskOp → Desk
  | .evaluate c =>
    match c.cachedRule with
    | none => { d with world := d.world.handle env c.toHandleCall }
    | some rule =>
      { world := d.world.handle env (c.handleCall ext (d.visits ext env c rule))
        aggregator := c.leaves ext env rule d.aggregator c.points.zipIdx
        members := d.members ++ (d.visits ext env c rule).filterMap (c.member ext) }
  | .process op => { d with world := d.world.step env op }
  | .syncRules rules => { d with aggregator := { d.aggregator with rules := rules } }
  | .close id now =>
    { d with aggregator := { d.aggregator with db := d.aggregator.db.incidentClose id now } }
  | .sweep order now maxAgeSec =>
    { d with aggregator :=
        { d.aggregator with index := (d.aggregator.index.sweep order now maxAgeSec).2 } }
  | .reboot upgradeOn =>
    { d with aggregator :=
        { rules := d.aggregator.rules, upgradeOn := upgradeOn, db := d.aggregator.db } }

/-- An event of the incident has been pushed, and the queue took it. -/
def Heard (id : ℕ) : Prop :=
  ∃ m ∈ d.members, m.1 = id ∧ ∃ q, Effect.push q true ∈ d.world.log ∧ q.ident = m.2.ident

/-- **No event is dropped into silence**: of the incident an event is merged into and dropped for,
an event has been pushed before. -/
def Spoken : DeskOp → Prop
  | .evaluate c => ∀ rule ∈ c.cachedRule, ∀ v ∈ d.visits ext env c rule,
      ∀ id, v.Drops ext id → d.Heard id
  | _ => True

/-- **Nothing holds an event back** on its way from the aggregation node into the queue. -/
def Unhindered (c : AggregatedCall) (rule : AlertRule) (i : ℕ) (event : AlertCurEvent) : Prop :=
  rule.promForDuration = 0 ∧ c.inhibit = false ∧
  d.world.Roomy (d.world.handleGroups env (c.handleCall ext (d.visits ext env c rule)) rule) ∧
  (∀ e ∈ c.candidates env rule, e.isRecovered = false) ∧
  ∃ e ∈ c.after i event, c.isMuted i e = false ∧ c.eventMuteHook i e = false ∧
    d.world.fired e.hash = none ∧ ∀ e' ∈ c.candidates env rule, e'.hash = e.hash → e' = e

instance (c : AggregatedCall) (rule : AlertRule) (i : ℕ) (event : AlertCurEvent) :
    Decidable (d.Unhindered ext env c rule i event) := by
  unfold Unhindered
  infer_instance

/-- **Every incident opens with an event that is pushed**: an event that opens an incident goes
unhindered, and no later event of its evaluation falls into that incident. -/
def Outspoken : DeskOp → Prop
  | .evaluate c => ∀ rule ∈ c.cachedRule,
      (d.visits ext env c rule).Pairwise (fun v u => ∀ slot ∈ v.slot ext, v.Opens slot →
        ∀ slot' ∈ u.slot ext, ¬ (slot'.rule.id = slot.rule.id ∧ slot'.key = slot.key)) ∧
      ∀ v ∈ d.visits ext env c rule, ∀ slot ∈ v.slot ext, v.Opens slot →
        d.Unhindered ext env c rule v.index slot.event
  | _ => True

instance (op : DeskOp) : Decidable (d.Outspoken ext env op) := by
  unfold Outspoken
  split <;> infer_instance

/-- One operation after the other. -/
def run (ops : List DeskOp) : Desk := ops.foldl (step ext env) d

/-- A processor and an aggregator that have not seen anything. -/
def fresh (rule : AlertRule) (tables : Tables) (sched : ℕ → Choice) (upgradeOn : Bool) : Desk where
  world := { rule := rule, tables := tables, sched := sched }
  aggregator := { upgradeOn := upgradeOn }

end Desk

/-! ## Visits -/

/-- The event opens the incident: it is let pass, and the incident is of its rule and key. -/
def Visit.Founds (ext : Externals) (v : Visit) (id : ℕ) : Prop :=
  ∃ slot ∈ v.slot ext, v.Opens slot ∧ v.kept ext = some slot.event ∧
    (∃ r, v.answer ext = some (.ok r) ∧ r.decision = .fireFirst ∧ r.incidentId = id) ∧
    (v.left ext).db.Of slot.rule.id slot.key id

/-- **What a visit does**: there is no incident after it that was not there or was opened by it, and
it drops its event only for an incident that was there. -/
structure Visit.Goes (ext : Externals) (v : Visit) : Prop where
  indexed : (v.left ext).Indexed
  grows : v.found.db.Grows (v.left ext).db
  created : ∀ id, ((v.left ext).db.incidents.get? id).isSome →
    (v.found.db.incidents.get? id).isSome ∨ v.Founds ext id
  drops : ∀ id, v.Drops ext id → ∃ slot ∈ v.slot ext, v.found.db.Of slot.rule.id slot.key id

section Goes

variable {ext : Externals} {v : Visit} {event : AlertCurEvent}

theorem Visit.answered (ext : Externals) (h : v.found.Indexed) (hev : v.event = some event) :
    ∃ answer, v.answer ext = some answer ∧ Answered ext v.found v.now event answer (v.left ext) ∧
      v.kept ext = (({} : AggregateConfig).conclude event answer).1 := by
  refine ⟨(v.found.handle ext v.now {} (some event)).1, ?_, ?_, ?_⟩
  · simp [answer, hev]
  · have hans := answered_handle ext h v.now event
    simpa [left, hev] using hans
  · simp [kept, hev]

theorem Visit.Drops.absorbed {answer : Except String Result} {id : ℕ} (h : v.Drops ext id)
    (hanswer : v.answer ext = some answer)
    (hkept : v.kept ext = (({} : AggregateConfig).conclude event answer).1) :
    ∃ r, answer = .ok r ∧ r.incidentId = id ∧ r.Absorbed := by
  obtain ⟨r, hr, hid, -, hnone⟩ := h
  rw [hanswer] at hr
  cases hr
  rw [hkept, conclude_eq_none_iff] at hnone
  obtain ⟨r', hr', habs⟩ := hnone
  cases hr'
  exact ⟨r, rfl, hid, habs⟩

theorem Visit.goes_of_none (h : v.found.Indexed) (hev : v.event = none) : v.Goes ext := by
  have hleft : v.left ext = v.found := by simp [left, hev]
  refine ⟨hleft ▸ h, hleft ▸ .refl _, fun x hx => .inl (hleft ▸ hx), ?_⟩
  rintro id ⟨r, -, -, hsome, -⟩
  rw [hev] at hsome
  cases hsome

theorem mem_slot_of_findSlot {slot : Slot} (hev : v.event = some event)
    (h : findSlot ext v.found.rules (some event) = .ok slot) : slot ∈ v.slot ext := by
  simp [Visit.slot, hev, h, Except.toOption]

theorem not_absorbed_of_eq {r : Result} {d : Decision} (h : r.decision = d) (hm : d ≠ .merged)
    (hs : d ≠ .storm) : ¬ r.Absorbed := by
  rw [Result.Absorbed, h]
  exact not_or.mpr ⟨hm, hs⟩

theorem Visit.goes (ext : Externals) (h : v.found.Indexed) : v.Goes ext := by
  cases hev : v.event with
  | none => exact goes_of_none h hev
  | some event =>
    obtain ⟨answer, hanswer, hans, hkept⟩ := answered ext h hev
    have hdrops : ∀ id, v.Drops ext id → ∃ r, answer = .ok r ∧ r.incidentId = id ∧ r.Absorbed :=
      fun id hd => hd.absorbed hanswer hkept
    generalize hb : v.left ext = left at hans
    cases hans with
    | passed hs =>
      refine ⟨hb ▸ h, hb ▸ .refl _, fun x hx => .inl (hb ▸ hx), fun id hd => ?_⟩
      obtain ⟨r, hr, -, habs⟩ := hdrops id hd
      cases hr
      exact absurd habs (not_absorbed_of_eq (decision_of_findSlot hs) (by decide) (by decide))
    | @merged slot r _ hs _ hof hsame hidx _ =>
      refine ⟨hb ▸ hidx, hb ▸ hsame.grows, fun x hx => .inl ?_, fun id hd => ?_⟩
      · rw [hb, hsame.isSome x] at hx
        exact hx
      · obtain ⟨r', hr, rfl, -⟩ := hdrops id hd
        cases hr
        exact ⟨slot, mem_slot_of_findSlot hev hs, hof⟩
    | @first slot r _ hs hlookup hfind hfirst hgrows hof hsome hidx _ =>
      have hevent : event = slot.event := some.inj (of_findSlot_ok hs).1
      refine ⟨hb ▸ hidx, hb ▸ hgrows, fun x hx => ?_, fun id hd => ?_⟩
      · rw [hb] at hx
        refine (hsome x hx).symm.imp_right fun hx => ⟨slot, mem_slot_of_findSlot hev hs,
          ⟨hlookup, hfind⟩, ?_, ⟨r, hanswer, hfirst, hx.symm⟩, ?_⟩
        · rw [hkept, ← hevent]
          simp [AggregateConfig.conclude, hfirst]
        · rw [hb, hx]
          exact hof
      · obtain ⟨r', hr, -, habs⟩ := hdrops id hd
        cases hr
        exact absurd habs (not_absorbed_of_eq hfirst (by decide) (by decide))

/-- Every incident is one of `I`, or of a rule and key in `K`. -/
def Aggregator.Known (I : ℕ → Prop) (K : List (ℤ × String)) (a : Aggregator) : Prop :=
  ∀ id, (a.db.incidents.get? id).isSome → I id ∨ ∃ x ∈ K, a.db.Of x.1 x.2 id

variable {I : ℕ → Prop} {K K' : List (ℤ × String)}

theorem Visit.Goes.known (hg : v.Goes ext) (hsub : K ⊆ K')
    (hopens : ∀ slot ∈ v.slot ext, v.Opens slot → (slot.rule.id, slot.key) ∈ K')
    (h : v.found.Known I K) : (v.left ext).Known I K' := by
  intro id hid
  rcases hg.created id hid with hold | ⟨slot, hslot, ho, -, -, hof⟩
  · exact (h id hold).imp_right fun ⟨x, hx, hof⟩ => ⟨x, hsub hx, hg.grows _ _ _ hof⟩
  · exact .inr ⟨_, hopens slot hslot ho, hof⟩

/-- An event of no rule and key in `K` is dropped for an incident of `I`. -/
theorem Visit.Goes.old (hg : v.Goes ext) (h : v.found.Known I K)
    (hK : ∀ slot ∈ v.slot ext, (slot.rule.id, slot.key) ∉ K) {id : ℕ} (hdrop : v.Drops ext id) :
    I id := by
  obtain ⟨slot, hslot, inc, hget, hrule, hkey⟩ := hg.drops id hdrop
  have hsome : (v.found.db.incidents.get? id).isSome := isSome_iff_exists.mpr ⟨inc, hget⟩
  rcases h id hsome with hI | ⟨x, hx, inc', hget', hrule', hkey'⟩
  · exact hI
  · obtain rfl := mem_unique hget hget'
    have heq : (slot.rule.id, slot.key) = x := by
      rw [← hrule, ← hkey, hrule', hkey']
    exact absurd (heq ▸ hx) (hK slot hslot)

end Goes

namespace AggregatedCall

variable {ext : Externals} {env : Env} {c : AggregatedCall} {rule : AlertRule}

/-- The visits of a call are those of its points, in their places. -/
theorem getElem?_visits {a : Aggregator} {ps : List (AnomalyPoint × ℕ)} {v : Visit} {k : ℕ}
    (h : (c.visits ext env rule a ps)[k]? = some v) :
    ∃ p, ps[k]? = some p ∧ v = c.visit env rule v.found p := by
  induction ps generalizing a k with
  | nil => cases h
  | cons p ps ih =>
    cases k with
    | zero =>
      cases h
      exact ⟨p, rfl, rfl⟩
    | succ k => exact ih h

/-- **After the point loop** there is no incident that was not there or was opened by a visit. -/
theorem leaves_spec (ext : Externals) (env : Env) (c : AggregatedCall) (rule : AlertRule)
    {a : Aggregator} (h : a.Indexed) (ps : List (AnomalyPoint × ℕ)) :
    (c.leaves ext env rule a ps).Indexed ∧
      ∀ id, ((c.leaves ext env rule a ps).db.incidents.get? id).isSome →
        (a.db.incidents.get? id).isSome ∨ ∃ v ∈ c.visits ext env rule a ps, v.Founds ext id := by
  induction ps generalizing a with
  | nil => exact ⟨h, fun id hid => .inl hid⟩
  | cons p ps ih =>
    have hgoes : Visit.Goes ext (c.visit env rule a p) := goes ext h
    obtain ⟨hidx, hsome⟩ := ih hgoes.indexed
    refine ⟨hidx, fun id hid => ?_⟩
    rcases hsome id hid with hleft | ⟨v, hv, hfounds⟩
    · exact (hgoes.created id hleft).imp_right fun hf => ⟨_, mem_cons_self, hf⟩
    · exact .inr ⟨v, mem_cons_of_mem _ hv, hfounds⟩

/-- **No event is dropped for an incident of its own evaluation**, if no event falls into an
incident that an earlier one has opened.  `K` has the rules and keys of the incidents opened so far.
-/
theorem old_of_drops {I : ℕ → Prop} {K : List (ℤ × String)} {a : Aggregator} (h : a.Indexed)
    {ps : List (AnomalyPoint × ℕ)}
    (hold : a.Known I K)
    (hK : ∀ v ∈ c.visits ext env rule a ps, ∀ slot ∈ v.slot ext, (slot.rule.id, slot.key) ∉ K)
    (hpair : (c.visits ext env rule a ps).Pairwise fun v u => ∀ slot ∈ v.slot ext, v.Opens slot →
      ∀ slot' ∈ u.slot ext, ¬ (slot'.rule.id = slot.rule.id ∧ slot'.key = slot.key)) :
    ∀ v ∈ c.visits ext env rule a ps, ∀ id, v.Drops ext id → I id := by
  induction ps generalizing a K with
  | nil => exact fun v hv => absurd hv not_mem_nil
  | cons p ps ih =>
    have hgoes : Visit.Goes ext (c.visit env rule a p) := goes ext h
    rw [visits, pairwise_cons] at hpair
    intro v hv id hdrop
    rcases mem_cons.mp hv with rfl | hv
    · exact hgoes.old hold (hK _ mem_cons_self) hdrop
    · have hlater : ∀ u ∈ c.visits ext env rule ((c.visit env rule a p).left ext) ps,
          ∀ slot ∈ u.slot ext, (slot.rule.id, slot.key) ∉ K :=
        fun u hu => hK u (mem_cons_of_mem _ hu)
      by_cases hnew : ∃ slot ∈ (c.visit env rule a p).slot ext, (c.visit env rule a p).Opens slot
      · obtain ⟨slot, hslot, hopens⟩ := hnew
        refine ih (K := (slot.rule.id, slot.key) :: K) hgoes.indexed
          (hgoes.known (subset_cons_self _ _) (fun slot' hslot' _ => ?_) hold)
          (fun u hu slot' hslot' hmem => ?_) hpair.2 v hv id hdrop
        · obtain rfl := mem_unique hslot hslot'
          exact mem_cons_self
        · rcases mem_cons.mp hmem with heq | hmem
          · exact hpair.1 u hu slot hslot hopens slot' hslot' (Prod.mk.inj heq)
          · exact hlater u hu slot' hslot' hmem
      · exact ih hgoes.indexed (hgoes.known (Subset.refl _)
          (fun slot hslot hopens => absurd ⟨slot, hslot, hopens⟩ hnew) hold) hlater hpair.2 v hv id
          hdrop

theorem event_of_kept {v : Visit} {event : AlertCurEvent} (h : v.kept ext = some event) :
    v.event = some event := by
  obtain ⟨e, he, hc⟩ := bind_eq_some_iff.mp h
  rw [he]
  revert hc
  generalize (v.found.handle ext v.now {} (some e)).1 = answer
  intro hc
  cases answer with
  | error err => exact hc
  | ok r => cases hd : r.decision <;> simp_all [AggregateConfig.conclude]

/-- What reaches `handleEvent` would come out of the pipeline without the node, too. -/
theorem mem_candidates_of_mem_passes {a : Aggregator} {pe : AnomalyPoint × AlertCurEvent}
    (h : pe ∈ (c.handleCall ext (c.visits ext env rule a c.points.zipIdx)).passes env rule) :
    pe.2 ∈ c.candidates env rule := by
  obtain ⟨p, hp, hs⟩ := mem_filterMap.mp h
  obtain ⟨e, he, rfl⟩ := map_eq_some_iff.mp hs
  have hout : ((c.visits ext env rule a c.points.zipIdx)[p.2]?).bind (c.out ext) = some e := by
    unfold HandleCall.screen at he
    split at he
    · cases he
    · next event hpipe =>
      split_ifs at he
      cases he
      exact hpipe
  obtain ⟨v, hv, hout⟩ := bind_eq_some_iff.mp hout
  obtain ⟨k, hk, hafter⟩ := bind_eq_some_iff.mp hout
  obtain ⟨p', hp', hvisit⟩ := getElem?_visits hv
  have heq : p' = p := by
    have hget : c.points[p.2]? = some p.1 := mem_zipIdx_iff_getElem?.mp hp
    rw [getElem?_zipIdx, hget] at hp'
    simpa using (some.inj hp').symm
  have hevent := event_of_kept hk
  rw [hvisit, heq] at hevent hafter
  exact mem_filterMap.mpr ⟨p, hp, bind_eq_some_iff.mpr ⟨k, hevent, hafter⟩⟩

/-- An event that comes out of the pipeline and is not muted reaches `handleEvent`. -/
theorem mem_passes_of_out {a : Aggregator} {v : Visit} {e : AlertCurEvent}
    (hv : v ∈ c.visits ext env rule a c.points.zipIdx) (hout : c.out ext v = some e)
    (hmute : c.isMuted v.index e = false) (hhook : c.eventMuteHook v.index e = false) :
    ∃ point, (point, e) ∈
      (c.handleCall ext (c.visits ext env rule a c.points.zipIdx)).passes env rule := by
  obtain ⟨k, hk⟩ := mem_iff_getElem?.mp hv
  obtain ⟨p, hp, hvisit⟩ := getElem?_visits hk
  have hmem : p ∈ c.points.zipIdx := mem_of_getElem? hp
  have hindex : v.index = p.2 := by rw [hvisit]; rfl
  have hplace : p.2 = k := by
    rw [getElem?_zipIdx] at hp
    obtain ⟨x, -, rfl⟩ := map_eq_some_iff.mp hp
    exact Nat.zero_add k
  rw [hindex] at hmute hhook
  refine ⟨p.1, mem_filterMap.mpr ⟨p, hmem, ?_⟩⟩
  simp [HandleCall.screen, handleCall, hplace ▸ hk, hout, hmute, hhook]

end AggregatedCall

/-! ## Runs -/

namespace Desk

variable {ext : Externals} {env : Env} {d d' : Desk}

/-- **The invariant**: of every incident an event has been pushed. -/
structure Settled (d : Desk) : Prop where
  wf : d.world.WF
  indexed : d.aggregator.Indexed
  heard : ∀ id, (d.aggregator.db.incidents.get? id).isSome → d.Heard id

theorem Heard.mono {id : ℕ} (h : d.Heard id) (hm : d.members ⊆ d'.members)
    (hlog : d.world.log <+: d'.world.log) : d'.Heard id := by
  obtain ⟨m, hmem, hid, q, hq, hident⟩ := h
  exact ⟨m, hm hmem, hid, q, hlog.subset hq, hident⟩

theorem Settled.onward (h : d.Settled) {w : World} (ho : World.Onward d.world w) :
    Settled { d with world := w } :=
  ⟨ho.wf, h.indexed, fun id hid => (h.heard id hid).mono (Subset.refl _) ho.log⟩

theorem step_evaluate (ext : Externals) (env : Env) (d : Desk) {c : AggregatedCall}
    {rule : AlertRule} (hrule : c.cachedRule = some rule) : d.step ext env (.evaluate c) =
      { world := d.world.handle env (c.handleCall ext (d.visits ext env c rule))
        aggregator := c.leaves ext env rule d.aggregator c.points.zipIdx
        members := d.members ++ (d.visits ext env c rule).filterMap (c.member ext) } := by
  rw [step, hrule]

/-- An event that opens an incident and goes unhindered is pushed in its own evaluation. -/
theorem pushed_of_founds (hw : d.world.WF) {c : AggregatedCall} {rule : AlertRule}
    (hrule : c.cachedRule = some rule) {v : Visit} (hv : v ∈ d.visits ext env c rule) {id : ℕ}
    (hf : v.Founds ext id) (hfree : ∀ slot ∈ v.slot ext, v.Opens slot →
      d.Unhindered ext env c rule v.index slot.event) :
    (d.step ext env (.evaluate c)).Heard id := by
  obtain ⟨slot, hslot, hopens, hkept, ⟨r, hr, hfirst, hid⟩, -⟩ := hf
  obtain ⟨hfor, hinh, hroom, hrec, e, he, hmute, hhook, hidle, halone⟩ := hfree slot hslot hopens
  have hout : c.out ext v = some e := by
    rw [out, hkept]
    exact he
  obtain ⟨point, hpass⟩ := mem_passes_of_out hv hout hmute hhook
  obtain ⟨q, hq, hident⟩ := World.pushed_handleGroups
    (c := c.handleCall ext (d.visits ext env c rule)) hw
    (fun pe hpe => hrec _ (mem_candidates_of_mem_passes hpe)) hfor hinh hroom hpass hidle
    fun qe hqe heq => halone _ (mem_candidates_of_mem_passes hqe) heq
  have hmember : c.member ext v = some (id, e) := by
    simp [member, hr, hout, hfirst, hid]
  have hlog := World.log_handleGroups_handle
    (c := c.handleCall ext (d.visits ext env c rule)) hw env hrule
  rw [step_evaluate ext env d hrule]
  exact ⟨(id, e), mem_append_right _ (mem_filterMap.mpr ⟨v, hv, hmember⟩), rfl, q,
    hlog.subset hq, hident⟩

theorem settled_evaluate (h : d.Settled) {c : AggregatedCall}
    (hout : d.Outspoken ext env (.evaluate c)) : (d.step ext env (.evaluate c)).Settled := by
  cases hrule : c.cachedRule with
  | none =>
    rw [step, hrule]
    exact h.onward (World.onward_handle h.wf env c.toHandleCall)
  | some rule =>
    have ho := World.onward_handle h.wf env (c.handleCall ext (d.visits ext env c rule))
    obtain ⟨hidx, hsome⟩ := leaves_spec ext env c rule h.indexed
      c.points.zipIdx
    have hstep := step_evaluate ext env d hrule
    refine ⟨by rw [hstep]; exact ho.wf, by rw [hstep]; exact hidx, fun id hid => ?_⟩
    rw [hstep] at hid
    rcases hsome id hid with hold | ⟨v, hv, hf⟩
    · rw [hstep]
      exact (h.heard id hold).mono (subset_append_left _ _) ho.log
    · exact pushed_of_founds h.wf hrule hv hf ((hout rule hrule).2 v hv)

/-- **One operation.** -/
theorem settled_step (h : d.Settled) {op : DeskOp} (hout : d.Outspoken ext env op) :
    (d.step ext env op).Settled := by
  cases op with
  | evaluate c => exact settled_evaluate h hout
  | process op => exact h.onward (World.onward_step h.wf env op)
  | syncRules rules => exact ⟨h.wf, h.indexed, h.heard⟩
  | close id now =>
    have hends : d.aggregator.db.Ends (d.aggregator.db.incidentClose id now) := by
      rw [Database.incidentClose_eq]
      split
      · exact Database.ends_setClosed _ _ _
      · exact .refl _
    exact ⟨h.wf, grows h.indexed hends.grows, fun x hx => h.heard x (hends.isSome x ▸ hx)⟩
  | sweep order now maxAgeSec =>
    refine ⟨h.wf, fun r k e he hk => h.indexed r k e ?_ hk, h.heard⟩
    change (d.aggregator.index.sweep order now maxAgeSec).2.lookup (r, k) = some e at he
    rw [ActiveIncidentIndex.sweep, MapOrder.lookup_deleteWhere] at he
    exact (filter_eq_some_iff.mp he).1
  | reboot upgradeOn =>
    refine ⟨h.wf, fun r k e he _ => ?_, h.heard⟩
    change (∅ : ActiveIncidentIndex).lookup (r, k) = some e at he
    rw [Finmap.lookup_empty] at he
    cases he

theorem settled_fresh (rule : AlertRule) (tables : Tables) (sched : ℕ → Choice) (upgradeOn : Bool) :
    (fresh rule tables sched upgradeOn).Settled where
  wf := World.WF.initial rule tables sched
  indexed r k e he := by
    change (∅ : ActiveIncidentIndex).lookup (r, k) = some e at he
    rw [Finmap.lookup_empty] at he
    cases he
  heard id hid := by cases hid

/-- An evaluation drops its events for old incidents only. -/
theorem Settled.spoken (h : d.Settled) {op : DeskOp} (hout : d.Outspoken ext env op) :
    d.Spoken ext env op := by
  cases op with
  | evaluate c =>
    intro rule hrule
    exact old_of_drops (K := []) h.indexed (fun id hid => .inl (h.heard id hid))
      (fun _ _ _ _ => not_mem_nil) (hout rule hrule).1
  | _ => trivial

/-- **In every run whose incidents open with events that are pushed, no event is dropped into
silence**: whatever the processor does besides, whatever rules the aggregator works by, and
whichever incidents are closed or forgotten in between. -/
theorem dropped_after_push (ext : Externals) (env : Env) (rule : AlertRule) (tables : Tables)
    (sched : ℕ → Choice) (upgradeOn : Bool) {ops : List DeskOp}
    (h : Along (step ext env) (Outspoken ext env) (fresh rule tables sched upgradeOn) ops) :
    ∀ before op rest, ops = before ++ op :: rest →
      ((fresh rule tables sched upgradeOn).run ext env before).Spoken ext env op := by
  rintro before op rest rfl
  obtain ⟨hbefore, hop⟩ := along_append.mp h
  have hs : ((fresh rule tables sched upgradeOn).run ext env before).Settled :=
    hbefore.invariant (fun _ _ hout hs => settled_step hs hout)
      (settled_fresh rule tables sched upgradeOn)
  exact hs.spoken hop.1

end Desk

/-! ## Two small runs -/

namespace Example

/-- An evaluation of a rule with an aggregation node and nothing else in its pipeline. -/
def aggregated (rule : AlertRule) (now : ℤ) : AggregatedCall :=
  { Nightingale.Example.call rule now [Nightingale.Example.point "a" 2 now] with
    after := fun _ event => some event
    clock := fun _ => now }

/-- An alert, evaluated twice. -/
def evaluatedTwice (rule : AlertRule) : List DeskOp :=
  [.syncRules rules, .evaluate (aggregated rule 100), .evaluate (aggregated rule 115)]

/-- A rule that must hold for a minute. -/
def minuteLong : AlertRule := { id := 1, promForDuration := 60 }

/-- Before the second evaluation. -/
def atSecond (rule : AlertRule) : Desk :=
  (Desk.fresh rule {} (fun _ => {}) true).run ext Nightingale.Example.env
    ((evaluatedTwice rule).take 2)

end Example

open Denoise.Example

/-- A rule without a for-duration: the second event is dropped, the first has been pushed. -/
theorem second_dropped_after_first : (atSecond { id := 1 }).Spoken ext Nightingale.Example.env
        (.evaluate (aggregated { id := 1 } 115)) ∧ (atSecond { id := 1 }).Heard 1 :=
  have hs := Desk.dropped_after_push ext Nightingale.Example.env { id := 1 } {} (fun _ => {})
    true (by decide) _ _ [] (rfl : evaluatedTwice { id := 1 } = _)
  ⟨hs, hs { id := 1 } rfl _ (mem_singleton_self _) 1 ⟨_, rfl, rfl, rfl, rfl⟩⟩

/-- **An incident that nobody hears of.**  The rule must hold for a minute: the first event opens
the incident and is kept pending, the second is merged and dropped, and nothing has been pushed. -/
theorem dropped_in_silence : ¬ ∀ rule ops op, ((Desk.fresh rule {} (fun _ => {}) true).run ext
      Nightingale.Example.env ops).Spoken ext Nightingale.Example.env op := by
  intro h
  have hs := h minuteLong ((evaluatedTwice minuteLong).take 2)
    (.evaluate (aggregated minuteLong 115))
  obtain ⟨m, -, -, q, hq, -⟩ := hs _ rfl _ (mem_singleton_self _) 1 ⟨_, rfl, rfl, rfl, rfl⟩
  have hnone : pushed (atSecond minuteLong).world.log = [] := by decide
  have hmem : q ∈ pushed (atSecond minuteLong).world.log := mem_filterMap.mpr ⟨_, hq, rfl⟩
  rw [hnone] at hmem
  exact absurd hmem not_mem_nil

end Nightingale.Denoise
