import Nightingale.Lib.Run
import Nightingale.Process.Effects

/-!
# Process/Calls — induction over a call

A call of `Handle` is two loops: it looks at and fires the events of its points, group by group,
then recovers what fires and was not delivered.

    handleStart ──look r, fire r──▸ handleGroups ──forget, drop h, recover h──▸ handle

Each loop gets its induction rule here — `handleGroups_induct`, `handleRecover_induct` — in which
the only steps are those of `Process/Effects` and every step comes with what the call guarantees of
it.
-/

namespace Nightingale

open AlertCurEvent World List Option Finmap Heap

/-! ## The events of a call -/

/-- The points of a call that neither the pipeline nor a mute holds back, with their events. -/
def HandleCall.passes (env : Env) (c : HandleCall) (rule : AlertRule) :
    List (AnomalyPoint × AlertCurEvent) :=
  c.points.zipIdx.filterMap fun p => (c.screen env rule p.2 p.1).map (p.1, ·)

/-- Pipelines hand an event on under the hash of its point. -/
def HandleCall.KeepsHash (env : Env) (c : HandleCall) (rule : AlertRule) : Prop :=
  ∀ pe ∈ c.passes env rule, pe.2.hash = pointHash env rule.id pe.1

/-- Pipelines hand no event on as a recovery. -/
def HandleCall.KeepsFiring (env : Env) (c : HandleCall) (rule : AlertRule) : Prop :=
  ∀ pe ∈ c.passes env rule, pe.2.isRecovered = false

/-- Pipelines hand an event on with the time of the call. -/
def HandleCall.OnTime (env : Env) (c : HandleCall) (rule : AlertRule) : Prop :=
  ∀ pe ∈ c.passes env rule, pe.2.lastEvalTime = c.now

instance (env : Env) (c : HandleCall) (rule : AlertRule) : Decidable (c.KeepsHash env rule) :=
  inferInstanceAs (Decidable (∀ _ ∈ _, _))

instance (env : Env) (c : HandleCall) (rule : AlertRule) : Decidable (c.KeepsFiring env rule) :=
  inferInstanceAs (Decidable (∀ _ ∈ _, _))

instance (env : Env) (c : HandleCall) (rule : AlertRule) : Decidable (c.OnTime env rule) :=
  inferInstanceAs (Decidable (∀ _ ∈ _, _))

/-- An event is in one of the groups. -/
def Collected.Has (got : Collected) (r : Ref) : Prop :=
  ∃ key, r ∈ (got.eventsMap.lookup key).getD []

/-- What the point loop has done after the points `pts`. -/
structure CollectSpec (env : Env) (c : HandleCall) (rule : AlertRule) (heap : Heap AlertCurEvent)
    (pts : List (AnomalyPoint × ℕ)) (got : Collected) : Prop where
  next : heap.next ≤ got.heap.next
  old : ∀ r < heap.next, got.heap.get r = heap.get r
  new : ∀ r < got.heap.next, heap.next ≤ r →
    ∃ p ∈ pts, c.screen env rule p.2 p.1 = some (got.heap.get r)
  keys : got.alertingKeys = pts.map fun p => pointHash env rule.id p.1
  sound : ∀ key, ∀ r ∈ (got.eventsMap.lookup key).getD [],
    (heap.next ≤ r ∧ r < got.heap.next) ∧ ∃ p ∈ pts,
      c.screen env rule p.2 p.1 = some (got.heap.get r) ∧ tagHash env p.1 = key
  complete : ∀ p ∈ pts, ∀ e, c.screen env rule p.2 p.1 = some e →
    ∃ r ∈ (got.eventsMap.lookup (tagHash env p.1)).getD [], got.heap.get r = e

section Collect

variable {env : Env} {c : HandleCall} {rule : AlertRule} {heap : Heap AlertCurEvent}

theorem CollectSpec.concat {pts : List (AnomalyPoint × ℕ)} {got : Collected}
    (s : CollectSpec env c rule heap pts got) (p : AnomalyPoint × ℕ) :
    CollectSpec env c rule heap (pts ++ [p]) (c.collectOne env rule got p) := by
  cases hs : c.screen env rule p.2 p.1 with
  | none =>
    simp only [HandleCall.collectOne, hs]
    refine ⟨s.next, s.old, fun r hr hge => ?_, by simp [s.keys], fun key r hr => ?_,
      fun q hq e he => ?_⟩
    · obtain ⟨q, hq, hqs⟩ := s.new r hr hge
      exact ⟨q, mem_append_left _ hq, hqs⟩
    · obtain ⟨hb, q, hq, hqs⟩ := s.sound key r hr
      exact ⟨hb, q, mem_append_left _ hq, hqs⟩
    · rcases mem_append.mp hq with hq | hq
      · exact s.complete q hq e he
      · rw [mem_singleton.mp hq, hs] at he
        cases he
  | some event =>
    simp only [HandleCall.collectOne, hs]
    have hold : ∀ r < got.heap.next, (got.heap.alloc event).get r = got.heap.get r :=
      fun r hr => get_alloc_of_lt _ _ hr
    have hgroup : ∀ key r, r ∈ ((got.eventsMap.insert (tagHash env p.1)
        ((got.eventsMap.lookup (tagHash env p.1)).getD [] ++ [got.heap.next])).lookup key).getD []
          ↔ r ∈ (got.eventsMap.lookup key).getD [] ∨ key = tagHash env p.1 ∧ r = got.heap.next := by
      intro key r
      by_cases hk : key = tagHash env p.1
      · subst hk; simp
      · simp [lookup_insert_of_ne _ hk, hk]
    refine ⟨s.next.trans (Nat.le_succ _), fun r hr => ?_, fun r hr hge => ?_, by simp [s.keys],
      fun key r hr => ?_, fun q hq e he => ?_⟩
    · rw [hold r (hr.trans_le s.next), s.old r hr]
    · rcases Nat.lt_succ_iff_lt_or_eq.mp hr with hr | rfl
      · obtain ⟨q, hq, hqs⟩ := s.new r hr hge
        exact ⟨q, mem_append_left _ hq, by rw [hold r hr]; exact hqs⟩
      · exact ⟨p, by simp, by rw [get_alloc_self]; exact hs⟩
    · rcases (hgroup key r).mp hr with hr | ⟨rfl, rfl⟩
      · obtain ⟨⟨hge, hlt⟩, q, hq, hqs, hqk⟩ := s.sound key r hr
        exact ⟨⟨hge, Nat.lt_succ_of_lt hlt⟩, q, mem_append_left _ hq,
          by rw [hold r hlt]; exact hqs, hqk⟩
      · exact ⟨⟨s.next, Nat.lt_succ_self _⟩, p, by simp, by rw [get_alloc_self]; exact hs, rfl⟩
    · rcases mem_append.mp hq with hq | hq
      · obtain ⟨r, hr, hre⟩ := s.complete q hq e he
        exact ⟨r, (hgroup _ r).mpr (.inl hr), by rw [hold r (s.sound _ r hr).1.2]; exact hre⟩
      · obtain rfl := mem_singleton.mp hq
        rw [hs] at he
        exact ⟨got.heap.next, (hgroup _ _).mpr (.inr ⟨rfl, rfl⟩),
          by rw [get_alloc_self]; exact some.inj he⟩

/-- **The point loop of `Handle`** allocates one event per passing point, files it under the tags of
its point, and remembers the hash of every point. -/
theorem collect_spec (env : Env) (c : HandleCall) (rule : AlertRule) (heap : Heap AlertCurEvent) :
    CollectSpec env c rule heap c.points.zipIdx (c.collect env rule heap) :=
  foldl_prefix_induction c.points.zipIdx
    ⟨le_rfl, fun _ _ => rfl, fun _ hlt hge => absurd hlt hge.not_gt, rfl,
      fun _ _ hr => by simp at hr, fun _ hp => by simp at hp⟩
    fun _ p _ _ s => s.concat p

theorem mem_passes_of_has {r : Ref} (hr : (c.collect env rule heap).Has r) :
    ∃ point, (point, (c.collect env rule heap).heap.get r) ∈ c.passes env rule := by
  obtain ⟨key, hr⟩ := hr
  obtain ⟨-, p, hp, hs, -⟩ := (collect_spec env c rule heap).sound key r hr
  exact ⟨p.1, mem_filterMap.mpr ⟨p, hp, by simp [hs]⟩⟩

theorem exists_has_of_mem_passes (heap : Heap AlertCurEvent) {pe : AnomalyPoint × AlertCurEvent}
    (h : pe ∈ c.passes env rule) :
    ∃ r, (c.collect env rule heap).Has r ∧ (c.collect env rule heap).heap.get r = pe.2 := by
  obtain ⟨p, hp, hs⟩ := mem_filterMap.mp h
  obtain ⟨e, he, rfl⟩ := map_eq_some_iff.mp hs
  obtain ⟨r, hr, hre⟩ := (collect_spec env c rule heap).complete p hp e he
  exact ⟨r, ⟨_, hr⟩, hre⟩

theorem alertingKeys_eq :
    (c.collect env rule heap).alertingKeys = c.points.map (pointHash env rule.id) := by
  have hmap : c.points.zipIdx.map (fun p => pointHash env rule.id p.1)
      = (c.points.zipIdx.map Prod.fst).map (pointHash env rule.id) := by
    rw [List.map_map]; rfl
  rw [(collect_spec env c rule heap).keys, hmap, zipIdx_map_fst]

theorem mem_alertingKeys {h : Hash} : h ∈ (c.collect env rule heap).alertingKeys
      ↔ ∃ point ∈ c.points, pointHash env rule.id point = h := by
  rw [alertingKeys_eq, List.mem_map]

theorem mem_points_of_mem_passes {pe : AnomalyPoint × AlertCurEvent}
    (h : pe ∈ c.passes env rule) : pe.1 ∈ c.points := by
  obtain ⟨p, hp, hs⟩ := mem_filterMap.mp h
  obtain ⟨e, -, rfl⟩ := map_eq_some_iff.mp hs
  exact (mem_zipIdx' hp).2 ▸ getElem_mem _

theorem hash_mem_alertingKeys (hK : c.KeepsHash env rule) {pe : AnomalyPoint × AlertCurEvent}
    (hpe : pe ∈ c.passes env rule) : pe.2.hash ∈ (c.collect env rule heap).alertingKeys := by
  rw [hK pe hpe]
  exact mem_alertingKeys.mpr ⟨pe.1, mem_points_of_mem_passes hpe, rfl⟩

end Collect

/-! ## The loop over the groups -/

namespace World

/-- How far the loop over the groups got: the events looked at, those found due, those fired. -/
structure Progress where
  world : World
  looked : List Ref := []
  due : List Ref := []
  fired : List Ref := []

open Progress

/-- One event looked at. -/
def Progress.look (env : Env) (p : Progress) (r : Ref) : Progress :=
  { p with
    world := (p.world.look env r).1
    looked := p.looked ++ [r]
    due := if (p.world.look env r).2 then p.due ++ [r] else p.due }

theorem Progress.mem_due_look {env : Env} {p : Progress} {r r' : Ref} :
    r' ∈ (p.look env r).due ↔ r' ∈ p.due ∨ r' = r ∧ (p.world.look env r).2 = true := by
  cases hd : (p.world.look env r).2 <;> simp [look, hd]

theorem Progress.looked_of_due_look {env : Env} {p : Progress} {r : Ref}
    (h : ∀ r' ∈ p.due, r' ∈ p.looked) : ∀ r' ∈ (p.look env r).due, r' ∈ (p.look env r).looked := by
  intro r' hr'
  rcases mem_due_look.mp hr' with hr' | ⟨rfl, -⟩
  · exact mem_append_left _ (h r' hr')
  · exact mem_append_right _ (mem_singleton_self _)

/-- One event fired. -/
def Progress.fire (p : Progress) (r : Ref) : Progress :=
  { p with world := p.world.fireEvent r, fired := p.fired ++ [r] }

theorem look_inhibit (env : Env) (w : World) (r : Ref) : (w.look env r).1.inhibit = w.inhibit := by
  have hrem : (w.remember r).inhibit = w.inhibit := by
    cases h : w.pendingsUseByRecover.lookup (w.heap.get r).hash <;>
      simp [remember, h, updateLastEvalTime_eq]
  have hpend : ∀ w : World, (w.pend r).1.inhibit = w.inhibit := fun w => by
    cases h : w.pendings.lookup (w.heap.get r).hash <;>
      simp [pend, h, updateLastEvalTime_eq, modify]
  simp only [look]
  split
  · exact hrem
  · rw [hpend]; exact hrem

theorem fireEvent_inhibit (w : World) (r : Ref) : (w.fireEvent r).inhibit = w.inhibit := by
  have hpush : ∀ w : World, (w.pushEventToQueue r).inhibit = w.inhibit := fun w => by
    cases h : (w.heap.get r).isRecovered <;> simp [pushEventToQueue, h, modify]
  cases hf : w.fires.lookup (w.heap.get r).hash with
  | none => simp [fireEvent, hf, hpush, modify]
  | some f =>
    rw [fireEvent_of_fired hf]
    split
    · rfl
    · rw [hpush]; rfl

section Groups

variable {env : Env} {Q : Ref → Prop} {I : Progress → Prop}

theorem looks_induct (hlook : ∀ p r, Q r → I p → I (p.look env r)) {events : List Ref}
    (hQ : ∀ r ∈ events, Q r) {p : Progress} (hp : I p) :
    ∃ p', I p' ∧ p'.world = (events.foldl (handleEventOne env) (p.world, {})).1 ∧
      p'.looked = p.looked ++ events ∧ p'.fired = p.fired ∧
      p'.due = p.due ++ (events.foldl (handleEventOne env) (p.world, {})).2.events ∧
      p'.world.inhibit = p.world.inhibit := by
  refine foldl_prefix_induction (I := fun done (acc : World × FireList) =>
    ∃ p', I p' ∧ p'.world = acc.1 ∧ p'.looked = p.looked ++ done ∧ p'.fired = p.fired ∧
      p'.due = p.due ++ acc.2.events ∧
    p'.world.inhibit = p.world.inhibit) events ⟨p, hp, rfl, by simp, rfl, by simp, rfl⟩ ?_
  rintro done r ⟨w, l⟩ hpre ⟨p', hp', rfl, hl, hf, hd, hi⟩
  refine ⟨p'.look env r, hlook p' r (hQ r (hpre.subset (by simp))) hp', rfl, ?_, hf, ?_, ?_⟩
  · simp [Progress.look, hl]
  · cases h : (p'.world.look env r).2 <;>
      simp [Progress.look, handleEventOne, FireList.add, h, hd]
  · simp [Progress.look, look_inhibit, hi]

theorem fires_induct (hfire : ∀ p r, Q r → r ∈ p.due → I p → I (p.fire r)) {events : List Ref}
    (hQ : ∀ r ∈ events, Q r) (high : ℤ) {p : Progress} (hdue : ∀ r ∈ events, r ∈ p.due)
    (hp : I p) : ∃ p', I p' ∧ p'.world = p.world.inhibitEvent events high ∧
      p'.looked = p.looked ∧ p'.due = p.due ∧ p'.world.inhibit = p.world.inhibit ∧
      (∀ r ∈ p.fired, r ∈ p'.fired) ∧ (p.world.inhibit = false → ∀ r ∈ events, r ∈ p'.fired) := by
  refine foldl_prefix_induction (I := fun done w => ∃ p', I p' ∧ p'.world = w ∧
    p'.looked = p.looked ∧ p'.due = p.due ∧ p'.world.inhibit = p.world.inhibit ∧
    (∀ r ∈ p.fired, r ∈ p'.fired) ∧ (p.world.inhibit = false → ∀ r ∈ done, r ∈ p'.fired)) events
    ⟨p, hp, rfl, rfl, rfl, rfl, fun _ h => h, by simp⟩ ?_
  rintro done r w hpre ⟨p', hp', rfl, hl, hd, hi, hold, hdone⟩
  have hr : r ∈ events := hpre.subset (by simp)
  split
  · next hskip =>
    refine ⟨p', hp', rfl, hl, hd, hi, hold, fun hno => ?_⟩
    rw [hi, hno] at hskip
    simp at hskip
  · refine ⟨p'.fire r, hfire p' r (hQ r hr) (by rw [hd]; exact hdue r hr) hp', rfl, hl, hd, ?_,
      fun r' h' => by simp [fire, hold r' h'], fun hno r' h' => ?_⟩
    · simp [fire, fireEvent_inhibit, hi]
    · rcases mem_append.mp h' with h' | h'
      · simp [fire, hdone hno r' h']
      · simp [fire, mem_singleton.mp h']

theorem handleEvent_induct (hlook : ∀ p r, Q r → I p → I (p.look env r))
    (hfire : ∀ p r, Q r → r ∈ p.due → I p → I (p.fire r)) (events : List Ref)
    (hQ : ∀ r ∈ events, Q r) {p : Progress} (hp : I p) :
    ∃ p', I p' ∧ p'.world = p.world.handleEvent env events ∧
      p'.looked = p.looked ++ events ∧ p'.world.inhibit = p.world.inhibit ∧
      ((p.world.inhibit = false → ∀ r ∈ p.due, r ∈ p.fired) →
        p.world.inhibit = false → ∀ r ∈ p'.due, r ∈ p'.fired) := by
  obtain ⟨p₁, hp₁, hw₁, hl₁, hf₁, hd₁, hi₁⟩ := looks_induct hlook hQ hp
  have hsub : ∀ r ∈ (events.foldl (handleEventOne env) (p.world, {})).2.events, r ∈ events :=
    foldl_prefix_induction (I := fun done (acc : World × FireList) => ∀ r ∈ acc.2.events, r ∈ done)
      events (by simp) fun done r acc _ ih r' h' => by
        simp only [handleEventOne] at h'
        split at h'
        · rcases mem_append.mp h' with h' | h'
          · exact mem_append_left _ (ih r' h')
          · exact mem_append_right _ h'
        · exact mem_append_left _ (ih r' h')
  obtain ⟨p₂, hp₂, hw₂, hl₂, hd₂, hi₂, hold, hall⟩ := fires_induct hfire
    (fun r hr => hQ r (hsub r hr)) (events.foldl (handleEventOne env) (p.world, {})).2.severity
    (p := p₁) (fun r hr => by rw [hd₁]; exact mem_append_right _ hr) hp₁
  refine ⟨p₂, hp₂, ?_, hl₂.trans hl₁, hi₂.trans hi₁, fun hprev hno r hr => ?_⟩
  · rw [hw₂, hw₁]; rfl
  · rw [hd₂, hd₁] at hr
    rcases mem_append.mp hr with hr | hr
    · exact hold r (by rw [hf₁]; exact hprev hno r hr)
    · exact hall (by rw [hi₁]; exact hno) r hr

end Groups

/-- What holds of the world throughout the loop over the groups of a call made in `w`: the events of
the call are as they were built but for counters and times, and a hash none of them has is as it
was before the call. -/
structure InCall (env : Env) (c : HandleCall) (rule : AlertRule) (w w' : World) : Prop where
  wf : w'.WF
  inhibit : w'.inhibit = c.inhibit
  keeps : (c.collect env rule w.heap).heap.Keeps ident w'.heap
  time : ∀ P : ℤ → Prop, (∀ pe ∈ c.passes env rule, P pe.2.lastEvalTime) →
    ∀ r, (c.collect env rule w.heap).Has r → P (w'.heap.get r).lastEvalTime
  sameAt : ∀ h, (∀ pe ∈ c.passes env rule, pe.2.hash ≠ h) → SameAt h w w'
  rule : w'.rule = rule

section Call

variable {env : Env} {c : HandleCall} {rule : AlertRule} {w w' : World} {r : Ref}

theorem WF.handleStart (hw : w.WF) (env : Env) (c : HandleCall) (rule : AlertRule) :
    (w.handleStart env c rule).WF := by
  have s := collect_spec env c rule w.heap
  have howns : ∀ m, Owns w.heap m → Owns (c.collect env rule w.heap).heap m := fun m hm h r hr => by
    obtain ⟨hlt, hh⟩ := hm h r hr
    exact ⟨hlt.trans_le s.next, by rw [s.old r hlt]; exact hh⟩
  exact ⟨howns _ hw.fires, howns _ hw.pendings, howns _ hw.pendingsUseByRecover,
    fun r hr => (hw.waiting r hr).trans_le s.next⟩

/-- Building the events of a call changes nothing any hash shows. -/
theorem SameAt.handleStart (hw : w.WF) (env : Env) (c : HandleCall) (rule : AlertRule) (h : Hash) :
    SameAt h w (w.handleStart env c rule) := by
  have s := collect_spec env c rule w.heap
  have hmap : ∀ m, Owns w.heap m →
      (m.lookup h).map (c.collect env rule w.heap).heap.get = (m.lookup h).map w.heap.get :=
    fun m hm => map_congr fun r hr => s.old r (hm h r hr).1
  exact ⟨hmap _ hw.fires, hmap _ hw.pendings, hmap _ hw.pendingsUseByRecover⟩

namespace InCall

theorem start (hw : w.WF) (env : Env) (c : HandleCall) (rule : AlertRule) :
    InCall env c rule w (w.handleStart env c rule) where
  wf := hw.handleStart env c rule
  rule := rfl
  inhibit := rfl
  keeps := Heap.Keeps.refl _ _
  time P hP r hr := by
    obtain ⟨point, hp⟩ := mem_passes_of_has hr
    exact hP _ hp
  sameAt h _ := SameAt.handleStart hw env c rule h

section

variable (s : InCall env c rule w w')

include s

theorem hash_eq (r : Ref) : (w'.heap.get r).hash = ((c.collect env rule w.heap).heap.get r).hash :=
  hash_eq_of_ident_eq (s.keeps.get r)

theorem onTime (hT : c.OnTime env rule) (hr : (c.collect env rule w.heap).Has r)
    : (w'.heap.get r).lastEvalTime = c.now := s.time (· = c.now) hT r hr

variable (hr : (c.collect env rule w.heap).Has r)

include hr

theorem lt : r < w'.heap.next := by
  obtain ⟨key, hr⟩ := hr
  rw [s.keeps.next]
  exact ((collect_spec env c rule w.heap).sound key r hr).1.2

/-- The event behind a reference of the call, and the point it was built from. -/
theorem event : ∃ pe ∈ c.passes env rule, (w'.heap.get r).ident = pe.2.ident := by
  obtain ⟨point, hp⟩ := mem_passes_of_has hr
  exact ⟨_, hp, s.keeps.get r⟩

theorem hash_ne {h : Hash} (hh : ∀ pe ∈ c.passes env rule, pe.2.hash ≠ h) :
    h ≠ (w'.heap.get r).hash := by
  obtain ⟨pe, hp, hi⟩ := s.event hr
  rw [hash_eq_of_ident_eq hi]
  exact fun heq => hh pe hp heq.symm

theorem look : InCall env c rule w (w'.look env r).1 := by
  have ht := touches_look env s.wf (s.lt hr)
  exact {
    wf := ht.wf
    rule := ht.rule.trans s.rule
    inhibit := ht.inhibit.trans s.inhibit
    keeps := s.keeps.trans (ht.keeps.comp ident fun _ _ => ident_eq_of_core_eq)
    time := fun P hP r' hr' => (ht.time r').elim
      (fun h => h ▸ s.time P hP r' hr') fun h => h.2 ▸ s.time P hP r hr
    sameAt := fun h hh => (s.sameAt h hh).trans (ht.sameAt h (s.hash_ne hr hh)) }

theorem not_recovered (hrec : c.KeepsFiring env rule) : (w'.heap.get r).isRecovered = false := by
  obtain ⟨pe, hp, hi⟩ := s.event hr
  rw [isRecovered_eq_of_ident_eq hi]
  exact hrec pe hp

theorem fire : InCall env c rule w (w'.fireEvent r) := by
  have hf := writes_fireEvent s.wf (s.lt hr)
  exact {
    wf := hf.wf
    rule := hf.rule.trans s.rule
    inhibit := hf.inhibit.trans s.inhibit
    keeps := s.keeps.trans (hf.keeps.comp ident fun _ _ h => congrArg Prod.fst h)
    time := fun P hP r' hr' => (hf.time r').elim
      (fun h => h ▸ s.time P hP r' hr') fun h => h.2 ▸ s.time P hP r hr
    sameAt := fun h hh => (s.sameAt h hh).trans (hf.sameAt h (s.hash_ne hr hh)) }

end

end InCall

/-- A hash the call delivers no point of is as it was. -/
theorem InCall.sameAt_of_notMem (s : InCall env c rule w w') (hK : c.KeepsHash env rule) {h : Hash}
    (hh : h ∉ (c.collect env rule w.heap).alertingKeys) : SameAt h w w' :=
  s.sameAt h fun _ hpe heq => hh (heq ▸ hash_mem_alertingKeys hK hpe)

/-- Where pipelines keep hashes, an event the call has built has the hash of a point. -/
theorem InCall.hash_mem_of_le (s : InCall env c rule w w') (hK : c.KeepsHash env rule)
    (hge : w.heap.next ≤ r) (hlt : r < w'.heap.next) :
    (w'.heap.get r).hash ∈ c.points.map (pointHash env rule.id) := by
  rw [s.keeps.next] at hlt
  obtain ⟨p, hp, hs⟩ := (collect_spec env c rule w.heap).new r hlt hge
  have hpass : (p.1, (c.collect env rule w.heap).heap.get r) ∈ c.passes env rule :=
    mem_filterMap.mpr ⟨p, hp, by simp [hs]⟩
  rw [s.hash_eq, ← @alertingKeys_eq _ _ _ w.heap]
  exact hash_mem_alertingKeys hK hpass

/-- **Induction over the loop over the groups**: what holds before any event is handled and is kept
by each look and each fire holds at the end, when every event has been looked at and, unless the
call inhibits, every due one fired. -/
theorem handleGroups_induct (hw : w.WF) (env : Env) (c : HandleCall) (rule : AlertRule)
    {I : Progress → Prop}
    (hstart : I { world := w.handleStart env c rule })
    (hlook : ∀ p r, InCall env c rule w p.world → (c.collect env rule w.heap).Has r →
      I p → I (p.look env r))
    (hfire : ∀ p r, InCall env c rule w p.world → (c.collect env rule w.heap).Has r →
      r ∈ p.due → I p → I (p.fire r)) :
    ∃ p, I p ∧ InCall env c rule w p.world ∧ p.world = w.handleGroups env c rule ∧
      (∀ r, (c.collect env rule w.heap).Has r → r ∈ p.looked) ∧
      (c.inhibit = false → ∀ r ∈ p.due, r ∈ p.fired) := by
  set got := c.collect env rule w.heap with hgot
  have key : ∃ p, (I p ∧ InCall env c rule w p.world) ∧ p.world = w.handleGroups env c rule ∧
      (∀ k ∈ c.groupOrder.list got.eventsMap.keys, ∀ r ∈ (got.eventsMap.lookup k).getD [],
        r ∈ p.looked) ∧ (c.inhibit = false → ∀ r ∈ p.due, r ∈ p.fired) := by
    refine foldl_prefix_induction (I := fun done w' => ∃ p, (I p ∧ InCall env c rule w p.world) ∧
      p.world = w' ∧ (∀ k ∈ done, ∀ r ∈ (got.eventsMap.lookup k).getD [], r ∈ p.looked) ∧
      (c.inhibit = false → ∀ r ∈ p.due, r ∈ p.fired)) _
      ⟨_, ⟨hstart, InCall.start hw env c rule⟩, rfl, by simp, by simp⟩ ?_
    rintro done k w' - ⟨p, hp, rfl, hl, hf⟩
    obtain ⟨p', hp', hw', hl', hi', hf'⟩ := handleEvent_induct (Q := got.Has)
      (I := fun p => I p ∧ InCall env c rule w p.world)
      (fun p r hr h => ⟨hlook p r h.2 hr h.1, h.2.look hr⟩)
      (fun p r hr hd h => ⟨hfire p r h.2 hr hd h.1, h.2.fire hr⟩)
      ((got.eventsMap.lookup k).getD []) (fun r hr => ⟨k, hr⟩) hp
    have hinh := hp.2.inhibit
    refine ⟨p', hp', hw', fun k' hk' r hr => ?_, fun hno => ?_⟩
    · rw [hl']
      rcases mem_append.mp hk' with hk' | hk'
      · exact mem_append_left _ (hl k' hk' r hr)
      · rw [mem_singleton.mp hk'] at hr
        exact mem_append_right _ hr
    · rw [hinh] at hf'
      exact hf' hf hno
  obtain ⟨p, ⟨hI, hin⟩, hpw, hl, hf⟩ := key
  refine ⟨p, hI, hin, hpw, fun r hr => ?_, hf⟩
  obtain ⟨k, hk⟩ := hr
  refine hl k ?_ r hk
  rw [MapOrder.mem_list, Finmap.mem_keys, ← Finmap.lookup_isSome]
  cases hlk : got.eventsMap.lookup k with
  | none => simp [hlk] at hk
  | some l => rfl

section

variable (hw : w.WF) (env : Env) (c : HandleCall) (rule : AlertRule)

include hw

/-- **What every look and every firing keeps, the loop over the groups keeps**, whatever the
pipelines do to the events. -/
theorem handleGroups_keeps {I : World → Prop} (hstart : I (w.handleStart env c rule))
    (hlook : ∀ w' r, w'.WF → r < w'.heap.next → I w' → I (w'.look env r).1)
    (hfire : ∀ w' r, w'.WF → r < w'.heap.next → I w' → I (w'.fireEvent r)) :
    (w.handleGroups env c rule).WF ∧ I (w.handleGroups env c rule) := by
  obtain ⟨p, hI, hin, hpw, -, -⟩ := handleGroups_induct hw env c rule (I := fun p => I p.world)
    hstart (fun p r hin hr => hlook p.world r hin.wf (hin.lt hr))
    fun p r hin hr _ => hfire p.world r hin.wf (hin.lt hr)
  rw [← hpw]
  exact ⟨hin.wf, hI⟩

theorem inCall_handleGroups : InCall env c rule w (w.handleGroups env c rule) := by
  obtain ⟨p, -, hin, hpw, -, -⟩ := handleGroups_induct hw env c rule (I := fun _ => True) trivial
    (fun _ _ _ _ _ => trivial) (fun _ _ _ _ _ _ => trivial)
  exact hpw ▸ hin

/-- **A call keeps the world well-formed.** -/
theorem WF.handleGroups : (w.handleGroups env c rule).WF := (inCall_handleGroups hw env c rule).wf

end

end Call

/-! ## The recoveries of a call -/

section Recover

variable {w : World} {K : List Hash}

theorem lookup_forget (order : MapOrder String) (w : World) (K : List Hash) (h : Hash) :
    (w.forget order K).pendings.lookup h = if h ∈ K then w.pendings.lookup h else none := by
  have hfold : ((order.list w.pendings.keys).foldl
      (fun m hash => if hash ∈ K then m else m.erase hash) w.pendings).lookup h
        = if h ∈ order.list w.pendings.keys ∧ h ∉ K then none else w.pendings.lookup h := by
    refine foldl_prefix_induction (I := fun done (m : EventMap) =>
      m.lookup h = if h ∈ done ∧ h ∉ K then none else w.pendings.lookup h) _ (by simp) ?_
    rintro done k m - hm
    by_cases hk : k ∈ K
    · rw [if_pos hk, hm]
      by_cases hh : h ∈ K
      · simp [hh]
      · have hne : h ≠ k := fun heq => hh (heq ▸ hk)
        simp [hne]
    · rw [if_neg hk]
      by_cases hh : h = k
      · subst hh; simp [hk]
      · rw [lookup_erase_ne hh, hm]; simp [hh]
  rw [forget, hfold]
  by_cases hK : h ∈ K
  · simp [hK]
  · by_cases hp : h ∈ w.pendings
    · simp [hK, mem_keys.mpr hp]
    · simp [hK, lookup_eq_none.mpr hp]

theorem pending_forget (order : MapOrder String) (w : World) (K : List Hash) (h : Hash) :
    (w.forget order K).pending h = if h ∈ K then w.pending h else none := by
  rw [pending, lookup_forget]
  split
  · rfl
  · rfl

theorem WF.forget (hw : w.WF) (order : MapOrder String) (K : List Hash) :
    (w.forget order K).WF := by
  refine ⟨hw.fires, fun h r hr => ?_, hw.pendingsUseByRecover, hw.waiting⟩
  rw [lookup_forget] at hr
  split at hr
  · exact hw.pendings h r hr
  · cases hr

section

variable (w : World) (h : Hash) (now : ℤ)

@[simp] theorem dropInhibited_heap :
    (w.dropInhibited h now).heap = w.heap := by simp [dropInhibited]

@[simp] theorem dropInhibited_fires :
    (w.dropInhibited h now).fires = w.fires.erase h := by simp [dropInhibited]

@[simp] theorem dropInhibited_pendingsUseByRecover :
    (w.dropInhibited h now).pendingsUseByRecover = w.pendingsUseByRecover := by
  simp [dropInhibited]

theorem waiting_dropInhibited : (w.dropInhibited h now).waiting <:+ w.waiting :=
  waiting_yield_suffix { w with
    log := w.log ++ [Effect.remove h now (w.seen h) false]
    fires := w.fires.erase h
    pendings := w.pendings.erase h }

end

/-- An alert outranked by another of the same tags, neither of them delivered. -/
def Outranked (w : World) (K : List Hash) (h₁ : Hash) : Prop :=
  h₁ ∉ K ∧ ∃ e₁ ∈ w.fired h₁, ∃ h₂ ∈ w.fires.keys, h₂ ∉ K ∧ ∃ e₂ ∈ w.fired h₂,
    e₁.tags = e₂.tags ∧ e₂.severity < e₁.severity

instance (w : World) (K : List Hash) (h : Hash) : Decidable (w.Outranked K h) :=
  inferInstanceAs (Decidable (_ ∧ ∃ _ ∈ _, ∃ _ ∈ _, _ ∧ ∃ _ ∈ _, _))

/-- Only what hashes outside `K` show decides who is outranked. -/
theorem Outranked.of_sameAt {w' : World} {h : Hash} (hs : ∀ h ∉ K, SameAt h w w')
    (ho : w'.Outranked K h) : w.Outranked K h := by
  obtain ⟨hK, e₁, he₁, h₂, hm, hK₂, e₂, he₂, hlt⟩ := ho
  rw [(hs h hK).fired] at he₁
  rw [(hs h₂ hK₂).fired] at he₂
  exact ⟨hK, e₁, he₁, h₂, mem_keys.mpr (mem_fires_of_fired he₂), hK₂, e₂, he₂, hlt⟩

/-- What the grouping loop has done to the world: alerts are gone, nothing is written. -/
structure Dropping (w w' : World) : Prop where
  heap : w'.heap = w.heap
  pendingsUseByRecover : w'.pendingsUseByRecover = w.pendingsUseByRecover
  fires : ∀ h r, w'.fires.lookup h = some r → w.fires.lookup h = some r
  waiting : w'.waiting ⊆ w.waiting

namespace Dropping

variable {w' : World}

theorem seen (s : Dropping w w') (h : Hash) : w'.seen h = w.seen h := by
  rw [World.seen, World.seen, s.heap, s.pendingsUseByRecover]

theorem drop (s : Dropping w w') (h : Hash) (now : ℤ) : Dropping w (w'.dropInhibited h now) where
  heap := by rw [dropInhibited_heap, s.heap]
  pendingsUseByRecover := by rw [dropInhibited_pendingsUseByRecover, s.pendingsUseByRecover]
  fires h' r hr := by
    rw [dropInhibited_fires] at hr
    exact s.fires h' r (GoMap.lookup_erase_eq_some.mp hr).2
  waiting _ hr := s.waiting ((waiting_dropInhibited w' h now).subset hr)

end Dropping

/-! The four ways an iteration of the grouping loop can go. -/

section Group

variable {m : GoMap String AlertCurEvent} {hash : Hash} {r : Ref} {e : AlertCurEvent}

theorem groupRecover_of_idle (now : ℤ) (m : GoMap String AlertCurEvent)
    (hl : w.fires.lookup hash = none) : groupRecover now (w, m) hash = (w, m) := by
  simp [groupRecover, hl]

section

variable (now : ℤ) (hl : w.fires.lookup hash = some r)

include hl

theorem groupRecover_of_first (hm : m.lookup (w.heap.get r).tags = none) :
    groupRecover now (w, m) hash = (w, m.insert (w.heap.get r).tags (w.heap.get r)) := by
  simp [groupRecover, hl, hm]

theorem groupRecover_of_outranks (hm : m.lookup (w.heap.get r).tags = some e)
    (hsev : e.severity > (w.heap.get r).severity) : groupRecover now (w, m) hash
      = (w.dropInhibited e.hash now, m.insert (w.heap.get r).tags (w.heap.get r)) := by
  simp [groupRecover, hl, hm, hsev]

theorem groupRecover_of_not_outranks (hm : m.lookup (w.heap.get r).tags = some e)
    (hsev : ¬ e.severity > (w.heap.get r).severity) : groupRecover now (w, m) hash = (w, m) := by
  simp [groupRecover, hl, hm, hsev]

end

end Group

variable {I : World → Prop} {now : ℤ} {inhibit : Bool}

theorem groupRecover_induct (hw : w.WF) {hashArr : List Hash} (harr : ∀ h ∈ hashArr, h ∉ K)
    (hdrop : ∀ w' h, Dropping w w' → w.Outranked K h → I w' → I (w'.dropInhibited h now))
    (hI : I w) : I (hashArr.foldl (groupRecover now) (w, ∅)).1 ∧
      ∀ tags e, (hashArr.foldl (groupRecover now) (w, ∅)).2.lookup tags = some e →
        e.tags = tags ∧ w.fired e.hash = some e ∧ e.hash ∉ K := by
  have key := foldl_prefix_induction (f := groupRecover now)
    (I := fun _ (acc : World × GoMap String AlertCurEvent) =>
      (I acc.1 ∧ Dropping w acc.1) ∧ ∀ tags e, acc.2.lookup tags = some e →
        e.tags = tags ∧ w.fired e.hash = some e ∧ e.hash ∉ K) (s := (w, ∅)) hashArr
    ⟨⟨hI, rfl, rfl, fun _ _ h => h, fun _ h => h⟩, by simp⟩ ?_
  · exact ⟨key.1.1, key.2⟩
  rintro done hash ⟨w', m⟩ hpre ⟨⟨hI', hd⟩, hm⟩
  have hK : hash ∉ K := harr hash (hpre.subset (by simp))
  cases hl : w'.fires.lookup hash with
  | none =>
    rw [groupRecover_of_idle now m hl]
    exact ⟨⟨hI', hd⟩, hm⟩
  | some r =>
    have hr := hd.fires hash r hl
    have hheap : w'.heap = w.heap := hd.heap
    have hev : (w'.heap.get r).hash = hash := by rw [hheap]; exact (hw.fires hash r hr).2
    have hfired : w.fired hash = some (w'.heap.get r) := by simp [fired, hr, hheap]
    have hins : ∀ tags e, (m.insert (w'.heap.get r).tags (w'.heap.get r)).lookup tags = some e →
        e.tags = tags ∧ w.fired e.hash = some e ∧ e.hash ∉ K :=
      GoMap.forall_lookup_insert ⟨rfl, by rw [hev]; exact hfired, by rw [hev]; exact hK⟩ hm
    cases hlm : m.lookup (w'.heap.get r).tags with
    | none =>
      rw [groupRecover_of_first now hl hlm]
      exact ⟨⟨hI', hd⟩, hins⟩
    | some e =>
      obtain ⟨htags, hfe, hKe⟩ := hm _ e hlm
      by_cases hsev : e.severity > (w'.heap.get r).severity
      · have hout : w.Outranked K e.hash :=
          ⟨hKe, e, hfe, hash, mem_keys.mpr (mem_fires_of_fired hfired), hK,
            w'.heap.get r, hfired, htags, hsev⟩
        rw [groupRecover_of_outranks now hl hlm hsev]
        exact ⟨⟨hdrop w' e.hash hd hout hI', hd.drop e.hash now⟩, hins⟩
      · rw [groupRecover_of_not_outranks now hl hlm hsev]
        exact ⟨⟨hI', hd⟩, hm⟩

/-- **Induction over the recoveries of a call**: the spells nobody delivered end, then alerts not
delivered are dropped where they are outranked, and put to `RecoverSingle` where they are not. -/
theorem handleRecover_induct (hw : w.WF) {fireOrder tagOrder : MapOrder String}
    (hstart : I (w.forget fireOrder K))
    (hdrop : inhibit = true → ∀ w' h, Dropping (w.forget fireOrder K) w' → w.Outranked K h →
      I w' → I (w'.dropInhibited h now))
    (hrecover : ∀ w' h, h ∈ w.fires → h ∉ K → I w' → I (w'.recoverSingle false h now none [])) :
    I (w.handleRecover fireOrder tagOrder K now inhibit) := by
  have harr : ∀ h ∈ (fireOrder.list (w.forget fireOrder K).fires.keys).filter
      fun hash => hash ∉ K, h ∈ w.fires ∧ h ∉ K := fun h hh => by
    rw [mem_filter, MapOrder.mem_list, Finmap.mem_keys] at hh
    exact ⟨hh.1, by simpa using hh.2⟩
  unfold handleRecover handleRecoverEvent
  cases inhibit with
  | false => exact foldlRecOn _ _ hstart fun w' hw' h hh =>
      hrecover w' h (harr h hh).1 (harr h hh).2 hw'
  | true =>
    obtain ⟨hI, hm⟩ := groupRecover_induct (hw.forget fireOrder K)
      (fun h hh => (harr h hh).2) (hdrop rfl) hstart
    refine foldlRecOn _ _ hI fun w' hw' tags _ => ?_
    cases hl : (foldl (groupRecover now) (w.forget fireOrder K, ∅)
        ((fireOrder.list (w.forget fireOrder K).fires.keys).filter
          fun hash => hash ∉ K)).2.lookup tags with
    | none => simpa [hl] using hw'
    | some e =>
      obtain ⟨-, hfe, hK⟩ := hm tags e hl
      exact hrecover w' e.hash (mem_fires_of_fired hfe) hK hw'

theorem WF.handleRecover (hw : w.WF) (fireOrder tagOrder : MapOrder String) (K : List Hash)
    (now : ℤ) (inhibit : Bool) : (w.handleRecover fireOrder tagOrder K now inhibit).WF :=
  handleRecover_induct (I := WF) hw (hw.forget fireOrder K)
    (fun _ w' h _ _ hw' => (removes_dropInhibited hw' h now).1.wf)
    fun w' h _ _ hw' => by
      rcases recoverSingle_cases hw' false h now none [] with heq | ⟨f, -, hrem, -, -⟩
      · rw [heq]
        exact hw'
      · exact hrem.wf

theorem WF.handle (hw : w.WF) (env : Env) (c : HandleCall) : (w.handle env c).WF := by
  unfold World.handle
  split
  · exact hw.beside
  · next rule _ =>
    have hg := hw.handleGroups env c rule
    split
    · exact hg.handleRecover _ _ _ _ _
    · exact hg

end Recover

/-! ## Recover points -/

theorem recoverSingle_rule (w : World) (b : Bool) (h : Hash) (now : ℤ) (v : Option String)
    (vs : List String) : (w.recoverSingle b h now v vs).rule = w.rule := by
  by_cases hf : ∃ f, w.Releases b h now f
  · obtain ⟨f, hf⟩ := hf
    obtain ⟨r, hr, rfl⟩ := map_eq_some_iff.mp hf.fired
    rw [recoverSingle_eq_letGo v vs hr hf]
    simp [letGo, modify, deleteProcessEvent]
  · rw [recoverSingle_of_not_releases v vs fun f hf' => hf ⟨f, hf'⟩]

@[simp] theorem deleteInhibited_rule (w : World) (h : Hash) (now : ℤ) :
    (w.deleteInhibited h now).rule = w.rule := by simp [deleteInhibited, deleteProcessEvent]

section RecoverPoints

variable {env : Env} {c : RecoverCall} {w : World} {I : World → Prop}

theorem mergeRecover_induct
    (hdelete : ∀ w' p q, p ∈ c.points → q ∈ c.points → tagHash env p = tagHash env q →
      q.severity < p.severity → w'.rule = w.rule → I w' →
      I (w'.deleteInhibited (pointHash env w.rule.id p) c.now)) (hI : I w) :
    (I (c.points.foldl (mergeRecover env c.now) (w, ∅)).1 ∧
      (c.points.foldl (mergeRecover env c.now) (w, ∅)).1.rule = w.rule) ∧
      ∀ key p, (c.points.foldl (mergeRecover env c.now) (w, ∅)).2.lookup key = some p →
        p ∈ c.points ∧ tagHash env p = key := by
  refine foldl_prefix_induction (f := mergeRecover env c.now)
    (I := fun _ (acc : World × GoMap String AnomalyPoint) => (I acc.1 ∧ acc.1.rule = w.rule) ∧
      ∀ key p, acc.2.lookup key = some p → p ∈ c.points ∧ tagHash env p = key) (s := (w, ∅))
    c.points ⟨⟨hI, rfl⟩, by simp⟩ ?_
  rintro done q ⟨w', m⟩ hpre ⟨⟨hI', hrule⟩, hm⟩
  have hq : q ∈ c.points := hpre.subset (by simp)
  have hins : ∀ key p, (m.insert (tagHash env q) q).lookup key = some p →
      p ∈ c.points ∧ tagHash env p = key := GoMap.forall_lookup_insert ⟨hq, rfl⟩ hm
  cases hl : m.lookup (tagHash env q) with
  | none =>
    have heq : mergeRecover env c.now (w', m) q = (w', m.insert (tagHash env q) q) := by
      simp [mergeRecover, hl]
    rw [heq]
    exact ⟨⟨hI', hrule⟩, hins⟩
  | some p =>
    obtain ⟨hp, htag⟩ := hm _ p hl
    by_cases hsev : p.severity > q.severity
    · have heq : mergeRecover env c.now (w', m) q
          = (w'.deleteInhibited (pointHash env w'.rule.id p) c.now,
            m.insert (tagHash env q) q) := by
        simp [mergeRecover, hl, hsev]
      have hr : w'.rule = w.rule := hrule
      rw [heq, hr]
      exact ⟨⟨hdelete w' p q hp hq htag hsev hr hI', by simp [hr]⟩, hins⟩
    · have heq : mergeRecover env c.now (w', m) q = (w', m) := by
        simp [mergeRecover, hl, hsev]
      rw [heq]
      exact ⟨⟨hI', hrule⟩, hm⟩

/-- **Induction over the recover points of an evaluation**, in two phases: `J` while outranked
points delete their alerts, `I` while the others recover theirs. -/
theorem recoverPoints_induct {J : World → Prop} (hJ : J w) (hJI : ∀ w', J w' → I w')
    (hdelete : c.inhibit = true → ∀ w' p q, p ∈ c.points → q ∈ c.points →
      tagHash env p = tagHash env q → q.severity < p.severity → w'.rule = w.rule → J w' →
      J (w'.deleteInhibited (pointHash env w.rule.id p) c.now))
    (hrecover : ∀ w' p, p ∈ c.points → w'.rule = w.rule → I w' →
      I (w'.recoverSingle true (pointHash env w.rule.id p) c.now (some p.value) [])) :
    I (w.recoverPoints env c) := by
  have hone : ∀ w' p, p ∈ c.points → I w' ∧ w'.rule = w.rule →
      I (w'.recoverSingle true (pointHash env w'.rule.id p) c.now (some p.value) []) ∧
        (w'.recoverSingle true (pointHash env w'.rule.id p) c.now (some p.value) []).rule
          = w.rule := fun w' p hp ⟨hI', hr⟩ => by
    rw [recoverSingle_rule, hr]
    exact ⟨hrecover w' p hp hr hI', rfl⟩
  unfold recoverPoints
  cases hinh : c.inhibit with
  | false =>
    exact (foldlRecOn (motive := fun w' => I w' ∧ w'.rule = w.rule) _ _
      ⟨hJI w hJ, rfl⟩ fun w' hw' p hp => hone w' p hp hw').1
  | true =>
    obtain ⟨⟨hJ', hr⟩, hm⟩ := mergeRecover_induct (hdelete hinh) hJ
    refine (foldlRecOn (motive := fun w' => I w' ∧ w'.rule = w.rule) _ _ ⟨hJI _ hJ', hr⟩
      fun w' hw' key _ => ?_).1
    cases hl : (c.points.foldl (mergeRecover env c.now) (w, ∅)).2.lookup key with
    | none => simpa [hl] using hw'
    | some p => exact hone w' p (hm key p hl).1 hw'

end RecoverPoints

/-! ## Restart -/

/-- What a restart leaves in memory: the rows it does not skip, each twice, and no spell. -/
structure Restarted (env : Env) (c : RestartCall) (w w' : World) : Prop where
  frame : w' = { w with
    heap := w'.heap, fires := w'.fires, pendings := ∅,
    pendingsUseByRecover := w'.pendingsUseByRecover }
  next : w.heap.next ≤ w'.heap.next
  old : ∀ r < w.heap.next, w'.heap.get r = w.heap.get r
  fires : Owns w'.heap w'.fires
  pendingsUseByRecover : Owns w'.heap w'.pendingsUseByRecover
  observed : ∀ h, w'.observed h = w'.fired h
  fired : ∀ h e, w'.fired h = some e → c.dbFails = false ∧
    ∃ row ∈ w.curEvents env, c.skips env row = false ∧ row.hash = h ∧ e = c.reload row

section Restart

variable {env : Env} {c : RestartCall} {w w' : World}

theorem Restarted.wf (hw : w.WF) (s : Restarted env c w w') : w'.WF where
  fires := s.fires
  pendings := by rw [s.frame]; exact Owns.empty _
  pendingsUseByRecover := s.pendingsUseByRecover
  waiting r hr := by
    rw [s.frame] at hr
    exact (hw.waiting r hr).trans_le s.next

theorem Restarted.reloadOne (s : Restarted env c w w') {row : AlertCurEvent}
    (hdb : c.dbFails = false) (hrow : row ∈ w.curEvents env) :
    Restarted env c w (w'.reloadOne env c row) := by
  unfold World.reloadOne
  split
  · exact s
  next hskip =>
  set event := c.reload row with hevent
  have hfirst : ((w'.heap.alloc event).alloc event).get w'.heap.next = event := by
    rw [get_alloc_of_lt _ _ (by simp), get_alloc_self]
  have hsecond : ((w'.heap.alloc event).alloc event).get (w'.heap.next + 1) = event :=
    get_alloc_self (w'.heap.alloc event) event
  have hfired := s.fires.map_get_insert_copy hfirst
  have hobserved := s.pendingsUseByRecover.map_get_insert_copy hsecond
  constructor
  case frame => rw [s.frame]
  case next => exact s.next.trans (Nat.le_add_right _ 2)
  case old =>
    intro r hr
    have hr' := hr.trans_le s.next
    exact (get_alloc_of_lt _ _ (Nat.lt_succ_of_lt hr')).trans
      ((get_alloc_of_lt _ _ hr').trans (s.old r hr))
  case fires =>
    exact ((s.fires.alloc event).alloc event).insert_of_get (Nat.lt_add_of_pos_right Nat.two_pos)
      hfirst
  case pendingsUseByRecover =>
    exact ((s.pendingsUseByRecover.alloc event).alloc event).insert_of_get (by simp) hsecond
  case observed =>
    intro h
    have hsame := s.observed h
    simp only [World.observed, World.fired] at hsame ⊢
    rw [hobserved, hfired, hsame]
  case fired =>
    intro h e he
    rw [World.fired, hfired] at he
    split_ifs at he with hh
    · subst hh
      cases he
      exact ⟨hdb, row, hrow, by simpa using hskip, rfl, hevent⟩
    · exact s.fired h e he

theorem restarted (env : Env) (c : RestartCall) (w : World) :
    Restarted env c w (w.recoverAlertCurEventFromDb env c) := by
  have hclear : Restarted env c w { w with pendings := ∅, pendingsUseByRecover := ∅, fires := ∅ } :=
    ⟨rfl, le_rfl, fun _ _ => rfl, Owns.empty _, Owns.empty _, fun _ => rfl,
      fun h e he => by simp [fired] at he⟩
  unfold recoverAlertCurEventFromDb
  split
  · exact hclear
  · next hdb =>
    exact foldlRecOn _ _ hclear fun w' hw' row hrow =>
      hw'.reloadOne (by simpa using hdb) hrow

theorem mem_fires_restart {row : AlertCurEvent} (hdb : c.dbFails = false)
    (hrow : row ∈ w.curEvents env) (hskip : c.skips env row = false) :
    row.hash ∈ (w.recoverAlertCurEventFromDb env c).fires := by
  have key := foldl_prefix_induction (f := reloadOne env c)
    (I := fun done w' => ∀ row ∈ done, c.skips env row = false → row.hash ∈ w'.fires)
    (s := { w with pendings := ∅, pendingsUseByRecover := ∅, fires := ∅ }) (w.curEvents env)
    (by simp) ?_
  · simp only [recoverAlertCurEventFromDb, hdb, Bool.false_eq_true, if_false]
    exact key row hrow hskip
  · intro done row w' _ ih row' hrow' hskip'
    by_cases hs : c.skips env row = true
    · simp only [reloadOne, hs, if_true]
      rcases mem_append.mp hrow' with hrow' | hrow'
      · exact ih row' hrow' hskip'
      · rw [mem_singleton.mp hrow', hs] at hskip'
        cases hskip'
    · simp only [reloadOne, hs, Bool.false_eq_true, if_false]
      rcases mem_append.mp hrow' with hrow' | hrow'
      · exact mem_insert.mpr (.inr (ih row' hrow' hskip'))
      · rw [mem_singleton.mp hrow']
        exact mem_insert.mpr (.inl rfl)

end Restart

end World

/-! ## Runs in time

A run has a clock beside it: operations come at non-decreasing times, and each meets a condition in
the state it finds. -/

/-- The clock after an operation. -/
def Op.clock (T : ℤ) (op : Op) : ℤ := op.time.getD T

namespace World

/-- One operation, with the clock. -/
def clocked (env : Env) (s : ℤ × World) (op : Op) : ℤ × World :=
  (op.clock s.1, s.2.step env op)

/-- The operations come at non-decreasing times from `T` on, and each meets `C`. -/
def Runs (env : Env) (C : World → Op → Prop) (T : ℤ) (w : World) (ops : List Op) : Prop :=
  Along (clocked env) (fun s op => s.1 ≤ op.clock s.1 ∧ C s.2 op) (T, w) ops

instance Runs.decidable (env : Env) (C : World → Op → Prop) [∀ w op, Decidable (C w op)]
    (T : ℤ) (w : World) (ops : List Op) : Decidable (Runs env C T w ops) :=
  inferInstanceAs (Decidable (Along _ _ _ _))

section Runs

variable {env : Env} {C : World → Op → Prop} {T : ℤ} {w : World} {ops : List Op}

theorem foldl_clocked (env : Env) (T : ℤ) (w : World) (ops : List Op) :
    (ops.foldl (clocked env) (T, w)).2 = w.run env ops := by
  induction ops generalizing T w with
  | nil => rfl
  | cons op ops ih => exact ih (op.clock T) (w.step env op)

/-- **What every operation keeps, a run keeps.** -/
theorem Runs.invariant {I : ℤ → World → Prop} (h : Runs env C T w ops)
    (hstep : ∀ T w op, T ≤ op.clock T → C w op → I T w → I (op.clock T) (w.step env op))
    (h0 : I T w) : ∃ T', I T' (w.run env ops) := by
  rw [← foldl_clocked env T w ops]
  exact ⟨_, Along.invariant (I := fun s : ℤ × World => I s.1 s.2)
    (fun s op hc hs => hstep s.1 s.2 op hc.1 hc.2 hs) h h0⟩

end Runs

end World

/-! ## A small processor

Enough of a surrounding to run a processor by hand: hashes are the texts themselves, keys are
visited in alphabetical order, and pipelines pass every event on unchanged. -/

namespace Example

/-- Hashes are readable: `md5` is the identity. -/
def env : Env where
  datasourceId := 1
  engineName := "default"
  isCenter := true
  promEvalInterval := 15
  md5 := id
  metricString labels := "host=" ++ labels.get "host"
  groupName _ := ""
  fillTags _ point := (∅, "host=" ++ point.labels.get "host")

/-- Alphabetical order. -/
def order : MapOrder String := MapOrder.sortBy (· ≤ ·)

/-- Alphabetical order, from the end. -/
def reverseOrder : MapOrder String := MapOrder.sortBy (· ≥ ·)

/-- A rule that waits a minute before it lets an alert recover. -/
def minuteRule : AlertRule := { id := 1, recoverDuration := 60 }

/-- A rule that notifies again every minute. -/
def repeatRule : AlertRule := { id := 1, notifyRepeatStep := 1 }

/-- A point of one series. -/
def point (host : String) (severity : ℤ) (timestamp : ℤ) : AnomalyPoint where
  labels := Finmap.singleton "host" host
  severity := severity
  timestamp := timestamp

/-- An evaluation of the rule at `now`, with the mutes in force. -/
def call (rule : AlertRule) (now : ℤ) (points : List AnomalyPoint) (inhibit : Bool := false)
    (isMuted : ℕ → AlertCurEvent → Bool := fun _ _ => false) : HandleCall where
  cachedRule := some rule
  points := points
  src := .inner
  inhibit := inhibit
  now := now
  pipeline _ e := some e
  isMuted := isMuted
  eventMuteHook _ _ := false
  groupOrder := order
  fireOrder := order
  tagOrder := order

end Example

end Nightingale
