import Nightingale.Process.Calls
import Nightingale.Process.Queue

/-!
# Process/Agreement — `fires` and `alert_cur_event`

    fired h ──image──▸ image of the alert  =  image of its row ◂──mirror── drained

The processor never waits for the table, so the two are compared where the table is heading
(`World.drained`).  They agree as long as nothing comes between a push and its row: the queue takes
every event, and no alert is dropped by hand while an event of its hash still waits.  `Agrees` is
then an invariant of every operation, and once the queue is empty the rows of the rule are the
alerts that fire.
-/

namespace Nightingale

open AlertCurEvent World List Option Tables

/-- Pipelines hand an event on under its rule and datasource, and not as one already dealt with. -/
def HandleCall.KeepsOwner (env : Env) (c : HandleCall) (rule : AlertRule) : Prop :=
  ∀ pe ∈ c.passes env rule,
    pe.2.ruleId = rule.id ∧ pe.2.datasourceId = env.datasourceId ∧ pe.2.status = 0

instance (env : Env) (c : HandleCall) (rule : AlertRule) : Decidable (c.KeepsOwner env rule) :=
  inferInstanceAs (Decidable (∀ _ ∈ _, _))

namespace World

/-- The rows of the rule, once everything is persisted, are the alerts that fire. -/
structure Agrees (env : Env) (w : World) : Prop where
  wf : w.WF
  room : ∀ n, (w.sched n).room = true
  live : ∀ h f, w.fired h = some f → f.status = 0
  mirrored : ∀ h, w.drained.mirror w.rule.id env.datasourceId h = ((w.fired h).map image).toList

section Steps

variable {env : Env} {w w' : World} {r : Ref} {h : Hash}

/-! ## Looking and firing -/

theorem Touches.waiting {t : ℤ} (s : Touches h t w w') : w'.waiting = w.waiting := by
  rw [s.frame]; rfl

theorem Agrees.look (a : w.Agrees env) (hr : r < w.heap.next) : (w.look env r).1.Agrees env := by
  have ht := touches_look env a.wf hr
  have hfired : ∀ h, ((w.look env r).1.fired h).map image = (w.fired h).map image := fun h => by
    rw [fired, fired, ht.fires]
    exact map_proj_of_keeps (ht.keeps.comp image fun _ _ => image_eq_of_core_eq) _
  refine ⟨ht.wf, by rw [ht.frame]; exact a.room, fun h f hf => ?_, fun h => ?_⟩
  · have hk := ht.fired_core h
    rw [hf, map_some, eq_comm, map_eq_some_iff] at hk
    obtain ⟨f', hf', hcore⟩ := hk
    rw [← status_eq_of_ident_eq (ident_eq_of_core_eq hcore)]
    exact a.live h f' hf'
  · have htables : (w.look env r).1.tables = w.tables := by rw [ht.frame]
    rw [hfired, ht.rule, ← a.mirrored h, drained, drained, ht.waiting, htables]
    exact mirror_drain_congr rfl
      (fun r' _ => .inl (ident_eq_of_core_eq (ht.keeps.get r')))
      fun r' _ _ _ => image_eq_of_core_eq (ht.keeps.get r')

/-- An alert fired again without a notification: memory and the tables ahead stay. -/
theorem Agrees.refire {f : Ref} (a : w.Agrees env)
    (hf : w.fires.lookup (w.heap.get r).hash = some f) : (w.refire r f).Agrees env := by
  have hre := fires_refire a.wf hf
  have hfired : w.fired (w.heap.get r).hash = some (w.heap.get f) := by simp [fired, hf]
  have hself := hre.fired_self
  rw [hfired, none_or, map_some] at hself
  have himg : ∀ h, ((w.refire r f).fired h).map image = (w.fired h).map image := fun h => by
    by_cases hh : h = (w.heap.get r).hash
    · subst hh; rw [hself, hfired]; rfl
    · rw [(hre.sameAt h hh).fired]
  refine ⟨hre.wf, a.room, fun h g hg => ?_, fun h => ?_⟩
  · by_cases hh : h = (w.heap.get r).hash
    · subst hh
      obtain rfl := some.inj (hself.symm.trans hg)
      exact a.live (w.heap.get r).hash (w.heap.get f) hfired
    · exact a.live h g ((hre.sameAt h hh).fired ▸ hg)
  · rw [himg, ← a.mirrored h]
    refine mirror_drain_congr rfl (fun r' _ => .inl (hre.ident r')) fun r' _ hh hshow => ?_
    have hcore := core_refire w r f r'
    by_cases hr : r' = r
    · subst hr
      rw [if_pos rfl] at hcore
      have hshown : (w.heap.get r').image = (w.heap.get f).image := by
        have hm := a.mirrored h
        rw [← hh, hfired] at hm
        rw [← hh] at hshow
        exact singleton_inj.mp (hshow.trans hm)
      exact (image_eq_of_core_eq hcore).trans (image_firstTriggerTime hshown)
    · rw [if_neg hr] at hcore
      exact image_eq_of_core_eq hcore

theorem Agrees.push {r : Ref} {p : AlertCurEvent} (a : w.Agrees env) (hf : Fires r (some p) w w')
    (hroom : ∀ n, (w'.sched n).room = true)
    (hdrained : w'.drained = (w.tables.drain w'.heap w.waiting).persist p)
    (hp : p.hash = (w.heap.get r).hash ∧ p.isRecovered = false ∧ p.status = 0 ∧
      p.ruleId = w.rule.id ∧ p.datasourceId = env.datasourceId) : w'.Agrees env := by
  obtain ⟨hhash, hrec, hstatus, hrule, hds⟩ := hp
  have hself : w'.fired (w.heap.get r).hash = some p := by rw [hf.fired_self]; rfl
  refine ⟨hf.wf, hroom, fun h g hg => ?_, fun h => ?_⟩
  · by_cases hh : h = (w.heap.get r).hash
    · subst hh
      obtain rfl := some.inj (hself.symm.trans hg)
      exact hstatus
    · exact a.live h g ((hf.sameAt h hh).fired ▸ hg)
  · rw [hdrained, mirror_persist, hf.rule]
    by_cases hh : h = (w.heap.get r).hash
    · subst hh
      rw [if_pos ⟨hstatus, hhash⟩, if_pos ⟨hrec, hrule, hds⟩, hself]
      rfl
    · rw [if_neg fun hl => hh (hl.2.symm.trans hhash), (hf.sameAt h hh).fired, ← a.mirrored h]
      refine mirror_drain_congr rfl (fun r' _ => .inl (hf.ident r')) fun r' _ hr' _ => ?_
      rw [hf.cell r' fun heq => hh (hr'.symm.trans heq)]

theorem drained_pushEventToQueue (h : (w.heap.get r).isRecovered = false)
    (hroom : ∀ n, (w.sched n).room = true) : (w.pushEventToQueue r).drained
      = (w.tables.drain (w.pushEventToQueue r).heap w.waiting).persist (sent (w.heap.get r)) := by
  have hget : (w.markSent r).heap.get r = sent (w.heap.get r) := Heap.get_modify_self _ _ _
  rw [pushEventToQueue_of_firing h, drained_pushFront (w := w.markSent r) (hroom _),
    pushFront_heap, hget]
  rfl

theorem Agrees.fire (a : w.Agrees env) (hr : r < w.heap.next)
    (h : (w.heap.get r).isRecovered = false)
    (hown : (w.heap.get r).ruleId = w.rule.id ∧
      (w.heap.get r).datasourceId = env.datasourceId ∧ (w.heap.get r).status = 0) :
    (w.fireEvent r).Agrees env := by
  have hf := fires_fireEvent a.wf hr h
  cases hn : w.rule.notifies (w.fired (w.heap.get r).hash) (w.heap.get r) with
  | none =>
    obtain ⟨f, hlook, heq⟩ := fireEvent_of_not_notifies hn
    rw [heq]
    exact a.refire hlook
  | some p =>
    have hid := AlertRule.notifies_ident hn
    obtain ⟨v, hv, hm, rfl, heq⟩ := fireEvent_of_notifies a.wf hn
    have hrec : (v.heap.get r).isRecovered = false := by
      rw [← h]; exact isRecovered_eq_of_ident_eq (hm.ident r)
    have hroom : ∀ n, (v.sched n).room = true := by rw [hv]; exact a.room
    rw [hn] at hf
    refine a.push hf ?_ ?_ ⟨hash_eq_of_ident_eq hid, hrec, ?_, ?_, ?_⟩
    · rw [heq, pushEventToQueue_of_firing hrec, pushFront_sched]
      exact hroom
    · rw [heq, drained_pushEventToQueue hrec hroom, hv]
      rfl
    · exact (status_eq_of_ident_eq hid).trans hown.2.2
    · exact (proj_eq_of_ident_eq ruleId (fun _ => rfl) hid).trans hown.1
    · exact (proj_eq_of_ident_eq datasourceId (fun _ => rfl) hid).trans hown.2.1

/-! ## Removing -/

/-- Removing the alert of `h` agrees with tables ahead that lose the rows of `h` and no others. -/
theorem Agrees.removes (a : w.Agrees env) (hrem : Removes h w w')
    (hroom : ∀ n, (w'.sched n).room = true)
    (hself : w'.drained.mirror w.rule.id env.datasourceId h = [])
    (hother : ∀ h' ≠ h, w'.drained.mirror w.rule.id env.datasourceId h'
      = w.drained.mirror w.rule.id env.datasourceId h') : w'.Agrees env := by
  refine ⟨hrem.wf, hroom, fun h' f hf => ?_, fun h' => ?_⟩
  · exact a.live h' f (hrem.fired_of_fired hf)
  · rw [hrem.rule]
    by_cases hh : h' = h
    · subst hh; rw [hself, hrem.fired]; rfl
    · rw [hother h' hh, (hrem.sameAt h' hh).fired, a.mirrored h']

/-- **A recovery deletes its row**, whatever still waits. -/
theorem Agrees.recoverSingle (a : w.Agrees env) (b : Bool) (h : Hash) (now : ℤ)
    (v : Option String) (vs : List String) : (w.recoverSingle b h now v vs).Agrees env := by
  rcases recoverSingle_cases a.wf b h now v vs with heq | ⟨f, hf, hrem, -, -⟩
  · rw [heq]
    exact a
  · obtain ⟨r, hr, rfl⟩ := map_eq_some_iff.mp hf.fired
    have hlet := removes_letGo a.wf b now v vs hr
    have hroom : ∀ n, ((w.letGo b h now v vs r).sched n).room = true := by
      simpa [letGo, modify, deleteProcessEvent] using a.room
    rw [recoverSingle_eq_letGo v vs hr hf] at hrem ⊢
    have hget : (w.letGo b h now v vs r).heap.get r = recovery w.rule now v vs (w.heap.get r) := by
      simp [letGo, modify, deleteProcessEvent]
    have hhash := hf.hash_recovery a.wf v vs
    have hstatus : (recovery w.rule now v vs (w.heap.get r)).status = 0 :=
      (recovery_status _ _ _ _ _).trans (a.live h _ hf.fired)
    refine a.removes hrem (by rw [pushFront_sched]; exact hroom) ?_ fun h' hne => ?_
    · rw [drained_pushFront (hroom _), mirror_persist, hget, if_pos ⟨hstatus, hhash⟩]
      simp
    · rw [drained_pushFront (hroom _), mirror_persist, hget,
        if_neg fun hl => hne (hl.2.symm.trans hhash), ← drained_yield w]
      change (w.yield.tables.drain (w.letGo b h now v vs r).heap w.yield.waiting).mirror _ _ h'
        = (w.yield.tables.drain w.yield.heap w.yield.waiting).mirror _ _ h'
      rw [yield_heap]
      refine mirror_drain_of_cells rfl fun r' _ => ?_
      by_cases hr' : (w.heap.get r').hash = h
      · exact .inr ⟨fun heq => hne (heq.symm.trans hr'),
          fun heq => hne (heq.symm.trans ((hlet.hash r').trans hr'))⟩
      · exact .inl (hlet.cell r' hr')

/-- **A row deleted by hand** agrees with its alert gone, if no event of the hash waits. -/
theorem Agrees.deletes (a : w.Agrees env) (hrem : Removes h w w') {u : World}
    (hu : u.drained = w.drained ∧ u.heap = w.heap ∧ u.Settled h)
    (hw' : w'.heap = w.heap ∧ w'.waiting = u.waiting ∧ w'.sched = w.sched ∧
      w'.tables = u.tables.alertCurEventDelByHash h) : w'.Agrees env := by
  obtain ⟨hud, huh, hus⟩ := hu
  obtain ⟨hheap, hwait, hsched, htables⟩ := hw'
  refine a.removes hrem (by rw [hsched]; exact a.room) ?_ fun h' hne => ?_
  · rw [mirror, drained, hwait, hheap, htables, ← huh, rowsOf_drain_of_ne hus,
      rowsOf_alertCurEventDelByHash_self]
    rfl
  · rw [drained, hwait, hheap, htables, ← hud, drained, huh]
    exact mirror_drain_of_cells
      (by rw [mirror, mirror, rowsOf_alertCurEventDelByHash_of_ne _ hne])
      fun r' _ => .inl rfl

theorem Settled.of_suffix {u : World} (hs : w.Settled h) (hheap : u.heap = w.heap)
    (hsub : u.waiting ⊆ w.waiting) : u.Settled h := fun r hr => by
  rw [hheap]
  exact hs r (hsub hr)

theorem Agrees.dropInhibited (a : w.Agrees env) (hs : w.Settled h) (now : ℤ) :
    (w.dropInhibited h now).Agrees env := by
  set u := yield { w with
    log := w.log ++ [Effect.remove h now (w.seen h) false]
    fires := w.fires.erase h, pendings := w.pendings.erase h } with hu
  have hheap : u.heap = w.heap := by rw [hu, yield_heap]
  refine a.deletes (removes_dropInhibited a.wf h now).1 (u := u)
    ⟨by rw [hu, drained_yield]; rfl, hheap, hs.of_suffix hheap ?_⟩ ⟨by simp, rfl, ?_, rfl⟩
  · exact (waiting_dropInhibited w h now).subset
  · simp [World.dropInhibited]

theorem Agrees.deleteInhibited (a : w.Agrees env) (hs : w.Settled h) (now : ℤ) :
    (w.deleteInhibited h now).Agrees env := by
  set u := (w.deleteProcessEvent h).yield with hu
  have hheap : u.heap = w.heap := by rw [hu, yield_heap]; rfl
  refine a.deletes (removes_deleteInhibited a.wf h now).1 (u := u)
    ⟨by rw [hu, drained_yield]; rfl, hheap, hs.of_suffix hheap ?_⟩ ⟨hheap, rfl, ?_, rfl⟩
  · exact (waiting_yield_suffix (w.deleteProcessEvent h)).subset
  · simp [World.deleteInhibited, deleteProcessEvent]

end Steps

/-! ## Calls -/

section Calls

variable {env : Env} {w w' : World} {r : Ref} {h : Hash} {c : HandleCall} {rule : AlertRule}

theorem mem_waiting_fireEvent (hw : w.WF) (hrec : (w.heap.get r).isRecovered = false) {r' : Ref}
    (hr' : r' ∈ (w.fireEvent r).waiting) : r' = r ∨ r' ∈ w.waiting := by
  cases hn : w.rule.notifies (w.fired (w.heap.get r).hash) (w.heap.get r) with
  | none =>
    obtain ⟨f, -, heq⟩ := fireEvent_of_not_notifies hn
    rw [heq] at hr'
    exact .inr hr'
  | some p =>
    obtain ⟨v, hv, hm, -, heq⟩ := fireEvent_of_notifies hw hn
    have hrec' : (v.heap.get r).isRecovered = false := by
      rw [← hrec]; exact isRecovered_eq_of_ident_eq (hm.ident r)
    rw [heq, pushEventToQueue_of_firing hrec'] at hr'
    refine (mem_waiting_pushFront hr').imp id fun hwait => ?_
    rw [hv] at hwait
    exact hwait

theorem Settled.fire (hs : w.Settled h) (hw : w.WF) (hr : r < w.heap.next)
    (hrec : (w.heap.get r).isRecovered = false) (hne : h ≠ (w.heap.get r).hash) :
    (w.fireEvent r).Settled h := fun r' hr' => by
  rw [(fires_fireEvent hw hr hrec).hash r']
  rcases mem_waiting_fireEvent hw hrec hr' with rfl | hwait
  · exact hne.symm
  · exact hs r' hwait

theorem Agrees.handleStart (a : w.Agrees env) (hid : rule.id = w.rule.id) :
    (w.handleStart env c rule).Agrees env := by
  have s := collect_spec env c rule w.heap
  have hsame := SameAt.handleStart a.wf env c rule
  refine ⟨a.wf.handleStart env c rule, a.room, fun h f hf => ?_, fun h => ?_⟩
  · exact a.live h f ((hsame h).fired ▸ hf)
  · rw [(hsame h).fired, ← a.mirrored h, ← hid]
    exact mirror_drain_of_cells rfl fun r hr => .inl (s.old r (a.wf.waiting r hr))

/-- **The loop over the groups keeps the agreement**, and settles no more than it found settled. -/
theorem Agrees.handleGroups (a : w.Agrees env) (hid : rule.id = w.rule.id)
    (hrec : c.KeepsFiring env rule) (hown : c.KeepsOwner env rule) :
    InCall env c rule w (w.handleGroups env c rule) ∧ (w.handleGroups env c rule).Agrees env ∧
      ∀ h, (∀ pe ∈ c.passes env rule, pe.2.hash ≠ h) → w.Settled h →
        (w.handleGroups env c rule).Settled h := by
  have key := handleGroups_induct a.wf env c rule
    (I := fun p => p.world.Agrees env ∧ ∀ h, (∀ pe ∈ c.passes env rule, pe.2.hash ≠ h) →
      w.Settled h → p.world.Settled h) ⟨a.handleStart hid, fun h _ hs r hr => ?_⟩ ?_ ?_
  · obtain ⟨p, ⟨ha, hs⟩, hin, hpw, -⟩ := key
    exact hpw ▸ ⟨hin, ha, hs⟩
  · have hget := (collect_spec env c rule w.heap).old r (a.wf.waiting r hr)
    change ((c.collect env rule w.heap).heap.get r).hash ≠ h
    rw [hget]
    exact hs r hr
  · rintro p r hin hr ⟨ha, hs⟩
    have ht := touches_look env ha.wf (hin.lt hr)
    refine ⟨ha.look (hin.lt hr), fun h hno hw r' hr' => ?_⟩
    rw [Progress.look, ht.waiting] at hr'
    rw [Progress.look, hash_eq_of_core_eq (ht.keeps.get r')]
    exact hs h hno hw r' hr'
  · rintro p r hin hr - ⟨ha, hs⟩
    have hfiring := hin.not_recovered hr hrec
    obtain ⟨pe, hpe, hi⟩ := hin.event hr
    obtain ⟨hrule, hds, hstatus⟩ := hown pe hpe
    refine ⟨ha.fire (hin.lt hr) hfiring ⟨?_, ?_, ?_⟩, fun h hno hw =>
      (hs h hno hw).fire ha.wf (hin.lt hr) hfiring (hin.hash_ne hr hno)⟩
    · rw [hin.rule, ← hrule]; exact proj_eq_of_ident_eq ruleId (fun _ => rfl) hi
    · rw [← hds]; exact proj_eq_of_ident_eq datasourceId (fun _ => rfl) hi
    · rw [← hstatus]; exact status_eq_of_ident_eq hi

theorem Agrees.handleRecover {K : List Hash} (a : w.Agrees env) {inhibit : Bool}
    (hs : inhibit = true → ∀ h, w.Outranked K h → w.Settled h)
    (fireOrder tagOrder : MapOrder String) (now : ℤ) :
    (w.handleRecover fireOrder tagOrder K now inhibit).Agrees env := by
  refine handleRecover_induct a.wf (I := fun w' => w'.Agrees env)
    ⟨a.wf.forget fireOrder K, a.room, a.live, a.mirrored⟩ ?_ ?_
  · intro hinh w' h hd hout a'
    exact a'.dropInhibited ((hs hinh h hout).of_suffix hd.heap hd.waiting) now
  · exact fun w' h _ _ a' => a'.recoverSingle false h now none []

theorem Agrees.restart {c : RestartCall} (a : w.Agrees env) (hwait : w.waiting = [])
    (hdb : c.dbFails = false) (hskip : ∀ row ∈ w.curEvents env, c.skips env row = false) :
    (w.recoverAlertCurEventFromDb env c).Agrees env := by
  have s := restarted env c w
  have hwait' : (w.recoverAlertCurEventFromDb env c).waiting = [] := by rw [s.frame]; exact hwait
  have hsched : (w.recoverAlertCurEventFromDb env c).sched = w.sched := by rw [s.frame]
  have htables : (w.recoverAlertCurEventFromDb env c).tables = w.tables := by rw [s.frame]
  have hrule : (w.recoverAlertCurEventFromDb env c).rule = w.rule := by rw [s.frame]
  have hmirror : ∀ h, w.tables.mirror w.rule.id env.datasourceId h
      = ((w.fired h).map image).toList := fun h => by
    rw [← a.mirrored h, drained_of_waiting_eq_nil hwait]
  refine ⟨s.wf a.wf, by rw [hsched]; exact a.room, fun h f hf => ?_, fun h => ?_⟩
  · obtain ⟨-, row, -, -, -, rfl⟩ := s.fired h f hf
    rfl
  · rw [drained_of_waiting_eq_nil hwait', htables, hrule, hmirror]
    cases hf : (w.recoverAlertCurEventFromDb env c).fired h with
    | none =>
      have hno : h ∉ (w.curEvents env).map hash := fun hm => by
        obtain ⟨row, hrow, rfl⟩ := mem_map.mp hm
        exact (fired_eq_none_iff _ _).mp hf (mem_fires_restart hdb hrow (hskip row hrow))
      rw [← hmirror]
      exact not_not.mp fun hne => hno ((mem_stored_iff env w h).mpr hne)
    | some e =>
      obtain ⟨-, row, hrow, -, rfl, rfl⟩ := s.fired h e hf
      have hmem : row.image ∈ w.tables.mirror w.rule.id env.datasourceId row.hash := by
        rw [curEvents, mem_filter] at hrow
        refine mem_map.mpr ⟨row, mem_filter.mpr ⟨?_, hrow.2⟩, rfl⟩
        exact mem_filter.mpr ⟨hrow.1, by simp⟩
      rw [hmirror, mem_toList] at hmem
      rw [hmem, map_some, image_reload]

end Calls

end World

/-! ## Along a run -/

/-- The runs of one rule's processor, under pipelines that drop an event or pass it on as the rule's
own. -/
def Owned (env : Env) (w : World) : Op → Prop
  | .handle c => ∀ rule ∈ c.cachedRule, rule.id = w.rule.id ∧
      c.KeepsHash env rule ∧ c.KeepsFiring env rule ∧ c.KeepsOwner env rule
  | _ => True

/-- The steps that keep memory and table together: where an alert may be dropped by hand, nothing of
its hash waits, and a restart comes when nothing waits at all and reads every row. -/
def Tidy (env : Env) (w : World) : Op → Prop
  | .handle c => c.src = .inner → c.inhibit = true → ∀ rule ∈ c.cachedRule, ∀ h ∈ w.fires.keys,
      w.Outranked (c.points.map (pointHash env rule.id)) h → w.Settled h
  | .recoverPoints c => c.inhibit = true → ∀ p ∈ c.points, ∀ q ∈ c.points,
      tagHash env p = tagHash env q → q.severity < p.severity →
        w.Settled (pointHash env w.rule.id p)
  | .restart c => w.waiting = [] ∧ c.dbFails = false ∧
      ∀ row ∈ w.curEvents env, c.skips env row = false
  | _ => True

instance (env : Env) (w : World) : (op : Op) → Decidable (Owned env w op)
  | .handle _ => inferInstanceAs (Decidable (∀ _ ∈ _, _))
  | .recoverPoints _ | .recoverSingle .. | .restart _ | .consume _ =>
    inferInstanceAs (Decidable True)

instance (env : Env) (w : World) : (op : Op) → Decidable (Tidy env w op)
  | .handle _ => inferInstanceAs (Decidable (_ → _ → ∀ _ ∈ _, ∀ _ ∈ _, _ → _))
  | .recoverPoints _ => inferInstanceAs (Decidable (_ → ∀ _ ∈ _, ∀ _ ∈ _, _ → _ → _))
  | .recoverSingle _ _ _ _ => inferInstanceAs (Decidable True)
  | .restart _ => inferInstanceAs (Decidable (_ ∧ _ ∧ ∀ _ ∈ _, _))
  | .consume _ => inferInstanceAs (Decidable True)

namespace World

variable {env : Env} {w : World}

theorem Agrees.handle {c : HandleCall} (a : w.Agrees env) (ho : Owned env w (.handle c))
    (ht : Tidy env w (.handle c)) : (w.handle env c).Agrees env := by
  unfold World.handle
  cases hc : c.cachedRule with
  | none => exact ⟨a.wf.beside, a.room, a.live, a.mirrored⟩
  | some rule =>
    obtain ⟨hid, hK, hrec, hown⟩ := ho rule hc
    obtain ⟨hin, ha, hs⟩ := a.handleGroups hid hrec hown
    dsimp only
    split
    · next hsrc =>
      refine ha.handleRecover (fun hinh h hout => ?_) c.fireOrder c.tagOrder c.now
      have hout' := hout.of_sameAt fun h hh => hin.sameAt_of_notMem hK hh
      have hfire : h ∈ w.fires.keys := by
        obtain ⟨-, e, he, -⟩ := hout'
        exact Finmap.mem_keys.mpr (mem_fires_of_fired he)
      refine hs h (fun pe hpe heq => hout'.1 (heq ▸ hash_mem_alertingKeys hK hpe)) ?_
      rw [alertingKeys_eq] at hout'
      exact ht hsrc hinh rule hc h hfire hout'
    · exact ha

/-- **One operation keeps the agreement.** -/
theorem Agrees.step {op : Op} (a : w.Agrees env) (ho : Owned env w op) (ht : Tidy env w op) :
    (w.step env op).Agrees env := by
  cases op with
  | handle c => exact a.handle ho ht
  | recoverPoints c =>
    refine recoverPoints_induct (I := fun w' => w'.Agrees env)
      (J := fun w' => w'.Agrees env ∧ w'.heap = w.heap ∧ w'.waiting ⊆ w.waiting)
      ⟨a, rfl, fun _ h => h⟩ (fun _ h => h.1) ?_ ?_
    · rintro hinh w' p q hp hq htag hsev - ⟨a', hheap, hsub⟩
      refine ⟨a'.deleteInhibited ?_ c.now, ?_, fun r hr => hsub ?_⟩
      · exact Settled.of_suffix (ht hinh p hp q hq htag hsev) hheap hsub
      · rw [← hheap]; simp [World.deleteInhibited, deleteProcessEvent]
      · exact (waiting_yield_suffix (w'.deleteProcessEvent _)).subset hr
    · exact fun w' p _ _ a' => a'.recoverSingle true _ c.now _ []
  | recoverSingle b h now v => exact a.recoverSingle b h now v []
  | restart c => exact a.restart ht.1 ht.2.1 ht.2.2
  | consume n =>
    have hd := drained_consume n w
    have hwf := a.wf.consume n
    obtain ⟨q, bt, tb, heq⟩ := consume_eq n w
    simp only [World.step]
    rw [heq] at hd hwf ⊢
    exact ⟨hwf, a.room, a.live, fun h => by rw [hd]; exact a.mirrored h⟩

theorem Agrees.initial (hw : w.WF) (hroom : ∀ n, (w.sched n).room = true) (hfires : w.fires = ∅)
    (hwait : w.waiting = []) (hrows : w.curEvents env = []) : w.Agrees env := by
  have hnone : ∀ h, w.fired h = none := fun h => by simp [fired, hfires]
  refine ⟨hw, hroom, fun h f hf => ?_, fun h => ?_⟩
  · rw [hnone] at hf; cases hf
  rw [hnone, drained_of_waiting_eq_nil hwait]
  exact not_not.mp fun hne => by simpa [hrows] using (mem_stored_iff env w h).mpr hne

end World

namespace Example

/-- A series that fires with severity 2, then also with severity 1, then not at all: the last
evaluation drops the alert of severity 2.  The consumer persists `steps` events after each of the
first two. -/
def outrankedRun (steps : ℕ) : List Op :=
  [.handle (call minuteRule 0 [point "a" 2 0] true), .consume steps,
    .handle (call minuteRule 10 [point "a" 1 10] true), .consume steps,
    .handle { call minuteRule 20 [] true with fireOrder := reverseOrder }, .consume 3]

/-- A queue with no room at all. -/
def fullQueue : ℕ → Choice := fun _ => { room := false }

end Example

open Example

end Nightingale
