import Nightingale.Process.Episodes

/-!
# Process/Mirror — two processors, seen from one hash

An operation of the processor reads and writes what lies under the hash of its event and nothing
else.  So two worlds that agree under a hash — up to the names of the references, which are handed
out in the order the points come in — still agree after the same operation on that hash:

    w ──look r, fire r, recover h──▸ w'
    │ σ                               │ σ
    v ──look σr, fire σr, recover h─▸ v'

and an operation on another hash, on either side, is not noticed at all.
-/

namespace Nightingale

open AlertCurEvent Option Finmap Heap

namespace World

/-- **The two worlds agree under a hash**, up to the names of the references: the entries of the
three maps, the cells behind them, and what was pushed. -/
structure Mirrors (σ : Equiv.Perm Ref) (h : Hash) (w v : World) : Prop where
  rule : v.rule = w.rule
  fires : v.fires.lookup h = (w.fires.lookup h).map σ
  pendings : v.pendings.lookup h = (w.pendings.lookup h).map σ
  pendingsUseByRecover :
    v.pendingsUseByRecover.lookup h = (w.pendingsUseByRecover.lookup h).map σ
  cells : w.heap.Renames σ (fun e => e.hash = h) v.heap
  pushes : pushes h v.log = pushes h w.log

namespace Mirrors

section

variable {σ : Equiv.Perm Ref} {h : Hash} {w v u : World} {r : Ref}

theorem of_same (hrule : v.rule = w.rule) (hfires : v.fires.lookup h = w.fires.lookup h)
    (hpendings : v.pendings.lookup h = w.pendings.lookup h)
    (hobserved : v.pendingsUseByRecover.lookup h = w.pendingsUseByRecover.lookup h)
    (hcells : w.heap.Renames (Equiv.refl Ref) (fun e => e.hash = h) v.heap)
    (hpushes : Nightingale.pushes h v.log = Nightingale.pushes h w.log) :
    Mirrors (Equiv.refl Ref) h w v :=
  ⟨hrule, by simpa using hfires, by simpa using hpendings, by simpa using hobserved, hcells,
    hpushes⟩

theorem refl (h : Hash) (w : World) : Mirrors (Equiv.refl Ref) h w w :=
  of_same rfl rfl rfl rfl (fun _ _ => rfl) rfl

theorem trans {τ : Equiv.Perm Ref} (m : Mirrors σ h w v) (n : Mirrors τ h v u) :
    Mirrors (σ.trans τ) h w u where
  rule := n.rule.trans m.rule
  fires := by rw [n.fires, m.fires, map_map]; rfl
  pendings := by rw [n.pendings, m.pendings, map_map]; rfl
  pendingsUseByRecover := by
    rw [n.pendingsUseByRecover, m.pendingsUseByRecover, map_map]; rfl
  cells := m.cells.trans n.cells
  pushes := n.pushes.trans m.pushes

theorem then_same (m : Mirrors σ h w v) (n : Mirrors (Equiv.refl Ref) h v u) :
    Mirrors σ h w u := m.trans n

theorem get (m : Mirrors σ h w v) (hr : (w.heap.get r).hash = h) :
    v.heap.get (σ r) = w.heap.get r := m.cells r hr

/-! ### What the hash shows -/

theorem map_get (m : Mirrors σ h w v) {o : Option Ref} (ho : ∀ r, o = some r →
    (w.heap.get r).hash = h) : (o.map σ).map v.heap.get = o.map w.heap.get := by
  cases o with
  | none => rfl
  | some r => exact congrArg some (m.get (ho r rfl))

section

variable (m : Mirrors σ h w v) (hw : w.WF)

include m hw

theorem fired : v.fired h = w.fired h := by
  rw [World.fired, m.fires, m.map_get fun r hr => (hw.fires h r hr).2, World.fired]

theorem pending : v.pending h = w.pending h := by
  rw [World.pending, m.pendings, m.map_get fun r hr => (hw.pendings h r hr).2, World.pending]

theorem observed : v.observed h = w.observed h := by
  rw [World.observed, m.pendingsUseByRecover,
    m.map_get fun r hr => (hw.pendingsUseByRecover h r hr).2, World.observed]

theorem seen : v.seen h = w.seen h := by
  rw [seen_eq, seen_eq, m.observed hw]

end

/-! ### The same write on both sides -/

theorem modify (m : Mirrors σ h w v) (hr : (w.heap.get r).hash = h)
    (f : AlertCurEvent → AlertCurEvent) : Mirrors σ h (w.modify r f) (v.modify (σ r) f) :=
  { m with cells := m.cells.modify hr f }

theorem touch (m : Mirrors σ h w v) (hr : (w.heap.get r).hash = h) (t : ℤ) :
    Mirrors σ h { w with heap := w.heap.touch (some r) t }
      { v with heap := v.heap.touch (some (σ r)) t } :=
  m.modify hr fun e => { e with lastEvalTime := t }

theorem push (m : Mirrors σ h w v) (e : AlertCurEvent) (b b' : Bool) :
    Mirrors σ h { w with log := w.log ++ [Effect.push e b] }
      { v with log := v.log ++ [Effect.push e b'] } :=
  { m with pushes := by rw [pushes_append, pushes_append, m.pushes, pushes_push, pushes_push] }

theorem pushFront (m : Mirrors σ h w v) (r r' : Ref) :
    Mirrors σ h (w.pushFront r) (v.pushFront r') where
  rule := by simpa using m.rule
  fires := by simpa using m.fires
  pendings := by simpa using m.pendings
  pendingsUseByRecover := by simpa using m.pendingsUseByRecover
  cells := by simpa using m.cells
  pushes := by simpa using m.pushes

end

end Mirrors

/-! ## The branches of a look -/

section Branches

variable {w : World} {r p : Ref} {h : Hash}

section

variable (hr : (w.heap.get r).hash = h)

include hr

theorem remember_of_seen (hl : w.pendingsUseByRecover.lookup h = some p) :
    w.remember r = { w with heap := w.heap.touch (some p) (w.heap.get r).lastEvalTime } := by
  subst hr
  simp only [remember, hl, updateLastEvalTime_eq]

theorem remember_of_unseen (hl : w.pendingsUseByRecover.lookup h = none) :
    w.remember r = { w with pendingsUseByRecover := w.pendingsUseByRecover.insert h r } := by
  subst hr
  simp only [remember, hl]

theorem pend_of_pending (hl : w.pendings.lookup h = some p) :
    w.pend r = ({ w with heap := w.heap.touch (some p) (w.heap.get r).lastEvalTime },
      (w.heap.get p).firstEvalTime) := by
  subst hr
  simp only [pend, hl, updateLastEvalTime_eq]

theorem pend_of_idle (hl : w.pendings.lookup h = none) :
    w.pend r = ({ w.modify r fun e => { e with firstEvalTime := e.lastEvalTime } with
      pendings := w.pendings.insert h r }, (w.heap.get r).lastEvalTime) := by
  subst hr
  simp only [pend, hl]
  rfl

theorem fireEvent_of_idle (hl : w.fires.lookup h = none) : w.fireEvent r = (w.modify r fun e =>
      { e with notifyCurNumber := 1, firstTriggerTime := e.triggerTime }).pushEventToQueue r := by
  subst hr
  simp only [fireEvent, hl]

end

end Branches

namespace Mirrors

/-! ## The same operation on both sides -/

section Both

variable {σ : Equiv.Perm Ref} {h : Hash} {w v : World} {r : Ref}

section

variable (m : Mirrors σ h w v)

include m

section

variable (hr : (w.heap.get r).hash = h)

include hr

theorem remember (hw : w.WF) : Mirrors σ h (w.remember r) (v.remember (σ r)) := by
  have hget := m.get hr
  have hr' : (v.heap.get (σ r)).hash = h := by rw [hget, hr]
  have hl' := m.pendingsUseByRecover
  cases hl : w.pendingsUseByRecover.lookup h with
  | none =>
    rw [hl, map_none] at hl'
    rw [remember_of_unseen hr hl, remember_of_unseen hr' hl']
    exact { m with pendingsUseByRecover := by simp }
  | some p =>
    rw [hl, map_some] at hl'
    rw [remember_of_seen hr hl, remember_of_seen hr' hl', hget]
    exact m.touch (hw.pendingsUseByRecover h p hl).2 _

theorem observe (env : Env) (hw : w.WF) :
    Mirrors σ h (w.observe env r) (v.observe env (σ r)) := by
  refine (m.remember hr hw).modify ?_ _
  rw [get_remember, hr]

theorem pend (hw : w.WF) :
    Mirrors σ h (w.pend r).1 (v.pend (σ r)).1 ∧ (v.pend (σ r)).2 = (w.pend r).2 := by
  have hget := m.get hr
  have hr' : (v.heap.get (σ r)).hash = h := by rw [hget, hr]
  have hl' := m.pendings
  cases hl : w.pendings.lookup h with
  | none =>
    rw [hl, map_none] at hl'
    rw [pend_of_idle hr hl, pend_of_idle hr' hl', hget]
    have hm := m.modify hr fun e => { e with firstEvalTime := e.lastEvalTime }
    exact ⟨{ hm with pendings := by simp }, rfl⟩
  | some p =>
    have hp : (w.heap.get p).hash = h := (hw.pendings h p hl).2
    rw [hl, map_some] at hl'
    rw [pend_of_pending hr hl, pend_of_pending hr' hl', hget, m.get hp]
    exact ⟨m.touch hp _, rfl⟩

/-- **Both look at the event**, and find it due together. -/
theorem look (env : Env) (hw : w.WF) (hlt : r < w.heap.next) :
    Mirrors σ h (w.look env r).1 (v.look env (σ r)).1 ∧
      (v.look env (σ r)).2 = (w.look env r).2 := by
  have ht := touches_observe env hw hlt
  have ho := m.observe hr env hw
  have hr₁ : ((w.observe env r).heap.get r).hash = h := by rw [get_observe]; exact hr
  obtain ⟨hp, hbegan⟩ := ho.pend hr₁ ht.wf
  have hr₂ : (((w.observe env r).pend r).1.heap.get r).hash = h := by
    have hlt₁ : r < (w.observe env r).heap.next := by rw [ht.keeps.next]; exact hlt
    rw [← hr₁]
    exact hash_eq_of_core_eq ((touches_pend ht.wf hlt₁).keeps.get r)
  simp only [World.look, ho.rule, hp.rule, hbegan, hp.get hr₂]
  split_ifs
  · exact ⟨ho, rfl⟩
  · exact ⟨hp, rfl⟩

theorem pushEventToQueue :
    Mirrors σ h (w.pushEventToQueue r) (v.pushEventToQueue (σ r)) := by
  have hget := m.get hr
  cases hrec : (w.heap.get r).isRecovered with
  | true =>
    rw [pushEventToQueue_of_recovered hrec, pushEventToQueue_of_recovered (by rw [hget, hrec]),
      hget]
    exact (m.push _ _ _).pushFront _ _
  | false =>
    rw [pushEventToQueue_of_firing hrec, pushEventToQueue_of_firing (by rw [hget, hrec])]
    refine pushFront ?_ _ _
    have hm := (m.modify hr sent).push (sent (w.heap.get r)) (w.sched w.tick).room
      (v.sched v.tick).room
    rw [markSent, markSent, hget, hr]
    exact { hm with fires := by simp }

theorem refire {f : Ref} (hf : (w.heap.get f).hash = h) :
    Mirrors σ h (w.refire r f) (v.refire (σ r) (σ f)) := by
  have ht := m.touch hf (w.heap.get r).lastEvalTime
  have hf' : ((w.heap.touch (some f) (w.heap.get r).lastEvalTime).get f).hash = h := by
    rw [touch_get, if_pos rfl]; exact hf
  have hr' : ((w.heap.touch (some f) (w.heap.get r).lastEvalTime).get r).hash = h := by
    rw [touch_get_own]; exact hr
  have hget : (v.heap.touch (some (σ f)) (w.heap.get r).lastEvalTime).get (σ f)
      = (w.heap.touch (some f) (w.heap.get r).lastEvalTime).get f := ht.get hf'
  simp only [World.refire, m.get hr, hget]
  exact ht.modify hr' _

/-- **Both fire the event.** -/
theorem fireEvent (hw : w.WF) : Mirrors σ h (w.fireEvent r) (v.fireEvent (σ r)) := by
  have hget := m.get hr
  have hr' : (v.heap.get (σ r)).hash = h := by rw [hget, hr]
  have hl' := m.fires
  cases hl : w.fires.lookup h with
  | none =>
    rw [hl, map_none] at hl'
    rw [fireEvent_of_idle hr hl, fireEvent_of_idle hr' hl']
    refine (m.modify hr _).pushEventToQueue ?_
    rw [World.modify, get_modify_self]
    exact hr
  | some f =>
    have hf : (w.heap.get f).hash = h := (hw.fires h f hl).2
    rw [hl, map_some] at hl'
    rw [fireEvent_of_fired (hr.symm ▸ hl), fireEvent_of_fired (hr'.symm ▸ hl'), m.rule, m.get hf,
      hget]
    have hre := m.refire hr hf
    have hr₁ : ((w.refire r f).heap.get r).hash = h := by rw [get_refire]; exact hr
    cases w.rule.notifies (some (w.heap.get f)) (w.heap.get r) with
    | none => exact hre
    | some p =>
      refine (hre.modify hr₁ _).pushEventToQueue ?_
      rw [World.modify, get_modify_self]
      exact hr₁

end

theorem releases_iff (hw : w.WF) {b : Bool} {now : ℤ} {f : AlertCurEvent} :
    v.Releases b h now f ↔ w.Releases b h now f := by
  have hheld : v.held h now = w.held h now := by
    simp only [held, m.rule, m.seen hw]
  constructor
  · rintro ⟨hf, hh, hj⟩
    exact ⟨(m.fired hw).symm.trans hf, hheld.symm.trans hh, hj⟩
  · rintro ⟨hf, hh, hj⟩
    exact ⟨(m.fired hw).trans hf, hheld.trans hh, hj⟩

/-- **Both put the alert to `RecoverSingle`.** -/
theorem recoverSingle (hw : w.WF) (b : Bool) (now : ℤ) (x : Option String) (xs : List String) :
    Mirrors σ h (w.recoverSingle b h now x xs) (v.recoverSingle b h now x xs) := by
  by_cases hrel : ∃ f, w.Releases b h now f
  · obtain ⟨f, hf⟩ := hrel
    obtain ⟨r, hr, rfl⟩ := map_eq_some_iff.mp hf.fired
    have hh : (w.heap.get r).hash = h := (hw.fires h r hr).2
    have hr' : v.fires.lookup h = some (σ r) := by rw [m.fires, hr, map_some]
    have hf' : v.Releases b h now (v.heap.get (σ r)) := by
      rw [m.get hh]
      exact (m.releases_iff hw).mpr hf
    rw [recoverSingle_eq_letGo x xs hr hf, recoverSingle_eq_letGo x xs hr' hf']
    refine pushFront ?_ _ _
    simp only [letGo, World.modify, deleteProcessEvent, yield_heap, yield_fires, yield_pendings,
      yield_pendingsUseByRecover, m.rule, m.get hh]
    exact
      { rule := by simpa using m.rule
        fires := by simp
        pendings := by simp
        pendingsUseByRecover := by simp
        cells := m.cells.modify hh _
        pushes := by rw [pushes_remove_push, pushes_remove_push, m.pushes] }
  · rw [recoverSingle_of_not_releases x xs fun f hf => hrel ⟨f, hf⟩,
      recoverSingle_of_not_releases x xs fun f hf => hrel ⟨f, (m.releases_iff hw).mp hf⟩]
    exact m

/-- **Both forget the spells** nobody delivered a point for. -/
theorem forget (o o' : MapOrder String) {K K' : List Hash} (hK : h ∈ K' ↔ h ∈ K)
    : Mirrors σ h (w.forget o K) (v.forget o' K') := { m with
    pendings := by
      rw [lookup_forget, lookup_forget, m.pendings]
      simp only [hK]
      split_ifs <;> rfl }

end

end Both

end Mirrors

/-! ## An operation on another hash -/

section Other

variable {h : Hash} {w : World} {r : Ref}

section

variable (hne : (w.heap.get r).hash ≠ h)

include hne

theorem mirrors_modify (f : AlertCurEvent → AlertCurEvent) :
    Mirrors (Equiv.refl Ref) h w (w.modify r f) :=
  Mirrors.of_same rfl rfl rfl rfl (Renames.modify_elsewhere hne f) rfl

theorem mirrors_touch (t : ℤ) :
    Mirrors (Equiv.refl Ref) h w { w with heap := w.heap.touch (some r) t } :=
  mirrors_modify hne fun e => { e with lastEvalTime := t }

theorem mirrors_remember (hw : w.WF) : Mirrors (Equiv.refl Ref) h w (w.remember r) := by
  cases hl : w.pendingsUseByRecover.lookup (w.heap.get r).hash with
  | none =>
    rw [remember_of_unseen rfl hl]
    exact .of_same rfl rfl rfl (lookup_insert_of_ne _ hne.symm) (fun _ _ => rfl) rfl
  | some p =>
    rw [remember_of_seen rfl hl]
    exact mirrors_touch (by rwa [(hw.pendingsUseByRecover _ p hl).2]) _

theorem mirrors_pend (hw : w.WF) : Mirrors (Equiv.refl Ref) h w (w.pend r).1 := by
  cases hl : w.pendings.lookup (w.heap.get r).hash with
  | none =>
    rw [pend_of_idle rfl hl]
    refine (mirrors_modify hne fun e => { e with firstEvalTime := e.lastEvalTime }).then_same ?_
    exact .of_same rfl rfl (lookup_insert_of_ne _ hne.symm) rfl (fun _ _ => rfl) rfl
  | some p =>
    rw [pend_of_pending rfl hl]
    exact mirrors_touch (by rwa [(hw.pendings _ p hl).2]) _

/-- **A look elsewhere is not noticed.** -/
theorem mirrors_look (env : Env) (hw : w.WF) (hlt : r < w.heap.next) :
    Mirrors (Equiv.refl Ref) h w (w.look env r).1 := by
  have ht := touches_observe env hw hlt
  have ho : Mirrors (Equiv.refl Ref) h w (w.observe env r) :=
    (mirrors_remember hne hw).then_same (mirrors_modify (by rwa [get_remember]) _)
  simp only [look]
  split_ifs
  · exact ho
  · refine ho.then_same (mirrors_pend ?_ ht.wf)
    rw [get_observe]
    exact hne

theorem mirrors_pushEventToQueue : Mirrors (Equiv.refl Ref) h w (w.pushEventToQueue r) := by
  cases hrec : (w.heap.get r).isRecovered with
  | true =>
    rw [pushEventToQueue_of_recovered hrec]
    exact .of_same (by simp) (by simp) (by simp) (by simp) (fun _ _ => by simp)
      (by simp [pushes_push, hne])
  | false =>
    have hsent : (sent (w.heap.get r)).hash ≠ h := hne
    rw [pushEventToQueue_of_firing hrec]
    refine .of_same (by simp [markSent, modify]) ?_ (by simp [markSent, modify])
      (by simp [markSent, modify]) ?_ (by simp [markSent, pushes_push, hsent])
    · rw [pushFront_fires]
      exact lookup_insert_of_ne _ hne.symm
    · rw [pushFront_heap]
      exact Renames.modify_elsewhere hne sent

theorem mirrors_refire {f : Ref} (hf : (w.heap.get f).hash ≠ h) :
    Mirrors (Equiv.refl Ref) h w (w.refire r f) := by
  refine (mirrors_touch hf (w.heap.get r).lastEvalTime).then_same (mirrors_modify ?_ _)
  rw [touch_get_own]
  exact hne

/-- **A firing elsewhere is not noticed.** -/
theorem mirrors_fireEvent (hw : w.WF) : Mirrors (Equiv.refl Ref) h w (w.fireEvent r) := by
  cases hl : w.fires.lookup (w.heap.get r).hash with
  | none =>
    rw [fireEvent_of_idle rfl hl]
    refine (mirrors_modify hne _).then_same (mirrors_pushEventToQueue ?_)
    rw [modify, get_modify_self]
    exact hne
  | some f =>
    have hre := mirrors_refire hne (f := f) (by rwa [(hw.fires _ f hl).2])
    have hr₁ : ((w.refire r f).heap.get r).hash ≠ h := by rw [get_refire]; exact hne
    rw [fireEvent_of_fired hl]
    cases w.rule.notifies (some (w.heap.get f)) (w.heap.get r) with
    | none => exact hre
    | some p =>
      refine (hre.then_same (mirrors_modify hr₁ _)).then_same (mirrors_pushEventToQueue ?_)
      rw [modify, get_modify_self]
      exact hr₁

end

/-- **A recovery elsewhere is not noticed.** -/
theorem mirrors_recoverSingle (hw : w.WF) {h' : Hash} (hne : h' ≠ h) (b : Bool) (now : ℤ)
    (x : Option String) (xs : List String) :
    Mirrors (Equiv.refl Ref) h w (w.recoverSingle b h' now x xs) := by
  by_cases hrel : ∃ f, w.Releases b h' now f
  · obtain ⟨f, hf⟩ := hrel
    obtain ⟨r, hr, rfl⟩ := map_eq_some_iff.mp hf.fired
    have hh : (w.heap.get r).hash ≠ h := by rwa [(hw.fires h' r hr).2]
    have hlog := (recoverSingle_of_releases hw x xs hf).2.2
    have hhash : (recovery w.rule now x xs (w.heap.get r)).hash ≠ h := by
      rwa [recovery_hash]
    refine .of_same (recoverSingle_rule ..) ?_ ?_ ?_ ?_ ?_
    all_goals rw [recoverSingle_eq_letGo x xs hr hf]
    · simp [letGo, modify, deleteProcessEvent, lookup_erase_ne hne.symm]
    · simp [letGo, modify, deleteProcessEvent, lookup_erase_ne hne.symm]
    · simp [letGo, modify, deleteProcessEvent, lookup_erase_ne hne.symm]
    · simpa [letGo, modify, deleteProcessEvent] using Renames.modify_elsewhere hh _
    · rw [pushFront_log, letGo, pushes_remove_push, if_neg hhash, List.append_nil]
  · rw [recoverSingle_of_not_releases x xs fun f hf => hrel ⟨f, hf⟩]
    exact .refl h w

end Other

end World

end Nightingale
