import Nightingale.Process.Grouping

/-!
# Process/Onward — the history only grows

Whatever a processor does, it stays well-formed and adds to its history (`onward_step`); so what was
pushed once has been pushed for good.  And an event that nothing holds back is pushed in its own
call: if its rule has no for-duration, the call does not inhibit, no alert of its hash is firing and
the queue has room, then a call that hands it on pushes it, and the queue takes it
(`pushed_handleGroups`).
-/

namespace Nightingale

open AlertCurEvent World List Progress

namespace World

/-- A later state: well-formed, with a longer history. -/
structure Onward (w w' : World) : Prop where
  wf : w'.WF
  log : w.log <+: w'.log

section Onward

variable {w w' w'' : World} {r : Ref}

theorem Onward.refl (hw : w.WF) : Onward w w := ⟨hw, prefix_refl _⟩

theorem Onward.trans (h₁ : Onward w w') (h₂ : Onward w' w'') : Onward w w'' :=
  ⟨h₂.wf, h₁.log.trans h₂.log⟩

theorem log_pushEventToQueue (w : World) (r : Ref) : w.log <+: (w.pushEventToQueue r).log := by
  unfold pushEventToQueue
  rw [pushFront_log]
  split <;> exact prefix_append _ _

theorem log_fireEvent (w : World) (r : Ref) : w.log <+: (w.fireEvent r).log := by
  cases hf : w.fires.lookup (w.heap.get r).hash with
  | none =>
    simp only [fireEvent, hf]
    exact log_pushEventToQueue (w.modify r _) r
  | some f =>
    rw [fireEvent_of_fired hf]
    split
    · exact prefix_refl _
    · exact log_pushEventToQueue (modify (w.refire r f) r _) r

theorem onward_recoverSingle (hw : w.WF) (b : Bool) (h : Hash) (now : ℤ) (v : Option String)
    (vs : List String) : Onward w (w.recoverSingle b h now v vs) := by
  rcases recoverSingle_cases hw b h now v vs with heq | ⟨f, -, hrem, -, hlog⟩
  · rw [heq]
    exact .refl hw
  · exact ⟨hrem.wf, hlog ▸ prefix_append _ _⟩

theorem onward_handleGroups (hw : w.WF) (env : Env) (c : HandleCall) (rule : AlertRule) :
    Onward w (w.handleGroups env c rule) := by
  obtain ⟨hwf, hlog⟩ := handleGroups_keeps (I := fun w' => w.log <+: w'.log) hw env c rule
    (prefix_append _ _) (fun w' r hw' hr h => (touches_look env hw' hr).log ▸ h)
    fun w' r _ _ h => h.trans (log_fireEvent w' r)
  exact ⟨hwf, hlog⟩

theorem onward_handleRecover (hw : w.WF) (fireOrder tagOrder : MapOrder String) (K : List Hash)
    (now : ℤ) (inhibit : Bool) : Onward w (w.handleRecover fireOrder tagOrder K now inhibit) :=
  handleRecover_induct (I := Onward w) hw ⟨hw.forget fireOrder K, prefix_refl _⟩
    (fun _ w' h _ _ ho => by
      obtain ⟨hrem, -, hlog⟩ := removes_dropInhibited ho.wf h now
      exact ho.trans ⟨hrem.wf, hlog ▸ prefix_append _ _⟩)
    fun w' h _ _ ho => ho.trans (onward_recoverSingle ho.wf false h now none [])

theorem onward_handle (hw : w.WF) (env : Env) (c : HandleCall) : Onward w (w.handle env c) := by
  unfold handle
  split
  · exact ⟨hw.beside, prefix_append _ _⟩
  · next rule _ =>
    have hg := onward_handleGroups hw env c rule
    split
    · exact hg.trans (onward_handleRecover hg.wf _ _ _ _ _)
    · exact hg

/-- What the loop over the groups has pushed, the call has pushed. -/
theorem log_handleGroups_handle (hw : w.WF) (env : Env) {c : HandleCall} {rule : AlertRule}
    (hrule : c.cachedRule = some rule) :
    (w.handleGroups env c rule).log <+: (w.handle env c).log := by
  have hg := onward_handleGroups hw env c rule
  rw [handle, hrule]
  dsimp only
  split
  · exact (onward_handleRecover hg.wf _ _ _ _ _).log
  · exact prefix_refl _

theorem onward_recoverPoints (hw : w.WF) (env : Env) (c : RecoverCall) :
    Onward w (w.recoverPoints env c) := by
  refine recoverPoints_induct (J := Onward w) (.refl hw) (fun _ h => h) ?_ ?_
  · intro _ w' p q _ _ _ _ _ ho
    obtain ⟨hrem, -⟩ := removes_deleteInhibited ho.wf (pointHash env w.rule.id p) c.now
    rcases deleteInhibited_log w' (pointHash env w.rule.id p) c.now with hlog | hlog
    · exact ho.trans ⟨hrem.wf, hlog ▸ prefix_refl _⟩
    · exact ho.trans ⟨hrem.wf, hlog ▸ prefix_append _ _⟩
  · exact fun w' p _ _ ho => ho.trans (onward_recoverSingle ho.wf _ _ _ _ _)

theorem log_consume (n : ℕ) (w : World) : (consume n w).log = w.log := by
  induction n generalizing w with
  | zero => rfl
  | succ n ih =>
    rw [consume, ih]
    unfold consumeStep
    split <;> rfl

/-- **Every operation goes onward.** -/
theorem onward_step (hw : w.WF) (env : Env) (op : Op) : Onward w (w.step env op) := by
  cases op with
  | handle c => exact onward_handle hw env c
  | recoverPoints c => exact onward_recoverPoints hw env c
  | recoverSingle b h now v => exact onward_recoverSingle hw b h now v []
  | restart c =>
    have hr := restarted env c w
    have hlog : (w.recoverAlertCurEventFromDb env c).log = w.log := by rw [hr.frame]
    exact ⟨hr.wf hw, by rw [step, hlog]⟩
  | consume steps => exact ⟨hw.consume steps, by rw [step, log_consume]⟩

end Onward

/-! ## An event that nothing holds back -/

section Passing

variable {env : Env} {c : HandleCall} {rule : AlertRule} {w : World}
  {pe : AnomalyPoint × AlertCurEvent}

/-- The queue has room for what is pushed on the way from one state to the other. -/
def Roomy (w w' : World) : Prop := ∀ n < w'.tick, w.tick ≤ n → (w.sched n).room = true

instance (w w' : World) : Decidable (w.Roomy w') := inferInstanceAs (Decidable (∀ _ < _, _ → _))

/-- How far a call has come with an event: it has been pushed, or its hash is still idle. -/
structure Coming (env : Env) (c : HandleCall) (rule : AlertRule) (w : World) (e : AlertCurEvent)
    (p : Progress) : Prop where
  due : ∀ r ∈ p.looked, r ∈ p.due
  sched : p.world.sched = w.sched
  tick : w.tick ≤ p.world.tick
  pushed : (∃ n q, w.tick ≤ n ∧ n < p.world.tick ∧ Effect.push q (w.sched n).room ∈ p.world.log ∧
      q.ident = e.ident) ∨
    p.world.fired e.hash = none ∧ ∀ r ∈ p.fired, (c.collect env rule w.heap).Has r →
      ((c.collect env rule w.heap).heap.get r).hash ≠ e.hash

section

variable {e : AlertCurEvent} {p : Progress} {r : Ref} (h : Coming env c rule w e p)
  (hin : InCall env c rule w p.world) (hr : (c.collect env rule w.heap).Has r)

include h hin hr

theorem Coming.look (hfor : rule.promForDuration = 0) : Coming env c rule w e (p.look env r) := by
  have ht := touches_look env hin.wf (hin.lt hr)
  have hdue : (p.world.look env r).2 = true := by
    rw [look_eq env hin.wf (hin.lt hr), hin.rule, if_pos hfor]
  have htick : (p.look env r).world.tick = p.world.tick := by rw [Progress.look, ht.frame]
  refine ⟨fun r' hr' => ?_, by rw [Progress.look, ht.frame]; exact h.sched, htick ▸ h.tick, ?_⟩
  · rcases mem_append.mp hr' with hr' | hr'
    · exact mem_due_look.mpr (.inl (h.due r' hr'))
    · exact mem_due_look.mpr (.inr ⟨mem_singleton.mp hr', hdue⟩)
  · rw [htick]
    rcases h.pushed with ⟨n, q, hle, hlt, hq, hid⟩ | ⟨hnone, hne⟩
    · exact .inl ⟨n, q, hle, hlt, by rw [Progress.look, ht.log]; exact hq, hid⟩
    · exact .inr ⟨by simpa [Progress.look, hnone] using ht.fired_core e.hash, hne⟩

/-- A firing: of the event, which is pushed, or of an event of another hash. -/
theorem Coming.fire (hrec : c.KeepsFiring env rule)
    (halone : ∀ qe ∈ c.passes env rule, qe.2.hash = e.hash → qe.2 = e) :
    Coming env c rule w e (p.fire r) := by
  have hf := fires_fireEvent hin.wf (hin.lt hr) (hin.not_recovered hr hrec)
  have htick : p.world.tick ≤ (p.fire r).world.tick := hf.tick ▸ Nat.le_add_right _ _
  refine ⟨h.due, hf.sched.trans h.sched, h.tick.trans htick, ?_⟩
  rcases h.pushed with ⟨n, q, hle, hlt, hq, hid⟩ | ⟨hnone, hne⟩
  · exact .inl ⟨n, q, hle, hlt.trans_le htick, (log_fireEvent p.world r).subset hq, hid⟩
  · by_cases hhash : (p.world.heap.get r).hash = e.hash
    · obtain ⟨qe, hqe, hident⟩ := hin.event hr
      have heq : qe.2 = e := halone qe hqe ((hash_eq_of_ident_eq hident).symm.trans hhash)
      obtain ⟨q, hq⟩ : ∃ q, p.world.rule.notifies none (p.world.heap.get r) = some q := ⟨_, rfl⟩
      rw [hhash, hnone, hq] at hf
      refine .inl ⟨p.world.tick, q, h.tick, ?_, ?_, ?_⟩
      · rw [Progress.fire, hf.tick]
        exact Nat.lt_succ_self _
      · rw [Progress.fire, hf.log, h.sched]
        exact mem_append_right _ (mem_singleton_self _)
      · rw [AlertRule.notifies_ident hq, hident, heq]
    · refine .inr ⟨?_, fun r' hr' hhas => ?_⟩
      · rw [Progress.fire, (hf.sameAt e.hash (Ne.symm hhash)).fired]
        exact hnone
      · rcases mem_append.mp hr' with hr' | hr'
        · exact hne r' hr' hhas
        · rw [mem_singleton.mp hr', ← hin.hash_eq]
          exact hhash

end

/-- **An event that nothing holds back is pushed in its own call, and the queue takes it.** -/
theorem pushed_handleGroups (hw : w.WF) (hrec : c.KeepsFiring env rule)
    (hfor : rule.promForDuration = 0) (hinh : c.inhibit = false)
    (hroom : w.Roomy (w.handleGroups env c rule)) (hpe : pe ∈ c.passes env rule)
    (hidle : w.fired pe.2.hash = none)
    (halone : ∀ qe ∈ c.passes env rule, qe.2.hash = pe.2.hash → qe.2 = pe.2) :
    ∃ q, Effect.push q true ∈ (w.handleGroups env c rule).log ∧ q.ident = pe.2.ident := by
  have hstart : Coming env c rule w pe.2 { world := w.handleStart env c rule } :=
    ⟨by simp, rfl, le_rfl,
      .inr ⟨((SameAt.handleStart hw env c rule pe.2.hash).fired).trans hidle, by simp⟩⟩
  obtain ⟨p, hI, -, hpw, hlooked, hfired⟩ := handleGroups_induct hw env c rule hstart
    (fun p r hin hr h => h.look hin hr hfor) fun p r hin hr _ h => h.fire hin hr hrec halone
  obtain ⟨r, hr, hget⟩ := exists_has_of_mem_passes w.heap hpe
  rw [← hpw] at hroom ⊢
  rcases hI.pushed with ⟨n, q, hle, hlt, hpush, hident⟩ | ⟨-, hne⟩
  · exact ⟨q, hroom n hlt hle ▸ hpush, hident⟩
  · exact absurd (by rw [hget]) (hne r (hfired hinh r (hI.due r (hlooked r hr))) hr)

end Passing

end World

end Nightingale
