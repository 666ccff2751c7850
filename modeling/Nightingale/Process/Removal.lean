import Nightingale.Process.Agreement
import Nightingale.Process.Episodes
import Nightingale.Process.Window

/-!
# Process/Removal — the conditions under which an alert may go

`RecoverSingle` lets an alert go when its observation window has passed and, if the trigger that
fired it asks for a recover condition, when a recover point came.  Two other places remove alerts:
the grouping loop of `HandleRecoverEvent` and the merging loop of `Eval` drop what another alert
outranks, and ask neither question.

    RecoverSingle   window ✓  judge ✓        dropInhibited   window –  judge –
    deleteInhibited window –  judge ✓        restart         forgets the judge

`RemovedDuly` is the law, entry by entry of the history; it holds along every run in which these
places act only where `RecoverSingle` would have.
-/

namespace Nightingale

open AlertCurEvent World List Option Effect

/-! ## The law -/

/-- The notification an alert fires with: the last of its hash that is no recovery. -/
def lastFiring (h : Hash) (log : List Effect) : Option AlertCurEvent :=
  ((pushes h log).filter fun e => !e.isRecovered).getLast?

theorem lastFiring_append_of_recovered {h : Hash} {log new : List Effect}
    (hnew : ∀ e b, push e b ∈ new → e.hash = h → e.isRecovered = true) :
    lastFiring h (log ++ new) = lastFiring h log := by
  have hnil : ((pushes h new).filter fun e => !e.isRecovered) = [] :=
    filter_eq_nil_iff.mpr fun e he => by
      obtain ⟨⟨b, hpush⟩, hh⟩ := mem_pushes.mp he
      simp [hnew e b hpush hh]
  rw [lastFiring, pushes_append, filter_append, hnil, append_nil, lastFiring]

theorem lastFiring_concat_push {h : Hash} (log : List Effect) {e : AlertCurEvent} (hh : e.hash = h)
    (hrec : e.isRecovered = false) (b : Bool) : lastFiring h (log ++ [push e b]) = some e := by
  simp [lastFiring, pushes_push, hh, hrec]

/-- An alert is removed only once its window has passed, and by a recover point if its trigger has a
recover condition. -/
def RemovedDuly (D : ℤ) (past : List Effect) : Effect → Prop
  | .remove h now seen byRecover => (∃ t ∈ seen, D ≤ now - t) ∧
      ∀ e ∈ lastFiring h past, e.recoverConfig.judgeType ≠ .origin → byRecover = true
  | _ => True

instance (D : ℤ) (past : List Effect) : (x : Effect) → Decidable (RemovedDuly D past x)
  | .deliver _ _ | .push _ _ => inferInstanceAs (Decidable True)
  | .remove _ _ _ _ => inferInstanceAs (Decidable ((∃ _ ∈ _, _) ∧ ∀ _ ∈ _, _))

/-- Pipelines hand no event on as of a later time. -/
def HandleCall.NotAhead (env : Env) (c : HandleCall) (rule : AlertRule) : Prop :=
  ∀ pe ∈ c.passes env rule, pe.2.lastEvalTime ≤ c.now

instance (env : Env) (c : HandleCall) (rule : AlertRule) : Decidable (c.NotAhead env rule) :=
  inferInstanceAs (Decidable (∀ _ ∈ _, _))

namespace World

/-- `RecoverSingle` would let the alert go without a recover point. -/
def Lets (w : World) (h : Hash) (now : ℤ) : Prop :=
  w.held h now = false ∧ ∀ f ∈ w.fired h, f.recoverConfig.judgeType = .origin

instance (w : World) (h : Hash) (now : ℤ) : Decidable (w.Lets h now) :=
  inferInstanceAs (Decidable (_ ∧ ∀ _ ∈ _, _))

/-- A recover point may delete the alert: nothing of its hash waits, and there is nothing to delete
or its window has passed. -/
def Deletable (D : ℤ) (w : World) (h : Hash) (now : ℤ) : Prop :=
  w.Settled h ∧ (h ∉ w.fires ∧ w.tables.alertCurEventExists h = false ∨
    ∃ t ∈ w.seen h, D ≤ now - t)

instance (D : ℤ) (w : World) (h : Hash) (now : ℤ) : Decidable (w.Deletable D h now) :=
  inferInstanceAs (Decidable (_ ∧ (_ ∨ ∃ _ ∈ _, _)))

/-- Every alert has the judge of the notification it fires with. -/
def Judged (w : World) : Prop :=
  ∀ h f, w.fired h = some f → ∀ e ∈ lastFiring h w.log,
    e.recoverConfig.judgeType = f.recoverConfig.judgeType

/-- What the law rests on at time `T`: every alert was seen, nothing was seen later than `T`, and
the alerts are judged by the notifications they fire with. -/
structure Dutiful (D T : ℤ) (w : World) : Prop where
  wf : w.WF
  window : w.rule.recoverDuration = D
  clock : 0 ≤ T
  known : ∀ h ∈ w.fires, w.seen h ≠ none
  past : ∀ h t, w.seen h = some t → t ≤ T
  judge : w.Judged
  duly : Historic (RemovedDuly D) w.log

namespace Dutiful

variable {env : Env} {D T now : ℤ} {w w' : World} {h : Hash} {r : Ref}

theorem mono {T' : ℤ} (d : Dutiful D T w) (hT : T ≤ T') : Dutiful D T' w where
  wf := d.wf
  window := d.window
  clock := d.clock.trans hT
  known := d.known
  past h t ht := (d.past h t ht).trans hT
  judge := d.judge
  duly := d.duly

/-- An alert the window does not hold was last seen `D` ago, whatever `D` is. -/
theorem elapsed (d : Dutiful D T w) (hf : h ∈ w.fires) (hheld : w.held h now = false)
    (hT : T ≤ now) : ∃ t ∈ w.seen h, D ≤ now - t := by
  by_cases hD : 0 < w.rule.recoverDuration
  · obtain ⟨t, ht, hle⟩ := exists_seen_of_not_held hD hheld
    exact ⟨t, ht, by rwa [d.window] at hle⟩
  · obtain ⟨t, ht⟩ := ne_none_iff_exists'.mp (d.known h hf)
    have := d.past h t ht
    rw [d.window] at hD
    exact ⟨t, ht, by omega⟩

/-! ## Removing -/

/-- A removal the law allows keeps everything the law rests on. -/
theorem removes (d : Dutiful D T w) (s : Removes h w w') {new : List Effect}
    (hseen : w'.seen h = none ∨ w'.seen h = w.seen h) (hlog : w'.log = w.log ++ new)
    (hnew : ∀ e b, push e b ∈ new → e.isRecovered = true)
    (hduly : Historic (RemovedDuly D) w'.log) : Dutiful D T w' where
  wf := s.wf
  window := by rw [s.rule, d.window]
  clock := d.clock
  known h' hf := by
    have hne : h' ≠ h := fun heq => by
      rw [heq, ← fired_isSome_iff, s.fired] at hf
      cases hf
    rw [(s.sameAt h' hne).seen]
    exact d.known h' ((s.sameAt h' hne).mem_fires.mp hf)
  past h' t ht := by
    by_cases hh : h' = h
    · subst hh
      rcases hseen with hnone | hsame
      · rw [hnone] at ht; cases ht
      · exact d.past h' t (hsame ▸ ht)
    · exact d.past h' t ((s.sameAt h' hh).seen ▸ ht)
  judge h' f hf e he := by
    have hne : h' ≠ h := fun heq => by
      rw [heq, s.fired] at hf
      cases hf
    rw [hlog, lastFiring_append_of_recovered fun e b he _ => hnew e b he] at he
    exact d.judge h' f ((s.sameAt h' hne).fired ▸ hf) e he
  duly := hduly

theorem recoverSingle (d : Dutiful D now w) (b : Bool) (h : Hash) (v : Option String)
    (vs : List String) : Dutiful D now (w.recoverSingle b h now v vs) := by
  rcases recoverSingle_cases d.wf b h now v vs with heq | ⟨f, hf, hrem, hobs, hlog⟩
  · rw [heq]
    exact d
  · refine d.removes hrem (.inl (by rw [seen_eq, hobs]; rfl)) hlog (by simp) ?_
    rw [hlog, ← singleton_append, ← append_assoc, historic_concat, historic_concat]
    refine ⟨⟨d.duly, d.elapsed (mem_fires_of_fired hf.fired) hf.held le_rfl, ?_⟩, trivial⟩
    intro e he hne
    rw [d.judge h f hf.fired e he] at hne
    exact hf.judge.resolve_left hne

theorem dropInhibited (d : Dutiful D now w) (helapsed : ∃ t ∈ w.seen h, D ≤ now - t)
    (hj : ∀ e ∈ lastFiring h w.log, e.recoverConfig.judgeType = .origin) :
    Dutiful D now (w.dropInhibited h now) := by
  obtain ⟨hrem, hobs, hlog⟩ := removes_dropInhibited d.wf h now
  refine d.removes hrem (.inr (by rw [seen_eq, seen_eq, hobs])) hlog (by simp) ?_
  rw [hlog, historic_concat]
  exact ⟨d.duly, helapsed, fun e he hne => absurd (hj e he) hne⟩

/-- Deleting the alert of an outranked recover point, where the law allows it. -/
theorem deleteInhibited (d : Dutiful D now w) (hdel : w.Deletable D h now) :
    Dutiful D now (w.deleteInhibited h now) := by
  obtain ⟨hrem, hobs⟩ := removes_deleteInhibited d.wf h now
  have hseen : (w.deleteInhibited h now).seen h = none := by rw [seen_eq, hobs]; rfl
  obtain ⟨hs, hno | helapsed⟩ := hdel
  · have hlog : (w.deleteInhibited h now).log = w.log := by
      have hexists : (w.deleteProcessEvent h).yield.tables.alertCurEventExists h = false := by
        have hs' : (w.deleteProcessEvent h).Settled h := hs
        rw [Tables.alertCurEventExists_eq_false_iff, hs'.rowsOf_yield,
          ← Tables.alertCurEventExists_eq_false_iff]
        exact hno.2
      simp [World.deleteInhibited, hexists, hno.1]
    exact d.removes hrem (.inl hseen) (hlog.trans (append_nil _).symm) (by simp)
      (by rw [hlog]; exact d.duly)
  · rcases w.deleteInhibited_log h now with hlog | hlog
    · exact d.removes hrem (.inl hseen) (hlog.trans (append_nil _).symm) (by simp)
        (by rw [hlog]; exact d.duly)
    · refine d.removes hrem (.inl hseen) hlog (by simp) ?_
      rw [hlog, historic_concat]
      exact ⟨d.duly, helapsed, fun _ _ _ => rfl⟩

end Dutiful

/-- A deletion leaves every other hash as deletable as it was, and its own with nothing to delete.
-/
theorem Deletable.deleteInhibited {D now : ℤ} {w : World} {h : Hash} (hw : w.WF)
    (hdel : w.Deletable D h now) (h' : Hash) : (w.deleteInhibited h' now).Deletable D h now := by
  obtain ⟨hs, hor⟩ := hdel
  obtain ⟨hrem, -⟩ := removes_deleteInhibited hw h' now
  have hs' : (w.deleteProcessEvent h').Settled h := hs
  have hheap : (w.deleteInhibited h' now).heap = w.heap := by
    simp [World.deleteInhibited, deleteProcessEvent]
  refine ⟨hs.of_suffix hheap (waiting_yield_suffix (w.deleteProcessEvent h')).subset, ?_⟩
  have htables : (w.deleteInhibited h' now).tables
      = (w.deleteProcessEvent h').yield.tables.alertCurEventDelByHash h' := rfl
  rw [Tables.alertCurEventExists_eq_false_iff, htables]
  by_cases hh : h = h'
  · subst hh
    exact .inl ⟨(fired_eq_none_iff _ _).mp hrem.fired, by simp⟩
  · rw [Tables.rowsOf_alertCurEventDelByHash_of_ne _ hh, hs'.rowsOf_yield,
      (hrem.sameAt h hh).seen, (hrem.sameAt h hh).mem_fires]
    exact hor.imp_left fun hno =>
      ⟨hno.1, (Tables.alertCurEventExists_eq_false_iff _ _).mp hno.2⟩

/-! ## Calls -/

section Calls

variable {env : Env} {D : ℤ} {w : World} {c : HandleCall} {rule : AlertRule} {r : Ref}

theorem Fires.judge {q : Option AlertCurEvent} {w' : World} (hf : Fires r q w w')
    (hq : ∀ p, q = some p → p.hash = (w.heap.get r).hash ∧ p.isRecovered = false)
    (hj : w.Judged) : w'.Judged := by
  intro h f hfired e he
  have hlog := hf.log
  by_cases hh : h = (w.heap.get r).hash
  · subst hh
    have hself := hf.fired_self
    cases q with
    | none =>
      rw [hlog, map_none, toList_none, append_nil] at he
      rw [hfired, none_or, eq_comm, map_eq_some_iff] at hself
      obtain ⟨f', hf', rfl⟩ := hself
      exact hj _ f' hf' e he
    | some p =>
      rw [hlog, map_some, toList_some, lastFiring_concat_push _ (hq p rfl).1 (hq p rfl).2 _] at he
      rw [hfired, some_or] at hself
      rw [← some.inj he, ← some.inj hself]
  · rw [hlog, lastFiring_append_of_recovered fun e' b he' hh' => ?_] at he
    · exact hj h f ((hf.sameAt h hh).fired ▸ hfired) e he
    · rw [mem_toList, map_eq_some_iff] at he'
      obtain ⟨p, hp, heq⟩ := he'
      obtain ⟨rfl, -⟩ := push.inj heq
      exact absurd (hh'.symm.trans (hq p hp).1) hh

/-- The loop over the groups so far: what it has looked at was seen. -/
structure Watching (D : ℤ) (env : Env) (c : HandleCall) (rule : AlertRule) (w : World)
    (p : Progress) : Prop extends Dutiful D c.now p.world where
  looked : ∀ r ∈ p.looked, p.world.seen ((c.collect env rule w.heap).heap.get r).hash ≠ none
  due : ∀ r ∈ p.due, r ∈ p.looked

theorem Watching.look {p : Progress} (hT : c.NotAhead env rule)
    (hin : InCall env c rule w p.world) (hr : (c.collect env rule w.heap).Has r)
    (s : Watching D env c rule w p) : Watching D env c rule w (p.look env r) := by
  have ht := touches_look env s.wf (hin.lt hr)
  have hself := seen_look env s.wf (hin.lt hr)
  have hkept : ∀ h, p.world.seen h ≠ none → (p.world.look env r).1.seen h ≠ none := fun h hs => by
    by_cases hh : h = (p.world.heap.get r).hash
    · rw [hh, hself]; exact some_ne_none _
    · rw [(ht.sameAt h hh).seen]; exact hs
  refine ⟨⟨ht.wf, by rw [Progress.look, ht.rule, s.window], s.clock, fun h hf => ?_,
    fun h t hs => ?_, fun h f hf e he => ?_, by rw [Progress.look, ht.log]; exact s.duly⟩,
    fun r' hr' => ?_, fun r' hr' => ?_⟩
  · rw [Progress.look, ht.fires] at hf
    exact hkept h (s.known h hf)
  · by_cases hh : h = (p.world.heap.get r).hash
    · subst hh
      obtain rfl := some.inj (hself.symm.trans hs)
      exact hin.time (· ≤ c.now) hT r hr
    · exact s.past h t ((ht.sameAt h hh).seen ▸ hs)
  · have hk := ht.fired_core h
    rw [Progress.look] at hf
    rw [hf, map_some, eq_comm, map_eq_some_iff] at hk
    obtain ⟨f', hf', hcore⟩ := hk
    rw [Progress.look, ht.log] at he
    rw [s.judge h f' hf' e he]
    exact proj_eq_of_ident_eq (·.recoverConfig.judgeType) (fun _ => rfl) (ident_eq_of_core_eq hcore)
  · rcases mem_append.mp hr' with hr' | hr'
    · exact hkept _ (s.looked r' hr')
    · rw [mem_singleton.mp hr', ← hin.hash_eq r]
      exact fun hnone => some_ne_none _ (hself.symm.trans hnone)
  · exact Progress.looked_of_due_look s.due r' hr'

theorem Watching.fire {p : Progress} (hrec : c.KeepsFiring env rule) (hT : c.NotAhead env rule)
    (hin : InCall env c rule w p.world) (hr : (c.collect env rule w.heap).Has r) (hd : r ∈ p.due)
    (s : Watching D env c rule w p) : Watching D env c rule w (p.fire r) := by
  have hnot := hin.not_recovered hr hrec
  have hf := fires_fireEvent s.wf (hin.lt hr) hnot
  have hseen : p.world.seen (p.world.heap.get r).hash ≠ none := by
    rw [hin.hash_eq r]; exact s.looked r (s.due r hd)
  have hcases : ∀ h, (p.world.fireEvent r).seen h = p.world.seen h ∨
      (p.world.fireEvent r).seen h = some (p.world.heap.get r).lastEvalTime := fun h => by
    by_cases hh : h = (p.world.heap.get r).hash
    · rw [hh]; exact hf.toWrites.seen_self hseen
    · exact .inl (hf.sameAt h hh).seen
  have hkept : ∀ h, p.world.seen h ≠ none → (p.world.fireEvent r).seen h ≠ none := fun h hs => by
    rcases hcases h with hsame | hnew
    · rw [hsame]; exact hs
    · rw [hnew]; exact some_ne_none _
  refine ⟨⟨hf.wf, by rw [Progress.fire, hf.rule, s.window], s.clock, fun h hm => ?_,
    fun h t hs => ?_, hf.judge (fun q hq => ?_) s.judge, ?_⟩,
    fun r' hr' => hkept _ (s.looked r' hr'), s.due⟩
  · by_cases hh : h = (p.world.heap.get r).hash
    · rw [hh]; exact hkept _ hseen
    · exact hkept h (s.known h ((hf.sameAt h hh).mem_fires.mp hm))
  · rcases hcases h with hsame | hnew
    · exact s.past h t (hsame ▸ hs)
    · obtain rfl := some.inj (hnew.symm.trans hs)
      exact hin.time (· ≤ c.now) hT r hr
  · have hid := AlertRule.notifies_ident hq
    exact ⟨hash_eq_of_ident_eq hid, (isRecovered_eq_of_ident_eq hid).trans hnot⟩
  · rw [Progress.fire, hf.log]
    refine s.duly.append fun past x hx => ?_
    rw [mem_toList, map_eq_some_iff] at hx
    obtain ⟨q, -, rfl⟩ := hx
    trivial

theorem lastFiring_append_delivered (h : Hash) (log : List Effect) (c : HandleCall)
    (rule : AlertRule) : lastFiring h (log ++ c.delivered env rule) = lastFiring h log :=
  lastFiring_append_of_recovered fun e _ he _ => by
    obtain ⟨point, -, heq⟩ := mem_map.mp he
    cases heq

theorem Dutiful.delivered {T : ℤ} (d : Dutiful D T w) (env : Env) (inhibit : Bool)
    (c : HandleCall) (rule : AlertRule) :
    Dutiful D T { w with inhibit := inhibit, log := w.log ++ c.delivered env rule } where
  wf := d.wf.beside
  window := d.window
  clock := d.clock
  known := d.known
  past := d.past
  judge h f hf e he := d.judge h f hf e (by rwa [lastFiring_append_delivered] at he)
  duly := d.duly.append fun past x hx => by
    obtain ⟨point, -, rfl⟩ := mem_map.mp hx
    trivial

theorem Dutiful.handleGroups (d : Dutiful D c.now w) (hdur : rule.recoverDuration = D)
    (hrec : c.KeepsFiring env rule) (hT : c.NotAhead env rule) :
    Dutiful D c.now (w.handleGroups env c rule) := by
  have hd := d.delivered env c.inhibit c rule
  have hsame := SameAt.handleStart d.wf env c rule
  have key := handleGroups_induct d.wf env c rule (I := Watching D env c rule w)
    ⟨⟨d.wf.handleStart env c rule, hdur, d.clock, fun h hf => ?_, fun h t ht => ?_,
      fun h f hf => ?_, hd.duly⟩, by simp, by simp⟩
    (fun p r hin hr s => s.look hT hin hr) (fun p r hin hr hdue s => s.fire hrec hT hin hr hdue)
  · obtain ⟨p, hp, -, hpw, -⟩ := key
    exact hpw ▸ hp.toDutiful
  · rw [(hsame h).seen]; exact d.known h hf
  · exact d.past h t ((hsame h).seen ▸ ht)
  · rw [(hsame h).fired] at hf; exact hd.judge h f hf

end Calls

end World

/-! ## Along a run -/

/-- The runs the law is about: evaluations of one rule, points not from the future, under pipelines
that drop an event or pass it on as its trigger made it. -/
def Judging (env : Env) (D : ℤ) : Op → Prop
  | .handle c => ∀ rule ∈ c.cachedRule, rule.recoverDuration = D ∧ c.KeepsHash env rule ∧
      c.KeepsFiring env rule ∧ c.NotAhead env rule ∧
        ∀ pe ∈ c.passes env rule, pe.2.recoverConfig = pe.1.recoverConfig
  | _ => True

/-- The steps that ask before they remove: an outranked alert is dropped only if `RecoverSingle`
would let it go, a recover point deletes only what its window has left, and a restart reloads no
alert whose trigger has a recover condition. -/
def Asking (env : Env) (D : ℤ) (w : World) : Op → Prop
  | .handle c => c.src = .inner → c.inhibit = true → ∀ rule ∈ c.cachedRule, ∀ h ∈ w.fires.keys,
      w.Outranked (c.points.map (pointHash env rule.id)) h → w.Lets h c.now
  | .recoverPoints c => c.inhibit = true → ∀ p ∈ c.points, ∀ q ∈ c.points,
      tagHash env p = tagHash env q → q.severity < p.severity →
        w.Deletable D (pointHash env w.rule.id p) c.now
  | .restart c => c.dbFails = false → ∀ row ∈ w.curEvents env, c.skips env row = false →
      ∀ e ∈ lastFiring row.hash w.log, e.recoverConfig.judgeType = .origin
  | _ => True

instance (env : Env) (D : ℤ) : (op : Op) → Decidable (Judging env D op)
  | .handle _ => inferInstanceAs (Decidable (∀ _ ∈ _, _))
  | .recoverPoints _ | .recoverSingle .. | .restart _ | .consume _ =>
    inferInstanceAs (Decidable True)

instance (env : Env) (D : ℤ) (w : World) : (op : Op) → Decidable (Asking env D w op)
  | .handle _ => inferInstanceAs (Decidable (_ → _ → ∀ _ ∈ _, ∀ _ ∈ _, _ → _))
  | .recoverPoints _ => inferInstanceAs (Decidable (_ → ∀ _ ∈ _, ∀ _ ∈ _, _ → _ → _))
  | .recoverSingle _ _ _ _ => inferInstanceAs (Decidable True)
  | .restart _ => inferInstanceAs (Decidable (_ → ∀ _ ∈ _, _ → ∀ _ ∈ _, _))
  | .consume _ => inferInstanceAs (Decidable True)

namespace World

variable {env : Env} {D T : ℤ} {w : World}

theorem Dutiful.handle {c : HandleCall} (d : Dutiful D T w) (hT : T ≤ c.now)
    (hj : Judging env D (.handle c)) (ha : Asking env D w (.handle c)) :
    Dutiful D c.now (w.handle env c) := by
  unfold World.handle
  cases hc : c.cachedRule with
  | none => exact (d.mono hT).delivered env c.inhibit c w.rule
  | some rule =>
    obtain ⟨hdur, hK, hrec, hahead, -⟩ := hj rule hc
    have hin := inCall_handleGroups d.wf env c rule
    have hg := (d.mono hT).handleGroups hdur hrec hahead
    dsimp only
    split
    · next hsrc =>
      set g := w.handleGroups env c rule with hgdef
      refine (handleRecover_induct hg.wf (I := fun w' => Dutiful D c.now w' ∧
        ∀ h, lastFiring h w'.log = lastFiring h g.log) ?_ ?_ ?_).1
      · exact ⟨⟨hg.wf.forget c.fireOrder _, hg.window, hg.clock, hg.known, hg.past, hg.judge,
          hg.duly⟩, fun _ => rfl⟩
      · rintro hinh w' h hdrop hout ⟨d', hlast⟩
        have hout' := hout.of_sameAt fun h hh => hin.sameAt_of_notMem hK hh
        obtain ⟨hnot, f, hf, -⟩ := id hout'
        have hsame := hin.sameAt_of_notMem hK hnot
        have hlet : w.Lets h c.now := by
          rw [alertingKeys_eq] at hout'
          exact ha hsrc hinh rule hc h (Finmap.mem_keys.mpr (mem_fires_of_fired hf)) hout'
        refine ⟨d'.dropInhibited ?_ fun e he => ?_, fun h' => ?_⟩
        · rw [hdrop.seen]
          change ∃ t ∈ g.seen h, D ≤ c.now - t
          rw [hsame.seen]
          exact (d.mono hT).elapsed (mem_fires_of_fired hf) hlet.1 le_rfl
        · rw [hlast] at he
          exact (hg.judge h f (hsame.fired.trans hf) e he).trans (hlet.2 f hf)
        · rw [(removes_dropInhibited d'.wf h c.now).2.2, ← hlast]
          exact lastFiring_append_of_recovered (by simp)
      · rintro w' h - - ⟨d', hlast⟩
        refine ⟨d'.recoverSingle false h none [], fun h' => ?_⟩
        rcases recoverSingle_cases d'.wf false h c.now none [] with heq | ⟨f, -, -, -, hlog⟩
        · rw [heq]
          exact hlast h'
        · rw [hlog, ← hlast]
          exact lastFiring_append_of_recovered (by simp)
    · exact hg

theorem Dutiful.restart {c : RestartCall} (d : Dutiful D T w) (hT : T ≤ c.now)
    (ha : Asking env D w (.restart c)) : Dutiful D c.now (w.recoverAlertCurEventFromDb env c) := by
  have s := restarted env c w
  have hlog : (w.recoverAlertCurEventFromDb env c).log = w.log := by rw [s.frame]
  have hseen : ∀ h, (w.recoverAlertCurEventFromDb env c).seen h
      = ((w.recoverAlertCurEventFromDb env c).fired h).map lastEvalTime := fun h => by
    rw [seen_eq, s.observed]
  refine ⟨s.wf d.wf, by rw [s.frame]; exact d.window, d.clock.trans hT, fun h hf => ?_,
    fun h t ht => ?_, fun h f hf e he => ?_, by rw [hlog]; exact d.duly⟩
  · obtain ⟨e, he⟩ := exists_fired_of_mem hf
    rw [hseen, he]
    exact some_ne_none _
  · rw [hseen, map_eq_some_iff] at ht
    obtain ⟨e, he, rfl⟩ := ht
    obtain ⟨-, row, -, -, -, rfl⟩ := s.fired h e he
    exact d.clock.trans hT
  · obtain ⟨hdb, row, hrow, hskip, rfl, rfl⟩ := s.fired h f hf
    rw [hlog] at he
    exact ha hdb row hrow hskip e he

/-- **One operation keeps the law.** -/
theorem Dutiful.step {op : Op} (d : Dutiful D T w) (hT : T ≤ op.clock T) (hj : Judging env D op)
    (ha : Asking env D w op) : Dutiful D (op.clock T) (w.step env op) := by
  cases op with
  | handle c => exact d.handle hT hj ha
  | recoverPoints c =>
    refine recoverPoints_induct (I := Dutiful D c.now)
      (J := fun w' => Dutiful D c.now w' ∧ (c.inhibit = true → ∀ p ∈ c.points, ∀ q ∈ c.points,
        tagHash env p = tagHash env q → q.severity < p.severity →
          w'.Deletable D (pointHash env w.rule.id p) c.now))
      ⟨d.mono hT, ha⟩ (fun _ h => h.1) ?_ ?_
    · rintro hinh w' p q hp hq htag hsev - ⟨d', hdel⟩
      refine ⟨d'.deleteInhibited (hdel hinh p hp q hq htag hsev), fun _ p' hp' q' hq' ht' hs' => ?_⟩
      exact (hdel hinh p' hp' q' hq' ht' hs').deleteInhibited d'.wf _
    · exact fun w' p _ _ d' => d'.recoverSingle true _ _ []
  | recoverSingle b h now v => exact (d.mono hT).recoverSingle b h v []
  | restart c => exact d.restart hT ha
  | consume n =>
    have hwf := d.wf.consume n
    obtain ⟨q, bt, tb, heq⟩ := consume_eq n w
    simp only [World.step]
    rw [heq] at hwf ⊢
    exact ⟨hwf, d.window, d.clock, d.known, d.past, d.judge, d.duly⟩

/-! ## The history is complete -/

/-- Every alert gone from one world to the other is in the history as removed. -/
def Logged (w w' : World) : Prop :=
  ∃ new, w'.log = w.log ++ new ∧ ∀ h ∈ w.fires,
    h ∈ w'.fires ∨ ∃ now seen byRecover, remove h now seen byRecover ∈ new

namespace Logged

variable {w' w'' : World} {h : Hash}

theorem of_mem (new : List Effect) (hlog : w'.log = w.log ++ new)
    (hsub : ∀ h ∈ w.fires, h ∈ w'.fires) : Logged w w' := ⟨new, hlog, fun h hf => .inl (hsub h hf)⟩

theorem refl (w : World) : Logged w w := of_mem [] (append_nil _).symm fun _ h => h

theorem trans (l : Logged w w') (l' : Logged w' w'') : Logged w w'' := by
  obtain ⟨new, hlog, hgone⟩ := l
  obtain ⟨new', hlog', hgone'⟩ := l'
  refine ⟨new ++ new', by rw [hlog', hlog, append_assoc], fun h hf => ?_⟩
  rcases hgone h hf with hf | ⟨now, seen, b, hm⟩
  · exact (hgone' h hf).imp id fun ⟨now, seen, b, hm⟩ =>
      ⟨now, seen, b, mem_append_right _ hm⟩
  · exact .inr ⟨now, seen, b, mem_append_left _ hm⟩

theorem removes (s : Removes h w w') {new : List Effect} (hlog : w'.log = w.log ++ new)
    (hself : h ∈ w.fires → ∃ now seen b, remove h now seen b ∈ new) : Logged w w' := by
  refine ⟨new, hlog, fun h' hf => ?_⟩
  by_cases hh : h' = h
  · subst hh; exact .inr (hself hf)
  · exact .inl ((s.sameAt h' hh).mem_fires.mpr hf)

theorem recoverSingle (hw : w.WF) (b : Bool) (h : Hash) (now : ℤ) (v : Option String)
    (vs : List String) : Logged w (w.recoverSingle b h now v vs) ∧
      (w.recoverSingle b h now v vs).WF := by
  rcases recoverSingle_cases hw b h now v vs with heq | ⟨f, -, hrem, -, hlog⟩
  · rw [heq]
    exact ⟨refl w, hw⟩
  · exact ⟨removes hrem hlog fun _ => ⟨now, w.seen h, b, by simp⟩, hrem.wf⟩

theorem dropInhibited (hw : w.WF) (h : Hash) (now : ℤ) : Logged w (w.dropInhibited h now) := by
  obtain ⟨hrem, -, hlog⟩ := removes_dropInhibited hw h now
  exact removes hrem hlog fun _ => ⟨now, w.seen h, false, by simp⟩

theorem deleteInhibited (hw : w.WF) (h : Hash) (now : ℤ) : Logged w (w.deleteInhibited h now) := by
  have hrem := (removes_deleteInhibited hw h now).1
  by_cases hf : h ∈ w.fires
  · have hlog : (w.deleteInhibited h now).log
        = w.log ++ [remove h now (w.seen h) true] := by
      simp [World.deleteInhibited, hf]
    exact removes hrem hlog fun _ => ⟨now, w.seen h, true, by simp⟩
  · rcases w.deleteInhibited_log h now with hlog | hlog
    · exact removes hrem (hlog.trans (append_nil _).symm) fun hf' => absurd hf' hf
    · exact removes hrem hlog fun hf' => absurd hf' hf

theorem handleGroups {c : HandleCall} {rule : AlertRule} (hw : w.WF)
    (hrec : c.KeepsFiring env rule) : Logged w (w.handleGroups env c rule) := by
  obtain ⟨p, hp, -, hpw, -⟩ := handleGroups_induct hw env c rule (I := fun p => Logged w p.world)
    (of_mem (c.delivered env rule) rfl fun _ h => h)
    (fun p r hin hr l => by
      have ht := touches_look env hin.wf (hin.lt hr)
      refine l.trans (of_mem [] ?_ fun h hf => ?_)
      · rw [Progress.look, ht.log, append_nil]
      · rw [Progress.look, ht.fires]; exact hf)
    (fun p r hin hr _ l => by
      have hnot := hin.not_recovered hr hrec
      exact l.trans (of_mem _ (fires_fireEvent hin.wf (hin.lt hr) hnot).log fun h hf =>
        mem_fires_fireEvent_of_mem hin.wf (hin.lt hr) hnot hf))
  exact hpw ▸ hp

theorem handle {c : HandleCall} (hw : w.WF)
    (hrec : ∀ rule ∈ c.cachedRule, c.KeepsFiring env rule) : Logged w (w.handle env c) := by
  unfold World.handle
  cases hc : c.cachedRule with
  | none => exact of_mem (c.delivered env w.rule) rfl fun _ h => h
  | some rule =>
    have hwf := (inCall_handleGroups hw env c rule).wf
    have hl := handleGroups hw (hrec rule hc)
    dsimp only
    split
    · refine (handleRecover_induct hwf (I := fun w' => Logged w w' ∧ w'.WF) ?_ ?_ ?_).1
      · exact ⟨hl.trans (of_mem [] (append_nil _).symm fun _ h => h), hwf.forget c.fireOrder _⟩
      · rintro - w' h - - ⟨l, hw'⟩
        exact ⟨l.trans (dropInhibited hw' h c.now), (removes_dropInhibited hw' h c.now).1.wf⟩
      · rintro w' h - - ⟨l, hw'⟩
        obtain ⟨l', hw''⟩ := recoverSingle hw' false h c.now none []
        exact ⟨l.trans l', hw''⟩
    · exact hl

/-- **Only a restart takes an alert away without a word.** -/
theorem step {op : Op} (hw : w.WF) (hj : Judging env D op) (hop : ∀ c, op ≠ .restart c) :
    Logged w (w.step env op) := by
  cases op with
  | handle c => exact handle hw fun rule hrule => (hj rule hrule).2.2.1
  | recoverPoints c =>
    refine (recoverPoints_induct (I := fun w' => Logged w w' ∧ w'.WF) ⟨refl w, hw⟩ (fun _ h => h)
      ?_ ?_).1
    · rintro - w' p - - - - - - ⟨l, hw'⟩
      exact ⟨l.trans (deleteInhibited hw' _ c.now), (removes_deleteInhibited hw' _ c.now).1.wf⟩
    · rintro w' p - - ⟨l, hw'⟩
      obtain ⟨l', hw''⟩ :=
        recoverSingle hw' true (pointHash env w.rule.id p) c.now (some p.value) []
      exact ⟨l.trans l', hw''⟩
  | recoverSingle b h now v => exact (recoverSingle hw b h now v []).1
  | restart c => exact absurd rfl (hop c)
  | consume n =>
    obtain ⟨q, bt, tb, heq⟩ := consume_eq n w
    simp only [World.step]
    rw [heq]
    exact of_mem [] (append_nil _).symm fun _ h => h

end Logged

end World

/-- **Alerts are removed duly.**  Along every run in which outranked alerts are dropped only where
`RecoverSingle` would let them go, and no restart reloads an alert with a recover condition, every
removal waits for the window and, where the trigger asks for one, for a recover point; and every
alert that leaves `fires`, a restart apart, is in the history as removed. -/
theorem alerts_removed_duly (env : Env) {D T : ℤ} (hT : 0 ≤ T) {w : World} (hw : w.WF)
    (hrule : w.rule.recoverDuration = D) (hfires : w.fires = ∅)
    (hobs : w.pendingsUseByRecover = ∅) (hlog : w.log = []) {ops : List Op}
    (h : Runs env (fun w op => Judging env D op ∧ Asking env D w op) T w ops) :
    Historic (RemovedDuly D) (w.run env ops).log ∧
      ∀ pre op, pre ++ [op] <+: ops → (∀ c, op ≠ .restart c) →
        Logged (w.run env pre) (w.run env (pre ++ [op])) := by
  have hstart : Dutiful D T w := by
    refine ⟨hw, hrule, hT, ?_, ?_, ?_, by rw [hlog]; exact historic_nil⟩
    · simp [hfires, Finmap.notMem_empty]
    · simp [seen, hobs]
    · intro h f hf; simp [fired, hfires] at hf
  have hinv : ∀ ops', Runs env (fun w op => Judging env D op ∧ Asking env D w op) T w ops' →
      ∃ T', Dutiful D T' (w.run env ops') := fun ops' h' =>
    h'.invariant (I := Dutiful D) (fun T w op hT hC d => d.step hT hC.1 hC.2) hstart
  obtain ⟨T', d⟩ := hinv ops h
  refine ⟨d.duly, fun pre op hpre hop => ?_⟩
  obtain ⟨post, rfl⟩ := hpre
  rw [Runs, along_append, along_append] at h
  obtain ⟨T'', dpre⟩ := hinv pre h.1.1
  rw [run_concat]
  exact Logged.step dpre.wf h.1.2.1.2.1 hop

namespace Example

/-- A series that fires with severity 2, then also with severity 1, and is gone at `now`. -/
def inhibitedRun (now : ℤ) : List Op :=
  [.handle (call minuteRule 0 [point "a" 2 0] true),
    .handle (call minuteRule 10 [point "a" 1 10] true),
    .handle { call minuteRule now [] true with fireOrder := reverseOrder }]

/-- The same series with recover points of both severities twenty seconds later. -/
def recoverPointsRun : List Op :=
  [.handle (call minuteRule 0 [point "a" 2 0] true),
    .recoverPoints { points := [point "a" 2 20, point "a" 1 20], inhibit := true, now := 20,
                     tagOrder := order }]

/-- An alert that asks for a recover condition, reloaded by a restart and then gone. -/
def restartedRun : List Op :=
  [.handle (call minuteRule 0
      [{ point "a" 1 0 with recoverConfig := { judgeType := .recoverOnCondition } }]),
    .consume 2,
    .restart { now := 100, dbFails := false, ruleCache := fun _ => some minuteRule,
               targetEngine := fun _ => none },
    .handle (call minuteRule 200 [])]

end Example

open Example

/-- After eighty seconds the alert of severity 2 may be dropped, and is. -/
theorem alerts_removed_duly_inhibited : Historic (RemovedDuly 60) (run env { rule := minuteRule }
      (inhibitedRun 80)).log ∧
    pointHash env 1 (point "a" 2 0) ∉ (run env
      { rule := minuteRule } (inhibitedRun 80)).fires :=
  ⟨(alerts_removed_duly env (T := 0) le_rfl (WF.initial _ _ _) rfl rfl rfl rfl
    (by decide)).1, by decide⟩

/-- **Alerts are removed unasked**: an outranked alert is dropped inside its window, by the
evaluation and by a recover point; and after a restart an alert recovers without the recover point
its trigger asks for. -/
theorem alerts_removed_unasked : (Runs env (fun _ op => Judging env 60 op) 0 { rule := minuteRule }
        (inhibitedRun 20) ∧ ¬ Historic (RemovedDuly 60) (run env { rule := minuteRule }
        (inhibitedRun 20)).log) ∧ (Runs env (fun _ op => Judging env 60 op) 0 { rule := minuteRule }
        recoverPointsRun ∧ ¬ Historic (RemovedDuly 60) (run env { rule := minuteRule }
        recoverPointsRun).log) ∧ Runs env (fun _ op => Judging env 60 op) 0 { rule := minuteRule }
        restartedRun ∧ ¬ Historic (RemovedDuly 60) (run env { rule := minuteRule }
        restartedRun).log := by
  decide

end Nightingale
