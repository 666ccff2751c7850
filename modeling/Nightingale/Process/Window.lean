import Nightingale.Lib.History
import Nightingale.Process.Calls

/-!
# Process/Window — the observation window before a recovery

With a recover duration `D`, an alert should recover only after `D` seconds without an anomaly point
of its hash.  What `RecoverSingle` measures is the time since `pendingsUseByRecover` was last
refreshed, so the two agree exactly as long as every delivered point refreshes it:

    delivered at t  ──passes──▸  seen = t        the window starts again
    delivered at t  ──muted───▸  seen as before  the window goes on running
    restart         ──────────▸  seen = 0        the window is over

The property holds along every run that stays clear of the last two.
-/

namespace Nightingale

open AlertCurEvent World List Option Effect

/-! ## The property -/

/-- The times at which points of a hash were delivered. -/
def deliveries (h : Hash) (log : List Effect) : List ℤ :=
  log.filterMap fun
    | .deliver h' t => if h' = h then some t else none
    | _ => none

theorem mem_deliveries {h : Hash} {log : List Effect} {t : ℤ} :
    t ∈ deliveries h log ↔ deliver h t ∈ log := by
  rw [deliveries, mem_filterMap]
  constructor
  · rintro ⟨x, hx, hxt⟩
    cases x with
    | deliver h' t' =>
      simp only [ite_none_right_eq_some, some.injEq] at hxt
      obtain ⟨rfl, rfl⟩ := hxt
      exact hx
    | push e b | remove h' now s b => cases hxt
  · exact fun hx => ⟨_, hx, by simp⟩

/-- A recovery pushed at `now` finds no point of its hash delivered after `now - D`. -/
def QuietBefore (D : ℤ) (past : List Effect) : Effect → Prop
  | .push e _ => e.isRecovered = true →
      ∀ t ∈ deliveries e.hash past, ¬ (e.lastEvalTime - D < t ∧ t ≤ e.lastEvalTime)
  | _ => True

instance (D : ℤ) : (past : List Effect) → (x : Effect) → Decidable (QuietBefore D past x)
  | _, .push _ _ => inferInstanceAs (Decidable (_ → ∀ _ ∈ _, _))
  | _, .deliver _ _ | _, .remove _ _ _ _ => inferInstanceAs (Decidable True)

/-! ## What the groups of a call refresh -/

namespace World

section Groups

variable {env : Env} {c : HandleCall} {rule : AlertRule} {w w' : World} {r : Ref}

/-- The invariant of the loop over the groups: only firing events are pushed, every event looked at
was last seen now, and what fires fired before or is an event of the call. -/
structure Refreshing (env : Env) (c : HandleCall) (rule : AlertRule) (w : World) (p : Progress) :
    Prop where
  log : ∃ l, p.world.log = (w.log ++ c.delivered env rule) ++ l ∧
    ∀ x ∈ l, ∃ e b, x = push e b ∧ e.isRecovered = false
  seen : ∀ r ∈ p.looked,
    p.world.seen ((c.collect env rule w.heap).heap.get r).hash = some c.now
  due : ∀ r ∈ p.due, r ∈ p.looked
  fires : ∀ h ∈ p.world.fires, h ∈ w.fires ∨ ∃ pe ∈ c.passes env rule, pe.2.hash = h

theorem Refreshing.look {p : Progress} (hT : c.OnTime env rule)
    (hin : InCall env c rule w p.world) (hr : (c.collect env rule w.heap).Has r)
    (s : Refreshing env c rule w p) : Refreshing env c rule w (p.look env r) := by
  have ht := touches_look env hin.wf (hin.lt hr)
  refine ⟨?_, fun r' hr' => ?_, fun r' hr' => ?_, fun h hh => ?_⟩
  · obtain ⟨l, hl, hx⟩ := s.log
    exact ⟨l, ht.log.trans hl, hx⟩
  · by_cases hh : ((c.collect env rule w.heap).heap.get r').hash = (p.world.heap.get r).hash
    · rw [hh]
      exact (seen_look env hin.wf (hin.lt hr)).trans (congrArg some (hin.onTime hT hr))
    · rcases mem_append.mp hr' with hr' | hr'
      · exact (ht.sameAt _ hh).seen.trans (s.seen r' hr')
      · rw [mem_singleton.mp hr', ← hin.hash_eq] at hh
        exact absurd rfl hh
  · exact Progress.looked_of_due_look s.due r' hr'
  · exact s.fires h (ht.fires ▸ hh)

theorem Refreshing.fire {p : Progress} (hrec : c.KeepsFiring env rule) (hT : c.OnTime env rule)
    (hin : InCall env c rule w p.world) (hr : (c.collect env rule w.heap).Has r)
    (s : Refreshing env c rule w p) : Refreshing env c rule w (p.fire r) := by
  have hnot := hin.not_recovered hr hrec
  have hf := fires_fireEvent hin.wf (hin.lt hr) hnot
  refine ⟨?_, fun r' hr' => ?_, s.due, fun h hh => ?_⟩
  · obtain ⟨l, hl, hx⟩ := s.log
    refine ⟨_, by rw [Progress.fire, hf.log, hl, append_assoc], fun x hxl => ?_⟩
    rcases mem_append.mp hxl with hxl | hxl
    · exact hx x hxl
    · rw [mem_toList, map_eq_some_iff] at hxl
      obtain ⟨q, hq, rfl⟩ := hxl
      refine ⟨q, _, rfl, ?_⟩
      rw [isRecovered_eq_of_ident_eq (AlertRule.notifies_ident hq), hnot]
  · have hseen := s.seen r' hr'
    by_cases hh : ((c.collect env rule w.heap).heap.get r').hash = (p.world.heap.get r).hash
    · rw [hh] at hseen ⊢
      rcases hf.toWrites.seen_self (by simp [hseen]) with h | h
      · exact h.trans hseen
      · exact h.trans (congrArg some (hin.onTime hT hr))
    · exact (hf.sameAt _ hh).seen.trans hseen
  · by_cases hh' : h = (p.world.heap.get r).hash
    · obtain ⟨pe, hpe, hi⟩ := hin.event hr
      exact .inr ⟨pe, hpe, by rw [hh', hash_eq_of_ident_eq hi]⟩
    · exact s.fires h ((hf.sameAt h hh').mem_fires.mp hh)

/-- **What the loop over the groups leaves**: every passing event was last seen now. -/
theorem handleGroups_refreshes (hw : w.WF) (hrec : c.KeepsFiring env rule)
    (hT : c.OnTime env rule) : InCall env c rule w (w.handleGroups env c rule) ∧
      (∃ l, (w.handleGroups env c rule).log = (w.log ++ c.delivered env rule) ++ l ∧
        ∀ x ∈ l, ∃ e b, x = push e b ∧ e.isRecovered = false) ∧
      (∀ pe ∈ c.passes env rule, (w.handleGroups env c rule).seen pe.2.hash = some c.now) ∧
      ∀ h ∈ (w.handleGroups env c rule).fires, h ∈ w.fires ∨
        ∃ pe ∈ c.passes env rule, pe.2.hash = h := by
  obtain ⟨p, hp, hin, hpw, hl, -⟩ := handleGroups_induct hw env c rule
    (I := Refreshing env c rule w)
    ⟨⟨[], by simp [handleStart], by simp⟩, by simp, by simp, fun h hh => .inl hh⟩
    (fun p r hin hr s => s.look hT hin hr) (fun p r hin hr _ s => s.fire hrec hT hin hr)
  rw [← hpw]
  refine ⟨hin, hp.log, fun pe hpe => ?_, hp.fires⟩
  obtain ⟨r, hr, hre⟩ := exists_has_of_mem_passes w.heap hpe
  rw [← hre]
  exact hp.seen r (hl r hr)

end Groups

end World

/-! ## The invariant -/

@[simp] theorem deliveries_append (h : Hash) (l l' : List Effect) :
    deliveries h (l ++ l') = deliveries h l ++ deliveries h l' := filterMap_append

@[simp] theorem deliveries_push (h : Hash) (e : AlertCurEvent) (b : Bool) :
    deliveries h [push e b] = [] := rfl

@[simp] theorem deliveries_remove (h h' : Hash) (now : ℤ) (s : Option ℤ) (b : Bool) :
    deliveries h [remove h' now s b] = [] := rfl

theorem deliveries_eq_nil_of_pushes {h : Hash} {l : List Effect}
    (hl : ∀ x ∈ l, ∃ e b, x = push e b ∧ e.isRecovered = false) :
    deliveries h l = [] := by
  rw [eq_nil_iff_forall_not_mem]
  intro t ht
  obtain ⟨e, b, he, -⟩ := hl _ (mem_deliveries.mp ht)
  cases he

namespace World

/-- What the window rests on at time `T`: of every alert outside `K`, the points delivered were seen
or are `D` old, and the history so far is quiet. -/
structure Guarded (D T : ℤ) (K : List Hash) (w : World) : Prop where
  wf : w.WF
  window : w.rule.recoverDuration = D
  covered : ∀ h ∈ w.fires, h ∉ K → ∀ t ∈ deliveries h w.log,
    (∃ s, w.seen h = some s ∧ t ≤ s) ∨ t ≤ T - D
  quiet : Historic (QuietBefore D) w.log

section Guarded

variable {D T now : ℤ} {K : List Hash} {w w' : World} {h : Hash}

/-- An alert the window does not hold was last seen `D` ago. -/
theorem exists_seen_of_not_held (hD : 0 < w.rule.recoverDuration) (hh : w.held h now = false) :
    ∃ s, w.seen h = some s ∧ w.rule.recoverDuration ≤ now - s := by
  unfold held at hh
  cases hs : w.seen h with
  | none => simp [hs, hD] at hh
  | some s => exact ⟨s, rfl, by simpa [hs, hD] using hh⟩

theorem Guarded.removes (g : Guarded D T K w) (s : Removes h w w')
    (hlog : ∀ h', deliveries h' w'.log = deliveries h' w.log)
    (hquiet : Historic (QuietBefore D) w'.log) : Guarded D T K w' where
  wf := s.wf
  window := by rw [s.rule, g.window]
  covered h' hf hK t ht := by
    have hne : h' ≠ h := fun heq => by
      rw [heq, ← fired_isSome_iff, s.fired] at hf
      cases hf
    rw [hlog] at ht
    rw [(s.sameAt h' hne).seen]
    exact g.covered h' ((s.sameAt h' hne).mem_fires.mp hf) hK t ht
  quiet := hquiet

theorem Guarded.recoverSingle (hD : 0 < D) (g : Guarded D now K w) (hK : h ∉ K) (b : Bool)
    (v : Option String) (vs : List String) : Guarded D now K (w.recoverSingle b h now v vs) ∧
      ∀ h', deliveries h' (w.recoverSingle b h now v vs).log = deliveries h' w.log := by
  rcases recoverSingle_cases g.wf b h now v vs with heq | ⟨f, hf, hrem, -, hlog⟩
  · rw [heq]
    exact ⟨g, fun _ => rfl⟩
  · have hdel : ∀ h', deliveries h' (w.recoverSingle b h now v vs).log = deliveries h' w.log :=
      fun h' => by rw [hlog]; simp [deliveries]
    refine ⟨g.removes hrem hdel ?_, hdel⟩
    obtain ⟨s, hs, hsD⟩ := exists_seen_of_not_held (by rw [g.window]; exact hD) hf.held
    rw [g.window] at hsD
    rw [hlog, ← singleton_append, ← append_assoc, historic_concat, historic_concat]
    refine ⟨⟨g.quiet, trivial⟩, fun _ t ht hlt => ?_⟩
    rw [hf.hash_recovery g.wf, deliveries_append, deliveries_remove, append_nil] at ht
    rw [recovery_lastEvalTime] at hlt
    rcases g.covered h (mem_fires_of_fired hf.fired) hK t ht with ⟨s', hs', hts⟩ | hold
    · obtain rfl : s = s' := some.inj (hs.symm.trans hs')
      omega
    · omega

/-- An alert removed without a notification leaves the world guarded. -/
theorem Guarded.silent {w' : World} {h : Hash} {now : ℤ} {seen : Option ℤ} {byRecover : Bool}
    (g : Guarded D T K w) (hrem : Removes h w w')
    (hlog : w'.log = w.log ∨ w'.log = w.log ++ [remove h now seen byRecover]) :
    Guarded D T K w' ∧ ∀ h', deliveries h' w'.log = deliveries h' w.log := by
  rcases hlog with hlog | hlog
  · exact ⟨g.removes hrem (fun _ => by rw [hlog]) (by rw [hlog]; exact g.quiet),
      fun _ => by rw [hlog]⟩
  · have hdel : ∀ h', deliveries h' w'.log = deliveries h' w.log := fun h' => by rw [hlog]; simp
    exact ⟨g.removes hrem hdel (by rw [hlog, historic_concat]; exact ⟨g.quiet, trivial⟩), hdel⟩

/-- **The recoveries of a call are quiet**, and a hash delivered to the call is not touched. -/
theorem Guarded.handleRecover (hD : 0 < D) (g : Guarded D now K w)
    (fireOrder tagOrder : MapOrder String) (inhibit : Bool) :
    Guarded D now K (w.handleRecover fireOrder tagOrder K now inhibit) ∧
      (∀ h', deliveries h' (w.handleRecover fireOrder tagOrder K now inhibit).log
        = deliveries h' w.log) ∧
      ∀ h' ∈ K, SameAt h' w (w.handleRecover fireOrder tagOrder K now inhibit) := by
  refine handleRecover_induct (I := fun w' => Guarded D now K w' ∧
    (∀ h', deliveries h' w'.log = deliveries h' w.log) ∧ ∀ h' ∈ K, SameAt h' w w') g.wf ?_ ?_ ?_
  · refine ⟨⟨g.wf.forget fireOrder K, g.window, g.covered, g.quiet⟩, fun _ => rfl, fun h' hK => ?_⟩
    exact ⟨rfl, by rw [pending_forget, if_pos hK], rfl⟩
  · rintro - w' h' - hout ⟨g', hdel, hsame⟩
    obtain ⟨hrem, -, hlog⟩ := removes_dropInhibited g'.wf h' now
    obtain ⟨g'', hdel'⟩ := g'.silent hrem (.inr hlog)
    refine ⟨g'', fun h'' => (hdel' h'').trans (hdel h''), fun h'' hh'' => ?_⟩
    exact (hsame h'' hh'').trans (hrem.sameAt h'' fun heq => hout.1 (heq ▸ hh''))
  · rintro w' h' - hK ⟨g', hdel, hsame⟩
    obtain ⟨g'', hdel'⟩ := g'.recoverSingle hD hK false none []
    refine ⟨g'', fun h'' => (hdel' h'').trans (hdel h''), fun h'' hh'' => ?_⟩
    exact (hsame h'' hh'').trans (sameAt_recoverSingle g'.wf fun heq => hK (heq ▸ hh''))

end Guarded

end World

/-! ## Along a run -/

/-- The runs the window is about: evaluations of one rule with recover duration `D`, under pipelines
that drop an event or pass it on under its hash and time; anything else may come in between. -/
def Watched (env : Env) (D : ℤ) (w : World) : Op → Prop
  | .handle c => c.src = .inner ∧ ∀ rule ∈ c.cachedRule,
      (rule.id = w.rule.id ∧ rule.recoverDuration = D) ∧
        c.KeepsHash env rule ∧ c.KeepsFiring env rule ∧ c.OnTime env rule
  | _ => True

/-- The steps that keep the window: a call that delivers points of a firing hash lets one of them
pass, and a restart reloads no alert with a point delivered in the last `D` seconds. -/
def Refreshed (env : Env) (D : ℤ) (w : World) : Op → Prop
  | .handle c => ∀ point ∈ c.points, pointHash env w.rule.id point ∈ w.fires →
      ∃ rule ∈ c.cachedRule, ∃ pe ∈ c.passes env rule, pe.2.hash = pointHash env w.rule.id point
  | .restart c => c.dbFails = false → ∀ row ∈ w.curEvents env, c.skips env row = false →
      ∀ t ∈ deliveries row.hash w.log, t ≤ c.now - D
  | _ => True

instance (env : Env) (D : ℤ) (w : World) : (op : Op) → Decidable (Watched env D w op)
  | .handle _ => inferInstanceAs (Decidable (_ ∧ ∀ _ ∈ _, _))
  | .recoverPoints _ | .recoverSingle .. | .restart _ | .consume _ =>
    inferInstanceAs (Decidable True)

instance (env : Env) (D : ℤ) (w : World) : (op : Op) → Decidable (Refreshed env D w op)
  | .handle _ => inferInstanceAs (Decidable (∀ _ ∈ _, _ → ∃ _ ∈ _, ∃ _ ∈ _, _))
  | .recoverPoints _ | .recoverSingle _ _ _ _ => inferInstanceAs (Decidable True)
  | .restart _ => inferInstanceAs (Decidable (_ → ∀ _ ∈ _, _ → ∀ _ ∈ _, _))
  | .consume _ => inferInstanceAs (Decidable True)

namespace World

/-- The invariant of a run at time `T`. -/
structure WindowInv (D T : ℤ) (w : World) : Prop extends Guarded D T [] w where
  past : ∀ h, ∀ t ∈ deliveries h w.log, t ≤ T

section Steps

variable {env : Env} {D T : ℤ} {w : World}

theorem Guarded.mono {T' : ℤ} {K : List Hash} (hT : T ≤ T') (g : Guarded D T K w) :
    Guarded D T' K w where
  wf := g.wf
  window := g.window
  covered h hf hK t ht := (g.covered h hf hK t ht).imp id fun h => by omega
  quiet := g.quiet

theorem WindowInv.mono {T' : ℤ} (hT : T ≤ T') (i : WindowInv D T w) : WindowInv D T' w :=
  ⟨i.toGuarded.mono hT, fun h t ht => (i.past h t ht).trans hT⟩

theorem mem_deliveries_delivered {c : HandleCall} {rule : AlertRule} {h : Hash} {t : ℤ} :
    t ∈ deliveries h (c.delivered env rule)
      ↔ (∃ point ∈ c.points, pointHash env rule.id point = h) ∧ t = c.now := by
  rw [mem_deliveries, HandleCall.delivered, List.mem_map]
  constructor
  · rintro ⟨point, hp, heq⟩
    obtain ⟨rfl, rfl⟩ := deliver.inj heq
    exact ⟨⟨point, hp, rfl⟩, rfl⟩
  · rintro ⟨⟨point, hp, rfl⟩, rfl⟩
    exact ⟨point, hp, rfl⟩

theorem quietBefore_delivered (D : ℤ) (c : HandleCall) (rule : AlertRule) (past : List Effect) :
    ∀ x ∈ c.delivered env rule, QuietBefore D past x := fun x hx => by
  obtain ⟨point, -, rfl⟩ := mem_map.mp hx
  trivial

theorem WindowInv.noRule {c : HandleCall} (i : WindowInv D T w) (hT : T ≤ c.now)
    (hfire : ∀ point ∈ c.points, pointHash env w.rule.id point ∉ w.fires) : WindowInv D c.now
      { w with inhibit := c.inhibit, log := w.log ++ c.delivered env w.rule } := by
  have hdel : ∀ h, ∀ t ∈ deliveries h (w.log ++ c.delivered env w.rule), t ∈ deliveries h w.log ∨
        (∃ point ∈ c.points, pointHash env w.rule.id point = h) ∧ t = c.now := fun h t ht => by
    rw [deliveries_append, mem_append] at ht
    exact ht.imp id mem_deliveries_delivered.mp
  refine ⟨⟨i.wf.beside, i.window,
    fun h hf hK t ht => ?_, i.quiet.append (quietBefore_delivered D c w.rule)⟩, fun h t ht => ?_⟩
  · rcases hdel h t ht with ht | ⟨⟨point, hp, rfl⟩, -⟩
    · exact (i.mono hT).covered h hf hK t ht
    · exact absurd hf (hfire point hp)
  · rcases hdel h t ht with ht | ⟨-, rfl⟩
    · exact (i.mono hT).past h t ht
    · exact le_rfl

/-- **After the groups**: the hashes delivered are left to the points that passed, all others are
covered as before. -/
theorem WindowInv.handleGroups {c : HandleCall} {rule : AlertRule} (i : WindowInv D T w)
    (hT : T ≤ c.now) (hdur : rule.recoverDuration = D) (hK : c.KeepsHash env rule)
    (hrec : c.KeepsFiring env rule) (hon : c.OnTime env rule) :
    Guarded D c.now (c.collect env rule w.heap).alertingKeys (w.handleGroups env c rule) ∧
      ∀ h, ∀ t ∈ deliveries h (w.handleGroups env c rule).log, t ≤ c.now := by
  obtain ⟨hin, ⟨l, hl, hx⟩, -, -⟩ := handleGroups_refreshes i.wf hrec hon
  have hdel : ∀ h, deliveries h (w.handleGroups env c rule).log
      = deliveries h w.log ++ deliveries h (c.delivered env rule) := fun h => by
    rw [hl, deliveries_append, deliveries_append, deliveries_eq_nil_of_pushes hx, append_nil]
  refine ⟨⟨hin.wf, by rw [hin.rule, hdur], fun h hf hh t ht => ?_, ?_⟩, fun h t ht => ?_⟩
  · have hsame : SameAt h w _ := hin.sameAt_of_notMem hK hh
    rw [hdel, mem_append] at ht
    rcases ht with ht | ht
    · rw [hsame.seen]
      exact (i.mono hT).covered h (hsame.mem_fires.mp hf) (by simp) t ht
    · exact absurd (mem_alertingKeys.mpr (mem_deliveries_delivered.mp ht).1) hh
  · rw [hl]
    refine (i.quiet.append (quietBefore_delivered D c rule)).append fun past x hxl => ?_
    obtain ⟨e, b, rfl, he⟩ := hx x hxl
    exact fun hrec => by rw [he] at hrec; cases hrec
  · rw [hdel, mem_append] at ht
    rcases ht with ht | ht
    · exact (i.past h t ht).trans hT
    · exact (mem_deliveries_delivered.mp ht).2.le

/-- A hash that was delivered and fires after the groups had a point that passed. -/
theorem exists_passes_of_refreshed {c : HandleCall} {rule : AlertRule} {h : Hash} (hw : w.WF)
    (hc : c.cachedRule = some rule) (hid : rule.id = w.rule.id) (hrec : c.KeepsFiring env rule)
    (hon : c.OnTime env rule) (hr : Refreshed env D w (.handle c))
    (hh : h ∈ (c.collect env rule w.heap).alertingKeys)
    (hf : h ∈ (w.handleGroups env c rule).fires) : ∃ pe ∈ c.passes env rule, pe.2.hash = h := by
  obtain ⟨-, -, -, hfires⟩ := handleGroups_refreshes hw hrec hon
  rcases hfires h hf with hf | hpe
  · obtain ⟨point, hp, rfl⟩ := mem_alertingKeys.mp hh
    rw [hid] at hf ⊢
    obtain ⟨rule', hrule', hpe⟩ := hr point hp hf
    obtain rfl : rule = rule' := by simpa [hc] using hrule'
    exact hpe
  · exact hpe

theorem WindowInv.handle {c : HandleCall} (hD : 0 < D) (i : WindowInv D T w) (hT : T ≤ c.now)
    (hw : Watched env D w (.handle c)) (hr : Refreshed env D w (.handle c)) :
    WindowInv D c.now (w.handle env c) := by
  unfold World.handle
  cases hc : c.cachedRule with
  | none =>
    refine i.noRule hT fun point hp hf => ?_
    obtain ⟨rule, hrule, -⟩ := hr point hp hf
    rw [hc] at hrule
    cases hrule
  | some rule =>
    obtain ⟨⟨hid, hdur⟩, hK, hrec, hon⟩ := hw.2 rule hc
    obtain ⟨-, -, hseen, -⟩ := handleGroups_refreshes i.wf hrec hon
    obtain ⟨hguard, hpast⟩ := i.handleGroups hT hdur hK hrec hon
    obtain ⟨hg, hdel, hsame⟩ := hguard.handleRecover hD c.fireOrder c.tagOrder c.inhibit
    simp only [hw.1, if_true]
    refine ⟨⟨hg.wf, hg.window, fun h hf _ t ht => ?_, hg.quiet⟩, fun h t ht => ?_⟩
    · by_cases hh : h ∈ (c.collect env rule w.heap).alertingKeys
      · obtain ⟨pe, hpe, rfl⟩ := exists_passes_of_refreshed i.wf hc hid hrec hon hr hh
          ((hsame h hh).mem_fires.mp hf)
        rw [hdel] at ht
        rw [(hsame _ hh).seen]
        exact .inl ⟨c.now, hseen pe hpe, hpast _ t ht⟩
      · exact hg.covered h hf hh t ht
    · rw [hdel] at ht
      exact hpast h t ht

theorem WindowInv.restart {c : RestartCall} (i : WindowInv D T w) (hT : T ≤ c.now)
    (hr : Refreshed env D w (.restart c)) :
    WindowInv D c.now (w.recoverAlertCurEventFromDb env c) := by
  have s := restarted env c w
  have hlog : (w.recoverAlertCurEventFromDb env c).log = w.log := by rw [s.frame]
  refine ⟨⟨s.wf i.wf, by rw [s.frame]; exact i.window, fun h hf _ t ht => ?_,
    by rw [hlog]; exact i.quiet⟩, fun h t ht => ?_⟩
  · obtain ⟨e, he⟩ := exists_fired_of_mem hf
    obtain ⟨hdb, row, hrow, hskip, rfl, -⟩ := s.fired h e he
    rw [hlog] at ht
    exact .inr (hr hdb row hrow hskip t ht)
  · rw [hlog] at ht
    exact (i.past h t ht).trans hT

theorem WindowInv.recoverSingle {now : ℤ} (hD : 0 < D) (i : WindowInv D T w) (hT : T ≤ now)
    (b : Bool) (h : Hash) (v : Option String) (vs : List String) :
    WindowInv D now (w.recoverSingle b h now v vs) := by
  obtain ⟨g, hdel⟩ := (i.mono hT).toGuarded.recoverSingle (h := h) hD (by simp) b v vs
  exact ⟨g, fun h' t ht => (i.mono hT).past h' t (by rwa [hdel] at ht)⟩

/-- **One operation keeps the window.** -/
theorem WindowInv.step (hD : 0 < D) {op : Op} (i : WindowInv D T w) (hT : T ≤ op.clock T)
    (hw : Watched env D w op) (hr : Refreshed env D w op) :
    WindowInv D (op.clock T) (w.step env op) := by
  cases op with
  | handle c => exact i.handle hD hT hw hr
  | recoverPoints c =>
    refine recoverPoints_induct (I := WindowInv D c.now) (i.mono hT) (fun _ h => h) ?_ ?_
    · intro _ w' p _ _ _ _ _ _ i'
      obtain ⟨g, hdel⟩ := i'.toGuarded.silent (removes_deleteInhibited i'.wf _ c.now).1
        (w'.deleteInhibited_log (pointHash env w.rule.id p) c.now)
      exact ⟨g, fun h' t ht => i'.past h' t (by rwa [hdel] at ht)⟩
    · exact fun w' p _ _ i' => i'.recoverSingle hD le_rfl true _ _ _
  | recoverSingle b h now v => exact i.recoverSingle hD hT b h v []
  | restart c => exact i.restart hT hr
  | consume n =>
    obtain ⟨q, bt, tb, heq⟩ := consume_eq n w
    have hwf : (consume n w).WF := i.wf.consume n
    simp only [World.step]
    rw [heq] at hwf ⊢
    exact ⟨⟨hwf, i.window, i.covered, i.quiet⟩, i.past⟩

end Steps

end World

/-- **Alerts recover after the window.**  Along every run in which each call that delivers a firing
alert's points lets one pass, and no restart reloads an alert delivered in the last `D` seconds, a
recovery pushed at `now` finds no point of its hash delivered after `now - D`. -/
theorem recovers_after_window (env : Env) {D T : ℤ} (hD : 0 < D) {w : World} (hw : w.WF)
    (hrule : w.rule.recoverDuration = D) (hlog : w.log = []) {ops : List Op}
    (h : Runs env (fun w op => Watched env D w op ∧ Refreshed env D w op) T w ops) :
    Historic (QuietBefore D) (w.run env ops).log := by
  obtain ⟨T', hi⟩ := h.invariant (I := WindowInv D)
    (fun T w op hT hC hi => hi.step hD hT hC.1 hC.2)
    ⟨⟨hw, hrule, by simp [hlog, deliveries], by rw [hlog]; exact historic_nil⟩,
      by simp [hlog, deliveries]⟩
  exact hi.quiet

namespace Example

/-- Delivered at 0 and again at 50, gone from then on. -/
def steadyRun : List Op :=
  [.handle (call minuteRule 0 [point "a" 1 0]), .handle (call minuteRule 50 [point "a" 1 50]),
    .handle (call minuteRule 61 []), .handle (call minuteRule 110 [])]

/-- The same, with the point at 50 muted. -/
def mutedRun : List Op :=
  [.handle (call minuteRule 0 [point "a" 1 0]),
    .handle (call minuteRule 50 [point "a" 1 50] false fun _ _ => true),
    .handle (call minuteRule 61 [])]

end Example

open Example

/-- The steady alert recovers at 110, sixty seconds after its last point. -/
theorem recovers_after_window_steady : Historic (QuietBefore 60) (run env { rule := minuteRule }
      steadyRun).log ∧
    deliver (pointHash env 1 (point "a" 1 50)) 50 ∈
      (run env { rule := minuteRule } steadyRun).log :=
  ⟨recovers_after_window env (T := 0) (by decide) (WF.initial _ _ _) rfl rfl (by decide),
    mem_deliveries.mp (by decide)⟩

/-- **A muted point does not start the window again**: muted at 50, the alert recovers at 61. -/
theorem muted_point_recovers_early : Runs env (Watched env 60) 0 { rule := minuteRule } mutedRun ∧
      ¬ Historic (QuietBefore 60)
        (run env { rule := minuteRule } mutedRun).log := by
  decide

end Nightingale
