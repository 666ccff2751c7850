import Nightingale.Pipeline.Engine
import Nightingale.Process.Grouping

/-!
# Process/Survival — an alert stored by a call and the sweep of the same call

`Handle` notes the hashes of its points before the pipelines run, and files the events under the
hashes they have afterwards:

    point ──hash──▸ alertingKeys ────────────────────────────────▸ HandleRecover
      └──▸ BuildEvent ──▸ pipelines ──hash──▸ fires, pendings ──────────▴

`HandleRecover` then treats whatever is filed under another hash as no longer delivered.  An event
stored by the call survives its sweep if its hash is that of a point; if not, its pending entry is
deleted, and its alert falls wherever `RecoverSingle` or the grouping loop lets it go (`Falls`).
-/

namespace Nightingale

open AlertCurEvent World List Finmap

namespace World

/-! ## The sweep without inhibition -/

/-- What `RecoverSingle`, hash after hash, has done to the alerts of `done`. -/
structure Recovered (w : World) (now : ℤ) (done : List Hash) (w' : World) : Prop where
  wf : w'.WF
  rule : w'.rule = w.rule
  spared : ∀ h, (h ∈ done → ∀ f ∈ w.fired h, w.releasable now f = false) → SameAt h w w'
  gone : ∀ h ∈ done, ∀ f ∈ w.fired h, w.releasable now f → w'.fired h = none

namespace Recovered

variable {w w' : World} {now : ℤ} {done : List Hash} {h : Hash}

theorem skip (s : Recovered w now done w') (hno : ∀ f ∈ w.fired h, w.releasable now f = false) :
    Recovered w now (done ++ [h]) w' where
  wf := s.wf
  rule := s.rule
  spared h' hh' := s.spared h' fun hmem => hh' (mem_append_left _ hmem)
  gone h' hh' f hf hr := by
    rcases mem_append.mp hh' with hh' | hh'
    · exact s.gone h' hh' f hf hr
    · rw [mem_singleton.mp hh'] at hf
      rw [hno f hf] at hr
      cases hr

theorem release (s : Recovered w now done w') {v : World} {f : AlertCurEvent}
    (hrem : Removes h w' v) (hf : w.fired h = some f) (hr : w.releasable now f) :
    Recovered w now (done ++ [h]) v where
  wf := hrem.wf
  rule := hrem.rule.trans s.rule
  spared h' hh' := by
    have hne : h' ≠ h := fun heq => by
      have hno := hh' (by simp [heq]) f (by rw [heq]; exact hf)
      rw [hr] at hno
      cases hno
    exact (s.spared h' fun hmem => hh' (mem_append_left _ hmem)).trans (hrem.sameAt h' hne)
  gone h' hh' f' hf' hr' := by
    by_cases heq : h' = h
    · rw [heq]
      exact hrem.fired
    · have hmem : h' ∈ done := by simpa [heq] using hh'
      exact (hrem.sameAt h' heq).fired.trans (s.gone h' hmem f' hf' hr')

end Recovered

theorem recovered {w : World} (hw : w.WF) {hashArr : List Hash} (hnd : hashArr.Nodup) (now : ℤ) :
    Recovered w now hashArr
      (hashArr.foldl (fun w hash => w.recoverSingle false hash now none []) w) := by
  refine foldl_prefix_induction hashArr
    ⟨hw, rfl, fun h _ => SameAt.refl h w, by simp⟩ ?_
  rintro done h w' hpre ih
  have hat : SameAt h w w' := ih.spared h fun hmem => absurd hmem (notMem_of_nodup_concat hpre hnd)
  have hrel : ∀ f, w'.Releases false h now f ↔ w.fired h = some f ∧ w.releasable now f :=
    fun f => releases_iff_of_sameAt ih.wf hat ih.rule
  by_cases hgo : ∃ f, w'.Releases false h now f
  · obtain ⟨f, hf⟩ := hgo
    obtain ⟨hrem, -, -⟩ := recoverSingle_of_releases ih.wf none [] hf
    obtain ⟨hfired, hr⟩ := (hrel f).mp hf
    exact ih.release hrem hfired hr
  · rw [recoverSingle_of_not_releases none [] fun f hf => hgo ⟨f, hf⟩]
    exact ih.skip fun f hf => Bool.eq_false_iff.mpr fun hr => hgo ⟨f, (hrel f).mpr ⟨hf, hr⟩⟩

/-! ## What falls -/

/-- The hashes `HandleRecover` puts to `HandleRecoverEvent`. -/
def undelivered (w : World) (fireOrder : MapOrder String) (alertingKeys : List Hash) : List Hash :=
  (fireOrder.list w.fires.keys).filter fun hash => hash ∉ alertingKeys

/-- The alert `f` falls to the sweep of a call that delivered `alertingKeys`. -/
def Falls (w : World) (fireOrder : MapOrder String) (alertingKeys : List Hash) (now : ℤ)
    (inhibit : Bool) (f : AlertCurEvent) : Prop :=
  if inhibit then
    ∃ past rest, w.undelivered fireOrder alertingKeys = past ++ f.hash :: rest ∧
      w.Goes now (w.undelivered fireOrder alertingKeys) past f
  else f.hash ∉ alertingKeys ∧ w.releasable now f

section Sweep

variable {w : World} {fireOrder tagOrder : MapOrder String} {K : List Hash} {now : ℤ}
  {inhibit : Bool} {h : Hash}

theorem mem_undelivered : h ∈ w.undelivered fireOrder K ↔ h ∈ w.fires ∧ h ∉ K := by
  simp [undelivered, Finmap.mem_keys]

theorem Falls.notMem {f : AlertCurEvent} (s : w.Falls fireOrder K now inhibit f) : f.hash ∉ K := by
  cases inhibit with
  | false => exact s.1
  | true =>
    obtain ⟨past, rest, hd, -⟩ := s
    have hmem : f.hash ∈ w.undelivered fireOrder K := by rw [hd]; simp
    exact (mem_undelivered.mp hmem).2

/-- **The sweep of a call**: an alert is gone afterwards exactly if it falls. -/
theorem fired_handleRecover (hw : w.WF) {f : AlertCurEvent} (hf : w.fired h = some f) :
    (w.Falls fireOrder K now inhibit f →
      (w.handleRecover fireOrder tagOrder K now inhibit).fired h = none) ∧
    (¬ w.Falls fireOrder K now inhibit f →
      (w.handleRecover fireOrder tagOrder K now inhibit).fired h = some f) := by
  have hwf := hw.forget fireOrder K
  have hnd : (w.undelivered fireOrder K).Nodup := (fireOrder.nodup _).filter _
  have hh : f.hash = h := hw.hash_of_fired hf
  have hf' : (w.forget fireOrder K).fired h = some f := hf
  cases inhibit with
  | false =>
    have s := recovered hwf hnd now
    simp only [Falls, hh, Bool.false_eq_true, if_false]
    refine ⟨fun hfall => ?_, fun hno => ?_⟩
    · exact s.gone h (mem_undelivered.mpr ⟨mem_fires_of_fired hf, hfall.1⟩) f hf' hfall.2
    · refine (s.spared h fun hmem g hg => ?_).fired.trans hf'
      obtain rfl : f = g := Option.some.inj (hf'.symm.trans hg)
      cases hr : (w.forget fireOrder K).releasable now f with
      | false => rfl
      | true => exact absurd ⟨(mem_undelivered.mp hmem).2, hr⟩ hno
  | true =>
    simp only [Falls, hh, if_true]
    by_cases hmem : h ∈ w.undelivered fireOrder K
    · refine ⟨?_, fun hno => ?_⟩
      · rintro ⟨past, rest, hd, hg⟩
        exact ((handleRecoverEvent_inhibited hwf hnd tagOrder now hd hf').1 hg).1
      · obtain ⟨past, rest, hd⟩ := append_of_mem hmem
        exact ((handleRecoverEvent_inhibited hwf hnd tagOrder now hd hf').2
          fun hg => hno ⟨past, rest, hd, hg⟩).fired.trans hf'
    · have hs := sameAt_handleRecoverEvent_inhibited hwf hnd tagOrder now hmem
      refine ⟨?_, fun _ => hs.fired.trans hf'⟩
      rintro ⟨past, rest, hd, -⟩
      exact absurd (by rw [hd]; simp) hmem

/-- The sweep of a call deletes the pending event of every hash it does not know, and of no hash it
knows. -/
theorem pending_handleRecover (hw : w.WF) (h : Hash) :
    (w.handleRecover fireOrder tagOrder K now inhibit).pending h
      = if h ∈ K then w.pending h else none := by
  refine (handleRecover_induct (I := fun w' => w'.WF ∧
    w'.pending h = if h ∈ K then w.pending h else none) hw
    ⟨hw.forget fireOrder K, pending_forget fireOrder w K h⟩ ?_ ?_).2
  · rintro - w' h' - hout ⟨hwf, hp⟩
    obtain ⟨hrem, -, -⟩ := removes_dropInhibited hwf h' now
    refine ⟨hrem.wf, ?_⟩
    by_cases heq : h = h'
    · rw [heq, hrem.pending, if_neg hout.1]
    · rw [(hrem.sameAt h heq).pending, hp]
  · rintro w' h' - hK ⟨hwf, hp⟩
    rcases recoverSingle_cases hwf false h' now none [] with heq | ⟨f, -, hrem, -, -⟩
    · rw [heq]
      exact ⟨hwf, hp⟩
    · refine ⟨hrem.wf, ?_⟩
      by_cases heq : h = h'
      · rw [heq, hrem.pending, if_neg hK]
      · rw [(hrem.sameAt h heq).pending, hp]

/-- The sweep of a call pushes recoveries of alerts that are gone, none of them delivered. -/
theorem pushed_handleRecover (fireOrder tagOrder : MapOrder String) (K : List Hash) (now : ℤ)
    (inhibit : Bool) (hw : w.WF) :
    ∃ new, pushed (w.handleRecover fireOrder tagOrder K now inhibit).log = pushed w.log ++ new ∧
      ∀ p ∈ new, p.hash ∉ K ∧
        (w.handleRecover fireOrder tagOrder K now inhibit).fired p.hash = none := by
  refine (handleRecover_induct (I := fun w' => w'.WF ∧ ∃ new, pushed w'.log = pushed w.log ++ new ∧
    ∀ p ∈ new, p.hash ∉ K ∧ w'.fired p.hash = none) hw
    ⟨hw.forget fireOrder K, [], by simp [forget], by simp⟩ ?_ ?_).2
  · rintro - w' h' - - ⟨hwf, new, hlog, hnew⟩
    obtain ⟨hrem, -, hl⟩ := removes_dropInhibited hwf h' now
    exact ⟨hrem.wf, new, by rw [hl, pushed_append, hlog, pushed_remove, append_nil],
      fun p hp => ⟨(hnew p hp).1, hrem.fired_eq_none (hnew p hp).2⟩⟩
  · rintro w' h' - hK ⟨hwf, new, hlog, hnew⟩
    rcases recoverSingle_cases hwf false h' now none [] with heq | ⟨f, hrel, hrem, -, hl⟩
    · rw [heq]
      exact ⟨hwf, new, hlog, hnew⟩
    · have hp' : (recovery w'.rule now none [] f).hash = h' := hrel.hash_recovery hwf none []
      refine ⟨hrem.wf, new ++ [recovery w'.rule now none [] f], ?_, fun p hp => ?_⟩
      · rw [hl, ← singleton_append, ← append_assoc, pushed_append, pushed_append, hlog,
          pushed_remove, append_nil, pushed_push, append_assoc]
      · rcases mem_append.mp hp with hp | hp
        · exact ⟨(hnew p hp).1, hrem.fired_eq_none (hnew p hp).2⟩
        · rw [mem_singleton.mp hp, hp']
          exact ⟨hK, hrem.fired⟩

end Sweep

/-! ## What a call stores -/

/-- The event behind `r` is one the call made in `w` built, and `m` holds it under `h` when the
sweep begins. -/
def Stored (w : World) (m : EventMap) (h : Hash) (r : Ref) : Prop :=
  w.heap.next ≤ r ∧ m.lookup h = some r

/-- What the sweep of a call owes the events the call stored: those in `fires` and those in
`pendings` stay there, and no recovery of them is pushed. -/
structure Survive (w before after : World) : Prop where
  fires : ∀ h r, w.Stored before.fires h r → h ∈ after.fires
  pendings : ∀ h r, w.Stored before.pendings h r → h ∈ after.pendings
  silent : ∀ h r, w.Stored before.fires h r ∨ w.Stored before.pendings h r →
    ∀ new, pushed after.log = pushed before.log ++ new → ∀ p ∈ new, p.hash ≠ h

section Survive

variable {w g : World} {fireOrder tagOrder : MapOrder String} {K : List Hash} {now : ℤ}
  {inhibit : Bool} {h : Hash} {r : Ref}

theorem Stored.fired (hst : w.Stored g.fires h r) : g.fired h = some (g.heap.get r) := by
  rw [World.fired, hst.2, Option.map_some]

theorem Stored.stays (hst : w.Stored g.fires h r) (hg : g.WF)
    (hno : h ∉ K → ¬ g.Falls fireOrder K now inhibit (g.heap.get r)) :
    h ∈ (g.handleRecover fireOrder tagOrder K now inhibit).fires := by
  refine mem_fires_of_fired ((fired_handleRecover hg hst.fired).2 fun hfall => ?_)
  have hK := hfall.notMem
  rw [hg.hash_of_fired hst.fired] at hK
  exact hno hK hfall

/-- A stored pending event stays exactly if its hash was delivered. -/
theorem Stored.mem_pendings_iff (hst : w.Stored g.pendings h r) (hg : g.WF) :
    h ∈ (g.handleRecover fireOrder tagOrder K now inhibit).pendings ↔ h ∈ K := by
  rw [← not_iff_not, ← pending_eq_none_iff, pending_handleRecover hg, pending, hst.2]
  by_cases hK : h ∈ K <;> simp [hK]

/-- What is stored when the sweep begins survives it exactly if it is not a pending event of an
unknown hash, nor an alert that falls. -/
theorem survive_handleRecover_iff (hg : g.WF) :
    w.Survive g (g.handleRecover fireOrder tagOrder K now inhibit) ↔
      ∀ h, h ∉ K → ∀ r, ¬ w.Stored g.pendings h r ∧
        (w.Stored g.fires h r → ¬ g.Falls fireOrder K now inhibit (g.heap.get r)) := by
  constructor
  · intro s h hK r
    refine ⟨fun hst => hK ((hst.mem_pendings_iff hg).mp (s.pendings h r hst)), fun hst hfall => ?_⟩
    refine (fired_eq_none_iff _ h).mp ?_ (s.fires h r hst)
    exact (fired_handleRecover hg hst.fired).1 hfall
  · intro hcond
    have hstay : ∀ h r, w.Stored g.fires h r →
        h ∈ (g.handleRecover fireOrder tagOrder K now inhibit).fires :=
      fun h r hst => hst.stays hg fun hK => (hcond h hK r).2 hst
    have hknown : ∀ h r, w.Stored g.pendings h r → h ∈ K := fun h r hst => by
      by_contra hK
      exact (hcond h hK r).1 hst
    refine ⟨hstay, fun h r hst => (hst.mem_pendings_iff hg).mpr (hknown h r hst),
      fun h r hst new hlog p hp heq => ?_⟩
    obtain ⟨new', hlog', hnew'⟩ := pushed_handleRecover fireOrder tagOrder K now inhibit hg
    obtain rfl : new = new' := append_cancel_left (hlog.symm.trans hlog')
    obtain ⟨hK, hgone⟩ := hnew' p hp
    rw [heq] at hK hgone
    rcases hst with hst | hst
    · exact (fired_eq_none_iff _ h).mp hgone (hstay h r hst)
    · exact hK (hknown h r hst)

end Survive

/-- **What a call stores survives its sweep exactly when** whatever it stored under a hash none of
its points has is not a pending event, and is an alert that the sweep does not let go. -/
theorem stored_events_survive_iff (env : Env) {w : World} (hw : w.WF) {c : HandleCall}
    {rule : AlertRule} (hc : c.cachedRule = some rule) (hsrc : c.src = .inner) :
    w.Survive (w.handleGroups env c rule) (w.handle env c) ↔
      ∀ h, h ∉ c.points.map (pointHash env rule.id) → ∀ r,
        ¬ w.Stored (w.handleGroups env c rule).pendings h r ∧
        (w.Stored (w.handleGroups env c rule).fires h r →
          ¬ (w.handleGroups env c rule).Falls c.fireOrder (c.points.map (pointHash env rule.id))
            c.now c.inhibit ((w.handleGroups env c rule).heap.get r)) := by
  simp only [handle, hc, hsrc, if_true, alertingKeys_eq]
  exact survive_handleRecover_iff (hw.handleGroups env c rule)

/-- **It survives wherever the pipelines hand every event on under the hash of its point.** -/
theorem stored_events_survive (env : Env) {w : World} (hw : w.WF) {c : HandleCall}
    {rule : AlertRule} (hc : c.cachedRule = some rule) (hsrc : c.src = .inner)
    (hK : c.KeepsHash env rule) : w.Survive (w.handleGroups env c rule) (w.handle env c) := by
  have hin := inCall_handleGroups hw env c rule
  have hno : ∀ m, Owns (w.handleGroups env c rule).heap m →
      ∀ h ∉ c.points.map (pointHash env rule.id), ∀ r, ¬ w.Stored m h r := by
    rintro m hm h hh r ⟨hge, hr⟩
    obtain ⟨hlt, rfl⟩ := hm h r hr
    exact hh (hin.hash_mem_of_le hK hge hlt)
  simp only [handle, hc, hsrc, if_true, alertingKeys_eq]
  exact (survive_handleRecover_iff hin.wf).mpr fun h hh r =>
    ⟨hno _ hin.wf.pendings h hh r, fun hst => absurd hst (hno _ hin.wf.fires h hh r)⟩

end World

namespace Example

/-- An `event_update` processor whose service answers with another hash. -/
def rehash : Pipeline.EventUpdateConfig where
  text := "event_update"
  request _ := .ok "x"
  unmarshal body e := ({ e with hash := body }, none)

/-- An evaluation of a rule with `rehash` in its pipeline. -/
def rehashed (rule : AlertRule) : HandleCall :=
  { call rule 100 [point "a" 1 100] with
    pipeline := fun _ e => (rehash.process (V := Unit) { event := some e, data := () }).1.event }

/-- A processor before its first call. -/
def idle (rule : AlertRule) : World := { rule := rule }

/-- What `rehashed` has stored when its sweep begins. -/
def stored (rule : AlertRule) : World := (idle rule).handleGroups env (rehashed rule) rule

/-- Within an observation window the alert stored under the foreign hash is kept. -/
theorem rehashed_survives_window :
    (idle minuteRule).Survive ((idle minuteRule).handleGroups env (rehashed minuteRule) minuteRule)
      ((idle minuteRule).handle env (rehashed minuteRule)) := by
  have hpend : ∀ h ∈ (stored minuteRule).pendings.keys, False := by decide
  have hheld : ∀ h ∈ (stored minuteRule).fires.keys, ∀ r ∈ (stored minuteRule).fires.lookup h,
      (stored minuteRule).releasable 100 ((stored minuteRule).heap.get r) = false := by decide
  refine (stored_events_survive_iff env (WF.initial _ _ _) rfl rfl).mpr fun h _ r => ⟨?_, ?_⟩
  · intro hst
    exact hpend h (mem_keys.mpr (mem_iff.mpr ⟨r, hst.2⟩))
  · intro hst hfall
    have hr := hheld h (mem_keys.mpr (mem_iff.mpr ⟨r, hst.2⟩)) r hst.2
    exact Bool.false_ne_true (hr.symm.trans hfall.2)

/-- **Without one it is recovered by the call that fired it.** -/
theorem rehashed_recovered_at_once :
    ¬ ∀ (env : Env) (w : World) (c : HandleCall) (rule : AlertRule), w.WF →
      c.cachedRule = some rule → c.src = .inner →
      w.Survive (w.handleGroups env c rule) (w.handle env c) := by
  intro h
  have hs := h env (idle { id := 1 }) (rehashed { id := 1 }) { id := 1 } (WF.initial _ _ _) rfl rfl
  have hst : (idle { id := 1 }).Stored (stored { id := 1 }).fires "x" 0 := ⟨le_rfl, by decide⟩
  exact absurd (hs.fires "x" 0 hst) (by decide)

end Example

end Nightingale
