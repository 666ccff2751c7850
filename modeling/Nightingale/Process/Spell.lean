import Mathlib.Data.List.DropRight
import Nightingale.Process.Episodes

/-!
# Process/Spell — the for-duration of a rule

A rule with a for-duration `F` fires only once its condition has held for `F` seconds.  The
processor keeps the beginning of the current spell in `pendings`; the history knows it too:

    … │ no point │ muted │ passes at t₀ │ muted │ passes │ …
        ▴ the spell before ended          ▴ this one began

`spellStart` reads it off the calls made so far, and the processor remembers the same
(`since_eq_spellStart`).
-/

namespace Nightingale

open AlertCurEvent World List Progress

/-! ## The spell, from the history -/

namespace HandleCall

/-- The call delivers a point of the hash. -/
def delivers (env : Env) (rule : AlertRule) (h : Hash) (c : HandleCall) : Bool :=
  c.points.any fun point => pointHash env rule.id point = h

/-- The call lets an event of the hash pass. -/
def lets (env : Env) (rule : AlertRule) (h : Hash) (c : HandleCall) : Bool :=
  (c.passes env rule).any fun pe => pe.2.hash = h

end HandleCall

/-- What went to the queue under a hash between two states of a processor. -/
def pushedBetween (h : Hash) (w w' : World) : List AlertCurEvent :=
  (pushes h w'.log).drop (pushes h w.log).length

/-- A call of a run, with the state it found. -/
abbrev Made := World × HandleCall

/-- The call recovered the hash. -/
def Made.recovers (env : Env) (h : Hash) (k : Made) : Bool :=
  (pushedBetween h k.1 (k.1.handle env k.2)).any fun e => e.isRecovered

/-- When the spell of a hash began: the first call that let a point pass, among those since the
last call that delivered no point at all or recovered the hash. -/
def spellStart (env : Env) (rule : AlertRule) (h : Hash) (made : List Made) : Option ℤ :=
  ((made.rtakeWhile fun k => k.2.delivers env rule h && !k.recovers env h).find?
    fun k => k.2.lets env rule h).map fun k => k.2.now

/-- The calls of a run, each with the state it finds. -/
def madeBy (env : Env) : World → List HandleCall → List Made
  | _, [] => []
  | w, c :: cs => (w, c) :: madeBy env (w.handle env c) cs

theorem madeBy_concat (env : Env) (w : World) (cs : List HandleCall) (c : HandleCall) :
    madeBy env w (cs ++ [c])
      = madeBy env w cs ++ [(cs.foldl (handle env) w, c)] := by
  induction cs generalizing w with
  | nil => rfl
  | cons d cs ih => simp [madeBy, ih]

theorem pushedBetween_eq {h : Hash} {w w' : World} {q : List AlertCurEvent}
    (hq : pushes h w'.log = pushes h w.log ++ q) : pushedBetween h w w' = q := by
  simp [pushedBetween, hq]

/-! ## The spell, in one call -/

/-- The spell under a hash is long enough for the rule. -/
def Due (env : Env) (c : HandleCall) (rule : AlertRule) (start : ℤ) : Prop :=
  rule.promForDuration ≤ c.now - start + env.promEvalInterval

/-- The calls the for-duration is about: evaluations of one rule, not inhibiting, under pipelines
that keep hashes. -/
def HandleCall.Evaluates (env : Env) (rule : AlertRule) (c : HandleCall) : Prop :=
  c.cachedRule = some rule ∧ c.src = .inner ∧ c.inhibit = false ∧ c.KeepsHash env rule

instance (env : Env) (rule : AlertRule) (c : HandleCall) : Decidable (c.Evaluates env rule) :=
  inferInstanceAs (Decidable (_ ∧ _ ∧ _ ∧ _))

namespace World

section Call

variable {env : Env} {c : HandleCall} {rule : AlertRule} {w : World} {h : Hash} {r : Ref}

/-- The invariant of the loop over the groups, of one hash: the spell has its start, an event of the
hash is due exactly if the spell is long enough, and what was pushed shows in `fires`. -/
structure Spelling (env : Env) (c : HandleCall) (rule : AlertRule) (w : World) (h : Hash)
    (p : Progress) : Prop where
  since : p.world.since h = w.since h ∧
      (∀ r ∈ p.looked, ((c.collect env rule w.heap).heap.get r).hash ≠ h) ∨
    p.world.since h = some ((w.since h).getD c.now)
  due : ∀ r ∈ p.looked, ((c.collect env rule w.heap).heap.get r).hash = h →
    (r ∈ p.due ↔ Due env c rule ((w.since h).getD c.now))
  looked : ∀ r ∈ p.due, r ∈ p.looked
  fired : ∀ r ∈ p.fired, ((c.collect env rule w.heap).heap.get r).hash = h → h ∈ p.world.fires
  fires : h ∈ p.world.fires → h ∈ w.fires ∨ Due env c rule ((w.since h).getD c.now)
  pushed : ∃ q, pushes h p.world.log = pushes h w.log ++ q ∧ (∀ e ∈ q, e.isRecovered = false) ∧
    (∀ e ∈ q, h ∈ p.world.fires) ∧
    (h ∈ p.world.fires → h ∈ w.fires ∨ ∃ e ∈ q, e.lastEvalTime = c.now)

theorem Spelling.start (env : Env) (c : HandleCall) (rule : AlertRule) (hw : w.WF) (h : Hash) :
    Spelling env c rule w h { world := w.handleStart env c rule } where
  since := .inl ⟨(SameAt.handleStart hw env c rule h).since, by simp⟩
  due := by simp
  looked := by simp
  fired := by simp
  fires := fun hf => .inl hf
  pushed := ⟨[], by simp [handleStart], by simp, by simp, fun hf => .inl hf⟩

theorem Spelling.getD {p : Progress} (s : Spelling env c rule w h p) :
    (p.world.since h).getD c.now = (w.since h).getD c.now := by
  rcases s.since with ⟨h', -⟩ | h' <;> simp [h']

theorem Spelling.look {p : Progress} (hF : rule.promForDuration ≠ 0) (hT : c.OnTime env rule)
    (hin : InCall env c rule w p.world) (hr : (c.collect env rule w.heap).Has r)
    (s : Spelling env c rule w h p) : Spelling env c rule w h (p.look env r) := by
  have ht := touches_look env hin.wf (hin.lt hr)
  have hF' : p.world.rule.promForDuration ≠ 0 := by rw [hin.rule]; exact hF
  have htime := hin.onTime hT hr
  have hfires : (p.look env r).world.fires = p.world.fires := ht.fires
  have hflag : ((c.collect env rule w.heap).heap.get r).hash = h →
      ((p.world.look env r).2 = true ↔ Due env c rule ((w.since h).getD c.now)) := fun hh => by
    rw [← hin.hash_eq] at hh
    rw [look_eq env hin.wf (hin.lt hr), if_neg hF', hh, htime, s.getD, hin.rule]
    simp [Due]
  have hself : ((c.collect env rule w.heap).heap.get r).hash = h →
      (r ∈ (p.look env r).due ↔ Due env c rule ((w.since h).getD c.now)) := fun hh => by
    rw [mem_due_look, hflag hh]
    exact ⟨fun hr => hr.elim (fun hm => (s.due r (s.looked r hm) hh).mp hm) And.right,
      fun hd => .inr ⟨rfl, hd⟩⟩
  refine ⟨?_, fun r' hr' hh => ?_, fun r' hr' => ?_, fun r' hr' hh => ?_, fun hf => ?_, ?_⟩
  · by_cases hh : h = (p.world.heap.get r).hash
    · right
      have hs := since_look env hin.wf (hin.lt hr) hF'
      rw [← hh, htime, s.getD] at hs
      exact hs
    · have hs : (p.look env r).world.since h = p.world.since h := (ht.sameAt h hh).since
      rw [hs]
      refine s.since.imp (fun ⟨h', hl⟩ => ⟨h', fun r' hr' => ?_⟩) id
      rcases mem_append.mp hr' with hr' | hr'
      · exact hl r' hr'
      · rw [mem_singleton.mp hr', ← hin.hash_eq]
        exact Ne.symm hh
  · by_cases hrr : r' = r
    · subst hrr; exact hself hh
    · have hl : r' ∈ p.looked := by simpa [Progress.look, hrr] using hr'
      rw [← s.due r' hl hh, mem_due_look]
      simp [hrr]
  · exact looked_of_due_look s.looked r' hr'
  · rw [hfires]
    exact s.fired r' hr' hh
  · rw [hfires] at hf
    exact s.fires hf
  · rw [show (p.look env r).world.log = p.world.log from ht.log, hfires]
    exact s.pushed

theorem Spelling.fire {p : Progress} (hrec : c.KeepsFiring env rule) (hT : c.OnTime env rule)
    (hin : InCall env c rule w p.world) (hr : (c.collect env rule w.heap).Has r)
    (hdue : r ∈ p.due) (s : Spelling env c rule w h p) : Spelling env c rule w h (p.fire r) := by
  have hnot := hin.not_recovered hr hrec
  have hf := fires_fireEvent hin.wf (hin.lt hr) hnot
  set e := p.world.heap.get r with he
  have hmono : h ∈ p.world.fires → h ∈ (p.fire r).world.fires :=
    mem_fires_fireEvent_of_mem hin.wf (hin.lt hr) hnot
  have hself : h = e.hash → h ∈ (p.fire r).world.fires := fun hh =>
    hh ▸ mem_fires_fireEvent hin.wf (hin.lt hr) hnot
  have hpush : pushes h (p.fire r).world.log = _ := hf.pushes_eq h
  obtain ⟨q, hq, hqr, hqf, hfq⟩ := s.pushed
  refine ⟨?_, s.due, s.looked, fun r' hr' hh => ?_, fun hm => ?_, ?_⟩
  · rw [show (p.fire r).world.since h = p.world.since h from hf.toWrites.since h]
    exact s.since
  · rcases mem_append.mp hr' with hr' | hr'
    · exact hmono (s.fired r' hr' hh)
    · rw [mem_singleton.mp hr', ← hin.hash_eq] at hh
      exact hself hh.symm
  · by_cases hh : h = e.hash
    · right
      have hh' : ((c.collect env rule w.heap).heap.get r).hash = h := by rw [← hin.hash_eq, hh]
      exact (s.due r (s.looked r hdue) hh').mp hdue
    · exact s.fires ((hf.sameAt h hh).mem_fires.mp hm)
  · by_cases hh : h = e.hash
    · rw [if_pos hh, hq, append_assoc] at hpush
      refine ⟨_, hpush, fun e' he' => ?_, fun _ _ => hself hh, fun _ => ?_⟩
      · rcases mem_append.mp he' with he' | he'
        · exact hqr e' he'
        · rw [isRecovered_eq_of_ident_eq
            (AlertRule.notifies_ident (Option.mem_toList.mp he')), hnot]
      · by_cases hm : h ∈ p.world.fires
        · exact (hfq hm).imp id fun ⟨e', he', ht⟩ => ⟨e', mem_append_left _ he', ht⟩
        · right
          rw [hh, ← fired_eq_none_iff] at hm
          rw [hm]
          exact ⟨_, mem_append_right _ (by simp [AlertRule.notifies]; rfl), by
            simpa using hin.onTime hT hr⟩
    · rw [if_neg hh, append_nil] at hpush
      have hm : h ∈ (p.fire r).world.fires ↔ h ∈ p.world.fires := (hf.sameAt h hh).mem_fires
      rw [hpush, hm]
      exact ⟨q, hq, hqr, hqf, hfq⟩

/-- The recoveries of a call that does not inhibit: what was delivered stays, every other spell is
over. -/
theorem handleRecover_spell (hw : w.WF) (K : List Hash) (now : ℤ)
    (fireOrder tagOrder : MapOrder String) : (w.handleRecover fireOrder tagOrder K now false).WF ∧
      (∀ h ∈ K, SameAt h w (w.handleRecover fireOrder tagOrder K now false) ∧
        pushes h (w.handleRecover fireOrder tagOrder K now false).log = pushes h w.log) ∧
      ∀ h ∉ K, (w.handleRecover fireOrder tagOrder K now false).pending h = none := by
  refine handleRecover_induct (I := fun w' => w'.WF ∧
    (∀ h ∈ K, SameAt h w w' ∧ pushes h w'.log = pushes h w.log) ∧
    ∀ h ∉ K, w'.pending h = none) hw ?_ (fun h => by cases h) ?_
  · exact ⟨hw.forget fireOrder K, fun h hh => ⟨⟨rfl, by rw [pending_forget, if_pos hh], rfl⟩, rfl⟩,
      fun h hh => by rw [pending_forget, if_neg hh]⟩
  · rintro w' h - hh ⟨hw', hsame, hnone⟩
    rcases recoverSingle_cases hw' false h now none [] with heq | ⟨f, hrel, hrem, -, hlog⟩
    · rw [heq]
      exact ⟨hw', hsame, hnone⟩
    · refine ⟨hrem.wf, fun h' hh' => ?_, fun h' hh' => ?_⟩
      · have hne : h' ≠ h := fun heq => hh (heq ▸ hh')
        refine ⟨(hsame h' hh').1.trans (hrem.sameAt h' hne), ?_⟩
        rw [hlog, pushes_remove_push, hrel.hash_recovery hw', if_neg (Ne.symm hne),
          append_nil, (hsame h' hh').2]
      · by_cases heq : h' = h
        · rw [heq, hrem.pending]
        · rw [(hrem.sameAt h' heq).pending, hnone h' hh']

theorem handle_of_evaluates (hc : c.Evaluates env rule) :
    w.handle env c = (w.handleGroups env c rule).handleRecover c.fireOrder c.tagOrder
      (c.collect env rule w.heap).alertingKeys c.now false := by
  obtain ⟨hrule, hsrc, hinh, -⟩ := hc
  simp [handle, hrule, hsrc, hinh]

theorem delivers_iff : c.delivers env rule h = true
    ↔ h ∈ (c.collect env rule w.heap).alertingKeys := by
  rw [mem_alertingKeys, HandleCall.delivers, any_eq_true]
  simp

theorem lets_iff : c.lets env rule h = true ↔ ∃ pe ∈ c.passes env rule, pe.2.hash = h := by
  simp [HandleCall.lets]

theorem exists_has_of_lets (heap : Heap AlertCurEvent) (hl : c.lets env rule h = true) :
    ∃ r, (c.collect env rule heap).Has r ∧ ((c.collect env rule heap).heap.get r).hash = h := by
  obtain ⟨pe, hpe, hh⟩ := lets_iff.mp hl
  obtain ⟨r, hr, hre⟩ := exists_has_of_mem_passes heap hpe
  exact ⟨r, hr, by rw [hre, hh]⟩

/-- A call that lets nothing of the hash pass leaves the hash alone. -/
theorem InCall.sameAt_of_not_lets {w' : World} (hin : InCall env c rule w w')
    (hl : c.lets env rule h = false) : SameAt h w w' := by
  refine hin.sameAt h fun pe hpe heq => ?_
  rw [lets_iff.mpr ⟨pe, hpe, heq⟩] at hl
  cases hl

theorem delivers_of_lets (hK : c.KeepsHash env rule) (hl : c.lets env rule h = true) :
    c.delivers env rule h = true := by
  obtain ⟨pe, hpe, hh⟩ := lets_iff.mp hl
  refine any_eq_true.mpr ⟨pe.1, mem_points_of_mem_passes hpe, ?_⟩
  rw [← hK pe hpe]
  exact decide_eq_true hh

/-- **A call that delivers no point of a hash ends its spell.** -/
theorem since_handle_of_not_delivers (hw : w.WF) (hc : c.Evaluates env rule)
    (hd : c.delivers env rule h = false) : (w.handle env c).since h = none := by
  have hin := inCall_handleGroups hw env c rule
  have hh : h ∉ (c.collect env rule w.heap).alertingKeys := fun hm => by
    rw [delivers_iff.mpr hm] at hd
    cases hd
  rw [handle_of_evaluates hc, since, (handleRecover_spell hin.wf _ _ _ _).2.2 h hh, Option.map_none]

/-- **A call that delivers a point of a hash goes on with its spell**, begins one if it lets the
first point pass, recovers nothing, and fires the hash exactly if the spell is long enough. -/
theorem handle_of_delivers (hw : w.WF) (hF : rule.promForDuration ≠ 0) (hc : c.Evaluates env rule)
    (hrec : c.KeepsFiring env rule) (hT : c.OnTime env rule)
    (hd : c.delivers env rule h = true) :
    (w.handle env c).since h = (if c.lets env rule h then some ((w.since h).getD c.now)
        else w.since h) ∧ ∃ q, pushes h (w.handle env c).log = pushes h w.log ++ q ∧
        (∀ e ∈ q, e.isRecovered = false) ∧
        (h ∉ w.fires → c.lets env rule h = true → ((∃ e ∈ q, e.lastEvalTime = c.now) ↔
          Due env c rule ((w.since h).getD c.now))) := by
  obtain ⟨p, hp, hin, hpw, hlooked, hfired⟩ := handleGroups_induct hw env c rule
    (I := Spelling env c rule w h) (Spelling.start env c rule hw h)
    (fun p r hin hr s => s.look hF hT hin hr)
    (fun p r hin hr hdue s => s.fire hrec hT hin hr hdue)
  have hin' := hpw ▸ hin
  obtain ⟨-, hsame, -⟩ := handleRecover_spell hin'.wf (c.collect env rule w.heap).alertingKeys
    c.now c.fireOrder c.tagOrder
  obtain ⟨hs, hlog⟩ := hsame h (delivers_iff.mp hd)
  rw [handle_of_evaluates hc, hs.since, hlog, ← hpw]
  obtain ⟨q, hq, hqr, hqf, hfq⟩ := hp.pushed
  refine ⟨?_, q, hq, hqr, fun hf hl => ?_⟩
  · cases hl : c.lets env rule h with
    | false => simpa using (hin.sameAt_of_not_lets hl).since
    | true =>
      obtain ⟨r, hr, hh⟩ := exists_has_of_lets w.heap hl
      rcases hp.since with ⟨-, hno⟩ | hs
      · exact absurd hh (hno r (hlooked r hr))
      · simpa using hs
  · obtain ⟨r, hr, hh⟩ := exists_has_of_lets w.heap hl
    constructor
    · rintro ⟨e, he, -⟩
      exact (hp.fires (hqf e he)).resolve_left hf
    · intro hdue
      have hmem := hp.fired r (hfired hc.2.2.1 r ((hp.due r (hlooked r hr) hh).mpr hdue)) hh
      exact (hfq hmem).resolve_left hf

end Call

end World

/-! ## Along a run -/

/-- **The processor remembers the spell the history shows.** -/
theorem since_eq_spellStart (env : Env) {rule : AlertRule} (hF : rule.promForDuration ≠ 0)
    {w : World} (hw : w.WF) (hp : w.pendings = ∅) {cs : List HandleCall}
    (hcs : ∀ c ∈ cs, c.Evaluates env rule ∧ c.KeepsFiring env rule ∧ c.OnTime env rule) :
    (cs.foldl (handle env) w).WF ∧
      ∀ h, (cs.foldl (handle env) w).since h = spellStart env rule h (madeBy env w cs) := by
  induction cs using reverseRecOn with
  | nil => exact ⟨hw, fun h => by simp [since, pending, hp, spellStart, madeBy]⟩
  | append_singleton cs c ih =>
    obtain ⟨hwf, hsince⟩ := ih fun c' hc' => hcs c' (mem_append_left _ hc')
    obtain ⟨hev, hrec, hT⟩ := hcs c (by simp)
    rw [foldl_append, foldl_cons, foldl_nil, madeBy_concat]
    refine ⟨hwf.handle env c, fun h => ?_⟩
    rw [spellStart, rtakeWhile_concat]
    cases hd : c.delivers env rule h with
    | false => simp [since_handle_of_not_delivers hwf hev hd]
    | true =>
      obtain ⟨hs, q, hq, hqr, -⟩ := handle_of_delivers hwf hF hev hrec hT hd
      have hno : Made.recovers env h (cs.foldl (handle env) w, c) = false := by
        rw [Made.recovers, pushedBetween_eq hq, any_eq_false]
        exact fun e he => by simp [hqr e he]
      rw [hs, hsince, spellStart]
      simp only [hno, Bool.not_false, Bool.and_true, if_true, find?_append]
      cases hl : c.lets env rule h <;>
        cases (find? (fun k : Made => k.2.lets env rule h) _) <;> simp [hl]

/-- **The for-duration of a rule.**  An event that passes for a hash not firing is pushed exactly if
the spell, from its first passing point on, has lasted the for-duration less one evaluation. -/
theorem fires_after_for_duration (env : Env) (rule : AlertRule) (hF : 0 < rule.promForDuration)
    {w : World} (hw : w.WF) (hp : w.pendings = ∅) {past : List HandleCall} {c : HandleCall}
    (hcs : ∀ c' ∈ past ++ [c],
      c'.Evaluates env rule ∧ c'.KeepsFiring env rule ∧ c'.OnTime env rule) {h : Hash}
    (hl : c.lets env rule h = true) (hf : h ∉ (past.foldl (handle env) w).fires) :
    (∃ e ∈ pushedBetween h (past.foldl (handle env) w)
        ((past ++ [c]).foldl (handle env) w), e.lastEvalTime = c.now)
      ↔ c.now - (spellStart env rule h (madeBy env w past)).getD c.now + env.promEvalInterval
        ≥ rule.promForDuration := by
  obtain ⟨hwf, hsince⟩ := since_eq_spellStart env hF.ne' hw hp
    fun c' hc' => hcs c' (mem_append_left _ hc')
  obtain ⟨hev, hrec, hT⟩ := hcs c (by simp)
  obtain ⟨-, q, hq, -, hiff⟩ := handle_of_delivers hwf hF.ne' hev hrec hT
    (delivers_of_lets hev.2.2.2 hl)
  rw [foldl_append, foldl_cons, foldl_nil, pushedBetween_eq hq, ← hsince h]
  exact hiff hf hl

namespace Example

/-- A rule that must hold for a minute. -/
def forRule : AlertRule := { id := 1, promForDuration := 60 }

/-- Three evaluations, the second muted. -/
def threeCalls : List HandleCall :=
  [call forRule 0 [point "a" 1 0], call forRule 15 [point "a" 1 15] false (fun _ _ => true),
    call forRule 30 [point "a" 1 30]]

/-- An evaluation whose pipeline answers with an old evaluation time. -/
def backdatedCall : HandleCall :=
  { call forRule 0 [point "a" 1 0] with
    pipeline := fun _ e => some { e with lastEvalTime := -1000 } }

end Example

open Example

/-- The fourth evaluation completes the minute, and fires. -/
theorem fires_after_for_duration_minute :
    ∃ e ∈ pushedBetween (pointHash env 1 (point "a" 1 0))
      (threeCalls.foldl (handle env) { rule := forRule })
      ((threeCalls ++ [call forRule 45 [point "a" 1 45]]).foldl
        (handle env) { rule := forRule }),
      e.lastEvalTime = (call forRule 45 [point "a" 1 45]).now :=
  (fires_after_for_duration env forRule (by decide) (WF.initial _ _ _) rfl
    (by decide) (by decide) (by decide)).mpr (by decide)

/-- **A pipeline can backdate a spell**: `event_update` may answer with another `last_eval_time`,
and the alert fires ten seconds into its spell. -/
theorem backdated_spell_fires_early :
    (∀ c ∈ [backdatedCall] ++ [call forRule 10 [point "a" 1 10]],
      c.Evaluates env forRule) ∧
    pointHash env 1 (point "a" 1 0) ∉
      ([backdatedCall].foldl (handle env) { rule := forRule }).fires ∧
    ¬ ((∃ e ∈ pushedBetween (pointHash env 1 (point "a" 1 0))
        ([backdatedCall].foldl (handle env) { rule := forRule })
        (([backdatedCall] ++ [call forRule 10 [point "a" 1 10]]).foldl
          (handle env) { rule := forRule }), e.lastEvalTime = 10)
      ↔ 10 - (spellStart env forRule (pointHash env 1 (point "a" 1 0))
          (madeBy env { rule := forRule } [backdatedCall])).getD 10
          + env.promEvalInterval ≥ forRule.promForDuration) := by
  decide

end Nightingale
