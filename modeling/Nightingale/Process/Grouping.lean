import Nightingale.Lib.History
import Nightingale.Process.Calls

/-!
# Process/Grouping — alerts of the same tags, recovering at once

The inhibited branch of `HandleRecoverEvent` visits the recovering hashes one after another and
keeps a **leader** per tags, the alert of the smallest severity number so far:

    visited    5  3  4  2  2        leader   5 ▸ 3 ▸ 3 ▸ 2 ▸ 2
    dropped    ×  ×                 left     4, the second 2

A leader overtaken is dropped, the last one is put to `RecoverSingle`, and an alert that never led
is not looked at again.  So the loop settles every alert exactly when each of them led in its turn
(`Leads`).
-/

namespace Nightingale

open AlertCurEvent World List Option Finmap

/-- The events a history pushed, in order, those the queue refused included. -/
def pushed (log : List Effect) : List AlertCurEvent :=
  log.filterMap fun
    | .push e _ => some e
    | _ => none

@[simp] theorem pushed_append (l l' : List Effect) : pushed (l ++ l') = pushed l ++ pushed l' :=
  filterMap_append

@[simp] theorem pushed_push (e : AlertCurEvent) (b : Bool) : pushed [Effect.push e b] = [e] := rfl

@[simp] theorem pushed_remove (h : Hash) (now : ℤ) (seen : Option ℤ) (b : Bool) :
    pushed [Effect.remove h now seen b] = [] := rfl

namespace World

/-- The alert under `h`, if there is one, outranks every alert of its tags visited before. -/
def Leads (w : World) (past : List Hash) (h : Hash) : Prop :=
  ∀ f ∈ w.fired h, ∀ h' ∈ past, ∀ f' ∈ w.fired h', f'.tags = f.tags → f.severity < f'.severity

instance (w : World) (past : List Hash) (h : Hash) : Decidable (w.Leads past h) :=
  inferInstanceAs (Decidable (∀ _ ∈ _, ∀ _ ∈ _, ∀ _ ∈ _, _ → _))

/-- The alert `e` is of the smallest severity number among the alerts of its tags. -/
def Least (w : World) (hashArr : List Hash) (e : AlertCurEvent) : Prop :=
  ∀ h ∈ hashArr, ∀ f ∈ w.fired h, f.tags = e.tags → e.severity ≤ f.severity

/-! ## The loop -/

/-- What has become of an alert visited after `past`, once `done` are visited: one that led leads
still or is dropped for a lesser one, one that did not is as it was. -/
def Fate (w : World) (acc : World × GoMap String AlertCurEvent) (done past : List Hash) (h : Hash) :
    Prop :=
  ∀ f ∈ w.fired h,
    if w.Leads past h then
      acc.2.lookup f.tags = some f ∨
        ¬ w.Least done f ∧ acc.1.fired h = none ∧ acc.1.pending h = none
    else SameAt h w acc.1 ∧ acc.2.lookup f.tags ≠ some f

/-- What the grouping loop has reached after the hashes `done`. -/
structure Grouped (w : World) (done : List Hash) (acc : World × GoMap String AlertCurEvent) :
    Prop where
  dropping : Dropping w acc.1
  wf : acc.1.WF
  rule : acc.1.rule = w.rule
  pushed : pushed acc.1.log = pushed w.log
  leader : ∀ tags e, acc.2.lookup tags = some e →
    (e.tags = tags ∧ w.fired e.hash = some e ∧ SameAt e.hash w acc.1) ∧ w.Least done e ∧
      ∃ past rest, done = past ++ e.hash :: rest ∧ w.Leads past e.hash
  covered : ∀ h ∈ done, ∀ f ∈ w.fired h, f.tags ∈ acc.2
  ahead : ∀ h ∉ done, SameAt h w acc.1
  passed : Historic (w.Fate acc done) done

namespace Grouped

variable {w w' : World} {m : GoMap String AlertCurEvent} {done : List Hash} {hash : Hash} {r : Ref}
  {now : ℤ}

theorem start (hw : w.WF) : Grouped w [] (w, ∅) where
  dropping := ⟨rfl, rfl, fun _ _ h => h, fun _ h => h⟩
  wf := hw
  rule := rfl
  pushed := rfl
  leader tags e he := by simp at he
  covered h hh := by simp at hh
  ahead h _ := SameAt.refl h w
  passed := historic_nil

theorem not_least_concat {e : AlertCurEvent} (h : ¬ w.Least done e) :
    ¬ w.Least (done ++ [hash]) e := fun hl => h fun h' hh' => hl h' (mem_append_left _ hh')

theorem fate_concat (hash : Hash) {past : List Hash} {h : Hash} (hf : w.Fate (w', m) done past h) :
    w.Fate (w', m) (done ++ [hash]) past h := fun f hf' => by
  have := hf f hf'
  split
  · next hyes =>
    rw [if_pos hyes] at this
    exact this.imp_right fun h' => ⟨not_least_concat h'.1, h'.2⟩
  · next hno => rwa [if_neg hno] at this

/-- Only the hashes visited last are new to the minimum. -/
theorem least_concat {e : AlertCurEvent} (h : w.Least done e)
    (hnew : ∀ f ∈ w.fired hash, f.tags = e.tags → e.severity ≤ f.severity) :
    w.Least (done ++ [hash]) e := by
  intro h' hh' f hf htags
  rcases mem_append.mp hh' with hh' | hh'
  · exact h h' hh' f hf htags
  · rw [mem_singleton.mp hh'] at hf
    exact hnew f hf htags

/-- A hash at which nothing is done, its alert being outranked by the leader of its tags. -/
theorem concat (s : Grouped w done (w', m))
    (hsev : ∀ f ∈ w.fired hash, ∃ e, m.lookup f.tags = some e ∧ e.severity ≤ f.severity)
    (hfate : w.Fate (w', m) (done ++ [hash]) done hash) : Grouped w (done ++ [hash]) (w', m) where
  dropping := s.dropping
  wf := s.wf
  rule := s.rule
  pushed := s.pushed
  leader tags e he := by
    obtain ⟨hbase, hleast, past, rest, rfl, hlead⟩ := s.leader tags e he
    refine ⟨hbase, least_concat hleast fun f hf htags => ?_, past, rest ++ [hash], by simp, hlead⟩
    obtain ⟨e', he', hle⟩ := hsev f hf
    rw [htags, hbase.1, he] at he'
    exact some.inj he' ▸ hle
  covered h hh f hf := by
    rcases mem_append.mp hh with hh | hh
    · exact s.covered h hh f hf
    · rw [mem_singleton.mp hh] at hf
      obtain ⟨e, he, -⟩ := hsev f hf
      exact mem_iff.mpr ⟨e, he⟩
  ahead h hh := s.ahead h fun hmem => hh (mem_append_left _ hmem)
  passed := historic_concat.mpr
    ⟨fun past h rest hd => fate_concat hash (s.passed past h rest hd), hfate⟩

theorem idle (s : Grouped w done (w', m)) (hfired : w.fired hash = none) :
    Grouped w (done ++ [hash]) (w', m) := by
  have hno : ∀ f, f ∉ w.fired hash := by simp [hfired]
  exact s.concat (fun f hf => absurd hf (hno f)) fun f hf => absurd hf (hno f)

theorem covered_insert (s : Grouped w done (w', m)) {f : AlertCurEvent}
    (hf : w.fired hash = some f) :
    ∀ h ∈ done ++ [hash], ∀ f' ∈ w.fired h, f'.tags ∈ m.insert f.tags f := by
  intro h hh f' hf'
  rw [mem_insert]
  rcases mem_append.mp hh with hh | hh
  · exact .inr (s.covered h hh f' hf')
  · rw [mem_singleton.mp hh, hf] at hf'
    exact .inl (by rw [some.inj hf'])

section

variable {acc : World × GoMap String AlertCurEvent} (s : Grouped w done acc) {t t' : String}
  {e e' : AlertCurEvent} (hl : acc.2.lookup t = some e)

include s hl

theorem hash_mem : e.hash ∈ done := by
  obtain ⟨-, -, past, rest, rfl, -⟩ := s.leader t e hl
  simp

theorem hash_ne (hl' : acc.2.lookup t' = some e') (hne : t' ≠ t) : e'.hash ≠ e.hash := by
  obtain ⟨⟨htags, hfe, -⟩, -⟩ := s.leader t e hl
  obtain ⟨⟨htags', hfe', -⟩, -⟩ := s.leader t' e' hl'
  intro heq
  rw [heq, hfe] at hfe'
  exact hne (by rw [← htags', ← some.inj hfe', htags])

end

section

variable {f : AlertCurEvent} (s : Grouped w done (w', m)) (hw : w.WF) (hf : w.fired hash = some f)
  (hnew : hash ∉ done)

include s hw hf hnew

theorem not_leader (tags : String) : m.lookup tags ≠ some f := by
  intro hl
  rw [← hw.hash_of_fired hf] at hnew
  exact hnew (s.hash_mem hl)

/-- **The first alert of its tags** takes the lead. -/
theorem first (hl : m.lookup f.tags = none) :
    Grouped w (done ++ [hash]) (w', m.insert f.tags f) := by
  have hhash : f.hash = hash := hw.hash_of_fired hf
  have hother : ∀ h ∈ done, ∀ f' ∈ w.fired h, f'.tags ≠ f.tags := fun h hh f' hf' htags => by
    have hm := s.covered h hh f' hf'
    rw [htags] at hm
    exact absurd hl (by simpa [lookup_eq_none] using hm)
  have hlead : w.Leads done hash := fun f' hf' h hh f'' hf'' htags => by
    obtain rfl : f = f' := mem_unique hf hf'
    exact absurd htags (hother h hh f'' hf'')
  exact {
    dropping := s.dropping
    wf := s.wf
    rule := s.rule
    pushed := s.pushed
    leader := GoMap.forall_lookup_insert
      ⟨⟨rfl, by rw [hhash]; exact hf, by rw [hhash]; exact s.ahead hash hnew⟩,
        least_concat (fun h hh f' hf' htags => absurd htags (hother h hh f' hf'))
          (fun f' hf' _ => by rw [mem_unique hf hf']),
        done, [], by rw [hhash], by rw [hhash]; exact hlead⟩
      fun tags e he => by
        obtain ⟨hbase, hleast, past, rest, rfl, hled⟩ := s.leader tags e he
        refine ⟨hbase, least_concat hleast fun f' hf' htags => ?_, past, rest ++ [hash], by simp,
          hled⟩
        obtain rfl : f = f' := mem_unique hf hf'
        exact absurd htags.symm (hother e.hash (by simp) e hbase.2.1)
    covered := s.covered_insert hf
    ahead := fun h hh => s.ahead h fun hmem => hh (mem_append_left _ hmem)
    passed := historic_concat.mpr ⟨fun past h rest hd f' hf' => by
      have hne : f'.tags ≠ f.tags := hother h (by simp [hd]) f' hf'
      have hp := fate_concat hash (s.passed past h rest hd) f' hf'
      simpa [lookup_insert_of_ne _ hne] using hp, fun f' hf' => by
      obtain rfl : f = f' := mem_unique hf hf'
      rw [if_pos hlead]
      exact .inl (lookup_insert _)⟩ }

end

section Overtake

variable {f e : AlertCurEvent} (s : Grouped w done (w', m)) (hl : m.lookup f.tags = some e)
  (hf : w.fired hash = some f)

include s hl

/-- What is done to the leader does not touch the alert that is visited. -/
theorem sameAt_overtake {v : World} (hnew : hash ∉ done) (hrem : ∀ h ≠ e.hash, SameAt h w' v) :
    SameAt hash w v := (s.ahead hash hnew).trans (hrem hash fun heq => hnew (heq ▸ s.hash_mem hl))

include hf

/-- An alert that outranks the leader outranks every alert of its tags. -/
theorem least_overtake (hsev : f.severity < e.severity) : w.Least (done ++ [hash]) f := by
  obtain ⟨⟨htags, -⟩, hleast, -⟩ := s.leader _ e hl
  refine least_concat (fun h hh f' hf' ht => ?_) fun f' hf' _ => ?_
  · exact hsev.le.trans (hleast h hh f' hf' (ht.trans htags.symm))
  · rw [mem_unique hf hf']

theorem leads_overtake (hsev : f.severity < e.severity) : w.Leads done hash := by
  intro f' hf' h hh f'' hf'' ht
  obtain rfl : f = f' := mem_unique hf hf'
  obtain ⟨⟨htags, -⟩, hleast, -⟩ := s.leader _ e hl
  exact hsev.trans_le (hleast h hh f'' hf'' (ht.trans htags.symm))

theorem leader_overtake {v : World} (hrem : ∀ h ≠ e.hash, SameAt h w' v) {tags : String}
    {e' : AlertCurEvent} (ht : tags ≠ f.tags) (he' : m.lookup tags = some e') :
    (e'.tags = tags ∧ w.fired e'.hash = some e' ∧ SameAt e'.hash w v) ∧
      w.Least (done ++ [hash]) e' ∧
      ∃ past rest, done ++ [hash] = past ++ e'.hash :: rest ∧ w.Leads past e'.hash := by
  obtain ⟨⟨ht', hfe', hsame⟩, hleast, past, rest, hd, hled⟩ := s.leader tags e' he'
  refine ⟨⟨ht', hfe', hsame.trans (hrem _ (s.hash_ne hl he' ht))⟩,
    least_concat hleast fun f' hf' h' => ?_, past, rest ++ [hash], by simp [hd], hled⟩
  rw [← mem_unique hf hf', ht'] at h'
  exact absurd h'.symm ht

/-- An alert that is not the leader meets the fate it met before. -/
theorem fate_overtake (hw : w.WF) (hnew : hash ∉ done) {v : World}
    (hrem : ∀ h ≠ e.hash, SameAt h w' v) {past rest : List Hash} {h : Hash}
    (hd : done = past ++ h :: rest) (hne : h ≠ e.hash) :
    w.Fate (v, m.insert f.tags f) (done ++ [hash]) past h := by
  intro f' hf'
  have hp := s.passed past h rest hd f' hf'
  have hh : f'.hash = h := hw.hash_of_fired hf'
  have hs := hrem h hne
  by_cases hyes : w.Leads past h
  · rw [if_pos hyes] at hp ⊢
    rcases hp with hp | ⟨hleast, hfired, hpending⟩
    · have ht : f'.tags ≠ f.tags := fun ht => by
        rw [ht, hl] at hp
        exact hne (by rw [← hh, some.inj hp])
      exact .inl (by rw [lookup_insert_of_ne _ ht]; exact hp)
    · exact .inr ⟨not_least_concat hleast, hs.fired.trans hfired, hs.pending.trans hpending⟩
  · rw [if_neg hyes] at hp ⊢
    refine ⟨hp.1.trans hs, fun hl' => ?_⟩
    by_cases ht : f'.tags = f.tags
    · rw [ht, lookup_insert] at hl'
      have hhash : f.hash = hash := hw.hash_of_fired hf
      exact hnew (by rw [← hhash, some.inj hl', hh, hd]; simp)
    · rw [lookup_insert_of_ne _ ht] at hl'
      exact hp.2 hl'

/-- **An alert that outranks the leader** takes the lead, and the leader is dropped. -/
theorem overtake (hw : w.WF) (hnew : hash ∉ done) (hsev : f.severity < e.severity) (now : ℤ) :
    Grouped w (done ++ [hash]) (w'.dropInhibited e.hash now, m.insert f.tags f) := by
  obtain ⟨⟨htags, hfe, -⟩, -⟩ := s.leader _ e hl
  obtain ⟨hrem, -, hlog⟩ := removes_dropInhibited s.wf e.hash now
  have hhash : f.hash = hash := hw.hash_of_fired hf
  have hlead := s.leads_overtake hl hf hsev
  exact {
    dropping := s.dropping.drop e.hash now
    wf := hrem.wf
    rule := hrem.rule.trans s.rule
    pushed := by rw [hlog, pushed_append, s.pushed, pushed_remove, append_nil]
    leader := fun tags e' he' => by
      by_cases ht : tags = f.tags
      · subst ht
        obtain rfl : f = e' := by simpa using he'
        exact ⟨⟨rfl, hhash ▸ hf, hhash ▸ s.sameAt_overtake hl hnew hrem.sameAt⟩,
          s.least_overtake hl hf hsev, done, [], by rw [hhash], hhash ▸ hlead⟩
      · rw [lookup_insert_of_ne _ ht] at he'
        exact s.leader_overtake hl hf hrem.sameAt ht he'
    covered := s.covered_insert hf
    ahead := fun h hh => by
      rw [mem_append, not_or] at hh
      exact (s.ahead h hh.1).trans
        (hrem.sameAt h fun heq => hh.1 (heq ▸ s.hash_mem hl))
    passed := historic_concat.mpr ⟨fun past h rest hd => by
      by_cases heq : h = e.hash
      · subst heq
        intro f' hf'
        obtain rfl : e = f' := mem_unique hfe hf'
        have hp := s.passed past e.hash rest hd e hf'
        split
        · exact .inr ⟨fun hl' => absurd (hl' hash (by simp) f hf htags.symm) (not_le.mpr hsev),
            hrem.fired, hrem.pending⟩
        · next hno =>
          rw [if_neg hno, htags] at hp
          exact absurd hl hp.2
      · exact s.fate_overtake hl hf hw hnew hrem.sameAt hd heq, fun f' hf' => by
      obtain rfl : f = f' := mem_unique hf hf'
      rw [if_pos hlead]
      exact .inl (lookup_insert _)⟩ }

end Overtake

/-- **An alert that does not outrank the leader** is left as it is. -/
theorem stay (s : Grouped w done (w', m)) (hw : w.WF) {f e : AlertCurEvent}
    (hf : w.fired hash = some f) (hnew : hash ∉ done) (hl : m.lookup f.tags = some e)
    (hsev : e.severity ≤ f.severity) : Grouped w (done ++ [hash]) (w', m) := by
  obtain ⟨⟨htags, hfe, -⟩, -⟩ := s.leader _ e hl
  have hno : ¬ w.Leads done hash := fun hlead =>
    absurd (hlead f hf e.hash (s.hash_mem hl) e hfe htags) (not_lt.mpr hsev)
  refine s.concat (fun f' hf' => ?_) fun f' hf' => ?_ <;>
    obtain rfl : f = f' := mem_unique hf hf'
  · exact ⟨e, hl, hsev⟩
  · rw [if_neg hno]
    exact ⟨s.ahead hash hnew, s.not_leader hw hf hnew _⟩

end Grouped

theorem notMem_of_nodup_concat {α : Type*} {done l : List α} {x : α} (hpre : done ++ [x] <+: l)
    (hnd : l.Nodup) : x ∉ done := fun hmem => by
  have hnd' := hpre.sublist.nodup hnd
  rw [nodup_append] at hnd'
  exact hnd'.2.2 x hmem x (by simp) rfl

/-- **The grouping loop.** -/
theorem grouped {w : World} (hw : w.WF) {hashArr : List Hash} (hnd : hashArr.Nodup) (now : ℤ) :
    Grouped w hashArr (hashArr.foldl (groupRecover now) (w, ∅)) := by
  refine foldl_prefix_induction hashArr (Grouped.start hw) ?_
  rintro done hash ⟨w', m⟩ hpre s
  have hnew : hash ∉ done := notMem_of_nodup_concat hpre hnd
  have hsame := (s.ahead hash hnew).fired
  cases hl : w'.fires.lookup hash with
  | none =>
    rw [groupRecover_of_idle now m hl]
    exact s.idle (by rw [← hsame, fired, hl]; rfl)
  | some r =>
    have hf : w.fired hash = some (w'.heap.get r) := by rw [← hsame, fired, hl]; rfl
    cases hlm : m.lookup (w'.heap.get r).tags with
    | none =>
      rw [groupRecover_of_first now hl hlm]
      exact s.first hw hf hnew hlm
    | some e =>
      by_cases hsev : e.severity > (w'.heap.get r).severity
      · rw [groupRecover_of_outranks now hl hlm hsev]
        exact s.overtake hlm hf hw hnew hsev now
      · rw [groupRecover_of_not_outranks now hl hlm hsev]
        exact s.stay hw hf hnew hlm (not_lt.mp hsev)

/-! ## The leaders recover -/

/-- `RecoverSingle` would let the alert go without a recover point. -/
def releasable (w : World) (now : ℤ) (e : AlertCurEvent) : Bool :=
  !w.held e.hash now && decide (e.recoverConfig.judgeType = .origin)

theorem releases_iff {w : World} {h : Hash} {now : ℤ} {f e : AlertCurEvent} (hw : w.WF)
    (hf : w.fired h = some f) : w.Releases false h now e ↔ e = f ∧ w.releasable now f := by
  have hh : f.hash = h := hw.hash_of_fired hf
  constructor
  · intro s
    obtain rfl : f = e := some.inj (hf.symm.trans s.fired)
    exact ⟨rfl, by simp [releasable, hh, s.held, s.judge.resolve_right (by simp)]⟩
  · rintro ⟨rfl, hr⟩
    simp only [releasable, hh, Bool.and_eq_true, Bool.not_eq_true', decide_eq_true_eq] at hr
    exact ⟨hf, hr.1, .inl hr.2⟩

theorem releasable_of_sameAt {w w' : World} {now : ℤ} {e : AlertCurEvent}
    (hs : SameAt e.hash w w') (hr : w'.rule = w.rule) :
    w'.releasable now e = w.releasable now e := by
  rw [releasable, releasable, held, held, hr, hs.seen]

/-- Where nothing has been done to an alert, `RecoverSingle` lets it go if it would have before. -/
theorem releases_iff_of_sameAt {w w' : World} {h : Hash} {now : ℤ} {f : AlertCurEvent}
    (hw' : w'.WF) (hs : SameAt h w w') (hr : w'.rule = w.rule) :
    w'.Releases false h now f ↔ w.fired h = some f ∧ w.releasable now f := by
  constructor
  · intro hrel
    obtain rfl : f.hash = h := hw'.hash_of_fired hrel.fired
    obtain ⟨-, hf⟩ := (releases_iff hw' hrel.fired).mp hrel
    rw [releasable_of_sameAt hs hr] at hf
    exact ⟨hs.fired.symm.trans hrel.fired, hf⟩
  · rintro ⟨hf, hgo⟩
    rw [← hs.fired] at hf
    obtain rfl : f.hash = h := hw'.hash_of_fired hf
    rw [← releasable_of_sameAt hs hr] at hgo
    exact (releases_iff hw' hf).mpr ⟨rfl, hgo⟩

/-- What `RecoverSingle`, tags after tags, has done to the leaders `m` of the tags `done`. -/
structure Swept (w : World) (now : ℤ) (m : GoMap String AlertCurEvent) (v : World)
    (done : List String) (w' : World) : Prop where
  wf : w'.WF
  rule : w'.rule = w.rule
  spared : ∀ h, (∀ t ∈ done, ∀ e ∈ m.lookup t, e.hash = h → w.releasable now e = false) →
    SameAt h v w'
  gone : ∀ t ∈ done, ∀ e ∈ m.lookup t, w.releasable now e → w'.fired e.hash = none ∧
    w'.pending e.hash = none
  pushed : pushed w'.log = pushed w.log ++
    ((done.filterMap m.lookup).filter (w.releasable now)).map (recovery w.rule now none [])

namespace Swept

variable {w v w' : World} {now : ℤ} {m : GoMap String AlertCurEvent} {done : List String}
  {t : String} {e : AlertCurEvent}

theorem skip (s : Swept w now m v done w') (hl : ∀ e ∈ m.lookup t, w.releasable now e = false) :
    Swept w now m v (done ++ [t]) w' where
  wf := s.wf
  rule := s.rule
  spared h hh := s.spared h fun t' ht' => hh t' (mem_append_left _ ht')
  gone t' ht' e he hr := by
    rcases mem_append.mp ht' with ht' | ht'
    · exact s.gone t' ht' e he hr
    · rw [mem_singleton.mp ht'] at he
      rw [hl e he] at hr
      cases hr
  pushed := by
    cases hlook : m.lookup t with
    | none => simp [hlook, s.pushed]
    | some e => simp [hlook, hl e hlook, s.pushed]

theorem release (s : Swept w now m v done w') (hl : m.lookup t = some e)
    (hr : w.releasable now e = true) (hat : SameAt e.hash w w') (hfe : w.fired e.hash = some e)
    (hfresh : ∀ t' ∈ done, ∀ e' ∈ m.lookup t', e'.hash ≠ e.hash) :
    Swept w now m v (done ++ [t]) (w'.recoverSingle false e.hash now none []) := by
  have hrel := (releases_iff_of_sameAt s.wf hat s.rule).mpr ⟨hfe, hr⟩
  obtain ⟨hrem, -, hlog⟩ := recoverSingle_of_releases s.wf none [] hrel
  refine ⟨hrem.wf, hrem.rule.trans s.rule, fun h hh => ?_, fun t' ht' e' he' hr' => ?_, ?_⟩
  · have hne : h ≠ e.hash := fun heq => by
      have hno := hh t (by simp) e hl heq.symm
      rw [hr] at hno
      cases hno
    exact (s.spared h fun t' ht' => hh t' (mem_append_left _ ht')).trans (hrem.sameAt h hne)
  · rcases mem_append.mp ht' with ht' | ht'
    · have hs := hrem.sameAt e'.hash (hfresh t' ht' e' he')
      obtain ⟨hfired, hpending⟩ := s.gone t' ht' e' he' hr'
      exact ⟨hs.fired.trans hfired, hs.pending.trans hpending⟩
    · rw [mem_singleton.mp ht', hl] at he'
      rw [← some.inj he']
      exact ⟨hrem.fired, hrem.pending⟩
  · rw [hlog, ← singleton_append, ← append_assoc, pushed_append, pushed_append,
      pushed_remove, append_nil, s.pushed, pushed_push, s.rule]
    simp [hl, hr]

end Swept

/-- **The leaders are put to `RecoverSingle`**, each as it was before the loops. -/
theorem swept {w : World} {hashArr : List Hash} {acc : World × GoMap String AlertCurEvent}
    (s : Grouped w hashArr acc) {now : ℤ} {tags : List String} (hnd : tags.Nodup) :
    Swept w now acc.2 acc.1 tags (tags.foldl (fun w tags =>
      match acc.2.lookup tags with
      | none => w
      | some event => w.recoverSingle false event.hash now none []) acc.1) := by
  refine foldl_prefix_induction tags
    ⟨s.wf, s.rule, fun h _ => SameAt.refl h _, by simp, by simp [s.pushed]⟩ ?_
  rintro done t w' hpre ih
  have hnew : t ∉ done := notMem_of_nodup_concat hpre hnd
  cases hl : acc.2.lookup t with
  | none => exact ih.skip fun e he => by rw [hl] at he; cases he
  | some e =>
    obtain ⟨⟨-, hfe, hsame⟩, -⟩ := s.leader t e hl
    have hfresh : ∀ t' ∈ done, ∀ e' ∈ acc.2.lookup t', e'.hash ≠ e.hash :=
      fun t' ht' e' he' => s.hash_ne hl he' fun heq => hnew (heq ▸ ht')
    have hat : SameAt e.hash w w' := hsame.trans (ih.spared e.hash fun t' ht' e' he' heq =>
      absurd heq (hfresh t' ht' e' he'))
    cases hr : w.releasable now e with
    | true => exact ih.release hl hr hat hfe hfresh
    | false =>
      have hstay : w'.recoverSingle false e.hash now none [] = w' :=
        recoverSingle_of_not_releases none [] fun f hrel => by
          obtain ⟨hf, hr'⟩ := (releases_iff_of_sameAt ih.wf hat ih.rule).mp hrel
          rw [← mem_unique hfe hf, hr] at hr'
          cases hr'
      simp only [hstay]
      exact ih.skip fun e' he' => mem_unique hl he' ▸ hr

/-! ## The whole sweep -/

/-- The alert `f`, visited after `past`, is removed by the sweep over `hashArr`: it led when it was
visited, and was overtaken or let go. -/
def Goes (w : World) (now : ℤ) (hashArr past : List Hash) (f : AlertCurEvent) : Prop :=
  w.Leads past f.hash ∧ (¬ w.Least hashArr f ∨ w.releasable now f)

section Sweep

variable {w : World} {hashArr : List Hash}

/-- The inhibited branch of `HandleRecoverEvent` is the one loop, then the other. -/
theorem exists_swept (hw : w.WF) (hnd : hashArr.Nodup) (tagOrder : MapOrder String) (now : ℤ) :
    ∃ acc, Grouped w hashArr acc ∧ Swept w now acc.2 acc.1 (tagOrder.list acc.2.keys)
      (w.handleRecoverEvent tagOrder hashArr now true) :=
  ⟨_, grouped hw hnd now, swept (grouped hw hnd now) (tagOrder.nodup _)⟩

section

variable {tagOrder : MapOrder String} {now : ℤ} {acc : World × GoMap String AlertCurEvent}
  {v : World}

/-- A leader of the grouping loop is among the tags the second loop visits. -/
theorem mem_list_of_lookup {m : GoMap String AlertCurEvent} {tags : String} {e : AlertCurEvent}
    (hl : m.lookup tags = some e) : tags ∈ tagOrder.list m.keys := by
  rw [MapOrder.mem_list, Finmap.mem_keys]
  exact Finmap.mem_iff.mpr ⟨e, hl⟩

/-- A leader is let go if it can be, and is otherwise as it was. -/
theorem Swept.leader {f : AlertCurEvent} (sg : Grouped w hashArr acc)
    (ss : Swept w now acc.2 acc.1 (tagOrder.list acc.2.keys) v) (hl : acc.2.lookup f.tags = some f)
    : (w.releasable now f → v.fired f.hash = none ∧ v.pending f.hash = none) ∧
    (w.releasable now f = false → SameAt f.hash w v) := by
  obtain ⟨⟨-, hf, hsame⟩, -⟩ := sg.leader _ f hl
  refine ⟨ss.gone f.tags (mem_list_of_lookup hl) f hl, fun hr => ?_⟩
  refine hsame.trans (ss.spared f.hash fun t ht e he heq => ?_)
  obtain ⟨⟨-, hfe, -⟩, -⟩ := sg.leader t e he
  rw [heq, hf] at hfe
  rw [← some.inj hfe, hr]

/-- The second loop leaves an alert alone that does not lead. -/
theorem Swept.sameAt {h : Hash} (ss : Swept w now acc.2 acc.1 (tagOrder.list acc.2.keys) v)
    (hno : ∀ t, ∀ e ∈ acc.2.lookup t, e.hash ≠ h) : SameAt h acc.1 v :=
  ss.spared h fun t _ e he heq => absurd heq (hno t e he)

end

section

variable {h : Hash} (hw : w.WF) (hnd : hashArr.Nodup) (tagOrder : MapOrder String) (now : ℤ)

include hw hnd

/-- **What the inhibited sweep does to the alert of a hash.** -/
theorem handleRecoverEvent_inhibited {past rest : List Hash} {f : AlertCurEvent}
    (hd : hashArr = past ++ h :: rest) (hf : w.fired h = some f) : (w.Goes now hashArr past f →
      (w.handleRecoverEvent tagOrder hashArr now true).fired h = none ∧
        (w.handleRecoverEvent tagOrder hashArr now true).pending h = none) ∧
    (¬ w.Goes now hashArr past f →
      SameAt h w (w.handleRecoverEvent tagOrder hashArr now true)) := by
  obtain ⟨acc, sg, ss⟩ := exists_swept hw hnd tagOrder now
  obtain rfl : f.hash = h := hw.hash_of_fired hf
  have hfate := sg.passed past f.hash rest hd f hf
  rw [Goes]
  by_cases hlead : w.Leads past f.hash
  · rw [if_pos hlead] at hfate
    rcases hfate with hl | ⟨hnot, hgone, hpend⟩
    · obtain ⟨-, hleast, -⟩ := sg.leader _ f hl
      obtain ⟨hgo, hstay⟩ := ss.leader sg hl
      refine ⟨fun hgoes => hgo (hgoes.2.resolve_left fun hno => hno hleast), fun hno => hstay ?_⟩
      exact Bool.eq_false_iff.mpr fun hr => hno ⟨hlead, .inr hr⟩
    · have hs := ss.sameAt (h := f.hash) fun t e he heq => by
        obtain ⟨⟨-, hfe, hsame⟩, -⟩ := sg.leader t e he
        rw [← hsame.fired, heq, hgone] at hfe
        cases hfe
      exact ⟨fun _ => ⟨hs.fired.trans hgone, hs.pending.trans hpend⟩,
        fun hno => absurd ⟨hlead, .inl hnot⟩ hno⟩
  · rw [if_neg hlead] at hfate
    refine ⟨fun hgo => absurd hgo.1 hlead, fun _ => hfate.1.trans (ss.sameAt fun t e he heq => ?_)⟩
    obtain ⟨⟨htags, hfe, -⟩, -⟩ := sg.leader t e he
    obtain rfl : f = e := by rw [heq, hf] at hfe; exact some.inj hfe
    rw [← htags] at he
    exact absurd he hfate.2

theorem sameAt_handleRecoverEvent_inhibited (hh : h ∉ hashArr) :
    SameAt h w (w.handleRecoverEvent tagOrder hashArr now true) := by
  obtain ⟨acc, sg, ss⟩ := exists_swept hw hnd tagOrder now
  exact (sg.ahead h hh).trans (ss.sameAt fun t e he heq => hh (heq ▸ sg.hash_mem he))

theorem fired_handleRecoverEvent_of_idle (hf : w.fired h = none) :
    (w.handleRecoverEvent tagOrder hashArr now true).fired h = none := by
  obtain ⟨acc, sg, ss⟩ := exists_swept hw hnd tagOrder now
  have hsame : SameAt h acc.1 (w.handleRecoverEvent tagOrder hashArr now true) :=
    ss.sameAt fun t e he heq => by
      obtain ⟨⟨-, hfe, -⟩, -⟩ := sg.leader t e he
      rw [heq, hf] at hfe
      cases hfe
  rw [hsame.fired, fired_eq_none_iff]
  intro hmem
  obtain ⟨r, hr⟩ := mem_iff.mp hmem
  have hfires : h ∈ w.fires := mem_iff.mpr ⟨r, sg.dropping.fires h r hr⟩
  exact (w.fired_eq_none_iff h).mp hf hfires

end

/-! ## When the sweep settles everything -/

/-- What an inhibited recovery of `hashArr` owes: none of them is left firing, and of every tags one
recovery is pushed, that of an alert of the smallest severity number. -/
structure Settles (w : World) (hashArr : List Hash) (now : ℤ) (w' : World) : Prop where
  gone : ∀ h ∈ hashArr, h ∉ w'.fires
  one : ∃ new, pushed w'.log = pushed w.log ++ new ∧
    ∀ h ∈ hashArr, ∀ f ∈ w.fired h, ∃ e, e.hash ∈ hashArr ∧ w.fired e.hash = some e ∧
      w.Least hashArr e ∧
      new.filter (fun p => p.tags = f.tags) = [recovery w.rule now none [] e] ∧ e.tags = f.tags

/-- Leaders filed under their tags: of each tags there is one. -/
theorem filter_leaders {m : GoMap String AlertCurEvent}
    (hm : ∀ t e, m.lookup t = some e → e.tags = t) {ts : List String} (hnd : ts.Nodup)
    (t : String) : (ts.filterMap m.lookup).filter (fun e => e.tags = t)
      = if t ∈ ts then (m.lookup t).toList else [] := by
  induction ts with
  | nil => simp
  | cons t' ts ih =>
    obtain ⟨hnew, hnd⟩ := nodup_cons.mp hnd
    have ih := ih hnd
    cases hl : m.lookup t' with
    | none =>
      simp only [filterMap_cons, hl, ih]
      by_cases ht : t = t'
      · subst ht; simp [hnew, hl]
      · simp [ht]
    | some e =>
      have htags : e.tags = t' := hm t' e hl
      simp only [filterMap_cons, hl, filter_cons, ih, htags]
      by_cases ht : t = t'
      · subst ht; simp [hnew, hl]
      · simp [ht, Ne.symm ht]

theorem gone_of_leads (hw : w.WF) (hnd : hashArr.Nodup) (tagOrder : MapOrder String) {now : ℤ}
    (hrel : ∀ h ∈ hashArr, ∀ f ∈ w.fired h, w.releasable now f = true)
    (hlead : Historic w.Leads hashArr) {h : Hash} (hh : h ∈ hashArr) :
    h ∉ (w.handleRecoverEvent tagOrder hashArr now true).fires := by
  obtain ⟨past, rest, hd⟩ := append_of_mem hh
  rw [← fired_eq_none_iff]
  cases hf : w.fired h with
  | none => exact fired_handleRecoverEvent_of_idle hw hnd tagOrder now hf
  | some f =>
    have hhash : f.hash = h := hw.hash_of_fired hf
    exact ((handleRecoverEvent_inhibited hw hnd tagOrder now hd hf).1
      ⟨by rw [hhash]; exact hlead past h rest hd, .inr (hrel h hh f hf)⟩).1

/-- Of every tags one recovery is pushed, that of the leader, if all alerts can be let go. -/
theorem exists_pushed_of_releasable (hw : w.WF) (hnd : hashArr.Nodup) (tagOrder : MapOrder String)
    {now : ℤ} (hrel : ∀ h ∈ hashArr, ∀ f ∈ w.fired h, w.releasable now f = true) :
    ∃ new, pushed (w.handleRecoverEvent tagOrder hashArr now true).log = pushed w.log ++ new ∧
      ∀ h ∈ hashArr, ∀ f ∈ w.fired h, ∃ e, e.hash ∈ hashArr ∧ w.fired e.hash = some e ∧
        w.Least hashArr e ∧
        new.filter (fun p => p.tags = f.tags) = [recovery w.rule now none [] e] ∧
        e.tags = f.tags := by
  obtain ⟨acc, sg, ss⟩ := exists_swept hw hnd tagOrder now
  have hall : ((tagOrder.list acc.2.keys).filterMap acc.2.lookup).filter (w.releasable now)
      = (tagOrder.list acc.2.keys).filterMap acc.2.lookup := by
    refine List.filter_eq_self.mpr fun e he => ?_
    obtain ⟨t, -, hl⟩ := List.mem_filterMap.mp he
    obtain ⟨⟨-, hfe, -⟩, -⟩ := sg.leader t e hl
    exact hrel e.hash (sg.hash_mem hl) e hfe
  refine ⟨_, ss.pushed, fun h hh f hf => ?_⟩
  obtain ⟨e, hl⟩ := mem_iff.mp (sg.covered h hh f hf)
  obtain ⟨⟨htags, hfe, -⟩, hleast, -⟩ := sg.leader _ e hl
  refine ⟨e, sg.hash_mem hl, hfe, hleast, ?_, htags⟩
  have hone := filter_leaders (fun t e hl => (sg.leader t e hl).1.1) (tagOrder.nodup acc.2.keys)
    f.tags
  rw [if_pos (mem_list_of_lookup hl), hl] at hone
  rw [hall, List.filter_map]
  exact congrArg (List.map _) hone

/-- **An inhibited recovery settles all its alerts exactly when each of them leads in its turn**:
of two alerts with the same tags, the one visited later has the smaller severity number. -/
theorem inhibited_recovery_settles_iff (hw : w.WF) (hnd : hashArr.Nodup)
    (hD : w.rule.recoverDuration = 0)
    (hJ : ∀ h ∈ hashArr, ∀ f ∈ w.fired h, f.recoverConfig.judgeType = .origin)
    (tagOrder : MapOrder String) (now : ℤ) :
    w.Settles hashArr now (w.handleRecoverEvent tagOrder hashArr now true)
      ↔ Historic w.Leads hashArr := by
  have hrel : ∀ h ∈ hashArr, ∀ f ∈ w.fired h, w.releasable now f = true := fun h hh f hf => by
    simp [releasable, held, hD, hJ h hh f hf]
  constructor
  · intro s past h rest hd
    by_contra hno
    obtain ⟨f, hf⟩ : ∃ f, w.fired h = some f := by
      by_contra hnone
      exact hno fun f hf => absurd ⟨f, hf⟩ hnone
    have hstay := (handleRecoverEvent_inhibited hw hnd tagOrder now hd hf).2 fun hgo =>
      hno (hw.hash_of_fired hf ▸ hgo.1)
    exact s.gone h (by rw [hd]; simp) (hstay.mem_fires.mpr (mem_fires_of_fired hf))
  · intro hlead
    exact ⟨fun h hh => gone_of_leads hw hnd tagOrder hrel hlead hh,
      exists_pushed_of_releasable hw hnd tagOrder hrel⟩

end Sweep

end World

namespace Example

/-- Two alerts of the same tags, of severity 1 and 2. -/
def pair : World :=
  ({ rule := { id := 1 } } : World).handle env
    (call { id := 1 } 100 [point "a" 1 100, point "a" 2 100])

/-- The hash of an alert of `pair`. -/
def pairHash (severity : ℤ) : Hash := pointHash env 1 (point "a" severity 100)

theorem wf_pair : pair.WF := (WF.initial _ _ _).handle _ _

/-- Visited from the lesser priority to the greater, the two leave nothing behind. -/
theorem pair_settles_rising : pair.Settles [pairHash 2, pairHash 1] 160
      (pair.handleRecoverEvent order [pairHash 2, pairHash 1] 160 true) :=
  (inhibited_recovery_settles_iff wf_pair (by decide) rfl (by decide) order 160).mpr (by decide)

/-- **Visited the other way round, one alert is left firing**: not every order settles. -/
theorem pair_left_firing :
    ¬ ∀ (w : World) (hashArr : List Hash) (tagOrder : MapOrder String) (now : ℤ), w.WF →
      hashArr.Nodup → w.rule.recoverDuration = 0 →
      (∀ h ∈ hashArr, ∀ f ∈ w.fired h, f.recoverConfig.judgeType = .origin) →
      w.Settles hashArr now (w.handleRecoverEvent tagOrder hashArr now true) := by
  intro h
  have hs := h pair [pairHash 1, pairHash 2] order 160 wf_pair (by decide) rfl (by decide)
  exact hs.gone (pairHash 2) (by decide) (by decide)

end Example

end Nightingale
