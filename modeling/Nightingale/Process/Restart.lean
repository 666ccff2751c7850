import Mathlib.Data.List.Forall2
import Nightingale.Process.Agreement

/-!
# Process/Restart — a restart and the run it interrupts

    w ──Handle──▸ · ──Handle──▸ · ──Handle──▸ ·        the same notifications
    │ RecoverAlertCurEventFromDb                        from both rows
    ▾
    v ──Handle──▸ · ──Handle──▸ · ──Handle──▸ ·

A restart rebuilds the alerts from their rows, under new references and without what no column
holds: when an alert was last sent, when it was last seen, and its recover condition.  Two worlds
are **twins** when their alerts are alike — the same numbers and texts, and the same decision to
repeat at every later time.  Without a for-duration and an observation window nothing else decides
what is pushed, so twins stay twins through every call and push the same notifications.
-/

namespace Nightingale

open AlertCurEvent World List Option Finmap

/-! ## Notifications -/

/-- What a notification shows of its event. -/
structure Note where
  hash : Hash
  isRecovered : Bool
  notifyCurNumber : ℤ
  firstTriggerTime : ℤ
  deriving DecidableEq

/-- The notification of an event. -/
def AlertCurEvent.note (e : AlertCurEvent) : Note where
  hash := e.hash
  isRecovered := e.isRecovered
  notifyCurNumber := e.notifyCurNumber
  firstTriggerTime := e.firstTriggerTime

/-- The notifications of a history, in order. -/
def notes (log : List Effect) : List Note :=
  log.filterMap fun
    | .push e _ => some e.note
    | _ => none

@[simp] theorem notes_append (l l' : List Effect) : notes (l ++ l') = notes l ++ notes l' :=
  filterMap_append

@[simp] theorem notes_push (e : AlertCurEvent) (b : Bool) : notes [Effect.push e b] = [e.note] :=
  rfl

@[simp] theorem notes_remove (h : Hash) (now : ℤ) (seen : Option ℤ) (b : Bool) :
    notes [Effect.remove h now seen b] = [] := rfl

@[simp] theorem notes_delivered (env : Env) (c : HandleCall) (rule : AlertRule) :
    notes (c.delivered env rule) = [] := by
  rw [eq_nil_iff_forall_not_mem]
  intro n hn
  obtain ⟨x, hx, hxn⟩ := mem_filterMap.mp hn
  obtain ⟨point, -, rfl⟩ := mem_map.mp hx
  cases hxn

/-! ## Alerts alike -/

theorem optionRel_cases {α β : Type*} {R : α → β → Prop} {a : Option α} {b : Option β}
    (h : Option.Rel R a b) : (a = none ∧ b = none) ∨ ∃ x y, a = some x ∧ b = some y ∧ R x y := by
  cases h with
  | none => exact .inl ⟨rfl, rfl⟩
  | some h => exact .inr ⟨_, _, rfl, rfl, h⟩

/-- The rule notifies again of the alert `f` at time `t`. -/
def AlertRule.repeatsAt (rule : AlertRule) (f : AlertCurEvent) (t : ℤ) : Prop :=
  rule.notifyRepeatStep ≠ 0 ∧ f.lastSentTime + rule.notifyRepeatStep * 60 ≤ t ∧
    ¬ (rule.notifyMaxNumber ≠ 0 ∧ f.notifyCurNumber ≥ rule.notifyMaxNumber)

instance (rule : AlertRule) (f : AlertCurEvent) (t : ℤ) : Decidable (rule.repeatsAt f t) :=
  inferInstanceAs (Decidable (_ ∧ _ ∧ ¬ (_ ∧ _)))

theorem AlertRule.notifies_fired (rule : AlertRule) (f e : AlertCurEvent) : rule.notifies (some f) e
      = if rule.repeatsAt f e.lastEvalTime then
          some { e with
            firstTriggerTime := f.firstTriggerTime
            notifyCurNumber := f.notifyCurNumber + 1
            lastSentTime := e.lastEvalTime }
        else none := by
  unfold notifies
  dsimp only
  by_cases hs : rule.notifyRepeatStep = 0
  · rw [if_pos hs, if_neg fun hr => hr.1 hs]
  rw [if_neg hs]
  by_cases ht : e.lastEvalTime ≥ f.lastSentTime + rule.notifyRepeatStep * 60
  · rw [if_pos ht]
    by_cases hm : rule.notifyMaxNumber ≠ 0 ∧ f.notifyCurNumber ≥ rule.notifyMaxNumber
    · rw [if_pos hm, if_neg fun hr => hr.2.2 hm]
    · rw [if_neg hm, if_pos ⟨hs, ht, hm⟩]
  · rw [if_neg ht, if_neg fun hr => ht hr.2.1]

/-- Two alerts no evaluation from `T` on can tell apart. -/
structure Alike (rule : AlertRule) (T : ℤ) (f g : AlertCurEvent) : Prop where
  hash : g.hash = f.hash
  tags : g.tags = f.tags
  severity : g.severity = f.severity
  number : g.notifyCurNumber = f.notifyCurNumber
  first : g.firstTriggerTime = f.firstTriggerTime
  judge : g.recoverConfig.judgeType = f.recoverConfig.judgeType
  repeats : ∀ t, T ≤ t → (rule.repeatsAt g t ↔ rule.repeatsAt f t)

namespace Alike

variable {rule : AlertRule} {T : ℤ} {f g : AlertCurEvent}

theorem mono {T' : ℤ} (a : Alike rule T f g) (hT : T ≤ T') : Alike rule T' f g :=
  { a with repeats := fun t ht => a.repeats t (hT.trans ht) }

theorem of_core {f' g' : AlertCurEvent} (a : Alike rule T f g) (hf : f'.core = f.core)
    (hg : g'.core = g.core) : Alike rule T f' g' := by
  have hπ : ∀ {β : Type} (π : AlertCurEvent → β), (∀ e, π e.core = π e) → π g = π f →
      π g' = π f' := fun π hπ heq => by
    rw [proj_eq_of_core_eq π hπ hg, heq, proj_eq_of_core_eq π hπ hf]
  refine ⟨hπ AlertCurEvent.hash (fun _ => rfl) a.hash, hπ AlertCurEvent.tags (fun _ => rfl) a.tags,
    hπ AlertCurEvent.severity (fun _ => rfl) a.severity,
    hπ notifyCurNumber (fun _ => rfl) a.number, hπ firstTriggerTime (fun _ => rfl) a.first,
    hπ (·.recoverConfig.judgeType) (fun _ => rfl) a.judge, fun t ht => ?_⟩
  have hr : ∀ {a b : AlertCurEvent}, a.core = b.core → (rule.repeatsAt a t ↔ rule.repeatsAt b t) :=
    fun h => (proj_eq_of_core_eq (rule.repeatsAt · t) (fun _ => rfl) h).to_iff
  exact (hr hg).trans ((a.repeats t ht).trans (hr hf).symm)

/-- Events alike are notified of alike, and the alerts they become are alike. -/
theorem notifies {e e' : AlertCurEvent} {fired fired' : Option AlertCurEvent}
    (hf : Option.Rel (Alike rule T) fired fired') (hid : e'.ident = e.ident)
    (ht : e'.lastEvalTime = e.lastEvalTime) (hT : T ≤ e.lastEvalTime) :
    Option.Rel (fun p p' => Alike rule T p p' ∧ p'.note = p.note)
      (rule.notifies fired e) (rule.notifies fired' e') := by
  have hπ : ∀ {β : Type} (π : AlertCurEvent → β), (∀ e, π e.ident = π e) → π e' = π e :=
    fun π hπ => proj_eq_of_ident_eq π hπ hid
  have hhash := hπ AlertCurEvent.hash fun _ => rfl
  have htags := hπ AlertCurEvent.tags fun _ => rfl
  have hsev := hπ AlertCurEvent.severity fun _ => rfl
  have hrec := hπ isRecovered fun _ => rfl
  have hj := hπ (·.recoverConfig.judgeType) fun _ => rfl
  have htt := hπ triggerTime fun _ => rfl
  cases hf with
  | none =>
    refine Rel.some ⟨⟨hhash, htags, hsev, rfl, htt, hj, fun t _ => ?_⟩, ?_⟩
    · simp only [AlertRule.repeatsAt, ht]
    · simp only [note, hhash, hrec, htt]
  | @some f g a =>
    rw [AlertRule.notifies_fired, AlertRule.notifies_fired, ht]
    by_cases hr : rule.repeatsAt f e.lastEvalTime
    · rw [if_pos hr, if_pos ((a.repeats _ hT).mpr hr)]
      refine Rel.some ⟨⟨hhash, htags, hsev, ?_, a.first, hj, fun t _ => ?_⟩, ?_⟩
      · simp only [a.number]
      · simp only [AlertRule.repeatsAt, a.number]
      · simp only [note, hhash, hrec, a.number, a.first]
    · rw [if_neg hr, if_neg fun hr' => hr ((a.repeats _ hT).mp hr')]
      exact Rel.none

end Alike

namespace World

/-! ## Twins -/

/-- Two worlds with alike alerts and the same notifications behind them. -/
structure Twin (rule : AlertRule) (T : ℤ) (w v : World) : Prop where
  wf : w.WF
  wf' : v.WF
  window : w.rule.recoverDuration = 0
  window' : v.rule.recoverDuration = 0
  fired : ∀ h, Option.Rel (Alike rule T) (w.fired h) (v.fired h)
  sameNotes : notes v.log = notes w.log

namespace Twin

variable {rule : AlertRule} {T now : ℤ} {w v w' v' : World} {h : Hash}

section

variable (t : Twin rule T w v)

include t

theorem mono {T' : ℤ} (hT : T ≤ T') : Twin rule T' w v where
  wf := t.wf
  wf' := t.wf'
  window := t.window
  window' := t.window'
  fired h := by
    rcases optionRel_cases (t.fired h) with ⟨hw, hv⟩ | ⟨f, g, hw, hv, a⟩ <;> rw [hw, hv]
    · exact .none
    · exact .some (a.mono hT)
  sameNotes := t.sameNotes

theorem cases (h : Hash) : (w.fired h = none ∧ v.fired h = none) ∨
      ∃ f g, w.fired h = some f ∧ v.fired h = some g ∧ Alike rule T f g :=
  optionRel_cases (t.fired h)

theorem mem_fires (h : Hash) : h ∈ v.fires ↔ h ∈ w.fires := by
  rw [← fired_isSome_iff, ← fired_isSome_iff]
  rcases t.cases h with ⟨hw, hv⟩ | ⟨f, g, hw, hv, -⟩ <;> simp [hw, hv]

theorem keys : v.fires.keys = w.fires.keys :=
  Finset.ext fun h => by rw [Finmap.mem_keys, Finmap.mem_keys, t.mem_fires]

/-- Removing the alert of one hash on both sides, with the same notifications. -/
theorem removes (s : Removes h w w') (s' : Removes h v v') {l l' : List Effect}
    (hl : w'.log = w.log ++ l) (hl' : v'.log = v.log ++ l') (hnotes : notes l' = notes l)
    : Twin rule T w' v' where
  wf := s.wf
  wf' := s'.wf
  window := by rw [s.rule, t.window]
  window' := by rw [s'.rule, t.window']
  fired h' := by
    by_cases hh : h' = h
    · rw [hh, s.fired, s'.fired]; exact .none
    · rw [(s.sameAt h' hh).fired, (s'.sameAt h' hh).fired]; exact t.fired h'
  sameNotes := by rw [hl, hl', notes_append, notes_append, t.sameNotes, hnotes]

theorem dropInhibited (h : Hash) (now : ℤ) :
    Twin rule T (w.dropInhibited h now) (v.dropInhibited h now) := by
  obtain ⟨s, -, hl⟩ := removes_dropInhibited t.wf h now
  obtain ⟨s', -, hl'⟩ := removes_dropInhibited t.wf' h now
  exact t.removes s s' hl hl' rfl

end

theorem note_recovery (rule : AlertRule) (now : ℤ) (v : Option String) (vs : List String)
    (e : AlertCurEvent) : (recovery rule now v vs e).note
      = { e.note with isRecovered := true } := by cases v <;> rfl

theorem releases_iff (hw : w.rule.recoverDuration = 0) {b : Bool} {f : AlertCurEvent} (now : ℤ) :
    w.Releases b h now f
      ↔ w.fired h = some f ∧ (f.recoverConfig.judgeType = .origin ∨ b = true) :=
  ⟨fun hr => ⟨hr.fired, hr.judge⟩, fun hr => ⟨hr.1, by simp [held, hw], hr.2⟩⟩

theorem recoverSingle (t : Twin rule T w v) (b : Bool) (h : Hash) (now : ℤ) (x : Option String)
    (xs : List String) :
    Twin rule T (w.recoverSingle b h now x xs) (v.recoverSingle b h now x xs) := by
  rcases t.cases h with ⟨hw, hv⟩ | ⟨f, g, hw, hv, a⟩
  · rw [recoverSingle_of_not_releases x xs fun f hr => by simpa [hw] using hr.fired,
      recoverSingle_of_not_releases x xs fun f hr => by simpa [hv] using hr.fired]
    exact t
  by_cases hj : f.recoverConfig.judgeType = .origin ∨ b = true
  · obtain ⟨s, -, hl⟩ := recoverSingle_of_releases t.wf x xs
      ((releases_iff t.window now).mpr ⟨hw, hj⟩)
    obtain ⟨s', -, hl'⟩ := recoverSingle_of_releases t.wf' x xs
      ((releases_iff t.window' now).mpr ⟨hv, by rw [a.judge]; exact hj⟩)
    refine t.removes s s' hl hl' ?_
    change [(recovery v.rule now x xs g).note] = [(recovery w.rule now x xs f).note]
    rw [note_recovery, note_recovery]
    simp only [note, a.hash, a.number, a.first]
  · rw [recoverSingle_of_not_releases x xs fun f' hr => ?_,
      recoverSingle_of_not_releases x xs fun g' hr => ?_]
    · exact t
    · obtain rfl := some.inj (hv.symm.trans hr.fired)
      exact hj (by rw [← a.judge]; exact hr.judge)
    · obtain rfl := some.inj (hw.symm.trans hr.fired)
      exact hj hr.judge

/-- What the grouping loop remembers of alike alerts. -/
def SameGroup (e e' : AlertCurEvent) : Prop :=
  e'.hash = e.hash ∧ e'.tags = e.tags ∧ e'.severity = e.severity

theorem groupRecover {m m' : GoMap String AlertCurEvent} (t : Twin rule T w v)
    (hm : ∀ tags, Option.Rel SameGroup (m.lookup tags) (m'.lookup tags)) (hash : Hash) :
    Twin rule T (groupRecover now (w, m) hash).1 (groupRecover now (v, m') hash).1 ∧
      ∀ tags, Option.Rel SameGroup ((groupRecover now (w, m) hash).2.lookup tags)
        ((groupRecover now (v, m') hash).2.lookup tags) := by
  rcases t.cases hash with ⟨hw, hv⟩ | ⟨f, g, hw, hv, a⟩
  · have hlw : w.fires.lookup hash = none := map_eq_none_iff.mp hw
    have hlv : v.fires.lookup hash = none := map_eq_none_iff.mp hv
    rw [groupRecover_of_idle now m hlw, groupRecover_of_idle now m' hlv]
    exact ⟨t, hm⟩
  obtain ⟨r, hlw, rfl⟩ := map_eq_some_iff.mp hw
  obtain ⟨r', hlv, rfl⟩ := map_eq_some_iff.mp hv
  have hins : ∀ tags, Rel SameGroup
      ((m.insert (w.heap.get r).tags (w.heap.get r)).lookup tags)
      ((m'.insert (v.heap.get r').tags (v.heap.get r')).lookup tags) := fun tags => by
    rw [a.tags]
    by_cases htags : tags = (w.heap.get r).tags
    · subst htags
      rw [lookup_insert, lookup_insert]
      exact .some ⟨a.hash, a.tags, a.severity⟩
    · rw [lookup_insert_of_ne _ htags, lookup_insert_of_ne _ htags]
      exact hm tags
  rcases optionRel_cases (hm (w.heap.get r).tags) with ⟨hmw, hmv⟩ | ⟨e, e', hmw, hmv, hg⟩
  · rw [groupRecover_of_first now hlw hmw,
      groupRecover_of_first now hlv (by rw [a.tags]; exact hmv)]
    exact ⟨t, hins⟩
  have hmv' : m'.lookup (v.heap.get r').tags = some e' := by rw [a.tags]; exact hmv
  obtain ⟨hhash, -, hsev⟩ := hg
  have hiff : e'.severity > (v.heap.get r').severity ↔ e.severity > (w.heap.get r).severity := by
    rw [hsev, a.severity]
  by_cases hlt : e.severity > (w.heap.get r).severity
  · rw [groupRecover_of_outranks now hlw hmw hlt,
      groupRecover_of_outranks now hlv hmv' (hiff.mpr hlt), hhash]
    exact ⟨t.dropInhibited e.hash now, hins⟩
  · rw [groupRecover_of_not_outranks now hlw hmw hlt,
      groupRecover_of_not_outranks now hlv hmv' (mt hiff.mp hlt)]
    exact ⟨t, hm⟩

theorem handleRecoverEvent (t : Twin rule T w v) (tagOrder : MapOrder String)
    (hashArr : List Hash) (now : ℤ) (inhibit : Bool) :
    Twin rule T (w.handleRecoverEvent tagOrder hashArr now inhibit)
      (v.handleRecoverEvent tagOrder hashArr now inhibit) := by
  cases inhibit with
  | false => exact foldl_rel t fun h _ w v t => t.recoverSingle false h now none []
  | true =>
    obtain ⟨ht, hm⟩ := foldl_rel (l := hashArr) (f := World.groupRecover now)
      (g := World.groupRecover now) (a := (w, ∅)) (b := (v, ∅))
      (r := fun acc acc' => Twin rule T acc.1 acc'.1 ∧
        ∀ tags, Option.Rel SameGroup (acc.2.lookup tags) (acc'.2.lookup tags))
      ⟨t, fun tags => .none⟩ fun h _ acc acc' ⟨t, hm⟩ => t.groupRecover hm h
    change Twin rule T (foldl _ (hashArr.foldl (World.groupRecover now) (w, ∅)).1 _)
      (foldl _ (hashArr.foldl (World.groupRecover now) (v, ∅)).1 _)
    have hkeys : (hashArr.foldl (World.groupRecover now) (v, ∅)).2.keys
        = (hashArr.foldl (World.groupRecover now) (w, ∅)).2.keys := Finset.ext fun tags => by
      rw [Finmap.mem_keys, Finmap.mem_keys, ← Finmap.lookup_isSome, ← Finmap.lookup_isSome]
      rcases optionRel_cases (hm tags) with ⟨hw, hv⟩ | ⟨e, e', hw, hv, -⟩ <;> simp [hw, hv]
    rw [hkeys]
    refine foldl_rel ht fun tags _ w v t => ?_
    rcases optionRel_cases (hm tags) with ⟨hw, hv⟩ | ⟨e, e', hw, hv, hg⟩
    · simpa only [hw, hv] using t
    · simpa only [hw, hv, hg.1] using t.recoverSingle false e.hash now none []

/-- **Twins recover the same alerts.** -/
theorem handleRecover (t : Twin rule T w v) (fireOrder tagOrder : MapOrder String) (K : List Hash)
    (now : ℤ) (inhibit : Bool) : Twin rule T (w.handleRecover fireOrder tagOrder K now inhibit)
      (v.handleRecover fireOrder tagOrder K now inhibit) := by
  have hforget : Twin rule T (w.forget fireOrder K) (v.forget fireOrder K) :=
    ⟨t.wf.forget fireOrder K, t.wf'.forget fireOrder K, t.window, t.window', t.fired, t.sameNotes⟩
  dsimp only [World.handleRecover]
  rw [hforget.keys]
  exact hforget.handleRecoverEvent tagOrder _ now inhibit

end Twin

/-! ## The two evaluations, event by event -/

section Calls

variable {env : Env} {c : HandleCall} {rule : AlertRule} {w v w' v' : World} {r r' : Ref}

/-- **The same points make the same groups**, whatever references their events are given. -/
theorem collect_paired (env : Env) (c : HandleCall) (rule : AlertRule)
    (heap heap' : Heap AlertCurEvent) :
    (c.collect env rule heap').eventsMap.keys = (c.collect env rule heap).eventsMap.keys ∧
      ∀ key, List.Forall₂ (fun r r' =>
          (c.collect env rule heap').heap.get r' = (c.collect env rule heap).heap.get r)
        (((c.collect env rule heap).eventsMap.lookup key).getD [])
        (((c.collect env rule heap').eventsMap.lookup key).getD []) := by
  have hfold := foldl_rel (l := c.points.zipIdx) (f := c.collectOne env rule)
    (g := c.collectOne env rule) (a := { heap := heap }) (b := { heap := heap' })
    (r := fun acc acc' => acc'.eventsMap.keys = acc.eventsMap.keys ∧
      ∀ key, List.Forall₂ (fun r r' => (r < acc.heap.next ∧ r' < acc'.heap.next) ∧
          acc'.heap.get r' = acc.heap.get r)
        ((acc.eventsMap.lookup key).getD []) ((acc'.eventsMap.lookup key).getD []))
    ⟨rfl, fun key => List.Forall₂.nil⟩ ?_
  · exact ⟨hfold.1, fun key => (hfold.2 key).imp fun _ _ h => h.2⟩
  rintro p - acc acc' ⟨hkeys, hgroups⟩
  cases hs : c.screen env rule p.2 p.1 with
  | none => simpa only [HandleCall.collectOne, hs] using ⟨hkeys, hgroups⟩
  | some event =>
    simp only [HandleCall.collectOne, hs]
    have hmem : ∀ k, k ∈ acc'.eventsMap ↔ k ∈ acc.eventsMap := fun k => by
      rw [← Finmap.mem_keys, hkeys, Finmap.mem_keys]
    have hold : ∀ key, List.Forall₂ (fun r r' =>
        (r < (acc.heap.alloc event).next ∧ r' < (acc'.heap.alloc event).next) ∧
          (acc'.heap.alloc event).get r' = (acc.heap.alloc event).get r)
        ((acc.eventsMap.lookup key).getD []) ((acc'.eventsMap.lookup key).getD []) := by
      refine fun key => (hgroups key).imp ?_
      rintro r r' ⟨⟨hr, hr'⟩, heq⟩
      refine ⟨⟨Nat.lt_succ_of_lt hr, Nat.lt_succ_of_lt hr'⟩, ?_⟩
      rw [Heap.get_alloc_of_lt _ _ hr, Heap.get_alloc_of_lt _ _ hr', heq]
    refine ⟨Finset.ext fun k => ?_, fun key => ?_⟩
    · rw [Finmap.mem_keys, Finmap.mem_keys, Finmap.mem_insert, Finmap.mem_insert, hmem]
    · by_cases hk : key = tagHash env p.1
      · subst hk
        simp only [Finmap.lookup_insert, getD_some]
        exact rel_append (hold _) (.cons ⟨⟨Nat.lt_succ_self _, Nat.lt_succ_self _⟩, by
          rw [Heap.get_alloc_self, Heap.get_alloc_self]⟩ .nil)
      · rw [Finmap.lookup_insert_of_ne _ hk, Finmap.lookup_insert_of_ne _ hk]
        exact hold key

/-- Two references to the event of one point. -/
structure Paired (env : Env) (c : HandleCall) (rule : AlertRule) (w v : World) (r r' : Ref) :
    Prop where
  has : (c.collect env rule w.heap).Has r
  has' : (c.collect env rule v.heap).Has r'
  get : (c.collect env rule v.heap).heap.get r' = (c.collect env rule w.heap).heap.get r

/-- Two evaluations of the same points, as far as they have got. -/
structure Locked (env : Env) (c : HandleCall) (rule : AlertRule) (w v w' v' : World) : Prop where
  left : InCall env c rule w w'
  right : InCall env c rule v v'
  twin : Twin rule c.now w' v'

namespace Locked

section

variable (l : Locked env c rule w v w' v') (p : Paired env c rule w v r r')

include l p

theorem ident : (v'.heap.get r').ident = (w'.heap.get r).ident := by
  rw [l.right.keeps.get r', l.left.keeps.get r, p.get]

theorem look : Locked env c rule w v (w'.look env r).1 (v'.look env r').1 := by
  have ht := touches_look env l.left.wf (l.left.lt p.has)
  have ht' := touches_look env l.right.wf (l.right.lt p.has')
  refine ⟨l.left.look p.has, l.right.look p.has', ht.wf, ht'.wf,
    by rw [ht.rule]; exact l.twin.window, by rw [ht'.rule]; exact l.twin.window', fun h => ?_,
    by rw [ht.log, ht'.log]; exact l.twin.sameNotes⟩
  have hk := ht.fired_core h
  have hk' := ht'.fired_core h
  rcases l.twin.cases h with ⟨hw, hv⟩ | ⟨f, g, hw, hv, a⟩
  · rw [hw, map_none, map_eq_none_iff] at hk
    rw [hv, map_none, map_eq_none_iff] at hk'
    rw [hk, hk']
    exact .none
  · rw [hw, map_some, map_eq_some_iff] at hk
    rw [hv, map_some, map_eq_some_iff] at hk'
    obtain ⟨f', hf', hcore⟩ := hk
    obtain ⟨g', hg', hcore'⟩ := hk'
    rw [hf', hg']
    exact .some (a.of_core hcore hcore')

theorem fire (hrec : c.KeepsFiring env rule) (hT : c.OnTime env rule) :
    Locked env c rule w v (w'.fireEvent r) (v'.fireEvent r') := by
  have hnot := l.left.not_recovered p.has hrec
  have hnot' := l.right.not_recovered p.has' hrec
  have hf := fires_fireEvent l.left.wf (l.left.lt p.has) hnot
  have hf' := fires_fireEvent l.right.wf (l.right.lt p.has') hnot'
  have hid := l.ident p
  have hhash : (v'.heap.get r').hash = (w'.heap.get r).hash := hash_eq_of_ident_eq hid
  have htime := l.left.onTime hT p.has
  have htime' := l.right.onTime hT p.has'
  rw [l.left.rule] at hf
  rw [l.right.rule, hhash] at hf'
  have hnotify := optionRel_cases (Alike.notifies (l.twin.fired (w'.heap.get r).hash) hid
    (htime'.trans htime.symm) htime.ge)
  refine ⟨l.left.fire p.has, l.right.fire p.has', hf.wf, hf'.wf,
    by rw [hf.rule]; exact l.twin.window, by rw [hf'.rule]; exact l.twin.window', fun h => ?_, ?_⟩
  · by_cases hh : h = (w'.heap.get r).hash
    · have hs := hf.fired_self
      have hs' := hf'.fired_self
      rw [hhash] at hs'
      rw [hh, hs, hs']
      rcases hnotify with ⟨hp, hp'⟩ | ⟨q, q', hp, hp', ha, -⟩
      · rw [hp, hp', none_or, none_or]
        rcases l.twin.cases (w'.heap.get r).hash with ⟨hw, hv⟩ | ⟨f, g, hw, hv, a⟩
        · rw [hw, hv]; exact .none
        · rw [hw, hv]; exact .some (a.of_core rfl rfl)
      · rw [hp, hp', some_or, some_or]
        exact .some ha
    · rw [(hf.sameAt h hh).fired, (hf'.sameAt h (by rw [hhash]; exact hh)).fired]
      exact l.twin.fired h
  · rw [hf.log, hf'.log, notes_append, notes_append, l.twin.sameNotes]
    rcases hnotify with ⟨hp, hp'⟩ | ⟨q, q', hp, hp', -, hn⟩
    · rw [hp, hp', map_none, map_none]
    · rw [hp, hp', map_some, map_some, toList_some, toList_some, notes_push, notes_push, hn]

end

/-- The first loop of `handleEvent`, in step; without a for-duration every event is due. -/
theorem looks (hF : rule.promForDuration = 0) {events events' : List Ref}
    (l : Locked env c rule w v w' v') (hp : List.Forall₂ (Paired env c rule w v) events events') :
    Locked env c rule w v (events.foldl (handleEventOne env) (w', {})).1
        (events'.foldl (handleEventOne env) (v', {})).1 ∧
      List.Forall₂ (Paired env c rule w v) (events.foldl (handleEventOne env) (w', {})).2.events
        (events'.foldl (handleEventOne env) (v', {})).2.events ∧
      (events'.foldl (handleEventOne env) (v', {})).2.severity
        = (events.foldl (handleEventOne env) (w', {})).2.severity := by
  let P : World × FireList → World × FireList → Prop := fun acc acc' =>
    Locked env c rule w v acc.1 acc'.1 ∧
      Forall₂ (Paired env c rule w v) acc.2.events acc'.2.events ∧ acc'.2.severity = acc.2.severity
  have hstart : P (w', {}) (v', {}) := ⟨l, .nil, rfl⟩
  refine rel_foldl (P := P) ?_ hstart hp
  rintro ⟨w', fl⟩ ⟨v', fl'⟩ ⟨l, hev, hsev⟩ r r' p
  have hdue : (w'.look env r).2 = true := by
    rw [look_eq env l.left.wf (l.left.lt p.has), l.left.rule, if_pos hF]
  have hdue' : (v'.look env r').2 = true := by
    rw [look_eq env l.right.wf (l.right.lt p.has'), l.right.rule, if_pos hF]
  have hl := l.look p
  have hs := proj_eq_of_ident_eq AlertCurEvent.severity (fun _ => rfl) (hl.ident p)
  simp only [handleEventOne, hdue, hdue', if_true, FireList.add]
  exact ⟨hl, rel_append hev (.cons p .nil), by rw [hs, hsev]⟩

theorem handleEvent (hF : rule.promForDuration = 0) (hrec : c.KeepsFiring env rule)
    (hT : c.OnTime env rule) {events events' : List Ref} (l : Locked env c rule w v w' v')
    (hp : List.Forall₂ (Paired env c rule w v) events events') :
    Locked env c rule w v (w'.handleEvent env events) (v'.handleEvent env events') := by
  obtain ⟨hl, hev, hsev⟩ := l.looks hF hp
  simp only [World.handleEvent, inhibitEvent]
  refine rel_foldl (P := Locked env c rule w v) ?_ hl hev
  intro w' v' l r r' p
  have hs := proj_eq_of_ident_eq AlertCurEvent.severity (fun _ => rfl) (l.ident p)
  dsimp only
  rw [hsev, hs, l.left.inhibit, l.right.inhibit]
  split
  · exact l
  · exact l.fire p hrec hT

end Locked

/-- **Twins fire the same alerts.** -/
theorem Twin.handleGroups {T : ℤ} (t : Twin rule T w v) (hT : T ≤ c.now)
    (hF : rule.promForDuration = 0) (hD : rule.recoverDuration = 0) (hrec : c.KeepsFiring env rule)
    (hon : c.OnTime env rule) :
    Twin rule c.now (w.handleGroups env c rule) (v.handleGroups env c rule) := by
  obtain ⟨hkeys, hpairs⟩ := collect_paired env c rule w.heap v.heap
  have hstart : Locked env c rule w v (w.handleStart env c rule) (v.handleStart env c rule) := by
    refine ⟨InCall.start t.wf env c rule, InCall.start t.wf' env c rule,
      t.wf.handleStart env c rule, t.wf'.handleStart env c rule, hD, hD, fun h => ?_, ?_⟩
    · rw [(SameAt.handleStart t.wf env c rule h).fired,
        (SameAt.handleStart t.wf' env c rule h).fired]
      exact (t.mono hT).fired h
    · simp [handleStart, t.sameNotes]
  simp only [World.handleGroups]
  rw [hkeys]
  refine (foldl_rel (r := Locked env c rule w v) hstart fun key _ w' v' l => ?_).twin
  refine l.handleEvent hF hrec hon ?_
  have hpair := hpairs key
  have hmem : Forall₂ (fun r r' => (c.collect env rule w.heap).Has r ∧
      (c.collect env rule v.heap).Has r' ∧ (c.collect env rule v.heap).heap.get r'
        = (c.collect env rule w.heap).heap.get r) _ _ :=
    (forall₂_and_left _ _).mpr ⟨fun r hr => ⟨key, hr⟩,
      ((forall₂_and_left _ _).mpr ⟨fun r' hr' => ⟨key, hr'⟩, hpair.flip⟩).flip⟩
  exact hmem.imp fun r r' h => ⟨h.1, h.2.1, h.2.2⟩

end Calls

end World

/-! ## Along a run -/

/-- The runs the comparison is about: evaluations of one rule with neither for-duration nor recover
duration, under pipelines that keep an event's time and never make it a recovery; the consumer may
run in between. -/
def Evaluating (env : Env) (rule : AlertRule) : Op → Prop
  | .handle c => c.src = .inner ∧ ∀ rule' ∈ c.cachedRule, rule' = rule ∧
      c.KeepsFiring env rule ∧ c.OnTime env rule
  | .consume _ => True
  | _ => False

/-- What a restart must find to leave no trace: every alert recovers by the rule alone, is reloaded
with its own first trigger time, and is not repeated earlier for having lost its sending time. -/
def Resumes (rule : AlertRule) (now : ℤ) (w : World) : Prop :=
  ∀ h ∈ w.fires.keys, ∀ f ∈ w.fired h, f.recoverConfig.judgeType = .origin ∧
    (f.firstTriggerTime = 0 → f.triggerTime = 0) ∧
    (rule.notifyRepeatStep = 0 ∨
      rule.notifyMaxNumber ≠ 0 ∧ f.notifyCurNumber ≥ rule.notifyMaxNumber ∨
      f.lastSentTime = 0 ∨
      f.lastSentTime + rule.notifyRepeatStep * 60 ≤ now ∧ rule.notifyRepeatStep * 60 ≤ now)

theorem AlertCurEvent.image_first {e : AlertCurEvent}
    (h : e.firstTriggerTime = 0 → e.triggerTime = 0) :
    e.image.firstTriggerTime = e.firstTriggerTime := by
  change (if e.firstTriggerTime = 0 then e.triggerTime else e.firstTriggerTime) = _
  split
  · next h0 => rw [h h0, h0]
  · rfl

theorem alike_reload {rule : AlertRule} {c : RestartCall} {row f : AlertCurEvent}
    (hi : (c.reload row).image = f.image) (hj : f.recoverConfig.judgeType = .origin)
    (hfirst : f.firstTriggerTime = 0 → f.triggerTime = 0)
    (hrep : rule.notifyRepeatStep = 0 ∨
      rule.notifyMaxNumber ≠ 0 ∧ f.notifyCurNumber ≥ rule.notifyMaxNumber ∨ f.lastSentTime = 0 ∨
      f.lastSentTime + rule.notifyRepeatStep * 60 ≤ c.now ∧ rule.notifyRepeatStep * 60 ≤ c.now) :
    Alike rule c.now f (c.reload row) := by
  have hnum : (c.reload row).notifyCurNumber = f.notifyCurNumber :=
    proj_eq_of_image_eq notifyCurNumber (fun _ => rfl) hi
  refine ⟨proj_eq_of_image_eq AlertCurEvent.hash (fun _ => rfl) hi,
    proj_eq_of_image_eq AlertCurEvent.tags (fun _ => rfl) hi,
    proj_eq_of_image_eq AlertCurEvent.severity (fun _ => rfl) hi, hnum, ?_, hj.symm, fun t ht => ?_⟩
  · have hreload : (c.reload row).firstTriggerTime = 0 → (c.reload row).triggerTime = 0 := by
      change (if row.firstTriggerTime = 0 then row.triggerTime else row.firstTriggerTime) = 0 →
        row.triggerTime = 0
      split
      · exact id
      · next hne => exact fun h0 => absurd h0 hne
    rw [← image_first hreload, ← image_first hfirst, hi]
  · have hsent : (c.reload row).lastSentTime = 0 := rfl
    unfold AlertRule.repeatsAt
    rw [hnum, hsent]
    omega

instance (env : Env) (rule : AlertRule) : (op : Op) → Decidable (Evaluating env rule op)
  | .handle _ => inferInstanceAs (Decidable (_ ∧ ∀ _ ∈ _, _))
  | .recoverPoints _ | .recoverSingle _ _ _ _ | .restart _ => inferInstanceAs (Decidable False)
  | .consume _ => inferInstanceAs (Decidable True)

instance (rule : AlertRule) (now : ℤ) (w : World) : Decidable (Resumes rule now w) :=
  inferInstanceAs (Decidable (∀ _ ∈ _, ∀ _ ∈ _, _))

namespace World

variable {env : Env} {rule : AlertRule} {T : ℤ} {w v : World}

theorem Twin.handle {c : HandleCall} (t : Twin rule T w v) (hT : T ≤ c.now)
    (hF : rule.promForDuration = 0) (hD : rule.recoverDuration = 0)
    (he : Evaluating env rule (.handle c)) : Twin rule c.now (w.handle env c) (v.handle env c) := by
  unfold World.handle
  cases hc : c.cachedRule with
  | none =>
    have hnotes : notes (v.log ++ c.delivered env v.rule)
        = notes (w.log ++ c.delivered env w.rule) := by
      simp [t.sameNotes]
    exact { (t.mono hT) with
      wf := t.wf.beside
      wf' := t.wf'.beside
      sameNotes := hnotes }
  | some rule' =>
    obtain ⟨rfl, hrec, hon⟩ := he.2 rule' hc
    have hg := t.handleGroups hT hF hD hrec hon
    simp only [he.1, if_true, alertingKeys_eq]
    exact hg.handleRecover c.fireOrder c.tagOrder _ c.now c.inhibit

theorem Twin.step {op : Op} (t : Twin rule T w v) (hT : T ≤ op.clock T)
    (hF : rule.promForDuration = 0) (hD : rule.recoverDuration = 0) (he : Evaluating env rule op) :
    Twin rule (op.clock T) (w.step env op) (v.step env op) := by
  cases op with
  | handle c => exact t.handle hT hF hD he
  | consume n =>
    have hwf := t.wf.consume n
    have hwf' := t.wf'.consume n
    obtain ⟨q, bt, tb, heq⟩ := consume_eq n w
    obtain ⟨q', bt', tb', heq'⟩ := consume_eq n v
    simp only [World.step]
    rw [heq] at hwf ⊢
    rw [heq'] at hwf' ⊢
    exact ⟨hwf, hwf', t.window, t.window', t.fired, t.sameNotes⟩
  | recoverPoints c | recoverSingle b h now v | restart c => exact he.elim

/-- **Twins push the same notifications.** -/
theorem Twin.run (hF : rule.promForDuration = 0) (hD : rule.recoverDuration = 0) {ops : List Op}
    (t : Twin rule T w v) (h : Runs env (fun _ op => Evaluating env rule op) T w ops) :
    notes (v.run env ops).log = notes (w.run env ops).log := by
  induction ops generalizing T w v with
  | nil => exact t.sameNotes
  | cons op ops ih => exact ih (t.step h.1.1 hF hD h.1.2) h.2

/-- **A restart makes a twin**, where it finds what it needs. -/
theorem Agrees.twin {c : RestartCall} (a : w.Agrees env) (hD : w.rule.recoverDuration = 0)
    (hwait : w.waiting = []) (hdb : c.dbFails = false)
    (hskip : ∀ row ∈ w.curEvents env, c.skips env row = false) (hr : Resumes rule c.now w) :
    Twin rule c.now w (w.recoverAlertCurEventFromDb env c) := by
  have s := restarted env c w
  have a' := a.restart hwait hdb hskip
  have himage : ∀ h, ((w.recoverAlertCurEventFromDb env c).fired h).map image
      = (w.fired h).map image := fun h => by
    have hm := a.mirrored h
    have hm' := a'.mirrored h
    have hwait' : (w.recoverAlertCurEventFromDb env c).waiting = [] := by
      rw [s.frame]; exact hwait
    have htables : (w.recoverAlertCurEventFromDb env c).tables = w.tables := by rw [s.frame]
    have hrule : (w.recoverAlertCurEventFromDb env c).rule = w.rule := by rw [s.frame]
    rw [drained_of_waiting_eq_nil hwait', htables, hrule] at hm'
    rw [drained_of_waiting_eq_nil hwait, hm'] at hm
    simpa using congrArg head? hm
  refine ⟨a.wf, a'.wf, hD, by rw [s.frame]; exact hD, fun h => ?_, by rw [s.frame]⟩
  cases hf : w.fired h with
  | none =>
    have hi := himage h
    rw [hf, map_none, map_eq_none_iff] at hi
    rw [hi]
    exact .none
  | some f =>
    have hi := himage h
    rw [hf, map_some, map_eq_some_iff] at hi
    obtain ⟨g, hg, hi⟩ := hi
    obtain ⟨hj, hfirst, hrep⟩ := hr h (mem_keys.mpr (mem_fires_of_fired hf)) f hf
    obtain ⟨-, row, -, -, -, rfl⟩ := s.fired h g hg
    rw [hg]
    exact .some (alike_reload hi hj hfirst hrep)

theorem Twin.refl (hw : w.WF) (hD : w.rule.recoverDuration = 0) : Twin rule T w w where
  wf := hw
  wf' := hw
  window := hD
  window' := hD
  fired h := by
    cases w.fired h with
    | none => exact .none
    | some f => exact .some ⟨rfl, rfl, rfl, rfl, rfl, rfl, fun _ _ => Iff.rfl⟩
  sameNotes := rfl

end World

/-- **A restart leaves no trace.**  Take a run that keeps memory and table together and stop where
everything is persisted.  A restart there that reads every row, of alerts that lose nothing by it,
changes none of the notifications that follow. -/
theorem restart_leaves_no_trace (env : Env) (rule : AlertRule) (hF : rule.promForDuration = 0)
    (hD : rule.recoverDuration = 0) {T : ℤ} {w : World} (hw : w.WF)
    (hrule : w.rule.recoverDuration = 0) (hroom : ∀ n, (w.sched n).room = true)
    (hfires : w.fires = ∅) (hwait : w.waiting = []) (hrows : w.curEvents env = [])
    {before after : List Op} {c : RestartCall}
    (hbefore : Runs env (fun w op => (Evaluating env rule op ∧ Owned env w op) ∧ Tidy env w op)
      T w before)
    (hc : Tidy env (w.run env before) (.restart c)) (hr : Resumes rule c.now (w.run env before))
    (hafter : Runs env (fun _ op => Evaluating env rule op) c.now (w.run env before) after) :
    notes (w.run env (before ++ .restart c :: after)).log
      = notes (w.run env (before ++ after)).log := by
  obtain ⟨T', a, t⟩ := hbefore.invariant (I := fun T w => w.Agrees env ∧ Twin rule T w w)
    (fun T w op hT hC h => ⟨h.1.step hC.1.2 hC.2, h.2.step hT hF hD hC.1.1⟩)
    ⟨Agrees.initial hw hroom hfires hwait hrows, Twin.refl hw hrule⟩
  have ht := a.twin t.window hc.1 hc.2.1 hc.2.2 hr
  have hrun := ht.run hF hD hafter
  simpa only [run, foldl_append, foldl_cons, step] using hrun

namespace Example

/-- An alert at 1000, persisted. -/
def firedRun : List Op := [.handle (call repeatRule 1000 [point "a" 1 1000]), .consume 2]

/-- A restart at `now`, every row read. -/
def restartAt (now : ℤ) : RestartCall where
  now := now
  dbFails := false
  ruleCache _ := some repeatRule
  targetEngine _ := none

/-- The alert again at `now`, then gone. -/
def goesOn (now : ℤ) : List Op :=
  [.handle (call repeatRule now [point "a" 1 now]), .handle (call repeatRule (now + 10) [])]

end Example

open Example

/-- A minute and a half after the alert, the restart is not noticed. -/
theorem restart_leaves_no_trace_late : notes (run env { rule := repeatRule }
        (firedRun ++ .restart (restartAt 1100) :: goesOn 1110)).log
      = notes (run env { rule := repeatRule }
        (firedRun ++ goesOn 1110)).log := restart_leaves_no_trace env repeatRule rfl rfl (T := 0)
    (WF.initial _ _ _) rfl (fun _ => rfl) rfl rfl rfl (by decide) (by decide) (by decide)
    (by decide)

/-- **A restart repeats early**: ten seconds after the alert it has forgotten when the alert was
sent, and the next evaluation notifies again. -/
theorem restart_repeats_early : Runs env (fun w op => Evaluating env repeatRule op ∧ Owned env w op)
      0 { rule := repeatRule } (firedRun ++ goesOn 1020) ∧
    (run env { rule := repeatRule } firedRun).waiting = [] ∧ notes (run env { rule := repeatRule }
        (firedRun ++ .restart (restartAt 1010) :: goesOn 1020)).log
      ≠ notes (run env { rule := repeatRule }
        (firedRun ++ goesOn 1020)).log := by
  decide

end Nightingale
