import Nightingale.Process.Frame

/-!
# Process/Effects — each operation as one hash sees it

One specification per operation of the processor, in terms of the views of `Process/Frame`:

    look           observes: `seen` becomes the event's time, a pending spell starts or goes on
    fireEvent      pushes what `AlertRule.notifies` says, and shows it in `fires`
    recoverSingle  keeps the alert, or removes it and pushes its recovery
    dropInhibited  removes the alert and says nothing

Each of them is about a single hash and leaves the views of every other hash alone (`SameAt`).
-/

namespace Nightingale

open AlertCurEvent Option Finmap World Effect Heap Heap.Keeps

/-! ## What firing decides -/

/-- The event `fireEvent` pushes for `e`, given what `fires` shows under its hash: the first
notification of an alert, the next one, or none. -/
def AlertRule.notifies (rule : AlertRule) (fired : Option AlertCurEvent) (e : AlertCurEvent) :
    Option AlertCurEvent :=
  match fired with
  | none =>
    some { e with
      notifyCurNumber := 1, firstTriggerTime := e.triggerTime, lastSentTime := e.lastEvalTime }
  | some f =>
    if rule.notifyRepeatStep = 0 then none
    else if e.lastEvalTime ≥ f.lastSentTime + rule.notifyRepeatStep * 60 then
      if rule.notifyMaxNumber ≠ 0 ∧ f.notifyCurNumber ≥ rule.notifyMaxNumber then none
      else some { e with
        firstTriggerTime := f.firstTriggerTime
        notifyCurNumber := f.notifyCurNumber + 1
        lastSentTime := e.lastEvalTime }
    else none

section

variable {rule : AlertRule} {fired : Option AlertCurEvent} {e p : AlertCurEvent}
  (h : rule.notifies fired e = some p)

include h

theorem AlertRule.notifies_ident : p.ident = e.ident := by
  unfold notifies at h
  split at h
  · obtain rfl := some.inj h; rfl
  · split_ifs at h
    obtain rfl := some.inj h; rfl

theorem AlertRule.notifies_time :
    p.lastEvalTime = e.lastEvalTime ∧ p.lastSentTime = e.lastEvalTime := by
  unfold notifies at h
  split at h
  · obtain rfl := some.inj h; exact ⟨rfl, rfl⟩
  · split_ifs at h
    obtain rfl := some.inj h; exact ⟨rfl, rfl⟩

end

/-! ## Touching a cell -/

/-- A heap in which the event behind a reference, if there is one, has a new evaluation time. -/
def Heap.touch (heap : Heap AlertCurEvent) (o : Option Ref) (t : ℤ) : Heap AlertCurEvent :=
  match o with
  | none => heap
  | some r => heap.modify r fun e => { e with lastEvalTime := t }

namespace Heap

variable (heap : Heap AlertCurEvent) (o : Option Ref) (t : ℤ)

theorem touch_get (r : Ref) : (heap.touch o t).get r
      = if o = some r then { heap.get r with lastEvalTime := t } else heap.get r := by
  cases o with
  | none => simp [touch]
  | some r' =>
    by_cases hr : r = r'
    · subst hr; simp [touch]
    · rw [if_neg (fun h => hr (some.inj h).symm)]
      exact get_modify_of_ne heap (fun e => { e with lastEvalTime := t }) hr

theorem touch_keeps {β : Type*} {π : AlertCurEvent → β}
    (hπ : ∀ e : AlertCurEvent, π { e with lastEvalTime := t } = π e) :
    heap.Keeps π (heap.touch o t) := by
  cases o with
  | none => exact Keeps.refl π heap
  | some r => exact Keeps.modify heap r fun e => hπ e

@[simp] theorem touch_get_own (r : Ref) :
    (heap.touch o (heap.get r).lastEvalTime).get r = heap.get r := by
  rw [touch_get]; split <;> rfl

end Heap

namespace World

theorem updateLastEvalTime_eq (w : World) (m : EventMap) (key : Hash) (t : ℤ) :
    w.updateLastEvalTime m key t = { w with heap := w.heap.touch (m.lookup key) t } := by
  unfold updateLastEvalTime touch
  cases m.lookup key <;> rfl

/-! ## Views of one hash -/

/-- The two worlds show the same under a hash. -/
structure SameAt (h : Hash) (w w' : World) : Prop where
  fired : w'.fired h = w.fired h
  pending : w'.pending h = w.pending h
  observed : w'.observed h = w.observed h

namespace SameAt

variable {h : Hash} {w w' w'' : World}

theorem refl (h : Hash) (w : World) : SameAt h w w := ⟨rfl, rfl, rfl⟩

theorem trans (h₁ : SameAt h w w') (h₂ : SameAt h w' w'') : SameAt h w w'' :=
  ⟨h₂.fired.trans h₁.fired, h₂.pending.trans h₁.pending, h₂.observed.trans h₁.observed⟩

theorem seen (s : SameAt h w w') : w'.seen h = w.seen h := by rw [seen_eq, seen_eq, s.observed]

theorem mem_fires (s : SameAt h w w') : h ∈ w'.fires ↔ h ∈ w.fires := by
  rw [← fired_isSome_iff, ← fired_isSome_iff, s.fired]

end SameAt

theorem SameAt.modify {w : World} (hw : w.WF) {r : Ref} {h : Hash}
    (hne : h ≠ (w.heap.get r).hash) (f : AlertCurEvent → AlertCurEvent) :
    SameAt h w (w.modify r f) :=
  ⟨hw.fires.map_get_modify_of_ne hne f, hw.pendings.map_get_modify_of_ne hne f,
    hw.pendingsUseByRecover.map_get_modify_of_ne hne f⟩

/-- When the spell under a hash began: the first evaluation time of its pending event. -/
def since (w : World) (h : Hash) : Option ℤ := (w.pending h).map firstEvalTime

theorem SameAt.since {h : Hash} {w w' : World} (s : SameAt h w w') : w'.since h = w.since h := by
  rw [World.since, World.since, s.pending]

/-! ## Looking at an event -/

/-- What looking at an event of hash `h` and time `t` can do: no map but the two pending ones
changes, no cell changes but in its evaluation times, and no other hash feels it. -/
structure Touches (h : Hash) (t : ℤ) (w w' : World) : Prop where
  frame : w' = { w with
    heap := w'.heap, pendings := w'.pendings, pendingsUseByRecover := w'.pendingsUseByRecover }
  keeps : w.heap.Keeps core w'.heap
  time : ∀ r, (w'.heap.get r).lastEvalTime = (w.heap.get r).lastEvalTime ∨
    (w.heap.get r).hash = h ∧ (w'.heap.get r).lastEvalTime = t
  wf : w'.WF
  sameAt : ∀ h' ≠ h, SameAt h' w w'

namespace Touches

variable {h : Hash} {t : ℤ} {w w' w'' : World}

theorem trans (h₁ : Touches h t w w') (h₂ : Touches h t w' w'') : Touches h t w w'' where
  frame := h₂.frame.trans (by rw [h₁.frame])
  keeps := h₁.keeps.trans h₂.keeps
  time r := by
    rcases h₂.time r with h₂t | ⟨hh, ht⟩
    · rw [h₂t]; exact h₁.time r
    · exact .inr ⟨by rw [← hash_eq_of_core_eq (h₁.keeps.get r)]; exact hh, ht⟩
  wf := h₂.wf
  sameAt h' hne := (h₁.sameAt h' hne).trans (h₂.sameAt h' hne)

section

variable (s : Touches h t w w')

include s

theorem fires : w'.fires = w.fires := by rw [s.frame]

theorem rule : w'.rule = w.rule := by rw [s.frame]

theorem inhibit : w'.inhibit = w.inhibit := by rw [s.frame]

theorem log : w'.log = w.log := by rw [s.frame]

theorem fired_core (h' : Hash) : (w'.fired h').map core = (w.fired h').map core := by
  rw [fired, fired, s.fires]
  exact map_proj_of_keeps s.keeps _

end

end Touches

section Look

variable {w : World} {r : Ref}

theorem WF.touch (hw : w.WF) (o : Option Ref) (t : ℤ) : WF { w with heap := w.heap.touch o t } := by
  have k : w.heap.Keeps hash (w.heap.touch o t) := w.heap.touch_keeps o t fun _ => rfl
  exact ⟨hw.fires.keeps k, hw.pendings.keeps k, hw.pendingsUseByRecover.keeps k,
    fun r hr => by rw [k.next]; exact hw.waiting r hr⟩

/-- A touch of the entry of one hash is felt under that hash only. -/
theorem touches_touch (hw : w.WF) {m : EventMap} (hm : Owns w.heap m) (h : Hash) (t : ℤ) :
    Touches h t w { w with heap := w.heap.touch (m.lookup h) t } where
  frame := rfl
  keeps := w.heap.touch_keeps _ t fun _ => rfl
  time r' := by
    by_cases hr : m.lookup h = some r'
    · exact .inr ⟨(hm h r' hr).2, by simp [touch_get, hr]⟩
    · exact .inl (by simp [touch_get, hr])
  wf := hw.touch _ t
  sameAt h' hne := by
    cases hl : m.lookup h with
    | none => exact SameAt.refl h' w
    | some f =>
      exact SameAt.modify hw (by rw [(hm h f hl).2]; exact hne)
        fun e => { e with lastEvalTime := t }

theorem touches_modify (hw : w.WF) (r : Ref) (t : ℤ) {f : AlertCurEvent → AlertCurEvent}
    (hf : ∀ e, (f e).core = e.core ∧ (f e).lastEvalTime = e.lastEvalTime) :
    Touches (w.heap.get r).hash t w (w.modify r f) where
  frame := rfl
  keeps := Heap.Keeps.modify _ r fun e => (hf e).1
  time r' := .inl (proj_get_modify lastEvalTime w.heap r r' f (hf _).2)
  wf := hw.modify r fun e => hash_eq_of_core_eq (hf e).1
  sameAt _ hne := SameAt.modify hw hne f

theorem touches_remember (hw : w.WF) (hr : r < w.heap.next) :
    Touches (w.heap.get r).hash (w.heap.get r).lastEvalTime w (w.remember r) := by
  unfold remember
  cases hl : w.pendingsUseByRecover.lookup (w.heap.get r).hash with
  | some p =>
    simp only [hl, updateLastEvalTime_eq]
    have := touches_touch hw hw.pendingsUseByRecover (w.heap.get r).hash
      (w.heap.get r).lastEvalTime
    rwa [hl] at this
  | none =>
    simp only [hl]
    exact {
      frame := rfl
      keeps := refl _ _
      time := fun _ => .inl rfl
      wf := ⟨hw.fires, hw.pendings, hw.pendingsUseByRecover.insert hr, hw.waiting⟩
      sameAt := fun h' hne => ⟨rfl, rfl, by simp [observed, lookup_insert_of_ne _ hne]⟩ }

theorem get_remember (w : World) (r : Ref) : (w.remember r).heap.get r = w.heap.get r := by
  unfold remember
  cases hl : w.pendingsUseByRecover.lookup (w.heap.get r).hash with
  | some p => simp [hl, updateLastEvalTime_eq]
  | none => simp [hl]

theorem seen_remember (w : World) (r : Ref) :
    (w.remember r).seen (w.heap.get r).hash = some (w.heap.get r).lastEvalTime := by
  unfold remember
  cases hl : w.pendingsUseByRecover.lookup (w.heap.get r).hash with
  | some p => simp [seen, updateLastEvalTime_eq, hl, touch_get]
  | none => simp [seen, hl]

/-- Under a time no older than what was seen there is nothing to unsee. -/
theorem Touches.seen_of_eq {w' : World} {h : Hash} {t : ℤ} (s : Touches h t w w')
    (hm : w'.pendingsUseByRecover = w.pendingsUseByRecover) (hs : w.seen h = some t) :
    w'.seen h = some t := by
  obtain ⟨p, hp, ht⟩ := map_eq_some_iff.mp hs
  rw [seen, hm, hp, map_some]
  rcases s.time p with hsame | ⟨-, hnew⟩
  · rw [hsame, ht]
  · rw [hnew]

theorem touches_pend (hw : w.WF) (hr : r < w.heap.next) :
    Touches (w.heap.get r).hash (w.heap.get r).lastEvalTime w (w.pend r).1 := by
  unfold pend
  cases hl : w.pendings.lookup (w.heap.get r).hash with
  | some p =>
    simp only [hl, updateLastEvalTime_eq]
    have := touches_touch hw hw.pendings (w.heap.get r).hash (w.heap.get r).lastEvalTime
    rwa [hl] at this
  | none =>
    simp only [hl]
    have hm := touches_modify hw r (w.heap.get r).lastEvalTime
      (f := fun e => { e with firstEvalTime := e.lastEvalTime }) fun _ => ⟨rfl, rfl⟩
    refine hm.trans ⟨rfl, refl _ _, fun _ => .inl rfl, ?_, fun h' hne => ?_⟩
    · refine ⟨hm.wf.fires, ?_, hm.wf.pendingsUseByRecover, hm.wf.waiting⟩
      have := hm.wf.pendings.insert (r := r) hr
      simpa [modify] using this
    · exact ⟨rfl, by simp [pending, lookup_insert_of_ne _ hne, modify], rfl⟩

theorem pend_snd (w : World) (r : Ref) :
    (w.pend r).2 = (w.since (w.heap.get r).hash).getD (w.heap.get r).lastEvalTime := by
  unfold pend since pending
  cases hl : w.pendings.lookup (w.heap.get r).hash <;> simp [hl]

theorem since_pend (w : World) (r : Ref) : (w.pend r).1.since (w.heap.get r).hash
      = some ((w.since (w.heap.get r).hash).getD (w.heap.get r).lastEvalTime) := by
  unfold pend since pending
  cases hl : w.pendings.lookup (w.heap.get r).hash with
  | some p =>
    have k := (w.heap.touch_keeps (some p) (w.heap.get r).lastEvalTime
      (π := firstEvalTime) fun _ => rfl).get p
    simp [hl, updateLastEvalTime_eq, k]
  | none => simp [hl, modify]

theorem get_pend (w : World) (r : Ref) :
    ((w.pend r).1.heap.get r).lastEvalTime = (w.heap.get r).lastEvalTime ∧
      ((w.pend r).1.heap.get r).promEvalInterval = (w.heap.get r).promEvalInterval := by
  unfold pend
  cases hl : w.pendings.lookup (w.heap.get r).hash <;> simp [hl, updateLastEvalTime_eq, modify]

theorem get_observe (env : Env) (w : World) (r : Ref) : (w.observe env r).heap.get r
      = { w.heap.get r with promEvalInterval := env.promEvalInterval } := by
  simp [observe, modify, get_remember]

theorem touches_observe (env : Env) (hw : w.WF) (hr : r < w.heap.next) :
    Touches (w.heap.get r).hash (w.heap.get r).lastEvalTime w (w.observe env r) := by
  have ho := touches_remember hw hr
  have hm := touches_modify ho.wf r (w.heap.get r).lastEvalTime
    (f := fun e => { e with promEvalInterval := env.promEvalInterval }) fun _ => ⟨rfl, rfl⟩
  rw [get_remember] at hm
  exact ho.trans hm

theorem seen_observe (env : Env) (w : World) (r : Ref) :
    (w.observe env r).seen (w.heap.get r).hash = some (w.heap.get r).lastEvalTime := by
  have h : ∀ r', (((w.remember r).heap.modify r
      fun e => { e with promEvalInterval := env.promEvalInterval }).get r').lastEvalTime
        = ((w.remember r).heap.get r').lastEvalTime := fun r' =>
    proj_get_modify lastEvalTime _ r r' _ rfl
  rw [← seen_remember w r]
  simp only [seen, observe, modify, h]

theorem remember_pendings (w : World) (r : Ref) :
    (w.remember r).pendings = w.pendings ∧ w.heap.Keeps firstEvalTime (w.remember r).heap := by
  unfold remember
  cases hl : w.pendingsUseByRecover.lookup (w.heap.get r).hash with
  | some p =>
    simp only [hl, updateLastEvalTime_eq, true_and]
    exact w.heap.touch_keeps _ _ fun _ => rfl
  | none => simp only [hl, true_and]; exact refl _ _

theorem since_observe (env : Env) (w : World) (r : Ref) (h : Hash) :
    (w.observe env r).since h = w.since h := by
  obtain ⟨hp, hk⟩ := w.remember_pendings r
  have k : w.heap.Keeps firstEvalTime (w.observe env r).heap :=
    hk.trans (Heap.Keeps.modify _ r (π := firstEvalTime)
      (f := fun e => { e with promEvalInterval := env.promEvalInterval }) fun _ => rfl)
  have hp' : (w.observe env r).pendings = w.pendings := hp
  rw [since, since, pending, pending, hp']
  exact map_proj_of_keeps k _

/-- **The loop body of `handleEvent`**, its test in terms of the views. -/
theorem look_eq (env : Env) (hw : w.WF) (hr : r < w.heap.next) : w.look env r
      = if w.rule.promForDuration = 0 then (w.observe env r, true)
        else (((w.observe env r).pend r).1, decide ((w.heap.get r).lastEvalTime
            - (w.since (w.heap.get r).hash).getD (w.heap.get r).lastEvalTime
            + env.promEvalInterval ≥ w.rule.promForDuration)) := by
  have hrule : (w.observe env r).rule = w.rule := (touches_observe env hw hr).rule
  have hpend : ((w.observe env r).pend r).1.rule = w.rule := by
    rw [← hrule]
    exact (touches_pend (touches_observe env hw hr).wf
      (by rw [(touches_observe env hw hr).keeps.next]; exact hr)).rule
  obtain ⟨ht, hi⟩ := get_pend (w.observe env r) r
  have hs := pend_snd (w.observe env r) r
  rw [get_observe] at ht hi hs
  rw [since_observe] at hs
  simp only [look, hrule, ht, hi, hs, hpend]

theorem touches_look (env : Env) (hw : w.WF) (hr : r < w.heap.next) :
    Touches (w.heap.get r).hash (w.heap.get r).lastEvalTime w (w.look env r).1 := by
  have h₁ := touches_observe env hw hr
  have h₂ := touches_pend h₁.wf (r := r) (by rw [h₁.keeps.next]; exact hr)
  rw [get_observe] at h₂
  rw [look_eq env hw hr]
  split
  · exact h₁
  · exact h₁.trans h₂

theorem pend_pendingsUseByRecover (w : World) (r : Ref) :
    (w.pend r).1.pendingsUseByRecover = w.pendingsUseByRecover := by
  unfold pend
  cases hl : w.pendings.lookup (w.heap.get r).hash <;> simp [hl, updateLastEvalTime_eq, modify]

/-- **A look is seen**: afterwards its hash was last seen at the event's time. -/
theorem seen_look (env : Env) (hw : w.WF) (hr : r < w.heap.next) :
    (w.look env r).1.seen (w.heap.get r).hash = some (w.heap.get r).lastEvalTime := by
  have h₁ := touches_observe env hw hr
  have h₂ := touches_pend h₁.wf (r := r) (by rw [h₁.keeps.next]; exact hr)
  rw [get_observe] at h₂
  rw [look_eq env hw hr]
  split
  · exact seen_observe env w r
  · exact h₂.seen_of_eq (pend_pendingsUseByRecover _ r) (seen_observe env w r)

/-- **A look begins a spell or goes on with it.** -/
theorem since_look (env : Env) (hw : w.WF) (hr : r < w.heap.next)
    (hF : w.rule.promForDuration ≠ 0) : (w.look env r).1.since (w.heap.get r).hash
      = some ((w.since (w.heap.get r).hash).getD (w.heap.get r).lastEvalTime) := by
  have hs := since_pend (w.observe env r) r
  rw [get_observe, since_observe] at hs
  rw [look_eq env hw hr, if_neg hF]
  exact hs

end Look

/-! ## Pushing and firing -/

/-- What firing the event behind `r` can write: the maps of pending events stay, a cell changes in
its counters and times only, and no other hash feels it. -/
structure Writes (r : Ref) (w w' : World) : Prop where
  rule : w'.rule = w.rule
  inhibit : w'.inhibit = w.inhibit
  pendings : w'.pendings = w.pendings
  pendingsUseByRecover : w'.pendingsUseByRecover = w.pendingsUseByRecover
  keeps : w.heap.Keeps (fun e => (e.ident, e.firstEvalTime)) w'.heap
  time : ∀ r', (w'.heap.get r').lastEvalTime = (w.heap.get r').lastEvalTime ∨
    (w.heap.get r').hash = (w.heap.get r).hash ∧
      (w'.heap.get r').lastEvalTime = (w.heap.get r).lastEvalTime
  cell : ∀ r', (w.heap.get r').hash ≠ (w.heap.get r).hash → w'.heap.get r' = w.heap.get r'
  wf : w'.WF
  sameAt : ∀ h ≠ (w.heap.get r).hash, SameAt h w w'

/-- …and, given the event `p` it pushes (if any), what the alert becomes and how the log grows. -/
structure Fires (r : Ref) (p : Option AlertCurEvent) (w w' : World) : Prop
    extends Writes r w w' where
  fired_self : w'.fired (w.heap.get r).hash = p.or ((w.fired (w.heap.get r).hash).map
    fun f => { f with lastEvalTime := (w.heap.get r).lastEvalTime })
  log : w'.log = w.log ++ (p.map (push · (w.sched w.tick).room)).toList
  sched : w'.sched = w.sched
  tick : w'.tick = w.tick + p.toList.length

namespace Writes

variable {r : Ref} {w w' w'' : World}

theorem ident (s : Writes r w w') (r' : Ref) :
    (w'.heap.get r').ident = (w.heap.get r').ident := congrArg Prod.fst (s.keeps.get r')

theorem hash (s : Writes r w w') (r' : Ref) : (w'.heap.get r').hash = (w.heap.get r').hash :=
  hash_eq_of_ident_eq (s.ident r')

theorem since (s : Writes r w w') (h : Hash) : w'.since h = w.since h := by
  have k : w.heap.Keeps firstEvalTime w'.heap :=
    s.keeps.comp firstEvalTime fun _ _ he => congrArg Prod.snd he
  rw [World.since, World.since, pending, pending, s.pendings]
  exact map_proj_of_keeps k _

/-- What was seen of the event's own hash stays, or becomes the event's time. -/
theorem seen_self (s : Writes r w w') (hs : w.seen (w.heap.get r).hash ≠ none) :
    w'.seen (w.heap.get r).hash = w.seen (w.heap.get r).hash ∨
      w'.seen (w.heap.get r).hash = some (w.heap.get r).lastEvalTime := by
  obtain ⟨t, ht⟩ := ne_none_iff_exists'.mp hs
  obtain ⟨p, hp, -⟩ := map_eq_some_iff.mp ht
  rw [seen, seen, s.pendingsUseByRecover, hp, map_some, map_some]
  rcases s.time p with hsame | ⟨-, hnew⟩
  · exact .inl (by rw [hsame])
  · exact .inr (by rw [hnew])

theorem trans (h₁ : Writes r w w') (h₂ : Writes r w' w'') : Writes r w w'' where
  rule := h₂.rule.trans h₁.rule
  inhibit := h₂.inhibit.trans h₁.inhibit
  pendings := h₂.pendings.trans h₁.pendings
  pendingsUseByRecover := h₂.pendingsUseByRecover.trans h₁.pendingsUseByRecover
  keeps := h₁.keeps.trans h₂.keeps
  time r' := by
    rcases h₂.time r' with h | ⟨hh, ht⟩
    · rw [h]; exact h₁.time r'
    · rw [h₁.hash, h₁.hash] at hh
      exact .inr ⟨hh, ht.trans ((h₁.time r).elim id And.right)⟩
  cell r' hne := (h₂.cell r' (by rw [h₁.hash, h₁.hash]; exact hne)).trans (h₁.cell r' hne)
  wf := h₂.wf
  sameAt h hne := (h₁.sameAt h hne).trans (h₂.sameAt h (by rw [h₁.hash]; exact hne))

theorem fires (h₁ : Writes r w w') {p : AlertCurEvent} (h₂ : Fires r (some p) w' w'')
    (hheap : w' = { w with heap := w'.heap }) : Fires r (some p) w w'' where
  toWrites := h₁.trans h₂.toWrites
  fired_self := by
    have h := h₂.fired_self
    rw [h₁.hash] at h
    simpa using h
  log := by rw [h₂.log, hheap]
  sched := by rw [h₂.sched, hheap]
  tick := by rw [h₂.tick, hheap]

theorem modify (hw : w.WF) (r : Ref) {f : AlertCurEvent → AlertCurEvent}
    (hf : ∀ e, (f e).ident = e.ident ∧ (f e).firstEvalTime = e.firstEvalTime ∧
      (f e).lastEvalTime = e.lastEvalTime) : Writes r w (w.modify r f) where
  rule := rfl
  inhibit := rfl
  pendings := rfl
  pendingsUseByRecover := rfl
  keeps := Heap.Keeps.modify _ r fun e => Prod.ext (hf e).1 (hf e).2.1
  time r' := .inl (proj_get_modify lastEvalTime w.heap r r' f (hf _).2.2)
  cell r' hne := get_modify_of_ne w.heap f fun hr => hne (by rw [hr])
  wf := hw.modify r fun e => hash_eq_of_ident_eq (hf e).1
  sameAt _ hne := SameAt.modify hw hne f

end Writes

section Fire

variable {w : World} {r : Ref}

theorem WF.pushFront (hw : w.WF) (hr : r < w.heap.next) : (w.pushFront r).WF where
  fires := by simpa using hw.fires
  pendings := by simpa using hw.pendings
  pendingsUseByRecover := by simpa using hw.pendingsUseByRecover
  waiting r' hr' := by
    rw [pushFront_heap]
    rcases mem_waiting_pushFront hr' with rfl | hm
    · exact hr
    · exact hw.waiting r' hm

theorem SameAt.pushFront (h : Hash) (w : World) (r : Ref) : SameAt h w (w.pushFront r) :=
  ⟨by simp [World.fired], by simp [World.pending], by simp [World.observed]⟩

/-- The world in which a firing event is marked as sent and entered in `fires`. -/
def markSent (w : World) (r : Ref) : World :=
  { w.modify r sent with
    fires := w.fires.insert (w.heap.get r).hash r
    log := w.log ++ [push (sent (w.heap.get r)) (w.sched w.tick).room] }

theorem pushEventToQueue_of_firing (h : (w.heap.get r).isRecovered = false) :
    w.pushEventToQueue r = (w.markSent r).pushFront r := by
  simp [pushEventToQueue, h, markSent, modify]

theorem fires_pushEventToQueue (hw : w.WF) (hr : r < w.heap.next)
    (h : (w.heap.get r).isRecovered = false) :
    Fires r (some (sent (w.heap.get r))) w (w.pushEventToQueue r) := by
  have hm := Writes.modify hw r (f := sent) fun _ => ⟨rfl, rfl, rfl⟩
  have hwf : (w.markSent r).WF := by
    have hins := hm.wf.fires.insert (r := r) hr
    rw [hm.hash] at hins
    exact ⟨hins, hm.wf.pendings, hm.wf.pendingsUseByRecover, hm.wf.waiting⟩
  rw [pushEventToQueue_of_firing h]
  exact {
    rule := by simp [markSent, modify]
    inhibit := by simp [markSent, modify]
    pendings := by simp [markSent, modify]
    pendingsUseByRecover := by simp [markSent, modify]
    keeps := by rw [pushFront_heap]; exact hm.keeps
    time := by rw [pushFront_heap]; exact hm.time
    cell := by rw [pushFront_heap]; exact hm.cell
    wf := hwf.pushFront hr
    sameAt := fun h' hne => by
      refine SameAt.trans ?_ (SameAt.pushFront h' _ r)
      have hs := hm.sameAt h' hne
      refine ⟨?_, hs.pending, hs.observed⟩
      rw [← hs.fired]
      simp [fired, markSent, lookup_insert_of_ne _ hne, modify]
    fired_self := by
      rw [(SameAt.pushFront _ _ r).fired]
      simp [fired, markSent, modify]
    log := by simp [markSent]
    sched := by simp [markSent, modify]
    tick := by simp [markSent, modify] }

/-- An alert already firing, looked at again: it takes the new evaluation time, and the event takes
the alert's first trigger time. -/
def refire (w : World) (r f : Ref) : World :=
  let w := { w with heap := w.heap.touch (some f) (w.heap.get r).lastEvalTime }
  w.modify r fun e => { e with firstTriggerTime := (w.heap.get f).firstTriggerTime }

theorem get_refire (w : World) (r f : Ref) : (w.refire r f).heap.get r
      = { w.heap.get r with firstTriggerTime := (w.heap.get f).firstTriggerTime } := by
  have hk := (w.heap.touch_keeps (some f) (w.heap.get r).lastEvalTime
    (π := firstTriggerTime) fun _ => rfl).get f
  simp [refire, modify, hk]

theorem core_refire (w : World) (r f r' : Ref) : ((w.refire r f).heap.get r').core
      = if r' = r then
          ({ w.heap.get r with firstTriggerTime := (w.heap.get f).firstTriggerTime }).core
        else (w.heap.get r').core := by
  by_cases hr : r' = r
  · subst hr; rw [if_pos rfl, get_refire]
  · have hk := w.heap.touch_keeps (some f) (w.heap.get r).lastEvalTime (π := core) fun _ => rfl
    rw [if_neg hr, ← hk.get r']
    simp [refire, modify, get_modify_of_ne _ _ hr]

theorem fires_refire (hw : w.WF) {f : Ref} (hf : w.fires.lookup (w.heap.get r).hash = some f) :
    Fires r none w (w.refire r f) := by
  have ht := touches_touch hw hw.fires (w.heap.get r).hash (w.heap.get r).lastEvalTime
  rw [hf] at ht
  have hk : w.heap.Keeps (fun e => (e.ident, e.firstEvalTime))
      (w.heap.touch (some f) (w.heap.get r).lastEvalTime) := w.heap.touch_keeps _ _ fun _ => rfl
  have h₁ : Writes r w { w with heap := w.heap.touch (some f) (w.heap.get r).lastEvalTime } :=
    { rule := rfl, inhibit := rfl, pendings := rfl, pendingsUseByRecover := rfl, keeps := hk,
      time := ht.time, wf := ht.wf, sameAt := ht.sameAt
      cell := fun r' hne => by
        have hfr : some f ≠ some r' := fun h =>
          hne (by rw [← some.inj h, (hw.fires _ f hf).2])
        rw [touch_get, if_neg hfr] }
  refine ⟨h₁.trans (Writes.modify h₁.wf r fun _ => ⟨rfl, rfl, rfl⟩), ?_, by simp [refire, modify],
    rfl, rfl⟩
  have hget : (w.refire r f).heap.get f
      = { w.heap.get f with lastEvalTime := (w.heap.get r).lastEvalTime } := by
    by_cases hfr : f = r
    · subst hfr; exact get_refire w f f
    · simp [refire, modify, get_modify_of_ne _ _ hfr, touch_get]
  have hlook : (w.refire r f).fires.lookup (w.heap.get r).hash = some f := hf
  simp [fired, hlook, hf, hget]

theorem fireEvent_of_fired {f : Ref} (hf : w.fires.lookup (w.heap.get r).hash = some f) :
    w.fireEvent r
      = match w.rule.notifies (some (w.heap.get f)) (w.heap.get r) with
        | none => w.refire r f
        | some p => ((w.refire r f).modify r fun e =>
            { e with notifyCurNumber := p.notifyCurNumber }).pushEventToQueue r := by
  have hk := w.heap.touch_keeps (some f) (w.heap.get r).lastEvalTime
    (π := fun e => (e.lastSentTime, e.notifyCurNumber)) fun _ => rfl
  have hsent : ((w.heap.touch (some f) (w.heap.get r).lastEvalTime).get f).lastSentTime
      = (w.heap.get f).lastSentTime := congrArg Prod.fst (hk.get f)
  have hnum : ((w.heap.touch (some f) (w.heap.get r).lastEvalTime).get f).notifyCurNumber
      = (w.heap.get f).notifyCurNumber := congrArg Prod.snd (hk.get f)
  simp only [fireEvent, hf, updateLastEvalTime_eq, hsent, hnum, modify, get_modify_self,
    touch_get_own, AlertRule.notifies]
  split_ifs
  all_goals first | rfl | (exfalso; omega)

theorem fireEvent_of_not_notifies
    (hn : w.rule.notifies (w.fired (w.heap.get r).hash) (w.heap.get r) = none) :
    ∃ f, w.fires.lookup (w.heap.get r).hash = some f ∧ w.fireEvent r = w.refire r f := by
  cases hf : w.fires.lookup (w.heap.get r).hash with
  | none => simp [fired, hf, AlertRule.notifies] at hn
  | some f =>
    rw [fired, hf, map_some] at hn
    exact ⟨f, rfl, by rw [fireEvent_of_fired hf, hn]⟩

theorem fireEvent_of_notifies (hw : w.WF) {p : AlertCurEvent}
    (hn : w.rule.notifies (w.fired (w.heap.get r).hash) (w.heap.get r) = some p) :
    ∃ v, v = { w with heap := v.heap } ∧ Writes r w v ∧ sent (v.heap.get r) = p ∧
      w.fireEvent r = v.pushEventToQueue r := by
  cases hf : w.fires.lookup (w.heap.get r).hash with
  | none =>
    rw [fired, hf, map_none] at hn
    cases hn
    refine ⟨w.modify r fun e => { e with notifyCurNumber := 1, firstTriggerTime := e.triggerTime },
      rfl, Writes.modify hw r fun _ => ⟨rfl, rfl, rfl⟩, by simp [modify, sent], ?_⟩
    simp [fireEvent, hf]
  | some f =>
    rw [fired, hf, map_some] at hn
    have hre := fires_refire hw hf
    refine ⟨(w.refire r f).modify r fun e => { e with notifyCurNumber := p.notifyCurNumber }, rfl,
      hre.toWrites.trans (Writes.modify hre.wf r fun _ => ⟨rfl, rfl, rfl⟩), ?_,
      by rw [fireEvent_of_fired hf, hn]⟩
    simp only [AlertRule.notifies] at hn
    split_ifs at hn
    cases hn
    simp [modify, get_refire, sent]

/-- **Firing an event pushes what the rule says, and shows it.** -/
theorem fires_fireEvent (hw : w.WF) (hr : r < w.heap.next)
    (h : (w.heap.get r).isRecovered = false) :
    Fires r (w.rule.notifies (w.fired (w.heap.get r).hash) (w.heap.get r)) w (w.fireEvent r) := by
  cases hn : w.rule.notifies (w.fired (w.heap.get r).hash) (w.heap.get r) with
  | none =>
    obtain ⟨f, hf, heq⟩ := fireEvent_of_not_notifies hn
    rw [heq]
    exact fires_refire hw hf
  | some p =>
    obtain ⟨v, hv, hm, rfl, heq⟩ := fireEvent_of_notifies hw hn
    have hp := fires_pushEventToQueue hm.wf (r := r) (by rw [hm.keeps.next]; exact hr)
      (by rw [← h]; exact isRecovered_eq_of_ident_eq (hm.ident r))
    rw [heq]
    exact hm.fires hp hv

theorem pushEventToQueue_of_recovered (h : (w.heap.get r).isRecovered = true) : w.pushEventToQueue r
      = pushFront { w with log := w.log ++ [push (w.heap.get r) (w.sched w.tick).room] } r := by
  simp [pushEventToQueue, h]

section

variable (hw : w.WF) (hr : r < w.heap.next)

include hw hr

/-- **Pushing any event**, a recovery included, writes to that event's hash only. -/
theorem writes_pushEventToQueue : Writes r w (w.pushEventToQueue r) := by
  cases h : (w.heap.get r).isRecovered with
  | false => exact (fires_pushEventToQueue hw hr h).toWrites
  | true =>
    rw [pushEventToQueue_of_recovered h]
    exact {
      rule := by simp
      inhibit := by simp
      pendings := by simp
      pendingsUseByRecover := by simp
      keeps := by rw [pushFront_heap]; exact refl _ _
      time := fun r' => .inl (by rw [pushFront_heap])
      cell := fun r' _ => by rw [pushFront_heap]
      wf := WF.pushFront hw.beside hr
      sameAt := fun h _ =>
        ⟨by simp [fired], by simp [pending], by simp [observed]⟩ }

/-- **Firing any event**, one marked recovered included, writes to that event's hash only. -/
theorem writes_fireEvent : Writes r w (w.fireEvent r) := by
  cases hn : w.rule.notifies (w.fired (w.heap.get r).hash) (w.heap.get r) with
  | none =>
    obtain ⟨f, hf, heq⟩ := fireEvent_of_not_notifies hn
    rw [heq]
    exact (fires_refire hw hf).toWrites
  | some p =>
    obtain ⟨v, -, hm, -, heq⟩ := fireEvent_of_notifies hw hn
    rw [heq]
    exact hm.trans (writes_pushEventToQueue hm.wf (by rw [hm.keeps.next]; exact hr))

theorem mem_fires_fireEvent (h : (w.heap.get r).isRecovered = false)
    : (w.heap.get r).hash ∈ (w.fireEvent r).fires := by
  rw [← fired_isSome_iff, (fires_fireEvent hw hr h).fired_self]
  cases w.fired (w.heap.get r).hash with
  | none => rfl
  | some f => cases w.rule.notifies (some f) (w.heap.get r) <;> rfl

theorem mem_fires_fireEvent_of_mem (h : (w.heap.get r).isRecovered = false) {h' : Hash}
    (hm : h' ∈ w.fires) : h' ∈ (w.fireEvent r).fires := by
  by_cases hh : h' = (w.heap.get r).hash
  · rw [hh]; exact mem_fires_fireEvent hw hr h
  · exact ((fires_fireEvent hw hr h).sameAt h' hh).mem_fires.mpr hm

end

end Fire

/-! ## Removing an alert -/

/-- The alert `f` fires under `h`, and `RecoverSingle` would let it go: the observation window has
passed, and a recover condition, where the trigger has one, is met by a recover point. -/
structure Releases (w : World) (byRecover : Bool) (h : Hash) (now : ℤ) (f : AlertCurEvent) :
    Prop where
  fired : w.fired h = some f
  held : w.held h now = false
  judge : f.recoverConfig.judgeType = .origin ∨ byRecover = true

/-- What removing an alert can do: no cell of another hash changes, the alert and its spell are
gone, and no other hash feels it. -/
structure Removes (h : Hash) (w w' : World) : Prop where
  rule : w'.rule = w.rule
  inhibit : w'.inhibit = w.inhibit
  next : w'.heap.next = w.heap.next
  hash : ∀ r, (w'.heap.get r).hash = (w.heap.get r).hash
  cell : ∀ r, (w.heap.get r).hash ≠ h → w'.heap.get r = w.heap.get r
  fired : w'.fired h = none
  pending : w'.pending h = none
  wf : w'.WF
  sameAt : ∀ h' ≠ h, SameAt h' w w'

section

variable {w w' : World} {h h' : Hash} (hrem : Removes h' w w')

include hrem

theorem Removes.fired_of_fired {f : AlertCurEvent} (hf : w'.fired h = some f)
    : w.fired h = some f := by
  have hne : h ≠ h' := fun heq => by
    rw [heq, hrem.fired] at hf
    cases hf
  exact (hrem.sameAt h hne).fired.symm.trans hf

theorem Removes.mem_fires_of_mem (hm : h ∈ w'.fires) : h ∈ w.fires := by
  rw [← fired_isSome_iff, isSome_iff_exists] at hm ⊢
  exact hm.imp fun _ => hrem.fired_of_fired

theorem Removes.fired_eq_none (hf : w.fired h = none) : w'.fired h = none :=
  eq_none_iff_forall_ne_some.mpr fun f hf' => by
    rw [hrem.fired_of_fired hf'] at hf
    cases hf

end

section

variable (rule : AlertRule) (now : ℤ) (value : Option String) (values : List String)
  (e : AlertCurEvent)

theorem recovery_hash : (recovery rule now value values e).hash = e.hash := by
  cases value <;> rfl

theorem recovery_status : (recovery rule now value values e).status = e.status := by
  cases value <;> rfl

@[simp] theorem recovery_isRecovered : (recovery rule now value values e).isRecovered = true := rfl

@[simp] theorem recovery_lastEvalTime : (recovery rule now value values e).lastEvalTime = now := rfl

end

section Remove

variable {w : World} {h : Hash}

theorem WF.consume (hw : w.WF) (n : ℕ) : (consume n w).WF := by
  have hsub := (waiting_consume_suffix n w).subset
  obtain ⟨q, b, t, h⟩ := consume_eq n w
  rw [h] at hsub ⊢
  exact ⟨hw.fires, hw.pendings, hw.pendingsUseByRecover, fun r hr => hw.waiting r (hsub hr)⟩

theorem WF.yield (hw : w.WF) : w.yield.WF := by
  have hw' : WF { w with tick := w.tick + 1 } := hw.beside
  exact hw'.consume _

theorem SameAt.yield (h : Hash) (w : World) : SameAt h w w.yield :=
  ⟨by simp [World.fired], by simp [World.pending], by simp [World.observed]⟩

/-- What takes a hash out of the maps, and touches no other, removes its alert. -/
theorem removes_erase (hw : w.WF) (h : Hash) {m : EventMap} (hm : Owns w.heap m)
    (hother : ∀ h' ≠ h, m.lookup h' = w.pendingsUseByRecover.lookup h') (log : List Effect) :
    Removes h w { w with
      fires := w.fires.erase h, pendings := w.pendings.erase h,
      pendingsUseByRecover := m, log } where
  rule := rfl
  inhibit := rfl
  next := rfl
  hash _ := rfl
  cell _ _ := rfl
  fired := by simp [fired]
  pending := by simp [pending]
  wf := ⟨hw.fires.erase h, hw.pendings.erase h, hm, hw.waiting⟩
  sameAt h' hne := ⟨by simp [fired, lookup_erase_ne hne],
      by simp [pending, lookup_erase_ne hne], by simp [observed, hother h' hne]⟩

theorem removes_deleteProcessEvent (hw : w.WF) (h : Hash) : Removes h w (w.deleteProcessEvent h) :=
  removes_erase hw h (hw.pendingsUseByRecover.erase h)
    (fun _ hne => lookup_erase_ne hne) w.log

/-- The consumer may run in between; tables and log are of no account. -/
theorem Removes.yield {u : World} (s : Removes h w u) (tables : Tables) (log : List Effect) :
    Removes h w { u.yield with tables, log } where
  rule := by simpa using s.rule
  inhibit := by simpa using s.inhibit
  next := by simpa using s.next
  hash r := by simpa using s.hash r
  cell r hne := by simpa using s.cell r hne
  fired := by simpa [World.fired] using s.fired
  pending := by simpa [World.pending] using s.pending
  wf := s.wf.yield.beside
  sameAt h' hne := have hy := SameAt.yield h' u
    (s.sameAt h' hne).trans ⟨hy.fired, hy.pending, hy.observed⟩

theorem recoverSingle_of_not_releases {b : Bool} {now : ℤ} (v : Option String)
    (vs : List String) (hn : ∀ f, ¬ w.Releases b h now f) : w.recoverSingle b h now v vs = w := by
  unfold recoverSingle
  cases hf : w.fires.lookup h with
  | none => simp
  | some r =>
    have hfired : w.fired h = some (w.heap.get r) := by simp [fired, hf]
    cases hheld : w.held h now with
    | true => simp
    | false =>
      have hj : ¬ ((w.heap.get r).recoverConfig.judgeType = .origin ∨ b = true) := fun hj =>
        hn _ ⟨hfired, hheld, hj⟩
      rw [not_or] at hj
      simp [hj]

/-- The world in which `RecoverSingle` has let the alert behind `r` go and not yet queued it. -/
def letGo (w : World) (b : Bool) (h : Hash) (now : ℤ) (v : Option String) (vs : List String)
    (r : Ref) : World :=
  { (w.yield.deleteProcessEvent h).modify r (recovery w.rule now v vs) with
    log := w.log ++
      [remove h now (w.seen h) b,
        push (recovery w.rule now v vs (w.heap.get r)) (w.sched w.yield.tick).room] }

theorem recoverSingle_eq_letGo {b : Bool} {now : ℤ} {r : Ref} (v : Option String)
    (vs : List String) (hr : w.fires.lookup h = some r)
    (hf : w.Releases b h now (w.heap.get r)) :
    w.recoverSingle b h now v vs = (w.letGo b h now v vs r).pushFront r := by
  rcases hf.judge with hj | hj <;>
    simp [recoverSingle, hr, hf.held, hj, letGo, pushEventToQueue, modify, deleteProcessEvent]

theorem removes_letGo (hw : w.WF) (b : Bool) (now : ℤ) (v : Option String) (vs : List String)
    {r : Ref} (hr : w.fires.lookup h = some r) : Removes h w (w.letGo b h now v vs r) := by
  obtain ⟨hlt, rfl⟩ := hw.fires h r hr
  have hd := removes_deleteProcessEvent hw.yield (w.heap.get r).hash
  have hm := hd.wf.modify r (recovery_hash w.rule now v vs)
  have hs : ∀ h' ≠ (w.heap.get r).hash, SameAt h' w (w.letGo b (w.heap.get r).hash now v vs r) :=
    fun h' hne => by
      refine ((SameAt.yield h' w).trans (hd.sameAt h' hne)).trans ?_
      have := SameAt.modify hd.wf (r := r) (h := h')
        (by rw [hd.hash, yield_heap]; exact hne) (recovery w.rule now v vs)
      exact ⟨this.fired, this.pending, this.observed⟩
  exact {
    rule := by simp [letGo, modify, deleteProcessEvent]
    inhibit := by simp [letGo, modify, deleteProcessEvent]
    next := by simp [letGo, modify, deleteProcessEvent]
    hash := fun r' => by
      have := proj_get_modify hash w.heap r r' (recovery w.rule now v vs)
        (recovery_hash _ _ _ _ _)
      simpa [letGo, modify, deleteProcessEvent] using this
    cell := fun r' hne => by
      have hrr : r' ≠ r := fun hrr => hne (by rw [hrr])
      simp [letGo, modify, deleteProcessEvent, get_modify_of_ne _ _ hrr]
    fired := by simp [fired, letGo, modify, deleteProcessEvent]
    pending := by simp [pending, letGo, modify, deleteProcessEvent]
    wf := hm.beside
    sameAt := hs }

theorem Removes.pushFront {w' : World} (s : Removes h w w') {r : Ref} (hr : r < w.heap.next) :
    Removes h w (w'.pushFront r) where
  rule := by rw [pushFront_rule, s.rule]
  inhibit := by rw [pushFront_inhibit, s.inhibit]
  next := by rw [pushFront_heap, s.next]
  hash := by rw [pushFront_heap]; exact s.hash
  cell := by rw [pushFront_heap]; exact s.cell
  fired := by rw [(SameAt.pushFront h w' r).fired, s.fired]
  pending := by rw [(SameAt.pushFront h w' r).pending, s.pending]
  wf := s.wf.pushFront (by rw [s.next]; exact hr)
  sameAt h' hne := (s.sameAt h' hne).trans (SameAt.pushFront h' w' r)

/-- **`RecoverSingle` on an alert it lets go**: the alert is removed from all three maps, and its
recovery is pushed. -/
theorem recoverSingle_of_releases (hw : w.WF) {b : Bool} {now : ℤ} {f : AlertCurEvent}
    (v : Option String) (vs : List String) (hf : w.Releases b h now f) :
    Removes h w (w.recoverSingle b h now v vs) ∧ (w.recoverSingle b h now v vs).observed h = none ∧
      (w.recoverSingle b h now v vs).log = w.log ++
        [remove h now (w.seen h) b,
          push (recovery w.rule now v vs f) (w.sched w.yield.tick).room] := by
  obtain ⟨r, hr, rfl⟩ := map_eq_some_iff.mp hf.fired
  rw [recoverSingle_eq_letGo v vs hr hf]
  refine ⟨(removes_letGo hw b now v vs hr).pushFront (hw.fires h r hr).1, ?_, by simp [letGo]⟩
  rw [(SameAt.pushFront h _ r).observed]
  simp [observed, letGo, modify, deleteProcessEvent]

/-- **The two ways `RecoverSingle` can go.** -/
theorem recoverSingle_cases (hw : w.WF) (b : Bool) (h : Hash) (now : ℤ) (v : Option String)
    (vs : List String) : w.recoverSingle b h now v vs = w ∨ ∃ f, w.Releases b h now f ∧
      Removes h w (w.recoverSingle b h now v vs) ∧
      (w.recoverSingle b h now v vs).observed h = none ∧
      (w.recoverSingle b h now v vs).log = w.log ++
        [remove h now (w.seen h) b,
          push (recovery w.rule now v vs f) (w.sched w.yield.tick).room] := by
  by_cases hrel : ∃ f, w.Releases b h now f
  · obtain ⟨f, hf⟩ := hrel
    exact .inr ⟨f, hf, recoverSingle_of_releases hw v vs hf⟩
  · exact .inl (recoverSingle_of_not_releases v vs fun f hf => hrel ⟨f, hf⟩)

theorem Releases.hash_recovery (hw : w.WF) {b : Bool} {now : ℤ} {f : AlertCurEvent}
    (hf : w.Releases b h now f) (v : Option String) (vs : List String) :
    (recovery w.rule now v vs f).hash = h :=
  (recovery_hash _ _ _ _ _).trans (hw.hash_of_fired hf.fired)

theorem sameAt_recoverSingle (hw : w.WF) {b : Bool} {now : ℤ} {v : Option String}
    {vs : List String} {h' : Hash} (hne : h' ≠ h) : SameAt h' w (w.recoverSingle b h now v vs) := by
  rcases recoverSingle_cases hw b h now v vs with heq | ⟨f, -, hrem, -, -⟩
  · rw [heq]
    exact SameAt.refl h' w
  · exact hrem.sameAt h' hne

/-- **Dropping an inhibited alert** removes it silently; what was last seen of it stays. -/
theorem removes_dropInhibited (hw : w.WF) (h : Hash) (now : ℤ) :
    Removes h w (w.dropInhibited h now) ∧ (w.dropInhibited h now).observed h = w.observed h ∧
      (w.dropInhibited h now).log = w.log ++ [remove h now (w.seen h) false] := by
  refine ⟨?_, by simp [observed, dropInhibited], by simp [dropInhibited]⟩
  exact (removes_erase hw h hw.pendingsUseByRecover (fun _ _ => rfl) _).yield _ _

/-- **Deleting the alert of an outranked recover point** removes it silently. -/
theorem removes_deleteInhibited (hw : w.WF) (h : Hash) (now : ℤ) :
    Removes h w (w.deleteInhibited h now) ∧ (w.deleteInhibited h now).observed h = none := by
  refine ⟨?_, by simp [observed, deleteInhibited, deleteProcessEvent]⟩
  exact (removes_deleteProcessEvent hw h).yield _ _

theorem deleteInhibited_log (w : World) (h : Hash) (now : ℤ) :
    (w.deleteInhibited h now).log = w.log ∨
      (w.deleteInhibited h now).log = w.log ++ [remove h now (w.seen h) true] := by
  simp only [deleteInhibited]
  split
  · exact .inr rfl
  · exact .inl rfl

end Remove

end World

end Nightingale
