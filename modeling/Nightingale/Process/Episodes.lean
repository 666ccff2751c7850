import Nightingale.Process.Calls

/-!
# Process/Episodes — the notification discipline

What a processor pushes of one hash is a sequence of **episodes**:

    first fire, repeat, …, repeat, recovery?  │  first fire, …  │  …

`Episode` is the shape, with its laws as fields; `Ledger` ties the pushes of a hash to what `fires`
shows of it — the episode under way, by its length, its first trigger time and the time it was last
sent.  Every operation keeps the ledger, because the counters `fireEvent` reads off the alert are
exactly the ones the ledger pins down.
-/

namespace Nightingale

open AlertCurEvent World List Option Example AlertRule Effect

/-! ## Episodes -/

/-- The events of a hash handed to the queue, in order, those it refused included. -/
def pushes (h : Hash) (log : List Effect) : List AlertCurEvent :=
  log.filterMap fun
    | .push e _ => if e.hash = h then some e else none
    | _ => none

/-- One alert from its first notification on, under a rule with repeat step `s` and maximum `m`. -/
structure Episode (s m : ℤ) where
  first : AlertCurEvent
  repeats : List AlertCurEvent
  recovery : Option AlertCurEvent
  firing : ∀ e ∈ first :: repeats, e.isRecovered = false
  recovered : ∀ e ∈ recovery, e.isRecovered = true
  number : ∀ k : ℕ, ∀ e ∈ (first :: repeats)[k]?, e.notifyCurNumber = k + 1
  trigger : ∀ e ∈ repeats, e.firstTriggerTime = first.firstTriggerTime
  spaced : List.IsChain (fun a b => a.lastEvalTime + 60 * s ≤ b.lastEvalTime) (first :: repeats)
  bounded : 0 < m → ((first :: repeats).length : ℤ) ≤ m
  single : s = 0 → repeats = []

open Episode

namespace Episode

variable {s m : ℤ}

/-- The notifications of an episode, the recovery left out. -/
def fires (ep : Episode s m) : List AlertCurEvent := ep.first :: ep.repeats

/-- Everything an episode pushes. -/
def events (ep : Episode s m) : List AlertCurEvent := ep.fires ++ ep.recovery.toList

/-- The notification an episode sent last. -/
def last (ep : Episode s m) : AlertCurEvent := ep.fires.getLast (by simp [fires])

/-- The episode is what the alert `f` stands for: as many notifications, the same first trigger
time, last sent when the last of them was. -/
structure Stands (ep : Episode s m) (f : AlertCurEvent) : Prop where
  recovery : ep.recovery = none
  number : f.notifyCurNumber = ep.fires.length
  trigger : f.firstTriggerTime = ep.first.firstTriggerTime
  sent : f.lastSentTime = ep.last.lastEvalTime

theorem Stands.of_core {ep : Episode s m} {f f' : AlertCurEvent} (h : f'.core = f.core)
    (st : ep.Stands f) : ep.Stands f' where
  recovery := st.recovery
  number := (congrArg notifyCurNumber h : f'.core.notifyCurNumber = _).trans st.number
  trigger := (congrArg firstTriggerTime h : f'.core.firstTriggerTime = _).trans st.trigger
  sent := (congrArg lastSentTime h : f'.core.lastSentTime = _).trans st.sent

/-- The episode of a first notification. -/
def begin (p : AlertCurEvent) (hp : p.isRecovered = false) (hn : p.notifyCurNumber = 1) :
    Episode s m where
  first := p
  repeats := []
  recovery := none
  firing := by simpa using hp
  recovered := by simp
  number k e he := by
    cases k with
    | zero =>
      obtain rfl : p = e := by simpa using he
      simpa using hn
    | succ k => simp at he
  trigger := by simp
  spaced := by simp
  bounded hm := by simp; omega
  single _ := rfl

/-- An episode with one more notification. -/
def again (ep : Episode s m) (p : AlertCurEvent) (hp : p.isRecovered = false)
    (hn : p.notifyCurNumber = ep.fires.length + 1)
    (ht : p.firstTriggerTime = ep.first.firstTriggerTime)
    (hs : ep.last.lastEvalTime + 60 * s ≤ p.lastEvalTime)
    (hm : 0 < m → (ep.fires.length : ℤ) < m) (hs0 : s ≠ 0) : Episode s m where
  first := ep.first
  repeats := ep.repeats ++ [p]
  recovery := none
  firing e he := by
    rcases mem_append.mp (show e ∈ (ep.first :: ep.repeats) ++ [p] from he) with he | he
    · exact ep.firing e he
    · rw [mem_singleton.mp he]; exact hp
  recovered := by simp
  number k e he := by
    rw [← cons_append, getElem?_append] at he
    split at he
    · exact ep.number k e he
    · next hk =>
      obtain ⟨h0, rfl⟩ : k - (ep.first :: ep.repeats).length = 0 ∧ p = e := by
        simpa [getElem?_singleton] using he
      rw [hn, fires]
      omega
  trigger e he := by
    rcases mem_append.mp he with he | he
    · exact ep.trigger e he
    · rw [mem_singleton.mp he]; exact ht
  spaced := by
    rw [← cons_append, isChain_append]
    refine ⟨ep.spaced, by simp, fun a ha b hb => ?_⟩
    obtain rfl : p = b := by simpa using hb
    have hlast : ep.fires.getLast? = some ep.last := getLast?_eq_some_getLast _
    obtain rfl : ep.last = a := some.inj (hlast.symm.trans ha)
    exact hs
  bounded h := by
    have := hm h
    simp [fires] at this ⊢
    omega
  single h := absurd h hs0

/-- An episode ended by its recovery. -/
def close (ep : Episode s m) (p : AlertCurEvent) (hp : p.isRecovered = true) : Episode s m :=
  { ep with recovery := some p, recovered := by simpa using hp }

end Episode

/-! ## The ledger -/

/-- **The ledger of a hash**: its pushes are closed episodes, and the one under way if it fires. -/
inductive Ledger (s m : ℤ) (pushed : List AlertCurEvent) : Option AlertCurEvent → Prop
  | idle (eps : List (Episode s m)) (h : pushed = eps.flatMap events) :
      Ledger s m pushed none
  | firing (eps : List (Episode s m)) (ep : Episode s m) {f : AlertCurEvent} (st : ep.Stands f)
      (h : pushed = eps.flatMap events ++ ep.fires) : Ledger s m pushed (some f)

namespace Ledger

variable {s m : ℤ} {pushed : List AlertCurEvent} {o o' : Option AlertCurEvent}

/-- The pushes a ledger speaks of are a sequence of episodes. -/
theorem episodes (l : Ledger s m pushed o) :
    ∃ eps : List (Episode s m), pushed = eps.flatMap events := by
  cases l with
  | idle eps h => exact ⟨eps, h⟩
  | firing eps ep st h =>
    exact ⟨eps ++ [ep], by simp [h, events, st.recovery]⟩

theorem of_core (h : o'.map core = o.map core) (l : Ledger s m pushed o) :
    Ledger s m pushed o' := by
  cases l with
  | idle eps hp =>
    obtain rfl : o' = none := by simpa using h
    exact .idle eps hp
  | firing eps ep st hp =>
    obtain ⟨f', rfl, hf'⟩ := map_eq_some_iff.mp h
    exact .firing eps ep (st.of_core hf') hp

theorem drop (l : Ledger s m pushed o) : Ledger s m pushed none := by
  obtain ⟨eps, h⟩ := l.episodes
  exact .idle eps h

theorem recover {f p : AlertCurEvent} (hp : p.isRecovered = true)
    (l : Ledger s m pushed (some f)) : Ledger s m (pushed ++ [p]) none := by
  cases l with
  | firing eps ep st h =>
    exact .idle (eps ++ [ep.close p hp])
      (by simp [h, Episode.events, Episode.close, Episode.fires])

/-- **A notification begins an episode or goes on with one**, as the rule says. -/
theorem notify {rule : AlertRule} (hs : rule.notifyRepeatStep = s) (hm : rule.notifyMaxNumber = m)
    {e p : AlertCurEvent} (he : e.isRecovered = false) (hn : rule.notifies o e = some p)
    (l : Ledger s m pushed o) : Ledger s m (pushed ++ [p]) (some p) := by
  have hrec : p.isRecovered = false := by
    rw [isRecovered_eq_of_ident_eq (notifies_ident hn), he]
  obtain ⟨hlast, hsent⟩ := notifies_time hn
  cases l with
  | idle eps h =>
    have hnum : p.notifyCurNumber = 1 := by
      obtain rfl := some.inj hn; rfl
    refine .firing eps (Episode.begin p hrec hnum) ⟨rfl, by simpa [Episode.fires, Episode.begin],
      rfl, ?_⟩ (by simp [h, Episode.fires, Episode.begin])
    rw [hsent, ← hlast]
    rfl
  | firing eps ep st h =>
    simp only [notifies] at hn
    split_ifs at hn with hs0 hdue hmax
    cases hn
    have hnum := st.number
    have hlast := st.sent
    rw [hs] at hs0 hdue
    rw [hm] at hmax
    refine .firing eps (ep.again _ hrec (by simp [hnum]) st.trigger ?_ ?_ hs0)
      ⟨rfl, ?_, st.trigger, ?_⟩ (by simp [h, Episode.fires, Episode.again])
    · rw [← hlast]; omega
    · intro hpos; omega
    · simp [hnum, Episode.fires, Episode.again]
    · simp [Episode.last, Episode.fires, Episode.again]

end Ledger

/-! ## Along a run -/

theorem mem_pushes {h : Hash} {log : List Effect} {e : AlertCurEvent} :
    e ∈ pushes h log ↔ (∃ b, push e b ∈ log) ∧ e.hash = h := by
  rw [pushes, mem_filterMap]
  constructor
  · rintro ⟨x, hx, hxe⟩
    cases x with
    | push e' b =>
      simp only [ite_none_right_eq_some, some.injEq] at hxe
      obtain ⟨rfl, rfl⟩ := hxe
      exact ⟨⟨b, hx⟩, rfl⟩
    | deliver h' t | remove h' now t b => cases hxe
  · rintro ⟨⟨b, hx⟩, rfl⟩
    exact ⟨_, hx, by simp⟩

@[simp] theorem pushes_append (h : Hash) (l l' : List Effect) :
    pushes h (l ++ l') = pushes h l ++ pushes h l' := filterMap_append

@[simp] theorem pushes_remove (h h' : Hash) (now : ℤ) (t : Option ℤ) (b : Bool) :
    pushes h [remove h' now t b] = [] := rfl

theorem pushes_push (h : Hash) (e : AlertCurEvent) (b : Bool) :
    pushes h [push e b] = if e.hash = h then [e] else [] := by
  by_cases hh : e.hash = h <;> simp [pushes, hh]

theorem pushes_remove_push (l : List Effect) (h h' : Hash) (now : ℤ) (t : Option ℤ) (b : Bool)
    (e : AlertCurEvent) (b' : Bool) : pushes h (l ++ [remove h' now t b, push e b'])
      = pushes h l ++ if e.hash = h then [e] else [] := by
  rw [pushes_append, ← singleton_append, pushes_append, pushes_remove, pushes_push, nil_append]

@[simp] theorem pushes_delivered (env : Env) (c : HandleCall) (rule : AlertRule) (h : Hash) :
    pushes h (c.delivered env rule) = [] := by
  rw [eq_nil_iff_forall_not_mem]
  intro e he
  obtain ⟨x, hx, hxe⟩ := mem_filterMap.mp he
  obtain ⟨point, -, rfl⟩ := mem_map.mp hx
  cases hxe

theorem World.Fires.pushes_eq {w w' : World} {r : Ref} {rule : AlertRule}
    (hf : Fires r (rule.notifies (w.fired (w.heap.get r).hash) (w.heap.get r)) w w') (h : Hash) :
    pushes h w'.log = pushes h w.log ++ if h = (w.heap.get r).hash then
        (rule.notifies (w.fired (w.heap.get r).hash) (w.heap.get r)).toList
      else [] := by
  rw [hf.log, pushes_append]
  congr 1
  cases hn : rule.notifies (w.fired (w.heap.get r).hash) (w.heap.get r) with
  | none => simp [pushes]
  | some q =>
    rw [map_some, toList_some, toList_some, pushes_push, hash_eq_of_ident_eq (notifies_ident hn)]
    simp only [eq_comm]

/-- The runs the discipline is about: one repeat step and one maximum, pipelines that keep hashes,
and no restart. -/
def Notifying (env : Env) (s m : ℤ) : Op → Prop
  | .handle c => ∀ rule ∈ c.cachedRule,
      (rule.notifyRepeatStep = s ∧ rule.notifyMaxNumber = m) ∧ c.KeepsHash env rule
  | .restart _ => False
  | _ => True

/-- The pipelines of an operation make no recoveries. -/
def FiringOnly (env : Env) : Op → Prop
  | .handle c => ∀ rule ∈ c.cachedRule, c.KeepsFiring env rule
  | _ => True

instance (env : Env) (s m : ℤ) : (op : Op) → Decidable (Notifying env s m op)
  | .handle _ => inferInstanceAs (Decidable (∀ _ ∈ _, _))
  | .recoverPoints _ | .recoverSingle _ _ _ _ => inferInstanceAs (Decidable True)
  | .restart _ => inferInstanceAs (Decidable False)
  | .consume _ => inferInstanceAs (Decidable True)

instance (env : Env) : (op : Op) → Decidable (FiringOnly env op)
  | .handle _ => inferInstanceAs (Decidable (∀ _ ∈ _, _))
  | .recoverPoints _ | .recoverSingle .. | .restart _ | .consume _ =>
    inferInstanceAs (Decidable True)

namespace World

/-- The operation under way, begun in `w₀`, keeps every ledger, and the recoveries it pushed are of
alerts that fired when it began. -/
structure Disciplined (s m : ℤ) (w₀ w : World) : Prop where
  wf : w.WF
  ledger : ∀ h, Ledger s m (pushes h w.log) (w.fired h)
  log : ∃ l, w.log = w₀.log ++ l ∧
    ∀ e b, push e b ∈ l → e.isRecovered = true → e.hash ∈ w₀.fires

namespace Disciplined

variable {s m : ℤ} {w₀ w w' : World} {h : Hash}

section

variable {new : List Effect} (d : Disciplined s m w₀ w)

include d

theorem begin : Disciplined s m w w := ⟨d.wf, d.ledger, [], by simp, by simp⟩

/-- The log grows by entries that are no recoveries of alerts not firing. -/
theorem grow (hnew : w'.log = w.log ++ new)
    (hrec : ∀ e b, push e b ∈ new → e.isRecovered = true → e.hash ∈ w₀.fires) :
    ∃ l, w'.log = w₀.log ++ l ∧
      ∀ e b, push e b ∈ l → e.isRecovered = true → e.hash ∈ w₀.fires := by
  obtain ⟨l, hl, hl'⟩ := d.log
  refine ⟨l ++ new, by rw [hnew, hl, append_assoc], fun e b he => ?_⟩
  rcases mem_append.mp he with he | he
  · exact hl' e b he
  · exact hrec e b he

theorem removes (r : Removes h w w') (hlog : w'.log = w.log ++ new)
    (hnew : ∀ e b, push e b ∉ new) : Disciplined s m w₀ w' where
  wf := r.wf
  ledger h' := by
    have hnil : pushes h' new = [] := eq_nil_iff_forall_not_mem.mpr fun e he =>
      (mem_pushes.mp he).1.elim (hnew e)
    rw [hlog, pushes_append, hnil, append_nil]
    by_cases hh : h' = h
    · rw [hh, r.fired]
      exact (d.ledger h).drop
    · rw [(r.sameAt h' hh).fired]
      exact d.ledger h'
  log := d.grow hlog fun e b he => absurd he (hnew e b)

/-- **Recovering an alert that fired closes its episode.** -/
theorem recoverSingle (hf : h ∈ w.fires → h ∈ w₀.fires) (b : Bool) (now : ℤ) (v : Option String)
    (vs : List String) : Disciplined s m w₀ (w.recoverSingle b h now v vs) := by
  rcases recoverSingle_cases d.wf b h now v vs with heq | ⟨f, hrel, hrem, -, hlog⟩
  · rw [heq]
    exact d
  · have hhash := hrel.hash_recovery d.wf v vs
    refine ⟨hrem.wf, fun h' => ?_, d.grow hlog ?_⟩
    · rw [hlog, pushes_remove_push, hhash]
      by_cases hh : h' = h
      · have hled := d.ledger h
        rw [hrel.fired] at hled
        rw [hh, hrem.fired, if_pos rfl]
        exact hled.recover rfl
      · rw [if_neg (Ne.symm hh), append_nil, (hrem.sameAt h' hh).fired]
        exact d.ledger h'
    · rintro e b he -
      obtain ⟨rfl, -⟩ : e = recovery w.rule now v vs f ∧ _ := by simpa using he
      rw [hhash]
      exact hf (mem_fires_of_fired hrel.fired)

end

theorem mem_fires_of_recoverSingle (hw : w.WF) {b : Bool} {now : ℤ} {v : Option String}
    {vs : List String} {h' : Hash} (hm : h' ∈ (w.recoverSingle b h now v vs).fires) :
    h' ∈ w.fires := by
  rcases recoverSingle_cases hw b h now v vs with heq | ⟨f, -, hrem, -, -⟩
  · rwa [heq] at hm
  · exact hrem.mem_fires_of_mem hm

section Handle

variable {env : Env} {c : HandleCall} {rule : AlertRule} {p : Progress} {r : Ref}

theorem start (d : Disciplined s m w w) (env : Env) (c : HandleCall) (rule : AlertRule) :
    Disciplined s m w (w.handleStart env c rule) where
  wf := d.wf.handleStart env c rule
  ledger h := by
    rw [(SameAt.handleStart d.wf env c rule h).fired, handleStart, pushes_append,
      pushes_delivered, append_nil]
    exact d.ledger h
  log := ⟨c.delivered env rule, rfl, fun e _ he => by
    obtain ⟨point, -, hpe⟩ := mem_map.mp he
    cases hpe⟩

theorem look (d : Disciplined s m w₀ p.world) (hin : InCall env c rule w p.world)
    (hr : (c.collect env rule w.heap).Has r) : Disciplined s m w₀ (p.look env r).world := by
  have ht := touches_look env hin.wf (hin.lt hr)
  have hlog : (p.look env r).world.log = p.world.log := ht.log
  refine ⟨ht.wf, fun h => ?_, by rw [hlog]; exact d.log⟩
  rw [hlog]
  exact (d.ledger h).of_core (ht.fired_core h)

/-- **Firing an event keeps the ledgers.** -/
theorem fire (d : Disciplined s m w₀ p.world)
    (hrule : rule.notifyRepeatStep = s ∧ rule.notifyMaxNumber = m) (hrec : c.KeepsFiring env rule)
    (hin : InCall env c rule w p.world) (hr : (c.collect env rule w.heap).Has r) :
    Disciplined s m w₀ (p.fire r).world := by
  have hnot := hin.not_recovered hr hrec
  have hf := fires_fireEvent hin.wf (hin.lt hr) hnot
  rw [hin.rule] at hf
  have hpush : ∀ h, pushes h (p.fire r).world.log = _ := hf.pushes_eq
  set e := p.world.heap.get r with he
  refine ⟨hf.wf, fun h => ?_, d.grow hf.log fun q b hq hqr => ?_⟩
  · rw [hpush]
    by_cases hh : h = e.hash
    · rw [if_pos hh, hh, show (p.fire r).world = p.world.fireEvent r from rfl, hf.fired_self]
      cases hn : rule.notifies (p.world.fired e.hash) e with
      | none =>
        rw [toList_none, append_nil, none_or]
        refine (d.ledger e.hash).of_core ?_
        rw [Option.map_map]
        rfl
      | some q => exact (d.ledger e.hash).notify hrule.1 hrule.2 hnot hn
    · rw [if_neg hh, append_nil,
        show (p.fire r).world.fired h = p.world.fired h from (hf.sameAt h hh).fired]
      exact d.ledger h
  · rw [mem_toList, map_eq_some_iff] at hq
    obtain ⟨q', hq', heq⟩ := hq
    obtain ⟨rfl, -⟩ := push.inj heq
    rw [isRecovered_eq_of_ident_eq (notifies_ident hq'), hnot] at hqr
    cases hqr

theorem handle (d : Disciplined s m w w) (hc : Notifying env s m (.handle c))
    (hfo : FiringOnly env (.handle c)) : Disciplined s m w (w.handle env c) := by
  unfold World.handle
  cases hrule : c.cachedRule with
  | none =>
    have hfire : ∀ h, pushes h (w.log ++ c.delivered env w.rule) = pushes h w.log := fun h => by
      simp
    refine ⟨d.wf.beside, fun h => ?_, c.delivered env w.rule, rfl, fun e _ he => ?_⟩
    · change Ledger s m (pushes h (w.log ++ c.delivered env w.rule)) (w.fired h)
      rw [hfire]
      exact d.ledger h
    · obtain ⟨point, -, hpe⟩ := mem_map.mp he
      cases hpe
  | some rule =>
    obtain ⟨hsm, hK⟩ := hc rule hrule
    have hrec := hfo rule hrule
    obtain ⟨p, hp, hin, hpw, -, -⟩ := handleGroups_induct d.wf env c rule
      (I := fun p => Disciplined s m w p.world) (d.start env c rule)
      (fun p r hin hr d => d.look hin hr) (fun p r hin hr _ d => d.fire hsm hrec hin hr)
    rw [hpw] at hp hin
    dsimp only
    split
    · refine handleRecover_induct (I := Disciplined s m w) hin.wf ?_ ?_ ?_
      · exact ⟨hp.wf.forget c.fireOrder _, hp.ledger, hp.log⟩
      · intro _ w' h _ _ d'
        obtain ⟨hrem, -, hlog⟩ := removes_dropInhibited d'.wf h c.now
        exact d'.removes hrem hlog (by simp)
      · intro w' h hf hh d'
        exact d'.recoverSingle
          (fun _ => (hin.sameAt_of_notMem hK hh).mem_fires.mp hf) false c.now none []
    · exact hp

end Handle

/-- **One operation keeps the discipline.** -/
theorem step {env : Env} (d : Disciplined s m w w) {op : Op} (hop : Notifying env s m op)
    (hfo : FiringOnly env op) : Disciplined s m w (w.step env op) := by
  cases op with
  | handle c => exact d.handle hop hfo
  | recoverPoints c =>
    refine (recoverPoints_induct (c := c)
      (I := fun w' => Disciplined s m w w' ∧ ∀ h ∈ w'.fires, h ∈ w.fires) ⟨d, fun _ h => h⟩
      (fun _ h => h) ?_ ?_).1
    · rintro - w' p - - - - - - ⟨d', hsub⟩
      obtain ⟨hrem, -⟩ := removes_deleteInhibited d'.wf (pointHash env w.rule.id p) c.now
      refine ⟨?_, fun h hh => hsub h ?_⟩
      · rcases w'.deleteInhibited_log (pointHash env w.rule.id p) c.now with hlog | hlog
        · exact d'.removes hrem (hlog.trans (append_nil _).symm) (by simp)
        · exact d'.removes hrem hlog (by simp)
      exact hrem.mem_fires_of_mem hh
    · rintro w' p - - ⟨d', hsub⟩
      exact ⟨d'.recoverSingle (hsub _) true c.now _ _,
        fun h hh => hsub h (mem_fires_of_recoverSingle d'.wf hh)⟩
  | recoverSingle b h now v => exact d.recoverSingle id b now v []
  | restart c => exact hop.elim
  | consume n =>
    obtain ⟨q, bt, tb, heq⟩ := consume_eq n w
    have hwf : (consume n w).WF := d.wf.consume n
    simp only [World.step]
    rw [heq] at hwf ⊢
    exact ⟨hwf, d.ledger, d.log⟩

end Disciplined

/-- The discipline of a run: of every hash the pushes are episodes, and no operation pushes a
recovery of a hash that did not fire when it began. -/
structure NotificationDiscipline (env : Env) (s m : ℤ) (w : World) (ops : List Op) : Prop where
  episodes : ∀ h, ∃ eps : List (Episode s m),
    pushes h (w.run env ops).log = eps.flatMap events
  recoveries : ∀ ops₁ op ops₂, ops = ops₁ ++ op :: ops₂ →
    ∃ l, (w.run env (ops₁ ++ [op])).log = (w.run env ops₁).log ++ l ∧
      ∀ e b, push e b ∈ l → e.isRecovered = true → e.hash ∈ (w.run env ops₁).fires

/-- **The notification discipline.**  A processor that starts with nothing firing, and whose
pipelines neither change a hash nor make a recovery, pushes of every hash a sequence of episodes. -/
theorem notifications_form_episodes (env : Env) {s m : ℤ} {w : World} (hw : w.WF)
    (hfires : w.fires = ∅) (hlog : w.log = []) {ops : List Op}
    (h : ∀ op ∈ ops, Notifying env s m op ∧ FiringOnly env op) :
    NotificationDiscipline env s m w ops := by
  have hrun : ∀ ops', ops' <+: ops → Disciplined s m (w.run env ops') (w.run env ops') := by
    intro ops'
    induction ops' using reverseRecOn with
    | nil =>
      refine fun _ => ⟨hw, fun h => ?_, [], by simp, by simp⟩
      rw [run_nil, hlog, (w.fired_eq_none_iff h).mpr (by rw [hfires]; exact Finmap.notMem_empty)]
      exact .idle [] rfl
    | append_singleton ops' op ih =>
      intro hpre
      have hop := h op (hpre.subset (by simp))
      rw [run_concat]
      exact ((ih ((prefix_append ops' [op]).trans hpre)).step hop.1 hop.2).begin
  refine ⟨fun h => ((hrun ops (prefix_refl ops)).ledger h).episodes, ?_⟩
  rintro ops₁ op ops₂ rfl
  have hop := h op (by simp)
  rw [run_concat]
  exact ((hrun ops₁ (prefix_append ops₁ _)).step hop.1 hop.2).log

end World

namespace Example

/-- A rule that repeats every minute, twice at most. -/
def twiceRule : AlertRule := { id := 1, notifyRepeatStep := 1, notifyMaxNumber := 2 }

/-- Delivered for two minutes, then gone. -/
def twiceRun : List Op :=
  [.handle (call twiceRule 0 [point "a" 1 0]), .handle (call twiceRule 60 [point "a" 1 60]),
    .handle (call twiceRule 120 [point "a" 1 120]), .handle (call twiceRule 130 [])]

/-- One evaluation, with a pipeline that answers with the recovered event. -/
def recoveringCall : HandleCall :=
  { call twiceRule 0 [point "a" 1 0] with
    pipeline := fun _ e => some { e with isRecovered := true } }

end Example

/-- Two notifications and a recovery. -/
theorem notifications_form_episodes_twice :
    NotificationDiscipline env 1 2 { rule := twiceRule } twiceRun ∧
      (pushes (pointHash env 1 (point "a" 1 0))
        (run env { rule := twiceRule } twiceRun).log).map
          (fun e => (e.isRecovered, e.notifyCurNumber)) = [(false, 1), (false, 2), (true, 2)] :=
  ⟨notifications_form_episodes env (WF.initial _ _ _) rfl rfl (by decide), by decide⟩

/-- **A pipeline can push a recovery of an alert that never fired**: `event_update` may answer with
`is_recovered` set, and the hash as it was. -/
theorem pipeline_pushes_recovery : (∀ op ∈ [Op.handle recoveringCall], Notifying env 1 2 op) ∧
      ¬ NotificationDiscipline env 1 2 { rule := twiceRule }
        [.handle recoveringCall] := by
  refine ⟨by decide, fun hd => ?_⟩
  obtain ⟨l, hl, hrec⟩ := hd.recoveries [] (.handle recoveringCall) [] rfl
  have hpush : ∃ e ∈ pushes (pointHash env 1 (point "a" 1 0))
      (run env { rule := twiceRule } [.handle recoveringCall]).log,
        e.isRecovered = true := by decide
  obtain ⟨e, he, her⟩ := hpush
  obtain ⟨b, hmem⟩ := (mem_pushes.mp he).1
  rw [show [Op.handle recoveringCall] = [] ++ [.handle recoveringCall] from rfl, hl] at hmem
  exact Finmap.notMem_empty (hrec e b hmem her)

end Nightingale
