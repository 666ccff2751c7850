import Nightingale.Process.Calls

/-!
# Process/Observed — the observation map and the alerts it is kept for

`pendingsUseByRecover` remembers when a hash was last evaluated, so that `RecoverSingle` can wait
out the observation window.  It is one of three maps, and each operation moves entries of its own
choice among them:

                 fires    pendings    pendingsUseByRecover
    look           ·         +                 +
    fire           +         ·                 ·
    forget         ·         −                 ·
    drop           −         −                 ·
    recover        −         −                 −

Nothing enters `fires` that was not looked at, and nothing leaves the observation map alone, so
`fires` is inside it in every run (`fires_subset_pendingsUseByRecover`).  Conversely `forget` and
`drop` take a hash out of the other two maps only: a spell that lapses stays observed for ever.
-/

namespace Nightingale

open AlertCurEvent List Finmap

namespace World

/-! ## What a look and a firing do to the three maps -/

section Maps

variable {w : World} {r : Ref} {h : Hash}

theorem seen_ne_none_iff : w.seen h ≠ none ↔ h ∈ w.pendingsUseByRecover := by
  rw [seen, ne_eq, Option.map_eq_none_iff, lookup_eq_none, not_not]

theorem observed_eq_none_iff : w.observed h = none ↔ h ∉ w.pendingsUseByRecover := by
  rw [observed, Option.map_eq_none_iff, lookup_eq_none]

theorem SameAt.mem_pendingsUseByRecover {w' : World} (s : SameAt h w w') :
    h ∈ w'.pendingsUseByRecover ↔ h ∈ w.pendingsUseByRecover := by
  rw [← not_iff_not, ← observed_eq_none_iff, ← observed_eq_none_iff, s.observed]

theorem SameAt.mem_pendings {w' : World} (s : SameAt h w w') :
    h ∈ w'.pendings ↔ h ∈ w.pendings := by
  rw [← not_iff_not, ← pending_eq_none_iff, ← pending_eq_none_iff, s.pending]

/-- A look observes the hash it looks at, and no other. -/
theorem mem_pendingsUseByRecover_look (env : Env) : h ∈ (w.look env r).1.pendingsUseByRecover
      ↔ h = (w.heap.get r).hash ∨ h ∈ w.pendingsUseByRecover := by
  have hlook : (w.look env r).1.pendingsUseByRecover = (w.remember r).pendingsUseByRecover := by
    unfold look
    dsimp only
    split
    · rfl
    · exact pend_pendingsUseByRecover _ r
  rw [hlook, remember]
  cases hl : w.pendingsUseByRecover.lookup (w.heap.get r).hash with
  | none => simp
  | some f =>
    have hm : (w.heap.get r).hash ∈ w.pendingsUseByRecover := mem_iff.mpr ⟨f, hl⟩
    simp only [updateLastEvalTime_eq, iff_or_self]
    exact fun hh => hh ▸ hm

/-- What fires after a firing fired before, or is the event fired. -/
theorem mem_fires_of_mem_fireEvent (hw : w.WF) (hr : r < w.heap.next)
    (hm : h ∈ (w.fireEvent r).fires) : h = (w.heap.get r).hash ∨ h ∈ w.fires := by
  by_cases hh : h = (w.heap.get r).hash
  · exact .inl hh
  · exact .inr (((writes_fireEvent hw hr).sameAt h hh).mem_fires.mp hm)

/-- `RecoverSingle` does nothing, or takes its hash out of both maps. -/
theorem recoverSingle_maps (w : World) (b : Bool) (h : Hash) (now : ℤ) (v : Option String)
    (vs : List String) : w.recoverSingle b h now v vs = w ∨
      (w.recoverSingle b h now v vs).fires = w.fires.erase h ∧
      (w.recoverSingle b h now v vs).pendingsUseByRecover = w.pendingsUseByRecover.erase h := by
  by_cases hf : ∃ f, w.Releases b h now f
  · obtain ⟨f, hf⟩ := hf
    obtain ⟨r, hr, rfl⟩ := Option.map_eq_some_iff.mp hf.fired
    rw [recoverSingle_eq_letGo v vs hr hf]
    simp [letGo, modify, deleteProcessEvent]
  · exact .inl (recoverSingle_of_not_releases v vs fun f hf' => hf ⟨f, hf'⟩)

end Maps

/-! ## Every firing alert is observed -/

/-- Every hash in `fires` is in `pendingsUseByRecover`. -/
def Covered (w : World) : Prop := ∀ h ∈ w.fires, h ∈ w.pendingsUseByRecover

namespace Covered

variable {w : World}

theorem deleteProcessEvent (hc : w.Covered) (hash : Hash) :
    (w.deleteProcessEvent hash).Covered := fun h hh => by
  obtain ⟨hne, hm⟩ := mem_erase.mp hh
  exact mem_erase.mpr ⟨hne, hc h hm⟩

theorem recoverSingle (hc : w.Covered) (b : Bool) (hash : Hash) (now : ℤ) (v : Option String)
    (vs : List String) : (w.recoverSingle b hash now v vs).Covered := by
  rcases recoverSingle_maps w b hash now v vs with heq | ⟨hfires, hobs⟩
  · rw [heq]
    exact hc
  · rw [Covered, hfires, hobs]
    exact hc.deleteProcessEvent hash

theorem dropInhibited (hc : w.Covered) (hash : Hash) (now : ℤ) :
    (w.dropInhibited hash now).Covered := fun h hh => by
  rw [dropInhibited_fires] at hh
  rw [dropInhibited_pendingsUseByRecover]
  exact hc h (mem_erase.mp hh).2

/-- **The events of a call**: an event is fired only after it was looked at, and a look observes. -/
theorem handleGroups (hw : w.WF) (hc : w.Covered) (env : Env) (c : HandleCall) (rule : AlertRule) :
    (w.handleGroups env c rule).Covered := by
  let I : Progress → Prop := fun p => p.world.Covered ∧
    ∀ r ∈ p.due, (p.world.heap.get r).hash ∈ p.world.pendingsUseByRecover
  have hlook : ∀ p r, InCall env c rule w p.world → (c.collect env rule w.heap).Has r →
      I p → I (p.look env r) := by
    rintro p r hin hr ⟨hcov, hdue⟩
    have ht := touches_look env hin.wf (hin.lt hr)
    refine ⟨fun h hh => ?_, fun r' hr' => ?_⟩
    · rw [Progress.look, ht.fires] at hh
      exact (mem_pendingsUseByRecover_look env).mpr (.inr (hcov h hh))
    · rw [Progress.look, hash_eq_of_core_eq (ht.keeps.get r'), mem_pendingsUseByRecover_look]
      rcases Progress.mem_due_look.mp hr' with hr' | ⟨rfl, -⟩
      · exact .inr (hdue r' hr')
      · exact .inl rfl
  have hfire : ∀ p r, InCall env c rule w p.world → (c.collect env rule w.heap).Has r →
      r ∈ p.due → I p → I (p.fire r) := by
    rintro p r hin hr hr' ⟨hcov, hdue⟩
    have hf := writes_fireEvent hin.wf (hin.lt hr)
    refine ⟨fun h hh => ?_, fun r' hr' => ?_⟩
    · rw [Progress.fire, hf.pendingsUseByRecover]
      rcases mem_fires_of_mem_fireEvent hin.wf (hin.lt hr) hh with rfl | hh
      · exact hdue r hr'
      · exact hcov h hh
    · rw [Progress.fire, hf.pendingsUseByRecover, hf.hash]
      exact hdue r' hr'
  obtain ⟨p, hI, -, hpw, -, -⟩ := handleGroups_induct hw env c rule (I := I)
    ⟨hc, fun r hr => by cases hr⟩ hlook hfire
  exact hpw ▸ hI.1

theorem recoverAlertCurEventFromDb (env : Env) (w : World) (c : RestartCall) :
    (w.recoverAlertCurEventFromDb env c).Covered := fun h hh => by
  have hs := (restarted env c w).observed h
  rw [← fired_isSome_iff, ← hs, Option.isSome_iff_ne_none, ne_eq, observed_eq_none_iff,
    not_not] at hh
  exact hh

end Covered

/-! ## Where `RecoverSingle` is entered

The return for want of a pending event is one of `RecoverSingle`'s, so it is reached, if ever, in a
state in which `RecoverSingle` is entered: at the call itself, or at a turn of a loop of
`HandleRecoverEvent`. -/

/-- `D` holds of the state and the hash at every `RecoverSingle` that `HandleRecoverEvent`
enters. -/
def EachRecover (D : World → Hash → Prop) (tagOrder : MapOrder String) (w : World)
    (hashArr : List Hash) (now : ℤ) (inhibit : Bool) : Prop :=
  if !inhibit then Along (fun w hash => w.recoverSingle false hash now none []) D w hashArr
  else
    let acc := hashArr.foldl (groupRecover now) (w, ∅)
    Along (fun w tags =>
      match acc.2.lookup tags with
      | none => w
      | some event => w.recoverSingle false event.hash now none [])
      (fun w tags => ∀ event ∈ acc.2.lookup tags, D w event.hash)
      acc.1 (tagOrder.list acc.2.keys)

/-- **What a drop and a recovery keep, `HandleRecoverEvent` keeps**, and whatever follows from it
holds where `RecoverSingle` is entered. -/
theorem handleRecoverEvent_keeps {I : World → Prop} {D : World → Hash → Prop} {now : ℤ}
    (hdrop : ∀ w h, I w → I (w.dropInhibited h now))
    (hrecover : ∀ w h, I w → I (w.recoverSingle false h now none []))
    (himp : ∀ w h, I w → D w h) {w : World} (hw : I w) (tagOrder : MapOrder String)
    (hashArr : List Hash) (inhibit : Bool) : w.EachRecover D tagOrder hashArr now inhibit ∧
      I (w.handleRecoverEvent tagOrder hashArr now inhibit) := by
  unfold EachRecover handleRecoverEvent
  cases inhibit with
  | false =>
    exact ⟨Along.of_invariant hrecover himp hw hashArr,
      foldlRecOn _ _ hw fun w hw h _ => hrecover w h hw⟩
  | true =>
    have hgroup : I (hashArr.foldl (groupRecover now) (w, ∅)).1 := by
      refine foldlRecOn (motive := fun acc : World × GoMap String AlertCurEvent => I acc.1)
        _ _ hw fun acc hacc h _ => ?_
      unfold groupRecover
      split
      · exact hacc
      · dsimp only
        split
        · exact hacc
        · split
          · exact hdrop _ _ hacc
          · exact hacc
    generalize hashArr.foldl (groupRecover now) (w, ∅) = acc at hgroup
    have hstep : ∀ (w : World) tags, I w → I
        (match acc.2.lookup tags with
        | none => w
        | some event => w.recoverSingle false event.hash now none []) := fun w tags hw => by
      cases acc.2.lookup tags with
      | none => exact hw
      | some event => exact hrecover w event.hash hw
    exact ⟨Along.of_invariant hstep (fun w _ hw (event : AlertCurEvent) _ =>
        himp w event.hash hw) hgroup _, foldlRecOn _ _ hgroup fun w hw tags _ => hstep w tags hw⟩

/-- `RecoverSingle` on a hash does not end in `do not has pending event, not recover`. -/
def Answers (w : World) (h : Hash) : Prop :=
  h ∈ w.fires → 0 < w.rule.recoverDuration → w.seen h ≠ none

theorem Covered.answers {w : World} (hc : w.Covered) (h : Hash) : w.Answers h :=
  fun hm _ => seen_ne_none_iff.mpr (hc h hm)

/-- **`HandleRecoverEvent` keeps every firing alert observed**, at each turn of its loops. -/
theorem Covered.handleRecoverEvent {w : World} (hc : w.Covered) (tagOrder : MapOrder String)
    (hashArr : List Hash) (now : ℤ) (inhibit : Bool) :
    w.EachRecover Answers tagOrder hashArr now inhibit ∧
      (w.handleRecoverEvent tagOrder hashArr now inhibit).Covered :=
  handleRecoverEvent_keeps (fun _ h hw => hw.dropInhibited h now)
    (fun _ h hw => hw.recoverSingle false h now none []) (fun _ h hw => hw.answers h) hc
    tagOrder hashArr inhibit

theorem WF.recoverSingle {w : World} (hw : w.WF) (b : Bool) (h : Hash) (now : ℤ)
    (v : Option String) (vs : List String) : (w.recoverSingle b h now v vs).WF := by
  rcases recoverSingle_cases hw b h now v vs with heq | ⟨f, -, hrem, -, -⟩
  · rw [heq]
    exact hw
  · exact hrem.wf

theorem WF.handleRecoverEvent {w : World} (hw : w.WF) (tagOrder : MapOrder String)
    (hashArr : List Hash) (now : ℤ) (inhibit : Bool) :
    (w.handleRecoverEvent tagOrder hashArr now inhibit).WF :=
  (handleRecoverEvent_keeps (I := WF) (D := fun _ _ => True)
    (fun _ h hw => (removes_dropInhibited hw h now).1.wf)
    (fun _ h hw => hw.recoverSingle false h now none []) (fun _ _ _ => trivial) hw
    tagOrder hashArr inhibit).2

/-! ## Runs of the processor's own operations -/

end World

/-- The operations of a `Processor`, and the consumer's steps between them. -/
inductive Act where
  | handle (c : HandleCall)
  | recoverSingle (byRecover : Bool) (hash : Hash) (now : ℤ) (value : Option String)
      (values : List String)
  | handleRecoverEvent (tagOrder : MapOrder String) (hashArr : List Hash) (now : ℤ)
      (inhibit : Bool)
  | deleteProcessEvent (hash : Hash)
  | recoverAlertCurEventFromDb (c : RestartCall)
  | consume (steps : ℕ)

namespace World

/-- One operation. -/
def act (env : Env) (w : World) : Act → World
  | .handle c => w.handle env c
  | .recoverSingle byRecover h now value values => w.recoverSingle byRecover h now value values
  | .handleRecoverEvent tagOrder hashArr now inhibit =>
    w.handleRecoverEvent tagOrder hashArr now inhibit
  | .deleteProcessEvent h => w.deleteProcessEvent h
  | .recoverAlertCurEventFromDb c => w.recoverAlertCurEventFromDb env c
  | .consume steps => consume steps w

/-- No `RecoverSingle` the operation enters ends for want of a pending event. -/
def ActAnswers (env : Env) (w : World) : Act → Prop
  | .handle c => ∀ rule ∈ c.cachedRule, c.src = .inner →
    let alertingKeys := (c.collect env rule w.heap).alertingKeys
    let w := (w.handleGroups env c rule).forget c.fireOrder alertingKeys
    w.EachRecover Answers c.tagOrder
      ((c.fireOrder.list w.fires.keys).filter fun h => h ∉ alertingKeys) c.now c.inhibit
  | .recoverSingle _ h _ _ _ => w.Answers h
  | .handleRecoverEvent tagOrder hashArr now inhibit =>
    w.EachRecover Answers tagOrder hashArr now inhibit
  | _ => True

section Runs

variable {w : World}

theorem WF.act (hw : w.WF) (env : Env) (a : Act) : (w.act env a).WF := by
  cases a with
  | handle c => exact hw.handle env c
  | recoverSingle b h now v vs => exact hw.recoverSingle b h now v vs
  | handleRecoverEvent tagOrder hashArr now inhibit =>
    exact hw.handleRecoverEvent tagOrder hashArr now inhibit
  | deleteProcessEvent h => exact (removes_deleteProcessEvent hw h).wf
  | recoverAlertCurEventFromDb c => exact (restarted env c w).wf hw
  | consume steps => exact hw.consume steps

/-- **One operation keeps every firing alert observed**, at its end and wherever it enters
`RecoverSingle`. -/
theorem Covered.act (hw : w.WF) (hc : w.Covered) (env : Env) (a : Act) :
    w.ActAnswers env a ∧ (w.act env a).Covered := by
  cases a with
  | handle c =>
    have hforget : ∀ rule, ((w.handleGroups env c rule).forget c.fireOrder
        (c.collect env rule w.heap).alertingKeys).Covered := fun rule =>
      hc.handleGroups hw env c rule
    refine ⟨fun rule _ _ => ((hforget rule).handleRecoverEvent _ _ _ _).1, ?_⟩
    change (w.handle env c).Covered
    unfold World.handle
    split
    · exact hc
    · next rule _ =>
      split
      · exact ((hforget rule).handleRecoverEvent _ _ _ _).2
      · exact hc.handleGroups hw env c rule
  | recoverSingle b h now v vs => exact ⟨hc.answers h, hc.recoverSingle b h now v vs⟩
  | handleRecoverEvent tagOrder hashArr now inhibit =>
    exact hc.handleRecoverEvent tagOrder hashArr now inhibit
  | deleteProcessEvent h => exact ⟨trivial, hc.deleteProcessEvent h⟩
  | recoverAlertCurEventFromDb c => exact ⟨trivial, Covered.recoverAlertCurEventFromDb env w c⟩
  | consume steps =>
    obtain ⟨q, b, t, heq⟩ := consume_eq steps w
    refine ⟨trivial, ?_⟩
    rw [World.act, heq]
    exact hc

end Runs

/-- **The observation map covers all firing alerts**, after any operations on a new processor, and
the return of `RecoverSingle` for want of a pending event is never reached on the way. -/
theorem fires_subset_pendingsUseByRecover (env : Env) (rule : AlertRule) (tables : Tables)
    (sched : ℕ → Choice) (acts : List Act) :
    (∀ h ∈ (acts.foldl (act env) { rule, tables, sched }).fires,
      h ∈ (acts.foldl (act env) { rule, tables, sched }).pendingsUseByRecover) ∧
    Along (act env) (ActAnswers env) { rule, tables, sched } acts := by
  have hstart : WF { rule, tables, sched } ∧ Covered { rule, tables, sched } :=
    ⟨WF.initial rule tables sched, fun h hh => absurd hh notMem_empty⟩
  have hstep : ∀ (w : World) a, w.WF ∧ w.Covered → (w.act env a).WF ∧ (w.act env a).Covered :=
    fun w a hw => ⟨hw.1.act env a, (hw.2.act hw.1 env a).2⟩
  refine ⟨?_, Along.of_invariant hstep (fun w a hw => (hw.2.act hw.1 env a).1) hstart acts⟩
  exact (foldlRecOn (motive := fun w : World => w.WF ∧ w.Covered) _ _ hstart
    fun w hw a _ => hstep w a hw).2

end World

/-! ## What else is observed

`RecoverSingle` is the only way out of the observation map that a call of `Handle` has, and it asks
for a firing alert.  A hash observed that does not fire leaves, then, only by firing first; the call
that no longer delivers it ends its spell and leaves it observed. -/

/-- The hashes of the points a call delivers. -/
def HandleCall.hashes (env : Env) (c : HandleCall) (w : World) : List Hash :=
  c.points.map (pointHash env (c.cachedRule.getD w.rule).id)

namespace World

/-- Every hash observed fires, is pending, or is one of `K`. -/
def Accounted (w : World) (K : List Hash) : Prop :=
  ∀ h ∈ w.pendingsUseByRecover.keys, h ∈ w.fires ∨ h ∈ w.pendings ∨ h ∈ K

instance (w : World) (K : List Hash) : Decidable (w.Accounted K) :=
  inferInstanceAs (Decidable (∀ _ ∈ _, _))

theorem Accounted.card_le {w : World} {K : List Hash} (ha : w.Accounted K) :
    w.pendingsUseByRecover.keys.card ≤ w.fires.keys.card + w.pendings.keys.card + K.length := by
  have hsub : w.pendingsUseByRecover.keys ⊆ w.fires.keys ∪ w.pendings.keys ∪ K.toFinset :=
    fun h hh => by
      rw [Finset.mem_union, Finset.mem_union, Finmap.mem_keys, Finmap.mem_keys, mem_toFinset,
        or_assoc]
      exact ha h hh
  calc w.pendingsUseByRecover.keys.card
      ≤ (w.fires.keys ∪ w.pendings.keys ∪ K.toFinset).card := Finset.card_le_card hsub
    _ ≤ (w.fires.keys ∪ w.pendings.keys).card + K.toFinset.card := Finset.card_union_le _ _
    _ ≤ w.fires.keys.card + w.pendings.keys.card + K.length :=
      Nat.add_le_add (Finset.card_union_le _ _) (toFinset_card_le K)

/-- The call leaves nothing behind: pipelines keep the hashes of the points, what is observed and
does not fire is delivered again, and a call that inhibits outranks no alert it does not deliver. -/
def Retires (env : Env) (w : World) (c : HandleCall) : Prop :=
  (∀ rule ∈ c.cachedRule, c.KeepsHash env rule) ∧
  (∀ h ∈ w.pendingsUseByRecover.keys, h ∈ w.fires ∨ h ∈ c.hashes env w) ∧
  (c.inhibit = true → ∀ h ∈ w.fires.keys, ¬ w.Outranked (c.hashes env w) h)

instance (env : Env) (w : World) (c : HandleCall) : Decidable (w.Retires env c) :=
  inferInstanceAs (Decidable (_ ∧ _ ∧ _))

section Handle

variable {env : Env} {c : HandleCall} {w : World}

theorem alertingKeys_eq_hashes {rule : AlertRule} (hc : c.cachedRule = some rule)
    (heap : Heap AlertCurEvent) : (c.collect env rule heap).alertingKeys = c.hashes env w := by
  rw [alertingKeys_eq, HandleCall.hashes, hc, Option.getD_some]

theorem handle_of_inner {rule : AlertRule} (hc : c.cachedRule = some rule)
    (hsrc : c.src = .inner) :
    w.handle env c = (w.handleGroups env c rule).handleRecover c.fireOrder c.tagOrder
      (c.hashes env w) c.now c.inhibit := by
  rw [← alertingKeys_eq_hashes (w := w) hc w.heap]
  simp only [handle, hc, hsrc, if_true]

theorem Outranked.mem_fires {K : List Hash} {h : Hash} (ho : w.Outranked K h) : h ∈ w.fires := by
  obtain ⟨-, e, he, -⟩ := ho
  exact mem_fires_of_fired he

/-- **A call that leaves nothing behind accounts for what is observed.** -/
theorem accounted_handle (hw : w.WF) (hsrc : c.src = .inner) (hret : w.Retires env c) :
    (w.handle env c).Accounted (c.hashes env w) := by
  obtain ⟨hK, hagain, hout⟩ := hret
  cases hc : c.cachedRule with
  | none =>
    intro h hh
    simp only [handle, hc] at hh ⊢
    exact (hagain h hh).imp_right .inr
  | some rule =>
    have hkeys : (c.collect env rule w.heap).alertingKeys = c.hashes env w :=
      alertingKeys_eq_hashes hc w.heap
    have hin := inCall_handleGroups hw env c rule
    have hsame : ∀ h ∉ c.hashes env w, SameAt h w (w.handleGroups env c rule) := fun h hh =>
      hin.sameAt_of_notMem (hK rule hc) (hkeys ▸ hh)
    let I : World → Prop := fun w' => w'.WF ∧
      ∀ h ∈ w'.pendingsUseByRecover, h ∉ c.hashes env w → h ∈ w'.fires
    have hI : I (w.handle env c) := by
      rw [handle_of_inner hc hsrc]
      refine handleRecover_induct hin.wf ⟨hin.wf.forget _ _, fun h hh hno => ?_⟩ ?_ ?_
      · have hs := hsame h hno
        have hobs := hs.mem_pendingsUseByRecover.mp hh
        exact hs.mem_fires.mpr ((hagain h (mem_keys.mpr hobs)).resolve_right hno)
      · intro hinh w' h _ ho
        have ho' := ho.of_sameAt hsame
        exact absurd ho' (hout hinh h (mem_keys.mpr ho'.mem_fires))
      · rintro w' h - - ⟨hwf, hw'⟩
        refine ⟨hwf.recoverSingle false h c.now none [], fun h' hh' hno => ?_⟩
        rcases recoverSingle_maps w' false h c.now none [] with heq | ⟨hfires, hobs⟩
        · rw [heq] at hh' ⊢
          exact hw' h' hh' hno
        · rw [hobs, mem_erase] at hh'
          rw [hfires, mem_erase]
          exact ⟨hh'.1, hw' h' hh'.2 hno⟩
    intro h hh
    by_cases hno : h ∈ c.hashes env w
    · exact .inr (.inr hno)
    · exact .inl (hI.2 h (mem_keys.mp hh) hno)

/-- A spell has lapsed: its hash is observed, and neither fires nor is pending. -/
structure Lapsed (h : Hash) (w : World) : Prop where
  wf : w.WF
  observed : h ∈ w.pendingsUseByRecover
  idle : h ∉ w.fires
  past : h ∉ w.pendings

theorem Lapsed.of_sameAt {h : Hash} {w' : World} (l : Lapsed h w) (hw : w'.WF)
    (hs : SameAt h w w') : Lapsed h w' :=
  ⟨hw, hs.mem_pendingsUseByRecover.mpr l.observed, mt hs.mem_fires.mp l.idle,
    mt hs.mem_pendings.mp l.past⟩

/-- An evaluation that does not deliver the hash. -/
def Misses (env : Env) (h : Hash) (w : World) (op : Op) : Prop :=
  ∃ c, ∃ rule ∈ c.cachedRule, op = .handle c ∧ c.src = .inner ∧ c.KeepsHash env rule ∧
    h ∉ c.hashes env w

theorem Lapsed.step {h : Hash} {op : Op} (l : Lapsed h w) (hop : Misses env h w op) :
    Lapsed h (w.step env op) := by
  obtain ⟨c, rule, hc, rfl, hsrc, hK, hno⟩ := hop
  have hin := inCall_handleGroups l.wf env c rule
  have hl : Lapsed h (w.handleGroups env c rule) := l.of_sameAt hin.wf
    (hin.sameAt_of_notMem hK (by rwa [alertingKeys_eq_hashes hc]))
  -- what is dropped or recovered fired
  have hne : ∀ h' ∈ (w.handleGroups env c rule).fires, h ≠ h' := fun _ hf heq =>
    hl.idle (heq ▸ hf)
  rw [World.step, handle_of_inner hc hsrc]
  refine handleRecover_induct hl.wf ⟨hl.wf.forget _ _, hl.observed, hl.idle, ?_⟩ ?_ ?_
  · rw [← pending_eq_none_iff, pending_forget, if_neg hno]
  · intro _ w' h' _ ho l'
    have hrem := (removes_dropInhibited l'.wf h' c.now).1
    exact l'.of_sameAt hrem.wf (hrem.sameAt h (hne h' ho.mem_fires))
  · intro w' h' hf _ l'
    exact l'.of_sameAt (l'.wf.recoverSingle false h' c.now none [])
      (sameAt_recoverSingle l'.wf (hne h' hf))

end Handle

/-! ### Along a run -/

theorem WF.recoverPoints {w : World} (hw : w.WF) (env : Env) (c : RecoverCall) :
    (w.recoverPoints env c).WF := recoverPoints_induct (J := WF) hw (fun _ h => h)
    (fun _ _ p _ _ _ _ _ _ hw' =>
      (removes_deleteInhibited hw' (pointHash env w.rule.id p) c.now).1.wf)
    fun _ p _ _ hw' => hw'.recoverSingle true (pointHash env w.rule.id p) c.now (some p.value) []

theorem WF.step {w : World} (hw : w.WF) (env : Env) (op : Op) : (w.step env op).WF := by
  cases op with
  | handle c => exact hw.handle env c
  | recoverPoints c => exact hw.recoverPoints env c
  | recoverSingle b h now v => exact hw.recoverSingle b h now v []
  | restart c => exact (restarted env c w).wf hw
  | consume steps => exact hw.consume steps

/-- Every evaluation among the operations leaves nothing behind. -/
def Retiring (env : Env) (w : World) : Op → Prop
  | .handle c => c.src = .inner → w.Retires env c
  | _ => True

instance (env : Env) (w : World) : (op : Op) → Decidable (w.Retiring env op)
  | .handle c => inferInstanceAs (Decidable (c.src = .inner → w.Retires env c))
  | .recoverPoints _ | .recoverSingle _ _ _ _ | .restart _ | .consume _ =>
    inferInstanceAs (Decidable True)

/-- After an evaluation, what is observed fires, is pending or was delivered, and is bounded by
these. -/
def Releasing (env : Env) (w : World) (op : Op) : Prop :=
  ∀ c, op = .handle c → c.src = .inner →
    (w.step env op).Accounted (c.hashes env w) ∧
    (w.step env op).pendingsUseByRecover.keys.card ≤ (w.step env op).fires.keys.card
      + (w.step env op).pendings.keys.card + c.points.length

/-- **The observation map is released** along every run whose evaluations leave nothing behind. -/
theorem releasing_of_retiring (env : Env) (rule : AlertRule) (tables : Tables) (sched : ℕ → Choice)
    (ops : List Op) (h : Along (step env) (Retiring env) { rule, tables, sched } ops) :
    Along (step env) (Releasing env) { rule, tables, sched } ops := by
  refine Along.imp (I := WF) (fun w op _ hw => hw.step env op) ?_ h (WF.initial rule tables sched)
  rintro w op hop hw c rfl hsrc
  have ha := accounted_handle hw hsrc (hop hsrc)
  refine ⟨ha, ?_⟩
  have hcard := ha.card_le
  rw [HandleCall.hashes, length_map] at hcard
  exact hcard

/-- **A lapsed spell is never released**, whatever is evaluated, as long as it is not delivered. -/
theorem lapsed_run (env : Env) {h : Hash} {w : World} {ops : List Op} (hl : Lapsed h w)
    (hops : Along (step env) (Misses env h) w ops) :
    Lapsed h (run env w ops) ∧ Along (step env) (fun w op => ¬ Releasing env w op) w ops := by
  refine ⟨hops.invariant (fun _ _ hop l => l.step hop) hl,
    hops.imp (fun _ _ hop l => l.step hop) (fun w op hop l hrel => ?_) hl⟩
  have l' := l.step hop
  obtain ⟨c, -, -, rfl, hsrc, -, hno⟩ := hop
  rcases (hrel c rfl hsrc).1 h (mem_keys.mpr l'.observed) with hf | hp | hm
  · exact l'.idle hf
  · exact l'.past hp
  · exact hno hm

end World

namespace Example

open World

/-- A rule that waits a minute before it fires. -/
def patientRule : AlertRule := { id := 1, promForDuration := 60 }

/-- An alert pending, then firing, then recovered: four evaluations of which each delivers what the
one before left pending. -/
def wholeSpellRun : List Op :=
  [.handle (call patientRule 0 [point "a" 2 0]), .handle (call patientRule 30 [point "a" 2 30]),
    .handle (call patientRule 60 [point "a" 2 60]), .handle (call patientRule 90 [])]

/-- The condition can be met from the first point of an alert to its recovery. -/
theorem releasing_wholeSpellRun :
    Along (step env) (Retiring env) { rule := patientRule } wholeSpellRun ∧
      Along (step env) (Releasing env) { rule := patientRule } wholeSpellRun := by
  have h : Along (step env) (Retiring env) { rule := patientRule } wholeSpellRun := by
    decide +kernel
  exact ⟨h, releasing_of_retiring env patientRule {} (fun _ => {}) wholeSpellRun h⟩

/-- An alert pending once and never delivered again. -/
def lapsedRun : List Op :=
  [.handle (call patientRule 0 [point "a" 2 0]), .handle (call patientRule 30 [])]

/-- **A lapsed spell is never released**: after the second evaluation the hash is observed, and it
neither fires nor is pending nor was delivered. -/
theorem lapsedRun_not_accounted :
    (run env { rule := patientRule } lapsedRun).pendingsUseByRecover.keys
        = {"1_host=a_1_2_"} ∧
      (run env { rule := patientRule } lapsedRun).fires.keys = ∅ ∧
      (run env { rule := patientRule } lapsedRun).pendings.keys = ∅ ∧
      ¬ (run env { rule := patientRule } lapsedRun).Accounted
        ((call patientRule 30 []).hashes env { rule := patientRule }) := by
  decide +kernel

/-- Nor is it by the evaluation after. -/
theorem lapsedRun_never_released : Along (step env) (fun w op => ¬ Releasing env w op)
    (run env { rule := patientRule } lapsedRun) [.handle (call patientRule 60 [])] := by
  have hl : Lapsed "1_host=a_1_2_" (run env { rule := patientRule } lapsedRun) :=
    ⟨foldlRecOn _ _ (WF.initial _ _ _) fun _ h op _ => h.step env op, by decide +kernel,
      by decide +kernel, by decide +kernel⟩
  refine (lapsed_run env hl ?_).2
  exact ⟨⟨_, patientRule, rfl, rfl, rfl, by decide +kernel, by decide +kernel⟩, trivial⟩

end Example

end Nightingale
