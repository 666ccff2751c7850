import Nightingale.Process.Mirror
import Nightingale.Process.Onward
import Nightingale.Suppress.Recovered

/-!
# Process/Orders — the orders a call does not depend on

`Handle` ranges over two Go maps, the groups of its events and the alerts that fire, and Go shuffles
both.  The points come in the order a datasource lists the series.  None of this is felt by a hash:

    the call             look b · look a · fire b · look c · fire a · recover x · recover h
    as a hash sees it             look a ·                   fire a ·             (recover a)

So `handle_order_free`: without inhibition, and if no two points share a hash, a call leaves every
hash with the same alert, the same pending events and the same pushes, whatever the orders, as long
as every point gets the same answers from the pipelines and the mutes.  That last condition is not
idle: the installed mute hook remembers the events it has seen.
-/

namespace Nightingale

open AlertCurEvent World List Option Function Example Heap HandleCall Nat

/-! ## What was pushed, hash by hash -/

theorem pushes_eq_filter (h : Hash) (log : List Effect) :
    pushes h log = (pushed log).filter fun e => e.hash = h := by
  rw [pushes, pushed, filter_filterMap]
  refine filterMap_congr fun x _ => ?_
  cases x with
  | push e b => simp [Option.filter]
  | deliver h' t | remove h' now t b => rfl

/-- Histories that pushed the same of every hash pushed the same events. -/
theorem perm_pushed {l l' : List Effect} (h : ∀ hash, pushes hash l' = pushes hash l) :
    (pushed l').Perm (pushed l) := by
  rw [perm_iff_count]
  intro e
  have hcount : ∀ log, (pushed log).count e = (pushes e.hash log).count e := by
    intro log
    rw [pushes_eq_filter, count_filter (by simp)]
  rw [hcount, hcount, h]

namespace World

/-! ## The loops of a call, as one hash sees them -/

/-- A world of a call that began in `start` and does not inhibit. -/
structure Stays (start w : World) : Prop where
  wf : w.WF
  keeps : start.heap.Keeps hash w.heap
  inhibit : w.inhibit = false

namespace Stays

variable {start w : World} {r : Ref} (s : Stays start w)

include s

theorem lt (hr : r < start.heap.next) : r < w.heap.next := by
  rw [s.keeps.next]
  exact hr

theorem look (env : Env) (hr : r < start.heap.next) : Stays start (w.look env r).1 := by
  have ht := touches_look env s.wf (s.lt hr)
  exact ⟨ht.wf, s.keeps.trans (ht.keeps.comp hash fun _ _ => hash_eq_of_core_eq),
    ht.inhibit.trans s.inhibit⟩

theorem fireEvent (hr : r < start.heap.next) : Stays start (w.fireEvent r) := by
  have hf := writes_fireEvent s.wf (s.lt hr)
  exact ⟨hf.wf, s.keeps.trans (hf.keeps.comp hash fun _ _ h => hash_eq_of_ident_eq
    (congrArg Prod.fst h)), hf.inhibit.trans s.inhibit⟩

theorem forget (o : MapOrder String) (K : List Hash) : Stays start (w.forget o K) :=
  ⟨s.wf.forget o K, s.keeps, s.inhibit⟩

theorem recoverSingle (h : Hash) (now : ℤ) :
    Stays start (w.recoverSingle false h now none []) := by
  rcases recoverSingle_cases s.wf false h now none [] with heq | ⟨f, -, hrem, -, -⟩
  · rw [heq]
    exact s
  · exact ⟨hrem.wf, s.keeps.trans ⟨hrem.next, hrem.hash⟩, hrem.inhibit.trans s.inhibit⟩

end Stays

/-- Beside the call in `w` runs one in `s` that handles the events of the hash and no others, and
the hash cannot tell them apart. -/
structure Solo (h : Hash) (start s w : World) : Prop where
  mirrors : Mirrors (Equiv.refl Ref) h s w
  alone : Stays start s
  whole : Stays start w

/-- The events of the hash among some. -/
def ofHash (start : World) (h : Hash) (events : List Ref) : List Ref :=
  events.filter fun r => (start.heap.get r).hash = h

theorem ofHash_append (start : World) (h : Hash) (l l' : List Ref) :
    start.ofHash h (l ++ l') = start.ofHash h l ++ start.ofHash h l' := filter_append ..

theorem events_handleEventOne (env : Env) (acc : World × FireList) (r : Ref) :
    (handleEventOne env acc r).2.events
      = acc.2.events ++ if (acc.1.look env r).2 then [r] else [] := by
  have heq : handleEventOne env acc r = ((acc.1.look env r).1, if (acc.1.look env r).2 then
      acc.2.add r ((acc.1.look env r).1.heap.get r).severity else acc.2) := rfl
  rw [heq]
  cases (acc.1.look env r).2 with
  | true => rfl
  | false => exact (append_nil _).symm

namespace Solo

variable {h : Hash} {start s w : World} {r : Ref}

theorem refl (hs : Stays start s) : Solo h start s s := ⟨.refl h s, hs, hs⟩

section

variable (a : Solo h start s w) (hr : r < start.heap.next)

include a hr

theorem look_same (env : Env) (hh : (start.heap.get r).hash = h) :
    Solo h start (s.look env r).1 (w.look env r).1 ∧ (w.look env r).2 = (s.look env r).2 := by
  have hs : (s.heap.get r).hash = h := (a.alone.keeps.get r).trans hh
  obtain ⟨hm, hdue⟩ := a.mirrors.look hs env a.alone.wf (a.alone.lt hr)
  exact ⟨⟨hm, a.alone.look env hr, a.whole.look env hr⟩, hdue⟩

theorem look_other (env : Env) (hh : (start.heap.get r).hash ≠ h) :
    Solo h start s (w.look env r).1 := by
  have hw : (w.heap.get r).hash ≠ h := by rwa [a.whole.keeps.get r]
  exact ⟨a.mirrors.then_same (mirrors_look hw env a.whole.wf (a.whole.lt hr)), a.alone,
    a.whole.look env hr⟩

theorem fire_same (hh : (start.heap.get r).hash = h) :
    Solo h start (s.fireEvent r) (w.fireEvent r) := by
  have hs : (s.heap.get r).hash = h := (a.alone.keeps.get r).trans hh
  exact ⟨a.mirrors.fireEvent hs a.alone.wf, a.alone.fireEvent hr, a.whole.fireEvent hr⟩

theorem fire_other (hh : (start.heap.get r).hash ≠ h) : Solo h start s (w.fireEvent r) := by
  have hw : (w.heap.get r).hash ≠ h := by rwa [a.whole.keeps.get r]
  exact ⟨a.mirrors.then_same (mirrors_fireEvent hw a.whole.wf), a.alone, a.whole.fireEvent hr⟩

end

/-- **The first loop of `handleEvent`**: the same events of the hash are due. -/
theorem looks (env : Env) {events : List Ref} (hlt : ∀ r ∈ events, r < start.heap.next)
    (x y : World × FireList) (hl : x.2.events = start.ofHash h y.2.events)
    (a : Solo h start x.1 y.1) :
    Solo h start ((start.ofHash h events).foldl (handleEventOne env) x).1
        (events.foldl (handleEventOne env) y).1 ∧
      ((start.ofHash h events).foldl (handleEventOne env) x).2.events
        = start.ofHash h (events.foldl (handleEventOne env) y).2.events := by
  induction events generalizing x y with
  | nil => exact ⟨a, hl⟩
  | cons r events ih =>
    have hr := hlt r mem_cons_self
    have hrest : ∀ r ∈ events, r < start.heap.next := fun r' h' =>
      hlt r' (mem_cons_of_mem r h')
    by_cases hh : (start.heap.get r).hash = h
    · obtain ⟨hm, hdue⟩ := a.look_same hr env hh
      rw [ofHash, filter_cons_of_pos (by simpa using hh), foldl_cons, foldl_cons]
      refine ih hrest _ _ ?_ hm
      rw [events_handleEventOne, events_handleEventOne, hdue, hl, ofHash_append]
      cases (x.1.look env r).2 with
      | true => simp [ofHash, hh]
      | false => rfl
    · rw [ofHash, filter_cons_of_neg (by simpa using hh), foldl_cons]
      refine ih hrest _ _ ?_ (a.look_other hr env hh)
      rw [events_handleEventOne, hl, ofHash_append]
      cases (y.1.look env r).2 with
      | true => simp [ofHash, hh]
      | false => exact (append_nil _).symm

/-- **The second loop of `handleEvent`.** -/
theorem inhibitEvent {events : List Ref} (hlt : ∀ r ∈ events, r < start.heap.next)
    (high high' : ℤ) (a : Solo h start s w) :
    Solo h start (s.inhibitEvent (start.ofHash h events) high) (w.inhibitEvent events high') := by
  induction events generalizing s w with
  | nil => exact a
  | cons r events ih =>
    have hr := hlt r mem_cons_self
    have hrest : ∀ r ∈ events, r < start.heap.next := fun r' h' =>
      hlt r' (mem_cons_of_mem r h')
    have hw : w.inhibitEvent (r :: events) high' = (w.fireEvent r).inhibitEvent events high' := by
      simp [inhibitEvent, a.whole.inhibit]
    rw [hw]
    by_cases hh : (start.heap.get r).hash = h
    · have hs : s.inhibitEvent (start.ofHash h (r :: events)) high
          = (s.fireEvent r).inhibitEvent (start.ofHash h events) high := by
        simp [inhibitEvent, ofHash, hh, a.alone.inhibit]
      rw [hs]
      exact ih hrest (a.fire_same hr hh)
    · have hs : start.ofHash h (r :: events) = start.ofHash h events := by simp [ofHash, hh]
      rw [hs]
      exact ih hrest (a.fire_other hr hh)

theorem due_subset (env : Env) (events : List Ref) (acc : World × FireList) :
    ∀ r ∈ (events.foldl (handleEventOne env) acc).2.events, r ∈ acc.2.events ∨ r ∈ events := by
  refine foldlRecOn (motive := fun acc' : World × FireList => ∀ r ∈ acc'.2.events,
    r ∈ acc.2.events ∨ r ∈ events) events _ (fun r hr => .inl hr) ?_
  intro acc' ih r hr r' hr'
  rw [events_handleEventOne, mem_append] at hr'
  rcases hr' with hr' | hr'
  · exact ih r' hr'
  · split_ifs at hr'
    · rw [mem_singleton.mp hr']
      exact .inr hr
    · cases hr'

/-- **A group of events.** -/
theorem handleEvent (env : Env) {events : List Ref} (hlt : ∀ r ∈ events, r < start.heap.next)
    (a : Solo h start s w) :
    Solo h start (s.handleEvent env (start.ofHash h events)) (w.handleEvent env events) := by
  obtain ⟨hm, hdue⟩ := looks env hlt (s, {}) (w, {}) rfl a
  simp only [World.handleEvent]
  rw [hdue]
  refine hm.inhibitEvent (fun r hr => ?_) _ _
  rcases due_subset env events (w, {}) r hr with hr | hr
  · cases hr
  · exact hlt r hr

/-- **All groups.** -/
theorem groups (env : Env) {g : String → List Ref} (hlt : ∀ key, ∀ r ∈ g key, r < start.heap.next)
    (keys : List String) (a : Solo h start s w) :
    Solo h start (keys.foldl (fun s key => s.handleEvent env (start.ofHash h (g key))) s)
      (keys.foldl (fun w key => w.handleEvent env (g key)) w) := by
  induction keys generalizing s w with
  | nil => exact a
  | cons key keys ih => exact ih (a.handleEvent env (hlt key))

/-- **The recoveries.** -/
theorem recoveries (now : ℤ) (hashArr : List Hash) (a : Solo h start s w) : Solo h start
      ((hashArr.filter (· = h)).foldl (fun s hash => s.recoverSingle false hash now none []) s)
      (hashArr.foldl (fun w hash => w.recoverSingle false hash now none []) w) := by
  induction hashArr generalizing s w with
  | nil => exact a
  | cons h' hashArr ih =>
    by_cases hh : h' = h
    · subst hh
      rw [filter_cons_of_pos (by simp), foldl_cons, foldl_cons]
      exact ih ⟨a.mirrors.recoverSingle a.alone.wf false now none [], a.alone.recoverSingle h' now,
        a.whole.recoverSingle h' now⟩
    · rw [filter_cons_of_neg (by simpa using hh), foldl_cons]
      exact ih ⟨a.mirrors.then_same (mirrors_recoverSingle a.whole.wf hh false now none []),
        a.alone, a.whole.recoverSingle h' now⟩

theorem forget (o : MapOrder String) (K : List Hash) (a : Solo h start s w) :
    Solo h start (s.forget o K) (w.forget o K) :=
  ⟨a.mirrors.forget o o Iff.rfl, a.alone.forget o K, a.whole.forget o K⟩

end Solo

theorem handleEvent_singleton (env : Env) {w : World} (hw : w.WF) {r : Ref}
    (hr : r < w.heap.next) (hinhibit : w.inhibit = false) : w.handleEvent env [r]
      = if (w.look env r).2 then (w.look env r).1.fireEvent r else (w.look env r).1 := by
  have hno : (w.look env r).1.inhibit = false := (touches_look env hw hr).inhibit.trans hinhibit
  have hevents := events_handleEventOne env (w, {}) r
  have hone : w.handleEvent env [r] = (w.look env r).1.inhibitEvent
      (handleEventOne env (w, {}) r).2.events (handleEventOne env (w, {}) r).2.severity := rfl
  rw [hone, hevents]
  cases (w.look env r).2 with
  | true => simp [inhibitEvent, hno]
  | false => rfl

end World

/-! ## The references of a call -/

/-- The points of a call with what becomes of them. -/
def HandleCall.verdicts (env : Env) (c : HandleCall) (rule : AlertRule) :
    List (AnomalyPoint × Option AlertCurEvent) :=
  c.points.zipIdx.map fun p => (p.1, c.screen env rule p.2 p.1)

/-- The events of a call that have the hash, with their places. -/
def HandleCall.own (env : Env) (c : HandleCall) (rule : AlertRule) (h : Hash) :
    List ((AnomalyPoint × AlertCurEvent) × ℕ) :=
  (c.passes env rule).zipIdx.filter fun p => p.1.2.hash = h

/-- The point loop has handed out references to the events in their order. -/
structure Handed (env : Env) (heap : Heap AlertCurEvent)
    (passes : List (AnomalyPoint × AlertCurEvent)) (got : Collected) : Prop where
  next : got.heap.next = heap.next + passes.length
  new : ∀ i pe, passes[i]? = some pe → got.heap.get (heap.next + i) = pe.2
  old : ∀ r, r < heap.next ∨ got.heap.next ≤ r → got.heap.get r = heap.get r
  groups : ∀ key, (got.eventsMap.lookup key).getD []
    = (passes.zipIdx.filter fun p => tagHash env p.1.1 = key).map fun p => heap.next + p.2

section Collect

variable {env : Env} {c : HandleCall} {rule : AlertRule} {heap : Heap AlertCurEvent} {h : Hash}

theorem Handed.concat {passes : List (AnomalyPoint × AlertCurEvent)} {got : Collected}
    (s : Handed env heap passes got) (pe : AnomalyPoint × AlertCurEvent) (K : List Hash) :
    Handed env heap (passes ++ [pe])
      { heap := got.heap.alloc pe.2
        alertingKeys := K
        eventsMap := got.eventsMap.insert (tagHash env pe.1)
          ((got.eventsMap.lookup (tagHash env pe.1)).getD [] ++ [got.heap.next]) } where
  next := by rw [next_alloc, s.next, length_append, length_singleton, add_assoc]
  new i q hq := by
    rcases lt_or_ge i passes.length with hi | hi
    · rw [getElem?_append_left hi] at hq
      have hlt : heap.next + i < got.heap.next := by
        rw [s.next]
        exact Nat.add_lt_add_left hi _
      rw [get_alloc_of_lt _ _ hlt]
      exact s.new i q hq
    · rw [getElem?_append_right hi, getElem?_singleton] at hq
      split_ifs at hq with hlast
      cases hq
      have hi' : heap.next + i = got.heap.next := by
        rw [s.next, Nat.le_antisymm (Nat.sub_eq_zero_iff_le.mp hlast) hi]
      rw [hi', get_alloc_self]
  old r hr := by
    have hle : heap.next ≤ got.heap.next := by
      rw [s.next]
      exact le_add_right _ _
    rcases hr with hr | hr
    · exact (update_of_ne (Nat.ne_of_lt (hr.trans_le hle)) _ _).trans (s.old r (.inl hr))
    · exact (update_of_ne (ne_of_gt hr) _ _).trans (s.old r (.inr (le_of_lt hr)))
  groups key := by
    rw [zipIdx_append, filter_append, map_append, ← s.groups key]
    by_cases hk : key = tagHash env pe.1
    · subst hk
      simp [s.next]
    · simp [Finmap.lookup_insert_of_ne _ hk, Ne.symm hk]

/-- **The point loop of `Handle` hands out references in order.** -/
theorem handed (env : Env) (c : HandleCall) (rule : AlertRule) (heap : Heap AlertCurEvent) :
    Handed env heap (c.passes env rule) (c.collect env rule heap) := by
  refine foldl_prefix_induction (I := fun done got => Handed env heap
    (done.filterMap fun p => (c.screen env rule p.2 p.1).map (p.1, ·)) got) (s := { heap })
    c.points.zipIdx ⟨rfl, by simp, fun _ _ => rfl, by simp⟩ ?_
  intro done p got _ s
  rw [filterMap_append]
  cases hp : c.screen env rule p.2 p.1 with
  | none =>
    simp only [collectOne, hp, filterMap_cons, filterMap_nil, map_none, append_nil]
    exact ⟨s.next, s.new, s.old, s.groups⟩
  | some event =>
    simp only [collectOne, hp, filterMap_cons, filterMap_nil, map_some]
    exact s.concat (p.1, event) _

theorem passes_eq : c.passes env rule
    = (c.verdicts env rule).filterMap fun q => q.2.map (q.1, ·) := by
  rw [verdicts, filterMap_map]
  rfl

variable (env c rule) in
theorem verdicts_map_fst : (c.verdicts env rule).map Prod.fst = c.points := by
  rw [HandleCall.verdicts, List.map_map]
  exact List.zipIdx_map_fst 0 c.points

theorem passes_sublist : ((c.passes env rule).map Prod.fst).Sublist c.points := by
  rw [passes_eq]
  conv_rhs => rw [← verdicts_map_fst env c rule]
  induction c.verdicts env rule with
  | nil => exact Sublist.slnil
  | cons q l ih =>
    obtain ⟨point, verdict⟩ := q
    cases verdict with
    | none => exact ih.cons point
    | some e => exact ih.cons_cons point

theorem nodup_hash (hdistinct : (c.points.map (pointHash env rule.id)).Nodup)
    (hkeeps : c.KeepsHash env rule) : ((c.passes env rule).map fun pe => pe.2.hash).Nodup := by
  have hsame : (c.passes env rule).map (fun pe => pe.2.hash)
      = ((c.passes env rule).map Prod.fst).map (pointHash env rule.id) := by
    rw [List.map_map]
    exact map_congr_left hkeeps
  rw [hsame]
  exact hdistinct.sublist (passes_sublist.map _)

/-- **At most one event of a call has the hash.** -/
theorem own_eq (hnodup : ((c.passes env rule).map fun pe => pe.2.hash).Nodup) (h : Hash) :
    c.own env rule h = [] ∨ ∃ p, c.own env rule h = [p] := by
  have hhash : ∀ p ∈ c.own env rule h, p.1.2.hash = h := fun p hp => by
    simpa using (mem_filter.mp hp).2
  have hsub : ((c.own env rule h).map fun p => p.1.2.hash).Nodup := by
    refine hnodup.sublist ?_
    have hfst : (c.passes env rule).map (fun pe => pe.2.hash)
        = (c.passes env rule).zipIdx.map fun p => p.1.2.hash := by
      conv_lhs => rw [← List.zipIdx_map_fst 0 (c.passes env rule), List.map_map]
      rfl
    rw [hfst]
    exact filter_sublist.map _
  rcases hown : c.own env rule h with _ | ⟨p, _ | ⟨q, rest⟩⟩
  · exact .inl rfl
  · exact .inr ⟨p, rfl⟩
  · rw [hown] at hsub hhash
    have hp := hhash p mem_cons_self
    have hq := hhash q (mem_cons_of_mem p mem_cons_self)
    simp [hp, hq] at hsub

theorem mem_own {p : (AnomalyPoint × AlertCurEvent) × ℕ} :
    p ∈ c.own env rule h ↔ (c.passes env rule)[p.2]? = some p.1 ∧ p.1.2.hash = h := by
  simp [own, mem_filter, mem_zipIdx_iff_getElem?]

/-- The events of the hash in a group are its own of these tags. -/
theorem ofHash_group (env : Env) (w : World) (c : HandleCall) (rule : AlertRule) (h : Hash)
    (key : String) : (w.handleStart env c rule).ofHash h
        (((c.collect env rule w.heap).eventsMap.lookup key).getD [])
      = ((c.own env rule h).filter fun p => tagHash env p.1.1 = key).map
        fun p => w.heap.next + p.2 := by
  have s := handed env c rule w.heap
  have hcell : ∀ p ∈ (c.passes env rule).zipIdx,
      ((w.handleStart env c rule).heap.get (w.heap.next + p.2)) = p.1.2 := fun p hp =>
    s.new p.2 p.1 (List.mem_zipIdx_iff_getElem?.mp hp)
  rw [ofHash, s.groups key, List.filter_map, HandleCall.own, List.filter_filter, List.filter_filter]
  congr 1
  refine List.filter_congr fun p hp => ?_
  rw [comp_apply, hcell p hp, Bool.and_comm]

end Collect

/-! ## A call, as one hash sees it -/

namespace World

/-- The call with the events of the hash alone, up to the recoveries. -/
def alone (env : Env) (w : World) (c : HandleCall) (rule : AlertRule) (h : Hash) : World :=
  (c.own env rule h).foldl (fun s p => s.handleEvent env [w.heap.next + p.2])
    (w.handleStart env c rule)

section Call

variable {env : Env} {c c' : HandleCall} {rule : AlertRule} {w : World} {h : Hash}

theorem stays_handleStart (hw : w.WF) (hinhibit : c.inhibit = false) :
    Stays (w.handleStart env c rule) (w.handleStart env c rule) :=
  ⟨hw.handleStart env c rule, Keeps.refl _ _, hinhibit⟩

/-- Going through the groups with the events of the hash is going through these events. -/
theorem foldl_ofHash (hnodup : ((c.passes env rule).map fun pe => pe.2.hash).Nodup) :
    (c.groupOrder.list (c.collect env rule w.heap).eventsMap.keys).foldl
        (fun s key => s.handleEvent env ((w.handleStart env c rule).ofHash h
          (((c.collect env rule w.heap).eventsMap.lookup key).getD []))) (w.handleStart env c rule)
      = w.alone env c rule h := by
  simp only [ofHash_group]
  rw [alone]
  rcases own_eq hnodup h with hown | ⟨p, hown⟩
  · rw [hown]
    exact foldl_fixed' (fun _ => rfl) _
  · have hp : (c.own env rule h).filter (fun q => tagHash env q.1.1 = tagHash env p.1.1) = [p] := by
      simp [hown]
    have hmem : tagHash env p.1.1 ∈ (c.collect env rule w.heap).eventsMap := by
      by_contra hnone
      have hgroup := ofHash_group env w c rule h (tagHash env p.1.1)
      rw [hp, Finmap.lookup_eq_none.mpr hnone] at hgroup
      cases hgroup
    rw [foldl_eq_single (c.groupOrder.nodup _) ((c.groupOrder.mem_list_keys _ _).mpr hmem), hp,
      hown]
    · rfl
    · intro s key hkey
      have hnone : (c.own env rule h).filter (fun q => tagHash env q.1.1 = key) = [] := by
        simp [hown, Ne.symm hkey]
      rw [hnone]
      rfl

/-- **The groups of a call**, beside the events of the hash alone. -/
theorem solo_handleGroups (hw : w.WF) (hinhibit : c.inhibit = false)
    (hnodup : ((c.passes env rule).map fun pe => pe.2.hash).Nodup) :
    Solo h (w.handleStart env c rule) (w.alone env c rule h) (w.handleGroups env c rule) := by
  rw [← foldl_ofHash hnodup]
  refine (Solo.refl (stays_handleStart hw hinhibit)).groups env (fun key r hr => ?_) _
  exact ((collect_spec env c rule w.heap).sound key r hr).1.2

/-- The call with the events of the hash alone, to its end. -/
def aloneEnd (env : Env) (w : World) (c : HandleCall) (rule : AlertRule) (h : Hash) : World :=
  let K := c.points.map (pointHash env rule.id)
  let s := (w.alone env c rule h).forget c.fireOrder K
  if h ∈ K then s else s.recoverSingle false h c.now none []

/-- **A whole call**, beside the events of the hash alone. -/
theorem solo_handle (hw : w.WF) (hrule : c.cachedRule = some rule) (hsrc : c.src = .inner)
    (hinhibit : c.inhibit = false)
    (hnodup : ((c.passes env rule).map fun pe => pe.2.hash).Nodup) :
    Solo h (w.handleStart env c rule) (w.aloneEnd env c rule h) (w.handle env c) := by
  set K := c.points.map (pointHash env rule.id) with hK
  set s := (w.alone env c rule h).forget c.fireOrder K with hs
  set v := (w.handleGroups env c rule).forget c.fireOrder K with hv
  set hashArr := (c.fireOrder.list v.fires.keys).filter fun hash => hash ∉ K with harr
  have hmem : h ∈ hashArr ↔ h ∈ v.fires ∧ h ∉ K := by simp [harr, Finmap.mem_keys]
  have hhandle : w.handle env c
      = hashArr.foldl (fun w hash => w.recoverSingle false hash c.now none []) v := by
    simp [handle, hrule, hsrc, handleRecover, handleRecoverEvent, hinhibit, alertingKeys_eq, harr,
      hv, hK]
  have a : Solo h (w.handleStart env c rule) s v :=
    (solo_handleGroups hw hinhibit hnodup).forget c.fireOrder K
  have hend : w.aloneEnd env c rule h
      = (hashArr.filter (· = h)).foldl
        (fun s hash => s.recoverSingle false hash c.now none []) s := by
    have hnd : hashArr.Nodup := (c.fireOrder.nodup _).filter _
    rw [filter_eq, hnd.count, aloneEnd]
    by_cases hin : h ∈ hashArr
    · rw [if_pos hin, if_neg (hmem.mp hin).2]
      rfl
    · rw [if_neg hin]
      refine ite_eq_left_iff.mpr fun hnot => recoverSingle_of_not_releases none [] fun f hf => ?_
      -- an alert of the hash would be one the sweep visits
      have hfired : v.fired h = some f := (a.mirrors.fired a.alone.wf).trans hf.fired
      exact hin (hmem.mpr ⟨mem_fires_of_fired hfired, hnot⟩)
  rw [hhandle, hend]
  exact a.recoveries c.now hashArr

end Call

/-! ## Two orders -/

section Orders

variable {env : Env} {c c' : HandleCall} {rule : AlertRule} {w : World} {h : Hash}

/-- The worlds in which two calls begin, seen from a hash, if `σ` moves what one call calls its
events to what the other does. -/
theorem mirrors_handleStart (hw : w.WF) {σ : Equiv.Perm Ref} (hold : ∀ r < w.heap.next, σ r = r)
    (hcells : (w.handleStart env c rule).heap.Renames σ (fun e => e.hash = h)
      (w.handleStart env c' rule).heap) :
    Mirrors σ h (w.handleStart env c rule) (w.handleStart env c' rule) := by
  have hmap : ∀ m : EventMap, Owns w.heap m → m.lookup h = (m.lookup h).map σ := by
    intro m hm
    cases hl : m.lookup h with
    | none => rfl
    | some r => rw [map_some, hold r (hm h r hl).1]
  exact ⟨rfl, hmap _ hw.fires, hmap _ hw.pendings, hmap _ hw.pendingsUseByRecover, hcells,
    by simp [handleStart]⟩

/-- A cell of the hash that is none of the call's own is not the call's at all. -/
theorem outside_of_not_own {r : Ref} (hr : ((w.handleStart env c rule).heap.get r).hash = h)
    (hown : ∀ p ∈ c.own env rule h, r ≠ w.heap.next + p.2) :
    r < w.heap.next ∨ w.heap.next + (c.passes env rule).length ≤ r := by
  by_contra hinside
  rw [not_or, not_lt, not_le] at hinside
  obtain ⟨i, rfl⟩ := Nat.exists_eq_add_of_le hinside.1
  have hi : i < (c.passes env rule).length := lt_of_add_lt_add_left hinside.2
  have hget := getElem?_eq_getElem hi
  have hcell := (handed env c rule w.heap).new i _ hget
  refine hown ((c.passes env rule)[i], i) (mem_own.mpr ⟨hget, ?_⟩) rfl
  rw [← hr]
  exact congrArg hash hcell.symm

/-- What lies outside the events of both calls is the same for both. -/
theorem get_of_outside (hlength : (c'.passes env rule).length = (c.passes env rule).length)
    {r : Ref} (hr : r < w.heap.next ∨ w.heap.next + (c.passes env rule).length ≤ r) :
    (w.handleStart env c' rule).heap.get r = (w.handleStart env c rule).heap.get r := by
  have s := handed env c rule w.heap
  have s' := handed env c' rule w.heap
  have hc : (c.collect env rule w.heap).heap.get r = w.heap.get r := s.old r (by rwa [s.next])
  have hc' : (c'.collect env rule w.heap).heap.get r = w.heap.get r :=
    s'.old r (by rwa [s'.next, hlength])
  exact hc'.trans hc.symm

theorem Mirrors.handleEvent_singleton {σ : Equiv.Perm Ref} {s v : World} {r : Ref}
    (m : Mirrors σ h s v) (env : Env) (hs : Stays s s) (hv : Stays v v) (hr : r < s.heap.next)
    (hr' : σ r < v.heap.next) (hh : (s.heap.get r).hash = h) :
    Mirrors σ h (s.handleEvent env [r]) (v.handleEvent env [σ r]) := by
  obtain ⟨hm, hdue⟩ := m.look hh env hs.wf hr
  rw [World.handleEvent_singleton env hs.wf hr hs.inhibit,
    World.handleEvent_singleton env hv.wf hr' hv.inhibit, hdue]
  split_ifs
  · refine hm.fireEvent ?_ (hs.look env hr).wf
    rw [(hs.look env hr).keeps.get r]
    exact hh
  · exact hm

variable (hnodup : ((c.passes env rule).map fun pe => pe.2.hash).Nodup)
  (hperm : (c'.passes env rule).Perm (c.passes env rule))

include hnodup hperm

/-- A hash of which two calls have the same events: the one, if there is one, has its place in
each. -/
theorem own_of_perm (h : Hash) :
    c.own env rule h = [] ∧ c'.own env rule h = [] ∨
      ∃ pe i j, c.own env rule h = [(pe, i)] ∧ c'.own env rule h = [(pe, j)] := by
  have hnodup' : ((c'.passes env rule).map fun pe => pe.2.hash).Nodup :=
    (hperm.map _).nodup_iff.mpr hnodup
  have hplace : ∀ {c : HandleCall} {pe}, pe ∈ c.passes env rule → pe.2.hash = h →
      ∃ i, (pe, i) ∈ c.own env rule h := by
    intro c pe hpe hh
    obtain ⟨i, hi⟩ := mem_iff_getElem?.mp hpe
    exact ⟨i, mem_own.mpr ⟨hi, hh⟩⟩
  rcases own_eq hnodup h with hown | ⟨⟨pe, i⟩, hown⟩
  · refine .inl ⟨hown, eq_nil_iff_forall_not_mem.mpr fun q hq => ?_⟩
    obtain ⟨hq, hh⟩ := mem_own.mp hq
    obtain ⟨i, hi⟩ := hplace (hperm.mem_iff.mp (mem_of_getElem? hq)) hh
    rw [hown] at hi
    cases hi
  · obtain ⟨hi, hh⟩ := mem_own.mp (hown ▸ mem_singleton_self (pe, i))
    obtain ⟨j, hj⟩ := hplace (hperm.mem_iff.mpr (mem_of_getElem? hi)) hh
    rcases own_eq hnodup' h with hown' | ⟨q, hown'⟩
    · rw [hown'] at hj
      cases hj
    · rw [hown', mem_singleton] at hj
      exact .inr ⟨pe, i, j, hown, hj ▸ hown'⟩

variable (hw : w.WF) (hinhibit : c.inhibit = false) (hinhibit' : c'.inhibit = false)

include hw hinhibit hinhibit'

/-- **The events of a hash alone, in two calls.** -/
theorem mirrors_alone (h : Hash) :
    ∃ σ, Mirrors σ h (w.alone env c rule h) (w.alone env c' rule h) := by
  have hlength := hperm.length_eq
  rcases own_of_perm hnodup hperm h with ⟨hown, hown'⟩ | ⟨pe, i, j, hown, hown'⟩
  · refine ⟨Equiv.refl Ref, ?_⟩
    simp only [alone, hown, hown', List.foldl_nil]
    refine mirrors_handleStart hw (fun _ _ => rfl) fun r hr => ?_
    exact get_of_outside hlength (outside_of_not_own hr (by simp [hown]))
  · -- the two calls have the event under different names
    obtain ⟨hi, hh⟩ := mem_own.mp (hown ▸ List.mem_singleton_self (pe, i))
    obtain ⟨hj, -⟩ := mem_own.mp (hown' ▸ List.mem_singleton_self (pe, j))
    have hlt : i < (c.passes env rule).length := (List.getElem?_eq_some_iff.mp hi).1
    have hlt' : j < (c.passes env rule).length := hlength ▸ (List.getElem?_eq_some_iff.mp hj).1
    have s := handed env c rule w.heap
    have s' := handed env c' rule w.heap
    set σ := Equiv.swap (w.heap.next + i) (w.heap.next + j) with hσ
    have hi' : σ (w.heap.next + i) = w.heap.next + j := Equiv.swap_apply_left _ _
    have hfix : ∀ r, r < w.heap.next ∨ w.heap.next + (c.passes env rule).length ≤ r → σ r = r := by
      intro r hr
      refine Equiv.swap_apply_of_ne_of_ne ?_ ?_
      · rintro rfl
        exact absurd hr (by simp [hlt])
      · rintro rfl
        exact absurd hr (by simp [hlt'])
    have hstart : Mirrors σ h (w.handleStart env c rule) (w.handleStart env c' rule) := by
      refine mirrors_handleStart hw (fun r hr => hfix r (.inl hr)) fun r hr => ?_
      by_cases hri : r = w.heap.next + i
      · rw [hri, hi']
        exact (s'.new j pe hj).trans (s.new i pe hi).symm
      · have hout := outside_of_not_own hr (by simpa [hown] using hri)
        rw [hfix r hout]
        exact get_of_outside hlength hout
    refine ⟨σ, ?_⟩
    simp only [alone, hown, hown', List.foldl_cons, List.foldl_nil]
    rw [← hi']
    refine hstart.handleEvent_singleton env (stays_handleStart hw hinhibit)
      (stays_handleStart hw hinhibit') ?_ ?_ ?_
    · exact (Nat.add_lt_add_left hlt _).trans_eq s.next.symm
    · rw [hi']
      exact (Nat.add_lt_add_left (hlength.symm ▸ hlt') _).trans_eq s'.next.symm
    · exact (congrArg hash (s.new i pe hi)).trans hh

/-- **A whole call with the events of a hash alone, in two orders.** -/
theorem mirrors_aloneEnd (hnow : c'.now = c.now) (hpoints : c'.points.Perm c.points) (h : Hash) :
    ∃ σ, Mirrors σ h (w.aloneEnd env c rule h) (w.aloneEnd env c' rule h) := by
  obtain ⟨σ, m⟩ := mirrors_alone hnodup hperm hw hinhibit hinhibit' h
  have hK : h ∈ c'.points.map (pointHash env rule.id) ↔ h ∈ c.points.map (pointHash env rule.id) :=
    (hpoints.map _).mem_iff
  have hf := m.forget c.fireOrder c'.fireOrder hK
  have hwf : (w.alone env c rule h).WF := (solo_handleGroups hw hinhibit hnodup).alone.wf
  refine ⟨σ, ?_⟩
  simp only [aloneEnd, hK, hnow]
  split_ifs
  · exact hf
  · exact hf.recoverSingle (hwf.forget _ _) false c.now none []

end Orders

end World

/-! ## Orders are not felt -/

/-- The second call is the first in another order: it ranges over its maps in orders of its own, and
its points are those of the first in some order, with the same answers from the pipelines and the
mutes. -/
structure HandleCall.Rearranges (env : Env) (c c' : HandleCall) : Prop where
  cachedRule : c'.cachedRule = c.cachedRule
  now : c'.now = c.now
  inner : c.src = .inner ∧ c'.src = .inner
  inhibit : c.inhibit = false ∧ c'.inhibit = false
  verdicts : ∀ rule ∈ c.cachedRule, (c'.verdicts env rule).Perm (c.verdicts env rule)

/-- The pipelines and the mutes answer by the event, whatever they were asked before. -/
structure HandleCall.Stateless (c : HandleCall) : Prop where
  pipeline : ∀ i, c.pipeline i = c.pipeline 0
  isMuted : ∀ i, c.isMuted i = c.isMuted 0
  eventMuteHook : ∀ i, c.eventMuteHook i = c.eventMuteHook 0

section Rearranges

variable {env : Env} {c : HandleCall}

theorem verdicts_of_stateless (hc : c.Stateless) (rule : AlertRule) :
    c.verdicts env rule = c.points.map fun point => (point, c.screen env rule 0 point) := by
  conv_rhs => rw [← List.zipIdx_map_fst 0 c.points, List.map_map]
  refine List.map_congr_left fun p _ => ?_
  simp only [HandleCall.screen, hc.pipeline p.2, hc.isMuted p.2, hc.eventMuteHook p.2, comp_apply]

/-- Points in another order, if nothing remembers the ones before. -/
theorem rearranges_of_perm (hc : c.Stateless) (hsrc : c.src = .inner) (hinhibit : c.inhibit = false)
    {points : List AnomalyPoint} (hpoints : points.Perm c.points)
    (groupOrder fireOrder tagOrder : MapOrder String) :
    c.Rearranges env { c with points, groupOrder, fireOrder, tagOrder } where
  cachedRule := rfl
  now := rfl
  inner := ⟨hsrc, hsrc⟩
  inhibit := ⟨hinhibit, hinhibit⟩
  verdicts rule _ := by
    have hc' : Stateless { c with points, groupOrder, fireOrder, tagOrder } :=
      ⟨hc.pipeline, hc.isMuted, hc.eventMuteHook⟩
    rw [verdicts_of_stateless hc, verdicts_of_stateless hc']
    exact hpoints.map _

end Rearranges

/-- **The same result**: under every hash the same alert, the same pending events, and in all the
same events pushed. -/
structure World.SameResult (w v : World) : Prop where
  sameAt : ∀ h, SameAt h w v
  pushed : (pushed v.log).Perm (pushed w.log)

/-- **The orders are not felt.**  A call that does not inhibit, of points no two of which share a
hash, leaves the same behind in whatever order it ranges over the groups and the alerts, and in
whatever order its points come with the same answers. -/
theorem handle_order_free (env : Env) {w : World} (hw : w.WF) {c c' : HandleCall}
    (h : c.Rearranges env c')
    (hdistinct : ∀ rule ∈ c.cachedRule, (c.points.map (pointHash env rule.id)).Nodup)
    (hkeeps : ∀ rule ∈ c.cachedRule, c.KeepsHash env rule) :
    SameResult (w.handle env c) (w.handle env c') := by
  cases hrule : c.cachedRule with
  | none =>
    have hrule' : c'.cachedRule = none := h.cachedRule.trans hrule
    simp only [handle, hrule, hrule']
    refine ⟨fun _ => ⟨rfl, rfl, rfl⟩, perm_pushed fun hash => ?_⟩
    rw [pushes_append, pushes_append, pushes_delivered, pushes_delivered]
  | some rule =>
    have hverdicts := h.verdicts rule hrule
    have hperm : (c'.passes env rule).Perm (c.passes env rule) := by
      rw [passes_eq, passes_eq]
      exact hverdicts.filterMap _
    have hpoints : c'.points.Perm c.points := by
      have hmap := hverdicts.map Prod.fst
      rwa [verdicts_map_fst, verdicts_map_fst] at hmap
    have hnodup := nodup_hash (hdistinct rule hrule) (hkeeps rule hrule)
    have hnodup' : ((c'.passes env rule).map fun pe => pe.2.hash).Nodup :=
      (hperm.map _).nodup_iff.mpr hnodup
    have halone := fun hash => mirrors_aloneEnd hnodup hperm hw h.inhibit.1 h.inhibit.2 h.now
      hpoints hash
    have a := fun hash => solo_handle (h := hash) hw hrule h.inner.1 h.inhibit.1 hnodup
    have a' := fun hash => solo_handle (h := hash) hw (h.cachedRule.trans hrule) h.inner.2
      h.inhibit.2 hnodup'
    refine ⟨fun hash => ?_, perm_pushed fun hash => ?_⟩
    · obtain ⟨σ, m⟩ := halone hash
      have hs := (a hash).alone.wf
      have hs' := (a' hash).alone.wf
      exact
        { fired := by
            rw [(a' hash).mirrors.fired hs', m.fired hs, (a hash).mirrors.fired hs]
          pending := by
            rw [(a' hash).mirrors.pending hs', m.pending hs, (a hash).mirrors.pending hs]
          observed := by
            rw [(a' hash).mirrors.observed hs', m.observed hs, (a hash).mirrors.observed hs] }
    · obtain ⟨σ, m⟩ := halone hash
      rw [(a' hash).mirrors.pushes, m.pushes, (a hash).mirrors.pushes]

namespace Example

/-- Two hosts fire. -/
def twoHosts : HandleCall := call { id := 1 } 1000 [point "a" 1 1000, point "b" 1 1000]

/-- The same, from the end. -/
def twoHostsReversed : HandleCall :=
  { twoHosts with
    points := [point "b" 1 1000, point "a" 1 1000]
    groupOrder := reverseOrder
    fireOrder := reverseOrder
    tagOrder := reverseOrder }

end Example

/-- Two hosts, in both orders. -/
theorem two_hosts_order_free : twoHosts.Rearranges env twoHostsReversed ∧
    (pushed (handle env { rule := { id := 1 } } twoHosts).log).length = 2 ∧
    SameResult (handle env { rule := { id := 1 } } twoHosts)
      (handle env { rule := { id := 1 } } twoHostsReversed) := by
  have hstateless : twoHosts.Stateless := ⟨fun _ => rfl, fun _ => rfl, fun _ => rfl⟩
  have hrearranges : twoHosts.Rearranges env twoHostsReversed :=
    rearranges_of_perm hstateless rfl rfl (Perm.swap _ _ _) _ _ _
  refine ⟨hrearranges, by decide, ?_⟩
  refine handle_order_free env (WF.initial _ _ _) hrearranges ?_ ?_
  · rintro rule ⟨⟩
    decide
  · rintro rule ⟨⟩
    decide

namespace Suppress

namespace Example

/-- A point is of the kind its label says. -/
def kinds : Env :=
  { Nightingale.Example.env with
    metricString := fun labels => labels.get "kind"
    fillTags := fun _ point => (point.labels, "") }

/-- A point of a switch or a host. -/
def kindPoint (kind : String) : AnomalyPoint where
  labels := Finmap.singleton "kind" kind
  severity := 1
  timestamp := 1000

/-- The processor after an evaluation of the points. -/
def evaluated (points : List AnomalyPoint) : World :=
  (station.step kinds (evaluateAt 1000 points)).world

end Example

/-- **The hook remembers.**  Switches silence hosts.  A switch and a host fire in one evaluation: if
the switch comes first the host is silenced, and if the host comes first both are pushed. -/
theorem switch_host_order_felt : Example.station.world.WF ∧
    (([Example.kindPoint "switch", Example.kindPoint "host"]).map
      (pointHash Example.kinds 1)).Nodup ∧
    [Example.kindPoint "host", Example.kindPoint "switch"].Perm
      [Example.kindPoint "switch", Example.kindPoint "host"] ∧
    (pushed (Example.evaluated [Example.kindPoint "switch", Example.kindPoint "host"]).log).map
        (fun e => e.tagsMap.lookup "kind") = [some "switch"] ∧
    (pushed (Example.evaluated [Example.kindPoint "host", Example.kindPoint "switch"]).log).map
        (fun e => e.tagsMap.lookup "kind") = [some "host", some "switch"] ∧
    ¬ SameResult (Example.evaluated [Example.kindPoint "switch", Example.kindPoint "host"])
      (Example.evaluated [Example.kindPoint "host", Example.kindPoint "switch"]) := by
  have hfirst : (pushed (Example.evaluated
      [Example.kindPoint "switch", Example.kindPoint "host"]).log).map
        (fun e => e.tagsMap.lookup "kind") = [some "switch"] := by decide
  have hsecond : (pushed (Example.evaluated
      [Example.kindPoint "host", Example.kindPoint "switch"]).log).map
        (fun e => e.tagsMap.lookup "kind") = [some "host", some "switch"] := by decide
  refine ⟨World.WF.initial _ _ _, by decide, Perm.swap _ _ _, hfirst, hsecond, fun hsame => ?_⟩
  have hlength := (hsame.pushed.map fun e => e.tagsMap.lookup "kind").length_eq
  rw [hfirst, hsecond] at hlength
  cases hlength

end Suppress

end Nightingale
