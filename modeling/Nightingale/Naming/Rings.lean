import Nightingale.Lib.MapOrder
import Nightingale.Lib.Run
import Nightingale.Lib.Text

/-!
# Naming/Rings — who evaluates a rule

Each engine keeps a table of hash rings and brings it up to date with every heartbeat, a ring per
datasource it serves and one for the hosts of its cluster:

    localss            datasource id ──▸ servers, sorted and joined    rebuilt when the text differs
    localHostServers   engine name   ──▸ servers, sorted and joined
    Rings              either, as a text ──▸ members of the ring

A heartbeat that cannot read the datasources does nothing, and one that cannot read the servers of a
datasource leaves its ring.  `rings_follow_reads` says what a ring is built from after any sequence
of heartbeats, and that engines whose rings agree share the rules out among them.
-/

namespace Nightingale.Naming

open Text List Option Finmap Function MapOrder Prod

/-- The consistent-hash library, a function of the set of members: a key is given to one of them,
and to none only if there is none. -/
structure Consistent where
  get : Finset String → String → Option String
  get_mem : ∀ s pk node, get s pk = some node → node ∈ s
  get_isSome : ∀ s pk, s.Nonempty → (get s pk).isSome

/-- The table `DatasourceHashRing.Rings`, a ring being its members, with the two maps of texts the
heartbeat compares. -/
structure Engine where
  rings : GoMap String (Finset String) := ∅
  localss : GoMap ℤ String := ∅
  localHostServers : GoMap String String := ∅

open Engine

/-- What one heartbeat reads, an error being `none`: the datasources of the engine and the active
servers of each, and the active servers of the engine's name.  The maps it ranges over are visited
in some order. -/
structure Beat where
  datasources : Option (List (ℤ × Option (List String)))
  hostServers : Option (List String)
  rings : MapOrder String
  locals : MapOrder ℤ

/-- `sort.Strings` and `strings.Join(servers, " ")`. -/
def joinServers (servers : List String) : String :=
  " ".intercalate (servers.insertionSort (· ≤ ·))

/-- `Naming.ActiveServers`, which knows no server of the datasource -1. -/
def activeServers (p : ℤ × Option (List String)) : Option (List String) :=
  if p.1 = -1 then none else p.2

namespace Engine

/-- `RebuildConsistentHashRing`. -/
def rebuild (key : String) (servers : List String) (e : Engine) : Engine :=
  { e with rings := e.rings.insert key servers.toFinset }

/-- The body of the loop over the datasources. -/
def refresh (e : Engine) (p : ℤ × Option (List String)) : Engine :=
  (activeServers p).elim e fun servers =>
    if e.localss.lookup p.1 = some (joinServers servers) then e
    else { e.rebuild (toString p.1) servers with
      localss := e.localss.insert p.1 (joinServers servers) }

/-- The body of the loop that forgets the datasources that are not served any more. -/
def forget (ids : List ℤ) (e : Engine) (id : ℤ) : Engine :=
  if id ∈ ids then e
  else { e with localss := e.localss.erase id, rings := e.rings.erase (toString id) }

/-- `DatasourceHashRing.Clear` with the loop that empties `localss`. -/
def clear (engineName : String) (b : Beat) (e : Engine) : Engine :=
  { e with
    rings := b.rings.deleteWhere (fun id _ => id ≠ engineName) e.rings
    localss := b.locals.deleteWhere (fun _ _ => true) e.localss }

/-- The ring of the hosts. -/
def refreshHosts (engineName : String) (servers : List String) (e : Engine) : Engine :=
  if e.localHostServers.lookup engineName = some (joinServers servers) then e
  else { e.rebuild engineName servers with
    localHostServers := e.localHostServers.insert engineName (joinServers servers) }

/-- `Naming.heartbeat`. -/
def heartbeat (engineName : String) (e : Engine) (b : Beat) : Engine :=
  b.datasources.elim e fun datasources =>
    let e := if datasources = [] then e.clear engineName b else e
    let e := datasources.foldl refresh e
    let e := (b.locals.list e.localss.keys).foldl (forget (datasources.map fst)) e
    b.hostServers.elim e fun servers => e.refreshHosts engineName servers

/-- `DatasourceHashRingType.GetNode`, which makes an empty ring where there is none. -/
def getNode (lib : Consistent) (e : Engine) (key pk : String) : Engine × Option String :=
  let e := if key ∈ e.rings then e else e.rebuild key []
  (e, (e.rings.lookup key).bind fun members => lib.get members pk)

/-- `DatasourceHashRingType.IsHit`. -/
def isHit (lib : Consistent) (e : Engine) (key pk currentNode : String) : Bool :=
  (e.getNode lib key pk).2 == some currentNode

/-- The members of a ring; one that is absent has none. -/
def members (e : Engine) (key : String) : Finset String := (e.rings.lookup key).getD ∅

end Engine

/-! ## An engine that is watched -/

/-- An engine with what it has read: the datasources it was last told to serve, the last list of
servers it read for each, and the last it read for its name. -/
structure Watched where
  engine : Engine := {}
  served : List ℤ := []
  lastRead : ℤ → Option (List String) := fun _ => none
  hostRead : Option (List String) := none

/-- One more list read, or not. -/
def note (lastRead : ℤ → Option (List String)) (p : ℤ × Option (List String)) :
    ℤ → Option (List String) :=
  (activeServers p).elim lastRead fun servers => update lastRead p.1 (some servers)

/-- A heartbeat, or a rule that asks for its node. -/
inductive Move
  | beat (b : Beat)
  | getNode (key pk : String)

/-- One move of a watched engine. -/
def Watched.step (lib : Consistent) (engineName : String) (w : Watched) : Move → Watched
  | .beat b => {
      engine := w.engine.heartbeat engineName b
      served := b.datasources.elim w.served fun datasources => datasources.map fst
      lastRead := b.datasources.elim w.lastRead fun datasources => datasources.foldl note w.lastRead
      hostRead := b.datasources.elim w.hostRead fun _ => b.hostServers <|> w.hostRead }
  | .getNode key pk => { w with engine := (w.engine.getNode lib key pk).1 }

/-- The ring of a datasource that is served is built from the last list read for it, and that of any
other is absent or empty. -/
def Watched.Faithful (w : Watched) : Prop :=
  ∀ id, w.engine.members (toString id) =
    if id ∈ w.served then ((w.lastRead id).getD []).toFinset else ∅

/-- Names a joined text tells apart: not empty, and without a space. -/
def Plain (servers : List String) : Prop := ∀ server ∈ servers, server ≠ "" ∧ ' ' ∉ server.toList

instance (servers : List String) : Decidable (Plain servers) :=
  inferInstanceAs (Decidable (∀ _ ∈ _, _))

/-- What the rings need of a heartbeat: the servers it reads have plain names, and it reads those of
a datasource that is served again, if they were ever read. -/
def Watched.Steady (w : Watched) : Move → Prop
  | .beat b =>
    (∀ servers ∈ b.hostServers, Plain servers) ∧ ∀ datasources ∈ b.datasources,
      (∀ p ∈ datasources, ∀ servers ∈ activeServers p, Plain servers) ∧
      ∀ id ∈ datasources.map fst, id ∉ w.served → w.lastRead id ≠ none →
        ∃ p ∈ datasources, p.1 = id ∧ activeServers p ≠ none
  | .getNode _ _ => True

/-! ## The text of a list -/

theorem splitText_joinServers {servers : List String} (h : Plain servers) (hne : servers ≠ []) :
    splitText " " (joinServers servers) = servers.insertionSort (· ≤ ·) := by
  refine (splitText_intercalate_iff (by decide)).mpr (clean_singleton_iff.mpr ⟨?_, ?_⟩)
  · rwa [ne_eq, ← length_eq_zero_iff, length_map, length_insertionSort, length_eq_zero_iff]
  · exact forall_mem_map.mpr fun server hserver => (h server ((mem_insertionSort _).mp hserver)).2

/-- A list of plain names has the empty text only if it is empty. -/
theorem joinServers_ne_nil {servers : List String} (h : Plain servers) (hne : servers ≠ []) :
    joinServers servers ≠ joinServers [] := by
  intro heq
  have hsplit := splitText_joinServers h hne
  rw [heq] at hsplit
  have hmem : "" ∈ servers.insertionSort (· ≤ ·) := hsplit ▸ mem_singleton_self ""
  exact (h "" ((mem_insertionSort _).mp hmem)).1 rfl

/-- **Plain names are told apart**: one text, one set of servers. -/
theorem toFinset_eq_of_joinServers_eq {l l' : List String} (hl : Plain l) (hl' : Plain l')
    (h : joinServers l = joinServers l') : l.toFinset = l'.toFinset := by
  rcases eq_or_ne l [] with rfl | hne
  · rcases eq_or_ne l' [] with rfl | hne'
    · rfl
    · exact absurd h.symm (joinServers_ne_nil hl' hne')
  · rcases eq_or_ne l' [] with rfl | hne'
    · exact absurd h (joinServers_ne_nil hl hne)
    · have hsort : l.insertionSort (· ≤ ·) = l'.insertionSort (· ≤ ·) := by
        rw [← splitText_joinServers hl hne, ← splitText_joinServers hl' hne', h]
      ext server
      rw [List.mem_toFinset, List.mem_toFinset, ← List.mem_insertionSort (· ≤ ·), hsort,
        mem_insertionSort]

/-! ## One heartbeat -/

section Members

variable (e : Engine)

@[simp] theorem members_rebuild_self (key : String) (servers : List String) :
    (e.rebuild key servers).members key = servers.toFinset := by
  rw [members, rebuild, lookup_insert, getD_some]

theorem members_rebuild_of_ne {key key' : String} (servers : List String) (h : key' ≠ key) :
    (e.rebuild key servers).members key' = e.members key' := by
  rw [members, rebuild, lookup_insert_of_ne _ h, members]

end Members

/-- The engine holds, for each datasource, the list or nothing, and for the hosts the list. -/
structure Tracks (engineName : String) (held : ℤ → Option (List String))
    (hosts : Option (List String)) (e : Engine) : Prop where
  plain : ∀ id, ∀ servers ∈ held id, Plain servers
  localss : ∀ id, e.localss.lookup id = (held id).map joinServers
  ring : ∀ id, e.members (toString id) = ((held id).getD []).toFinset
  hostPlain : ∀ servers ∈ hosts, Plain servers
  hostText : e.localHostServers.lookup engineName = hosts.map joinServers
  hostRing : e.members engineName = (hosts.getD []).toFinset

namespace Tracks

variable {engineName : String} {held : ℤ → Option (List String)} {hosts : Option (List String)}
  {e : Engine} (h : Tracks engineName held hosts e) (hname : ∀ id : ℤ, engineName ≠ toString id)

include h hname in
/-- An engine that differs in what it holds for one datasource. -/
theorem update {id : ℤ} {new : Option (List String)} (hplain : ∀ servers ∈ new, Plain servers)
    {e' : Engine}
    (hlocal : e'.localss.lookup id = new.map joinServers)
    (hring : e'.members (toString id) = (new.getD []).toFinset)
    (hlocals : ∀ id' ≠ id, e'.localss.lookup id' = e.localss.lookup id')
    (hrings : ∀ key ≠ toString id, e'.members key = e.members key)
    (hhosts : e'.localHostServers = e.localHostServers) :
    Tracks engineName (update held id new) hosts e' := by
  refine ⟨?_, ?_, ?_, h.hostPlain, ?_, ?_⟩
  · exact (forall_update_iff held fun _ l => ∀ servers ∈ l, Plain servers).mpr
      ⟨hplain, fun id' _ => h.plain id'⟩
  · exact (forall_update_iff held fun id' l => e'.localss.lookup id' = l.map _).mpr
      ⟨hlocal, fun id' hne => (hlocals id' hne).trans (h.localss id')⟩
  · refine (forall_update_iff held fun id' l => e'.members (toString id')
      = (l.getD []).toFinset).mpr ⟨hring, fun id' hne => ?_⟩
    rw [hrings (toString id') fun heq => hne (Int.repr_injective heq)]
    exact h.ring id'
  · rw [hhosts]
    exact h.hostText
  · rw [hrings _ (hname id)]
    exact h.hostRing

include h hname in
/-- **One datasource is read**, or not. -/
theorem refresh (p : ℤ × Option (List String)) (hp : ∀ servers ∈ activeServers p, Plain servers) :
    Tracks engineName (note held p) hosts (e.refresh p) := by
  unfold note Engine.refresh
  cases hread : activeServers p with
  | none => exact h
  | some servers =>
    have hplain := hp servers hread
    have hnew : ∀ l ∈ some servers, Plain l := fun l hl => some.inj hl ▸ hplain
    simp only [elim_some]
    split_ifs with htext
    · refine h.update hname hnew htext ?_ (fun _ _ => rfl) (fun _ _ => rfl) rfl
      obtain ⟨old, hold, hjoin⟩ := map_eq_some_iff.mp ((h.localss p.1).symm.trans htext)
      rw [h.ring, hold, getD_some]
      exact toFinset_eq_of_joinServers_eq (h.plain p.1 old hold) hplain hjoin
    · exact h.update hname hnew (lookup_insert _) (members_rebuild_self e _ _)
        (fun _ hne => lookup_insert_of_ne _ hne)
        (fun _ hne => members_rebuild_of_ne e servers hne) rfl

include hname in
theorem refreshes :
    ∀ (datasources : List (ℤ × Option (List String))) {held : ℤ → Option (List String)}
      {e : Engine}, Tracks engineName held hosts e →
      (∀ p ∈ datasources, ∀ servers ∈ activeServers p, Plain servers) →
      Tracks engineName (datasources.foldl note held) hosts (datasources.foldl Engine.refresh e)
  | [], _, _, h, _ => h
  | p :: datasources, _, _, h, hp =>
    refreshes datasources (h.refresh hname p (hp p mem_cons_self))
      fun q hq => hp q (mem_cons_of_mem p hq)

include h hname in
/-- **One datasource is forgotten**, unless it is served. -/
theorem forget (ids : List ℤ) (id : ℤ) :
    Tracks engineName (if id ∈ ids then held else Function.update held id none) hosts
      (e.forget ids id) := by
  unfold Engine.forget
  split_ifs
  · exact h
  · refine h.update hname (fun l hl => by cases hl) (lookup_erase _ _) ?_
      (fun _ hne => lookup_erase_ne hne) (fun key hne => ?_) rfl
    · rw [members, lookup_erase]
      rfl
    · rw [members, lookup_erase_ne hne, members]

include hname in
theorem forgets (ids : List ℤ) :
    ∀ (l : List ℤ) {held : ℤ → Option (List String)} {e : Engine}, Tracks engineName held hosts e →
      Tracks engineName (fun id => if id ∈ ids ∨ id ∉ l then held id else none) hosts
        (l.foldl (Engine.forget ids) e)
  | [], held, _, h => by simpa using h
  | id :: l, held, _, h => by
    have hrest := forgets ids l (h.forget hname ids id)
    refine (congrArg (fun held => Tracks engineName held hosts _) (funext fun id' => ?_)).mp hrest
    by_cases hid : id ∈ ids
    · rw [if_pos hid]
      by_cases hid' : id' ∈ ids
      · simp [hid']
      · have hne : id' ≠ id := fun heq => hid' (heq ▸ hid)
        simp [hid', hne]
    · rw [if_neg hid]
      rcases eq_or_ne id' id with rfl | hne
      · simp [hid]
      · simp [hne]

include h hname

/-- **What is not served is forgotten.** -/
theorem forgetAll (ids : List ℤ) (o : MapOrder ℤ) :
    Tracks engineName (fun id => if id ∈ ids then held id else none) hosts
      ((o.list e.localss.keys).foldl (Engine.forget ids) e) := by
  have hall := forgets hname ids (o.list e.localss.keys) h
  refine (congrArg (fun held => Tracks engineName held hosts _) (funext fun id => ?_)).mp hall
  by_cases hkey : id ∈ e.localss
  · simp [o.mem_list_keys, hkey]
  · have hnone : held id = none := by
      have := h.localss id
      rw [lookup_eq_none.mpr hkey] at this
      exact map_eq_none_iff.mp this.symm
    simp [hnone]

/-- An engine without datasources holds nothing but the hosts. -/
theorem clear (b : Beat) : Tracks engineName (fun _ => none) hosts (e.clear engineName b) := by
  have hrings : ∀ key, (e.clear engineName b).members key =
      if key = engineName then e.members key else ∅ := by
    intro key
    rw [Engine.members, Engine.clear, lookup_deleteWhere]
    split_ifs with hkey
    · cases hring : e.rings.lookup key <;> simp [members, hring, hkey, Option.filter]
    · cases hring : e.rings.lookup key <;> simp [hkey, Option.filter]
  refine ⟨fun id l hl => (by cases hl), fun id => ?_, fun id => ?_, h.hostPlain, h.hostText, ?_⟩
  · rw [Engine.clear, lookup_deleteWhere]
    cases e.localss.lookup id <;> simp [Option.filter]
  · rw [hrings, if_neg fun heq => hname id heq.symm]
    rfl
  · rw [hrings, if_pos rfl]
    exact h.hostRing

/-- **The hosts are read.** -/
theorem refreshHosts {servers : List String} (hplain : Plain servers) :
    Tracks engineName held (some servers) (e.refreshHosts engineName servers) := by
  have hnew : ∀ l ∈ some servers, Plain l := fun l hl => some.inj hl ▸ hplain
  unfold Engine.refreshHosts
  split_ifs with htext
  · refine ⟨h.plain, h.localss, h.ring, hnew, htext, ?_⟩
    obtain ⟨old, hold, hjoin⟩ := map_eq_some_iff.mp (h.hostText.symm.trans htext)
    rw [h.hostRing, hold]
    exact toFinset_eq_of_joinServers_eq (h.hostPlain old hold) hplain hjoin
  · refine ⟨h.plain, h.localss, fun id => ?_, hnew, lookup_insert _, ?_⟩
    · exact (members_rebuild_of_ne e servers fun heq => hname id heq.symm).trans (h.ring id)
    · exact members_rebuild_self e _ _

/-- **A heartbeat** that reads the datasources holds those alone, with what was read or held. -/
theorem heartbeat {b : Beat} {datasources : List (ℤ × Option (List String))}
    (hb : b.datasources = some datasources)
    (hplain : ∀ p ∈ datasources, ∀ servers ∈ activeServers p, Plain servers)
    (hhosts : ∀ servers ∈ b.hostServers, Plain servers) : Tracks engineName
      (fun id => if id ∈ datasources.map fst then datasources.foldl note held id else none)
      (b.hostServers <|> hosts) (e.heartbeat engineName b) := by
  have hstart : Tracks engineName
      (fun id => if id ∈ datasources.map fst then datasources.foldl note held id else none)
      hosts (((b.locals.list (datasources.foldl Engine.refresh (if datasources = [] then
        e.clear engineName b else e)).localss.keys)).foldl
          (Engine.forget (datasources.map fst)) (datasources.foldl Engine.refresh
            (if datasources = [] then e.clear engineName b else e))) := by
    split_ifs with hnil
    · subst hnil
      simpa using (h.clear hname b).forgetAll hname [] b.locals
    · exact (refreshes hname datasources h hplain).forgetAll hname _ b.locals
  rw [Engine.heartbeat, hb]
  cases hread : b.hostServers with
  | none => exact hstart
  | some servers => exact hstart.refreshHosts hname (hhosts servers hread)

end Tracks

theorem note_eq_of_eq {L L' : ℤ → Option (List String)} {id : ℤ} (h : L id = L' id)
    (p : ℤ × Option (List String)) : note L p id = note L' p id := by
  unfold note
  cases activeServers p with
  | none => exact h
  | some servers =>
    simp only [elim_some]
    rcases eq_or_ne id p.1 with rfl | hne
    · rw [update_self, update_self]
    · rw [update_of_ne hne, update_of_ne hne, h]

/-- What was known before does not matter to a datasource that is read. -/
theorem foldl_note_eq {id : ℤ} :
    ∀ (datasources : List (ℤ × Option (List String))) {L L' : ℤ → Option (List String)},
      (L id = L' id ∨ ∃ p ∈ datasources, p.1 = id ∧ activeServers p ≠ none) →
        datasources.foldl note L id = datasources.foldl note L' id
  | [], _, _, h => by simpa using h
  | p :: datasources, L, L', h => by
    refine foldl_note_eq datasources ?_
    rcases h with h | ⟨q, hq, hid, hread⟩
    · exact .inl (note_eq_of_eq h p)
    · rcases mem_cons.mp hq with rfl | hq
      · obtain ⟨servers, hservers⟩ := ne_none_iff_exists'.mp hread
        refine .inl ?_
        simp only [note, hservers, elim_some, ← hid, update_self]
      · exact .inr ⟨q, hq, hid, hread⟩

/-! ## A run of heartbeats -/

namespace Watched

variable {lib : Consistent} {engineName : String} {w : Watched}

/-- What the engine should hold. -/
def held (w : Watched) (id : ℤ) : Option (List String) :=
  if id ∈ w.served then w.lastRead id else none

/-- The engine holds what was read last for what is served. -/
def Kept (engineName : String) (w : Watched) : Prop :=
  Tracks engineName w.held w.hostRead w.engine

theorem kept_init : Kept engineName {} where
  plain id l hl := by simp [held] at hl
  localss id := by simp [held]
  ring id := by simp [held, members]
  hostPlain l hl := by cases hl
  hostText := by simp
  hostRing := by simp [members]

/-- **A heartbeat keeps it.** -/
theorem Kept.beat (hname : ∀ id : ℤ, engineName ≠ toString id) {b : Beat}
    (hsteady : w.Steady (.beat b)) (h : w.Kept engineName) :
    (w.step lib engineName (.beat b)).Kept engineName := by
  obtain ⟨hhosts, hds⟩ := hsteady
  cases hb : b.datasources with
  | none =>
    have hstep : w.step lib engineName (.beat b) = w := by
      simp only [step, heartbeat, hb, elim_none]
    rw [hstep]
    exact h
  | some datasources =>
    obtain ⟨hplain, hagain⟩ := hds datasources hb
    have hbeat := Tracks.heartbeat h hname hb hplain hhosts
    have hheld : (w.step lib engineName (.beat b)).held = fun id =>
        if id ∈ datasources.map fst then datasources.foldl note w.held id else none := by
      funext id
      simp only [held, step, hb, elim_some]
      split_ifs with hid
      · refine (foldl_note_eq datasources ?_).symm
        unfold held
        split_ifs with hserved
        · exact .inl rfl
        · rcases eq_or_ne (w.lastRead id) none with hnone | hread
          · exact .inl hnone.symm
          · exact .inr (hagain id hid hserved hread)
      · rfl
    have hhost : (w.step lib engineName (.beat b)).hostRead = (b.hostServers <|> w.hostRead) := by
      simp only [step, hb, elim_some]
    rw [Kept, hheld, hhost]
    exact hbeat

theorem members_getNode (lib : Consistent) (e : Engine) (key pk key' : String) :
    (e.getNode lib key pk).1.members key' = e.members key' := by
  unfold getNode
  split_ifs with hkey
  · rfl
  · rcases eq_or_ne key' key with rfl | hne
    · rw [members_rebuild_self, members, lookup_eq_none.mpr hkey]
      rfl
    · exact members_rebuild_of_ne e [] hne

theorem Kept.getNode (h : w.Kept engineName) (key pk : String) :
    (w.step lib engineName (.getNode key pk)).Kept engineName := by
  have hother : (w.engine.getNode lib key pk).1.localss = w.engine.localss ∧
      (w.engine.getNode lib key pk).1.localHostServers = w.engine.localHostServers := by
    unfold Engine.getNode
    split_ifs <;> exact ⟨rfl, rfl⟩
  refine ⟨h.plain, fun id => ?_, fun id => ?_, h.hostPlain, ?_, ?_⟩
  · exact (congrArg (Finmap.lookup id) hother.1).trans (h.localss id)
  · exact (members_getNode lib _ _ pk _).trans (h.ring id)
  · exact (congrArg (Finmap.lookup engineName) hother.2).trans h.hostText
  · exact (members_getNode lib _ _ pk _).trans h.hostRing

/-- **A run keeps it.** -/
theorem kept_run (hname : ∀ id : ℤ, engineName ≠ toString id) {moves : List Move}
    (h : Along (step lib engineName) Steady {} moves) :
    (moves.foldl (step lib engineName) {}).Kept engineName := by
  refine h.invariant (fun w move hsteady hk => ?_) kept_init
  cases move with
  | beat b => exact hk.beat hname hsteady
  | getNode key pk => exact hk.getNode key pk

theorem Kept.faithful (h : w.Kept engineName) : w.Faithful := by
  intro id
  rw [h.ring, held]
  split_ifs <;> rfl

end Watched

/-! ## Sharing out -/

theorem isHit_iff (lib : Consistent) (e : Engine) (key pk node : String) :
    e.isHit lib key pk node ↔ lib.get (e.members key) pk = some node := by
  have hnode : (e.getNode lib key pk).2 = lib.get (e.members key) pk := by
    unfold getNode members
    dsimp only
    split_ifs with hkey
    · obtain ⟨members, hmembers⟩ := mem_iff.mp hkey
      rw [hmembers]
      rfl
    · rw [rebuild, lookup_insert, lookup_eq_none.mpr hkey]
      rfl
  rw [isHit, hnode, beq_iff_eq]

/-- **Engines with one ring share the rules out**: if each of its members is one engine, every rule
is evaluated by exactly one. -/
theorem existsUnique_isHit (lib : Consistent) {ι : Type} {engine : ι → Engine}
    {endpoint : ι → String} (hinj : Function.Injective endpoint) {key : String}
    {servers : Finset String} (hring : ∀ i, (engine i).members key = servers)
    (hne : servers.Nonempty) (hactive : ∀ server ∈ servers, ∃ i, endpoint i = server)
    (pk : String) : ∃! i, (engine i).isHit lib key pk (endpoint i) := by
  obtain ⟨node, hnode⟩ := isSome_iff_exists.mp (lib.get_isSome servers pk hne)
  obtain ⟨i, rfl⟩ := hactive node (lib.get_mem servers pk node hnode)
  refine ⟨i, (isHit_iff lib _ _ _ _).mpr ((hring i).symm ▸ hnode), fun j hj => ?_⟩
  have hj := (isHit_iff lib _ _ _ _).mp hj
  rw [hring, hnode] at hj
  exact hinj (some.inj hj).symm

/-- **Each rule is evaluated by one engine.**  If the engine name is not the text of a datasource
id, and every heartbeat reads plain names and the servers of a datasource that comes back, then
after every run each ring is built from the last list read for a datasource that is served, and
empty for any other; and where the engines have read the same active servers, each of them one of
the engines, exactly one evaluates each rule of the datasource, and each rule of the hosts. -/
theorem rings_follow_reads (lib : Consistent) (engineName : String)
    (hname : ∀ id : ℤ, engineName ≠ toString id) {ι : Type} (runs : ι → List Move)
    (hruns : ∀ i, Along (Watched.step lib engineName) Watched.Steady {} (runs i)) :
    let engine i := (runs i).foldl (Watched.step lib engineName) {}
    (∀ i, (engine i).Faithful) ∧
      ∀ (endpoint : ι → String) (servers : Finset String), Injective endpoint →
        servers.Nonempty → (∀ server ∈ servers, ∃ i, endpoint i = server) → ∀ pk,
          (∀ id, (∀ i, id ∈ (engine i).served ∧
              ((engine i).lastRead id).map List.toFinset = some servers) →
            ∃! i, (engine i).engine.isHit lib (toString id) pk (endpoint i)) ∧
          ((∀ i, (engine i).hostRead.map List.toFinset = some servers) →
            ∃! i, (engine i).engine.isHit lib engineName pk (endpoint i)) := by
  intro engine
  have hkept : ∀ i, (engine i).Kept engineName := fun i => Watched.kept_run hname (hruns i)
  refine ⟨fun i => (hkept i).faithful, fun endpoint servers hinj hne hactive pk => ⟨?_, ?_⟩⟩
  · intro id hread
    refine existsUnique_isHit lib hinj (fun i => ?_) hne hactive pk
    obtain ⟨l, hl, hset⟩ := map_eq_some_iff.mp (hread i).2
    rw [(hkept i).ring, Watched.held, if_pos (hread i).1, hl]
    exact hset
  · intro hread
    refine existsUnique_isHit lib hinj (fun i => ?_) hne hactive pk
    obtain ⟨l, hl, hset⟩ := map_eq_some_iff.mp (hread i)
    rw [(hkept i).hostRing, hl]
    exact hset

namespace Example

/-- A library that gives every rule to the first server. -/
def lib : Consistent where
  get s _ := ((sortBy (· ≤ ·)).list s).head?
  get_mem s _ node h := ((sortBy (· ≤ ·)).mem_list s node).mp (mem_of_head? h)
  get_isSome s _ := by
    rintro ⟨server, hserver⟩
    rw [isSome_head?]
    exact ne_nil_of_mem (((sortBy (· ≤ ·)).mem_list s server).mpr hserver)

/-- A heartbeat that reads datasource 1 and these servers. -/
def beat (servers : Option (List String)) (hostServers : List String) : Move :=
  .beat {
    datasources := some [(1, servers)]
    hostServers := some hostServers
    rings := .sortBy (· ≤ ·)
    locals := .sortBy (· ≤ ·) }

/-- A heartbeat of an engine without datasources. -/
def idle (hostServers : List String) : Move :=
  .beat {
    datasources := some []
    hostServers := some hostServers
    rings := .sortBy (· ≤ ·)
    locals := .sortBy (· ≤ ·) }

/-- The engine of this name after the moves. -/
def after (engineName : String) (moves : List Move) : Watched :=
  moves.foldl (Watched.step lib engineName) {}

theorem default_ne_toString (id : ℤ) : "default" ≠ toString id := by
  intro h
  have hdigit : ∀ n : ℕ, 'd' ∉ n.repr.toList := by
    intro n hn
    rw [Nat.toList_repr] at hn
    exact absurd (Nat.isDigit_of_mem_toDigits (by decide) (by decide) hn) (by decide)
  have hmem : 'd' ∈ (toString id).toList := by
    rw [← h]
    decide
  cases id with
  | ofNat n => exact hdigit n hmem
  | negSucc n =>
    have hminus : (toString (Int.negSucc n)).toList = '-' :: n.succ.repr.toList :=
      String.toList_append
    rw [hminus] at hmem
    rcases mem_cons.mp hmem with hd | hd
    · exact absurd hd (by decide)
    · exact hdigit _ hd

theorem steady_beat : Along (Watched.step lib "default") Watched.Steady {}
    [beat (some ["a", "b"]) ["a", "b"]] := by
  have hplain : Plain ["a", "b"] := by decide
  refine ⟨⟨fun l hl => some.inj hl ▸ hplain, fun l hl => ?_⟩, trivial⟩
  cases hl
  refine ⟨fun p hp l hl => ?_, fun id _ _ hread => absurd rfl hread⟩
  obtain rfl := mem_singleton.mp hp
  exact some.inj hl ▸ hplain

end Example

open Example

/-- Two engines that have read each other. -/
theorem two_engines_share :
    ∃! i, (after "default" [beat (some ["a", "b"]) ["a", "b"]]).engine.isHit
      lib "1" "7" (bif i then "a" else "b") := by
  refine (((rings_follow_reads lib "default" default_ne_toString
    (fun _ : Bool => [beat (some ["a", "b"]) ["a", "b"]]) fun i => steady_beat).2
      (fun i => bif i then "a" else "b") {"a", "b"} (by decide) ⟨"a", by decide⟩ (by decide) "7").1
      1 fun i => ?_)
  have hserved : 1 ∈ (after "default"
      [beat (some ["a", "b"]) ["a", "b"]]).served := by decide +kernel
  have hread : ((after "default" [beat (some ["a", "b"]) ["a", "b"]]).lastRead
      1).map List.toFinset = some {"a", "b"} := by decide +kernel
  exact ⟨hserved, hread⟩

/-- **Where the rings go wrong.**  An engine named like a datasource has the hosts' ring in place of
the datasource's, and of two engines that have read the same servers neither evaluates a rule; names
with a space are not told apart; and a datasource that comes back unread has no ring. -/
theorem rings_go_astray :
    ¬ (after "1" [beat (some ["b"]) ["a", "b"]]).Faithful ∧
      ((after "1" [beat (some ["a", "b"]) ["a", "b"],
          beat (some ["b"]) ["a", "b"]]).engine.isHit lib "1" "7" "a" = false ∧
        (after "1" [beat (some ["b"]) ["a", "b"]]).engine.isHit
          lib "1" "7" "b" = false) ∧
      ¬ (after "default" [beat (some ["a b"]) ["a"],
          beat (some ["a", "b"]) ["a"]]).Faithful ∧
      ¬ (after "default" [beat (some ["a"]) ["a"], idle ["a"],
          beat none ["a"]]).Faithful :=
  ⟨fun h => absurd (h 1) (by decide +kernel), by decide +kernel,
    fun h => absurd (h 1) (by decide +kernel), fun h => absurd (h 1) (by decide +kernel)⟩

end Nightingale.Naming
