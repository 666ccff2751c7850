import Nightingale.Lib.MapOrder
import Nightingale.Lib.Run

/-!
# Pushgw/Heartbeats — the hosts heard from, in batches

`Set` (`pushgw/idents/idents.go`) collects the idents of the samples that come in.  `persist` takes
them all and hands them on in lists of a hundred; the keys made of a list go to Redis in maps:

    items ─▸ UpdateTargets │ UpdateTargets │ …        each ident in one list
                   └▸ writeTargetTsInRedis │ …        each key in one map, whatever fails

Both loops fill a batch and hand it on when it is full (`Filled`).  The lists lie in one array,
which the next list is written over: `PostByUrls`, which reads a list after its call has returned,
may find other idents there (`overwritten`).
-/

namespace Nightingale.Idents

open List

section Batches

variable {α : Type*} {n : ℕ} {done : List α} {bs : List (Multiset α)} {b : Multiset α}

/-- **Batches of a set**: together they hold each member once, and nothing else; none holds more
than `n`. -/
def Batches (n : ℕ) (s : Finset α) (bs : List (Multiset α)) : Prop :=
  bs.sum = s.val ∧ ∀ b ∈ bs, b.card ≤ n

/-- A loop that has met `done`: the batches it has handed on, and the one it fills. -/
structure Filled (n : ℕ) (done : List α) (bs : List (Multiset α)) (b : Multiset α) : Prop where
  sum : bs.sum + b = done
  le : ∀ b ∈ bs, b.card ≤ n
  lt : b.card < n

theorem Filled.sum_cons (h : Filled n done bs b) (a : α) : bs.sum + (a ::ₘ b) = ↑(done ++ [a]) := by
  rw [Multiset.add_cons, h.sum, Multiset.cons_coe, Multiset.coe_eq_coe]
  exact (perm_append_singleton a done).symm

theorem Filled.more (h : Filled n done bs b) (a : α) (hn : b.card + 1 ≠ n) :
    Filled n (done ++ [a]) bs (a ::ₘ b) where
  sum := h.sum_cons a
  le := h.le
  lt := by
    rw [Multiset.card_cons]
    exact lt_of_le_of_ne h.lt hn

theorem Filled.full (h : Filled n done bs b) (a : α) (hn : b.card + 1 = n) :
    Filled n (done ++ [a]) (bs ++ [a ::ₘ b]) 0 where
  sum := by rw [sum_append, sum_singleton, add_zero, h.sum_cons a]
  le := by
    rw [forall_mem_append, forall_mem_singleton, Multiset.card_cons]
    exact ⟨h.le, hn.le⟩
  lt := hn ▸ Nat.succ_pos _

theorem coe_list (o : MapOrder α) (s : Finset α) : (o.list s : Multiset α) = s.val :=
  (Multiset.Nodup.ext (Multiset.coe_nodup.mpr (o.nodup s)) s.nodup).mpr (o.mem_list s)

theorem Filled.batches {o : MapOrder α} {s : Finset α} (h : Filled n (o.list s) bs b) :
    Batches n s (bs ++ [b]) := by
  refine ⟨by rw [sum_append, sum_singleton, h.sum, coe_list], ?_⟩
  rw [forall_mem_append, forall_mem_singleton]
  exact ⟨h.le, h.lt.le⟩

theorem Filled.batches_of_empty {o : MapOrder α} {s : Finset α} (h : Filled n (o.list s) bs b)
    (hb : b = 0) : Batches n s bs := ⟨by rw [← coe_list o s, ← h.sum, hb, add_zero], h.le⟩

end Batches

/-! ## The lists -/

/-- A `[]string`: the array it lies in, and its length. -/
structure Slice where
  cells : List String
  len : ℕ
  le : len ≤ cells.length

/-- What is read through a slice. -/
def Slice.view (s : Slice) : List String := s.cells.take s.len

/-- `append`: into the next cell, or past the end. -/
def Slice.append (s : Slice) (x : String) : Slice where
  cells := s.cells.take s.len ++ x :: s.cells.drop (s.len + 1)
  len := s.len + 1
  le := by simp [s.le]

/-- `s[:0]`: the array stays as it is. -/
def Slice.clear (s : Slice) : Slice := { s with len := 0, le := Nat.zero_le _ }

/-- The variables of `updateTimestamp`, and the lists `UpdateTargets` was called with. -/
structure Lists where
  lst : Slice := ⟨replicate 100 "", 0, Nat.zero_le _⟩
  num : ℕ := 0
  calls : List (List String) := []

/-- One turn of `updateTimestamp`; what a call returns is only logged. -/
def Lists.visit (l : Lists) (ident : String) : Lists :=
  let lst := l.lst.append ident
  if l.num + 1 = 100 then ⟨lst.clear, 0, l.calls ++ [lst.view]⟩
  else ⟨lst, l.num + 1, l.calls⟩

/-- `updateTimestamp`: the lists of its calls of `UpdateTargets`. -/
def updateTimestamp (order : MapOrder String) (items : Finset String) : List (List String) :=
  let l := (order.list items).foldl Lists.visit {}
  l.calls ++ [l.lst.view]

/-- `MSet`. -/
def mSet (s items : Finset String) : Finset String := s ∪ items

/-- `persist`: the calls it makes, and the idents it leaves. -/
def persist (order : MapOrder String) (items : Finset String) :
    List (List String) × Finset String :=
  if items = ∅ then ([], items) else (updateTimestamp order items, ∅)

theorem Slice.view_append (s : Slice) (x : String) : (s.append x).view = s.view ++ [x] := by
  have hlen : (s.cells.take s.len ++ [x]).length = s.len + 1 := by simp [s.le]
  change (s.cells.take s.len ++ x :: s.cells.drop (s.len + 1)).take (s.len + 1) = _
  rw [append_cons, ← hlen, take_left, view]

theorem Slice.length_view (s : Slice) : s.view.length = s.len := length_take_of_le s.le

/-- **The array is shared**: the next ident is written over the list before it. -/
theorem Slice.overwritten (s : Slice) {x : String} (hlen : s.len ≠ 0) (hx : x ∉ s.view) :
    (s.clear.append x).cells.take s.len ≠ s.view := by
  obtain ⟨k, hk⟩ := Nat.exists_eq_succ_of_ne_zero hlen
  intro heq
  apply hx
  rw [← heq, hk]
  exact mem_cons_self

/-- What `updateTimestamp` keeps. -/
def Lists.Inv (done : List String) (l : Lists) : Prop :=
  l.num = l.lst.len ∧ Filled 100 done (l.calls.map (↑)) l.lst.view

theorem Lists.Inv.visit {done : List String} {l : Lists} (h : l.Inv done) (ident : String) :
    (l.visit ident).Inv (done ++ [ident]) := by
  obtain ⟨hnum, hfilled⟩ := h
  have hview : ((l.lst.append ident).view : Multiset String) = ident ::ₘ ↑l.lst.view := by
    rw [Slice.view_append]
    exact Multiset.coe_eq_coe.mpr (perm_append_singleton ident _)
  have hcard : (l.lst.view : Multiset String).card = l.num := by
    rw [Multiset.coe_card, Slice.length_view, hnum]
  rw [Lists.visit]
  split_ifs with hfull
  · refine ⟨rfl, ?_⟩
    rw [map_append, map_singleton, hview]
    exact hfilled.full ident (by rw [hcard, hfull])
  · refine ⟨congrArg (· + 1) hnum, ?_⟩
    rw [hview]
    exact hfilled.more ident (by rwa [hcard])

theorem batches_updateTimestamp (order : MapOrder String) (items : Finset String) :
    Batches 100 items ((updateTimestamp order items).map (↑)) := by
  have hinv : Lists.Inv (order.list items) ((order.list items).foldl Lists.visit {}) :=
    foldl_prefix_induction (I := Lists.Inv) _ ⟨rfl, ⟨rfl, by simp, by decide⟩⟩
      fun _ ident _ _ h => h.visit ident
  rw [updateTimestamp, map_append, map_singleton]
  exact hinv.2.batches

/-! ## The maps -/

/-- `models.HostUpdateTime`. -/
structure HostUpdateTime where
  updateTime : ℤ
  ident : String

abbrev Content := GoMap String HostUpdateTime

inductive WriteError
  | redisNil
  | afterRetries (retryCount : ℕ) (keys : List String)

/-- A call of `writeTargetTsInRedis`: its map, how often `MSet` was tried, and what it returned. -/
structure Write where
  content : Content
  tries : ℕ
  err : Option WriteError

/-- `models.WrapIdentUpdateTime`. -/
def wrapIdentUpdateTime (ident : String) : String := "n9e_meta_update_time_" ++ ident

/-- What is configured, in which order maps are met, and whether attempt `i` of write `w` fails. -/
structure Env where
  batchSize : ℕ
  retryCount : ℕ
  order : MapOrder String
  fails : ℕ → ℕ → Bool

namespace Env

/-- `writeTargetTsInRedis`, as write number `w`. -/
def writeTargetTsInRedis (e : Env) (w : ℕ) (content : Content) : Write :=
  match (range e.retryCount).find? fun i => !e.fails w i with
  | some i => ⟨content, i + 1, none⟩
  | none => ⟨content, e.retryCount, some (.afterRetries e.retryCount (e.order.list content.keys))⟩

/-- The variables of `updateTargetTsInRedis`, and the writes it made. -/
structure Maps where
  i : ℕ := 0
  batchMap : Content := ∅
  writes : List Write := []
  err : Option WriteError := none

/-- A write of the batch; of two errors the later one stays. -/
def flush (e : Env) (m : Maps) : Maps :=
  let w := e.writeTargetTsInRedis m.writes.length m.batchMap
  ⟨m.i, ∅, m.writes ++ [w], w.err <|> m.err⟩

/-- One turn of `updateTargetTsInRedis`. -/
def visit (e : Env) (newMap : Content) (m : Maps) (mapKey : String) : Maps :=
  let m' := { m with batchMap := (newMap.lookup mapKey).elim m.batchMap (m.batchMap.insert mapKey) }
  { if (m.i + 1) % e.batchSize = 0 then e.flush m' else m' with i := m.i + 1 }

/-- `updateTargetTsInRedis`: the writes, and the error. -/
def updateTargetTsInRedis (e : Env) (newMap : Content) : List Write × Option WriteError :=
  if newMap.keys.card = 0 then ([], none)
  else if newMap.keys.card ≤ e.batchSize then
    let w := e.writeTargetTsInRedis 0 newMap
    ([w], w.err)
  else
    let m := (e.order.list newMap.keys).foldl (e.visit newMap) {}
    let m' := if 0 < m.batchMap.keys.card then e.flush m else m
    (m'.writes, m'.err)

/-- `newMap` of `updateTargetsUpdateTs`. -/
def newMap (lst : List String) (now : ℤ) : Content :=
  lst.foldl (fun m ident => m.insert (wrapIdentUpdateTime ident) ⟨now, ident⟩) ∅

/-- `updateTargetsUpdateTs`, on a Redis that may be missing. -/
def updateTargetsUpdateTs (redis : Option Env) (lst : List String) (now : ℤ) :
    List Write × Option WriteError :=
  redis.elim ([], some .redisNil) fun e => e.updateTargetTsInRedis (newMap lst now)

theorem content_writeTargetTsInRedis (e : Env) (w : ℕ) (content : Content) :
    (e.writeTargetTsInRedis w content).content = content := by
  rw [writeTargetTsInRedis]
  split <;> rfl

/-- What `updateTargetTsInRedis` keeps. -/
def Inv (e : Env) (done : List String) (m : Maps) : Prop :=
  m.batchMap.keys.card = m.i % e.batchSize ∧
    Filled e.batchSize done (m.writes.map fun w => w.content.keys.val) m.batchMap.keys.val

theorem Inv.visit {e : Env} {newMap : Content} {done : List String} {m : Maps} {mapKey : String}
    (h : e.Inv done m) (hkey : mapKey ∈ newMap) (hnew : mapKey ∉ done) :
    e.Inv (done ++ [mapKey]) (e.visit newMap m mapKey) := by
  obtain ⟨hi, hfilled⟩ := h
  obtain ⟨v, hv⟩ := Finmap.mem_iff.mp hkey
  have hout : mapKey ∉ m.batchMap := by
    intro hin
    have hdone : mapKey ∈ (done : Multiset String) :=
      hfilled.sum ▸ Multiset.mem_add.mpr (.inr (Finmap.mem_keys.mpr hin))
    exact hnew hdone
  have hkeys : (m.batchMap.insert mapKey v).keys.val = mapKey ::ₘ m.batchMap.keys.val := by
    change (m.batchMap.insert mapKey v).entries.map _ = _
    rw [Finmap.entries_insert_of_notMem hout, Multiset.map_cons]
    rfl
  have hmod : (m.i + 1) % e.batchSize = (m.batchMap.keys.card + 1) % e.batchSize := by
    rw [hi, Nat.mod_add_mod]
  rw [Env.visit, hv, Option.elim_some, hmod]
  by_cases hfull : m.batchMap.keys.card + 1 = e.batchSize
  · rw [hfull, Nat.mod_self, if_pos rfl, flush]
    refine ⟨?_, ?_⟩
    · rw [hmod, hfull, Nat.mod_self]
      rfl
    · rw [map_append, map_singleton, content_writeTargetTsInRedis, hkeys]
      exact hfilled.full mapKey hfull
  · have hlt : m.batchMap.keys.card + 1 < e.batchSize := lt_of_le_of_ne hfilled.lt hfull
    rw [Nat.mod_eq_of_lt hlt, if_neg (Nat.succ_ne_zero _)]
    refine ⟨?_, ?_⟩
    · rw [hmod, Nat.mod_eq_of_lt hlt, Finset.card, hkeys, Multiset.card_cons]
      rfl
    · rw [hkeys]
      exact hfilled.more mapKey hfull

theorem batches_updateTargetTsInRedis (e : Env) (hbatch : 1 ≤ e.batchSize) (newMap : Content) :
    Batches e.batchSize newMap.keys
      ((e.updateTargetTsInRedis newMap).1.map fun w => w.content.keys.val) := by
  have hinv : e.Inv (e.order.list newMap.keys)
      ((e.order.list newMap.keys).foldl (e.visit newMap) {}) := by
    refine foldl_prefix_induction (I := e.Inv) _ ⟨(Nat.zero_mod _).symm, ⟨rfl, by simp, hbatch⟩⟩ ?_
    intro done mapKey m hprefix h
    have hmem := hprefix.subset (mem_append_right done (mem_singleton_self mapKey))
    have hnodup := (e.order.nodup newMap.keys).sublist hprefix.sublist
    exact h.visit ((e.order.mem_list_keys _ _).mp hmem)
      fun hdone => (nodup_append.mp hnodup).2.2 mapKey hdone mapKey (mem_singleton_self _) rfl
  rw [updateTargetTsInRedis]
  split_ifs with hempty hone
  · rw [Finset.card_eq_zero.mp hempty]
    exact ⟨rfl, by simp⟩
  · rw [map_singleton, content_writeTargetTsInRedis]
    exact ⟨sum_singleton, by simpa using hone⟩
  · dsimp only
    split_ifs with hlast
    · rw [flush, map_append, map_singleton, content_writeTargetTsInRedis]
      exact hinv.2.batches
    · exact hinv.2.batches_of_empty (Finset.card_eq_zero.mp (Nat.eq_zero_of_not_pos hlast) ▸ rfl)

theorem keys_newMap (lst : List String) (now : ℤ) :
    (newMap lst now).keys = (lst.map wrapIdentUpdateTime).toFinset := by
  ext key
  rw [Finmap.mem_keys, newMap, GoMap.mem_foldl_insert wrapIdentUpdateTime]
  simp [Finmap.notMem_empty]

end Env

/-! ## Both -/

/-- **Every host once.**  Whatever was collected since the last `persist`, the lists handed to
`UpdateTargets` are batches of it; and whatever list `updateTargetsUpdateTs` is given and whichever
writes fail, the maps written are batches of its keys. -/
theorem heartbeats_batched (order : MapOrder String) (collected : List (Finset String)) (e : Env)
    (hbatch : 1 ≤ e.batchSize) :
    Batches 100 (collected.foldl mSet ∅) ((persist order (collected.foldl mSet ∅)).1.map (↑)) ∧
    ∀ lst now, Batches e.batchSize (lst.map wrapIdentUpdateTime).toFinset
      ((Env.updateTargetsUpdateTs (some e) lst now).1.map fun w => w.content.keys.val) := by
  constructor
  · rw [persist]
    split_ifs with hempty
    · rw [hempty]
      exact ⟨rfl, by simp⟩
    · exact batches_updateTimestamp order _
  · intro lst now
    rw [← Env.keys_newMap lst now]
    exact e.batches_updateTargetTsInRedis hbatch _

/-- Maps of two, to a Redis that fails. -/
def Example.failing : Env := ⟨2, 3, .sortBy fun a b => a ≤ b, fun _ _ => true⟩

theorem Example.heartbeats_batched_failing : 1 ≤ Example.failing.batchSize ∧
    Batches 2 (["a", "b", "c"].map wrapIdentUpdateTime).toFinset
      ((Env.updateTargetsUpdateTs (some Example.failing) ["a", "b", "c"] 7).1.map
        fun w => w.content.keys.val) :=
  ⟨by decide, (heartbeats_batched Example.failing.order [{"a", "b"}, {"b", "c"}] Example.failing
    (by decide)).2 _ 7⟩

end Nightingale.Idents
