import Nightingale.Eval.Series

/-!
# Eval/Joins — a trigger's joins as a fold

`ProcessJoins` keeps its running result twice: flat, and regrouped by labels.  A join on labels
reads and writes the regrouped one and flattens it, every other join works on the flat one alone.

    last          A ── original / none / cartesian ──▸ …          ▴ flatten
    lastRehashed  A by Joins[0].On ── inner / left / right / exclude ──▸ …

What the joins should come to is a left fold: each takes the result so far and the groups of its own
query, and matches them by its own labels, a group by those of its first series (`joinAll`).  The
code does that where a join on labels has the labels of the first join and no flat join before it,
and an `original` join only such before it (`processJoins_of_steady`): the regrouped result is
computed once, with the labels of the first join, and no flat join renews it.
-/

namespace Nightingale.Eval

open HashJoin List Option Finmap Multiset GoMap

/-! ## What the joins should come to -/

namespace JoinType

/-- The join matches groups by labels. -/
def onLabels : JoinType → Bool
  | .innerJoin | .leftJoin | .rightJoin | .leftExclude | .rightExclude => true
  | _ => false

/-- The join works on the flat result alone. -/
def flat : JoinType → Bool
  | .original | .none | .cartesian => true
  | _ => false

/-- The join counts the groups of its result. -/
def counts : JoinType → Bool
  | .original | .other _ => false
  | _ => true

end JoinType

section Spec

variable (store : Store)

/-- The labels a group is matched by: those of its first series. -/
def onKey (on : List String) (members : List ℕ) : Option (List String) :=
  (firstSeries store members).map fun series => on.map series.metric.get

/-- All the labels of a group's first series but its name. -/
def tagKey (members : List ℕ) : Option (List (String × String)) :=
  (firstSeries store members).map fun series => series.metric.tags

/-- The groups of an index. -/
def groupsOf (index : TagIndex) : Multiset (List ℕ) := (GoMap.contents index).map Group.members

/-- One join: the result so far and the groups of the join's query, matched by the join's own
labels.  A type that is not known changes nothing. -/
def joinOne (prev : Multiset (List ℕ)) (join : Join) (cur : Multiset (List ℕ)) :
    Multiset (List ℕ) :=
  match join.joinType with
  | .original => outer (tagKey store) (· ++ ·) prev cur
  | .none => prev + cur
  | .cartesian => cross (· ++ ·) prev cur
  | .innerJoin => HashJoin.inner (onKey store join.on) (· ++ ·) prev cur
  | .leftJoin => left (onKey store join.on) (· ++ ·) prev cur
  | .rightJoin => left (onKey store join.on) (· ++ ·) cur prev
  | .leftExclude => HashJoin.exclude (onKey store join.on) prev cur
  | .rightExclude => HashJoin.exclude (onKey store join.on) cur prev
  | .other _ => prev

/-- **The joins of a trigger, from left to right over its first query.**  A trigger with more joins
than there are queries left to join is refused. -/
def joinAll (trigger : Trigger) (indexes : Indexes) : Multiset (List ℕ) :=
  let groups (ref : String) := groupsOf ((indexes.lookup ref).getD ∅)
  if indexes.keys.card < trigger.joins.length + 1 then 0
  else trigger.joins.foldl (fun prev join => joinOne store prev join (groups join.ref))
    (groups trigger.joinRef)

end Spec

/-- The hash functions tell the series apart: their labels and names, their tags, and the labels
the joins match by. -/
structure Injective (sum64 : String → ℕ) (series : List DataResp) (joins : List Join) : Prop where
  hash : ∀ s ∈ series, ∀ s' ∈ series,
    getHash sum64 s.metric s.ref = getHash sum64 s'.metric s'.ref → s.metric = s'.metric
  tagHash : ∀ s ∈ series, ∀ s' ∈ series,
    getTagHash sum64 s.metric = getTagHash sum64 s'.metric → s.metric.tags = s'.metric.tags
  targetTagHash : ∀ join ∈ joins, ∀ s ∈ series, ∀ s' ∈ series,
    getTargetTagHash sum64 s.metric join.on = getTargetTagHash sum64 s'.metric join.on →
      join.on.map s.metric.get = join.on.map s'.metric.get

/-- **Every join on labels has the labels of the first join and no flat join before it, and no
`original` join comes after a join that counts its groups.** -/
def Steady (joins : List Join) : Prop :=
  (∀ first ∈ joins.head?, ∀ join ∈ joins, join.joinType.onLabels → join.on = first.on) ∧
    joins.Pairwise fun earlier join =>
      (join.joinType.onLabels → ¬ earlier.joinType.flat) ∧
        (join.joinType = .original → ¬ earlier.joinType.counts)

instance (joins : List Join) : Decidable (Steady joins) := inferInstanceAs (Decidable (_ ∧ _))

/-! ## The store and the indexes -/

section Collect

variable {sum64 : String → ℕ}

/-- The store holds series of the list, each under its hash. -/
def Entered (sum64 : String → ℕ) (all : List DataResp) (store : Store) : Prop :=
  ∀ h s, store.lookup h = some s → s ∈ all ∧ getHash sum64 s.metric s.ref = h

/-- The groups of an index are not empty, and every member is a series of its tags. -/
def Indexed (sum64 : String → ℕ) (all : List DataResp) (store : Store) (index : TagIndex) :
    Prop :=
  ∀ tag g, index.lookup tag = some g → g.members ≠ [] ∧ ∀ h ∈ g.members, h ∈ store ∧
    ∃ s ∈ all, getHash sum64 s.metric s.ref = h ∧ getTagHash sum64 s.metric = tag

variable {all : List DataResp} {store store' : Store} {index : TagIndex} {indexes : Indexes}

theorem Indexed.mono (h : Indexed sum64 all store index) (hsub : ∀ k, k ∈ store → k ∈ store') :
    Indexed sum64 all store' index := by
  intro tag g hg
  obtain ⟨hne, hmem⟩ := h tag g hg
  refine ⟨hne, fun m hm => ?_⟩
  obtain ⟨hstore, hs⟩ := hmem m hm
  exact ⟨hsub m hstore, hs⟩

theorem addSeries_keeps (ref : Option String) {d : DataResp} (hd : d ∈ all)
    (hstore : Entered sum64 all store) (hindex : Indexed sum64 all store index) :
    Entered sum64 all (addSeries sum64 ref (store, index) d).1 ∧
      Indexed sum64 all (addSeries sum64 ref (store, index) d).1
        (addSeries sum64 ref (store, index) d).2 ∧
      ∀ k ∈ store, k ∈ (addSeries sum64 ref (store, index) d).1 := by
  have hsub : ∀ k ∈ store, k ∈ store.insert (getHash sum64 d.metric d.ref) d :=
    fun k hk => mem_insert.mpr (.inr hk)
  refine ⟨forall_lookup_insert ⟨hd, rfl⟩ hstore,
    forall_lookup_insert ⟨by simp, ?_⟩ (hindex.mono hsub), hsub⟩
  intro h hh
  rcases mem_append.mp hh with hh | hh
  · cases hk : index.lookup (getTagHash sum64 d.metric) with
    | none => simp [hk] at hh
    | some g =>
      rw [hk] at hh
      exact (hindex.mono hsub _ g hk).2 h hh
  · rw [List.mem_singleton.mp hh]
    exact ⟨mem_insert.mpr (.inl rfl), d, hd, rfl, rfl⟩

theorem foldl_addSeries_keeps (ref : Option String) {series : List DataResp}
    (hseries : ∀ d ∈ series, d ∈ all) (hstore : Entered sum64 all store)
    (hindex : Indexed sum64 all store index) :
    Entered sum64 all (series.foldl (addSeries sum64 ref) (store, index)).1 ∧
      Indexed sum64 all (series.foldl (addSeries sum64 ref) (store, index)).1
        (series.foldl (addSeries sum64 ref) (store, index)).2 ∧
      ∀ k ∈ store, k ∈ (series.foldl (addSeries sum64 ref) (store, index)).1 := by
  refine foldlRecOn (motive := fun acc : Store × TagIndex => Entered sum64 all acc.1 ∧
    Indexed sum64 all acc.1 acc.2 ∧ ∀ k ∈ store, k ∈ acc.1) series _
    ⟨hstore, hindex, fun k hk => hk⟩ ?_
  rintro acc ⟨hstore', hindex', hsub⟩ d hd
  obtain ⟨hstore'', hindex'', hsub'⟩ := addSeries_keeps ref (hseries d hd) hstore' hindex'
  exact ⟨hstore'', hindex'', fun k hk => hsub' k (hsub k hk)⟩

theorem addQuery_keeps {answer : Query × List DataResp} (hanswer : ∀ d ∈ answer.2, d ∈ all)
    (hstore : Entered sum64 all store)
    (hindexes : ∀ ref index, indexes.lookup ref = some index → Indexed sum64 all store index) :
    Entered sum64 all (addQuery sum64 (store, indexes) answer).1 ∧
      ∀ ref index, (addQuery sum64 (store, indexes) answer).2.lookup ref = some index →
        Indexed sum64 all (addQuery sum64 (store, indexes) answer).1 index := by
  have hempty : Indexed sum64 all store ∅ := fun tag g hg => by simp at hg
  obtain ⟨hstore', hindex', hsub⟩ := foldl_addSeries_keeps answer.1.ref hanswer hstore hempty
  refine ⟨hstore', fun ref index hlook => ?_⟩
  have hold : ∀ ref index, indexes.lookup ref = some index →
      Indexed sum64 all (addQuery sum64 (store, indexes) answer).1 index :=
    fun ref index hk => (hindexes ref index hk).mono hsub
  rw [addQuery] at hlook
  cases hr : answer.1.ref with
  | none =>
    simp only [hr, elim_none] at hlook
    exact hold ref index hlook
  | some r =>
    simp only [hr, elim_some] at hlook
    rw [← hr] at hlook
    exact forall_lookup_insert
      (P := fun _ index => Indexed sum64 all (addQuery sum64 (store, indexes) answer).1 index)
      hindex' hold ref index hlook

/-- **What the queries are entered as**: series under their hashes, and groups of one tag each. -/
theorem collect_keeps (answers : List (Query × List DataResp)) :
    Entered sum64 (answers.flatMap (·.2)) (collect sum64 answers).1 ∧
      ∀ ref index, (collect sum64 answers).2.lookup ref = some index →
        Indexed sum64 (answers.flatMap (·.2)) (collect sum64 answers).1 index := by
  refine foldlRecOn (motive := fun acc : Store × Indexes =>
    Entered sum64 (answers.flatMap (·.2)) acc.1 ∧ ∀ ref index, acc.2.lookup ref = some index →
      Indexed sum64 (answers.flatMap (·.2)) acc.1 index) answers _ ⟨?_, ?_⟩ ?_
  · intro h s hs
    simp at hs
  · intro ref index hk
    simp at hk
  · rintro acc ⟨hstore, hindexes⟩ answer ha
    exact addQuery_keeps (fun d hd => mem_flatMap.mpr ⟨answer, ha, hd⟩) hstore hindexes

end Collect

/-! ## Groups and their first series -/

section Groups

variable {sum64 : String → ℕ} {all : List DataResp} {store : Store} {on : List String}
  {s t : Multiset (List ℕ)}

/-- Every group has a first series. -/
def Grounded (store : Store) (s : Multiset (List ℕ)) : Prop :=
  ∀ g ∈ s, firstSeries store g ≠ none

theorem firstSeries_append {g : List ℕ} (hg : firstSeries store g ≠ none) (g' : List ℕ) :
    firstSeries store (g ++ g') = firstSeries store g := by
  cases g with
  | nil => exact absurd rfl hg
  | cons h g => rfl

theorem Grounded.append {g g' : List ℕ} (hs : Grounded store s) (hg : g ∈ s) :
    firstSeries store (g ++ g') ≠ none := firstSeries_append (hs g hg) g' ▸ hs g hg

theorem Grounded.add (hs : Grounded store s) (ht : Grounded store t) : Grounded store (s + t) :=
  fun g hg => (mem_add.mp hg).elim (hs g) (ht g)

theorem Grounded.cross (hs : Grounded store s) (t : Multiset (List ℕ)) :
    Grounded store (cross (· ++ ·) s t) := by
  intro g hg
  obtain ⟨a, ha, hg⟩ := mem_bind.mp hg
  obtain ⟨b, -, rfl⟩ := mem_map.mp hg
  exact hs.append ha

variable {κ : Type*} [DecidableEq κ] {key : List ℕ → κ}

section

variable (hs : Grounded store s) (t : Multiset (List ℕ))

include hs

theorem Grounded.inner : Grounded store (HashJoin.inner key (· ++ ·) s t) := by
  intro g hg
  obtain ⟨a, ha, hg⟩ := mem_bind.mp hg
  obtain ⟨b, -, rfl⟩ := mem_map.mp hg
  exact hs.append ha

theorem Grounded.exclude : Grounded store (HashJoin.exclude key s t) :=
  fun g hg => hs g (mem_of_mem_filter hg)

theorem Grounded.left : Grounded store (left key (· ++ ·) s t) := by
  rw [left_eq_inner_add]
  exact (hs.inner t).add (hs.exclude t)

end

theorem Grounded.joinOne (hs : Grounded store s) (ht : Grounded store t) (join : Join) :
    Grounded store (joinOne store s join t) := by
  rw [Eval.joinOne]
  cases join.joinType with
  | original => exact (hs.left t).add (ht.exclude s)
  | none => exact hs.add ht
  | cartesian => exact hs.cross t
  | innerJoin => exact hs.inner t
  | leftJoin => exact hs.left t
  | rightJoin => exact ht.left s
  | leftExclude => exact hs.exclude t
  | rightExclude => exact ht.exclude s
  | other name => exact hs

/-! ### Hashes of groups -/

/-- The hash `rehashSet` files a group under. -/
def hashKey (sum64 : String → ℕ) (store : Store) (on : List String) (members : List ℕ) :
    Option ℕ :=
  (firstSeries store members).map fun series => getTargetTagHash sum64 series.metric on

/-- The hash of a group's tags. -/
def tagHashKey (sum64 : String → ℕ) (store : Store) (members : List ℕ) : Option ℕ :=
  (firstSeries store members).map fun series => getTagHash sum64 series.metric

theorem hashKey_append (hs : Grounded store s) : ∀ a ∈ s, ∀ b : List ℕ,
    hashKey sum64 store on (a ++ b) = hashKey sum64 store on a := by
  intro a ha b
  rw [hashKey, hashKey, firstSeries_append (hs a ha)]

theorem tagHashKey_append (hs : Grounded store s) : ∀ a ∈ s, ∀ b : List ℕ,
    tagHashKey sum64 store (a ++ b) = tagHashKey sum64 store a := by
  intro a ha b
  rw [tagHashKey, tagHashKey, firstSeries_append (hs a ha)]

theorem Grounded.exists_first (hs : Grounded store s) (hstore : Entered sum64 all store)
    {a : List ℕ} (ha : a ∈ s) : ∃ series ∈ all, firstSeries store a = some series := by
  obtain ⟨series, hfirst⟩ := ne_none_iff_exists'.mp (hs a ha)
  obtain ⟨h, -, hh⟩ := bind_eq_some_iff.mp hfirst
  exact ⟨series, (hstore h series hh).1, hfirst⟩

variable {joins : List Join}

/-- Groups have one hash exactly if they have the labels in common. -/
theorem hashKey_eq_iff (hinj : Injective sum64 all joins) (hstore : Entered sum64 all store)
    {join : Join} (hjoin : join ∈ joins) (hs : Grounded store s) (ht : Grounded store t) :
    ∀ a ∈ s, ∀ b ∈ t, hashKey sum64 store join.on b = hashKey sum64 store join.on a
      ↔ onKey store join.on b = onKey store join.on a := by
  intro a ha b hb
  obtain ⟨x, hx, hxa⟩ := hs.exists_first hstore ha
  obtain ⟨y, hy, hyb⟩ := ht.exists_first hstore hb
  simp only [hashKey, onKey, hxa, hyb, map_some, some_inj]
  constructor
  · exact hinj.targetTagHash join hjoin y hy x hx
  · intro h
    have hpairs : join.on.map (fun k => (k, y.metric.get k))
        = join.on.map fun k => (k, x.metric.get k) :=
      map_congr_left fun k hk => by rw [map_inj_left.mp h k hk]
    rw [getTargetTagHash, hpairs, getTargetTagHash]

/-- Groups have one tag hash exactly if they have the tags in common. -/
theorem tagHashKey_eq_iff (hinj : Injective sum64 all joins) (hstore : Entered sum64 all store)
    (hs : Grounded store s) (ht : Grounded store t) :
    ∀ a ∈ s, ∀ b ∈ t, tagHashKey sum64 store b = tagHashKey sum64 store a
      ↔ tagKey store b = tagKey store a := by
  intro a ha b hb
  obtain ⟨x, hx, hxa⟩ := hs.exists_first hstore ha
  obtain ⟨y, hy, hyb⟩ := ht.exists_first hstore hb
  simp only [tagHashKey, tagKey, hxa, hyb, map_some, some_inj]
  constructor
  · exact hinj.tagHash y hy x hx
  · intro h
    rw [getTagHash, h, getTagHash]

end Groups

/-! ## The maps of the code -/

section Maps

variable {sum64 : String → ℕ} {all : List DataResp} {store : Store} {index : TagIndex}
  {joins : List Join}

theorem groupsOf_number (l : List Group) : groupsOf (GoMap.number l) = ↑(l.map Group.members) := by
  rw [groupsOf, contents_number, Multiset.map_coe]

theorem coe_map_values (order : MapOrder ℕ) (index : TagIndex) :
    ((order.values index).map Group.members : Multiset (List ℕ)) = groupsOf index := by
  rw [groupsOf, ← coe_values order, Multiset.map_coe]

theorem members_merge (g g' : Group) :
    (mergeNewArray [g, g']).members = g.members ++ g'.members := by simp [mergeNewArray]

/-- The groups of an index of the evaluation have a first series. -/
theorem Indexed.grounded (h : Indexed sum64 all store index) : Grounded store (groupsOf index) := by
  intro a ha
  obtain ⟨g, hg, rfl⟩ := mem_map.mp ha
  obtain ⟨tag, htag⟩ := mem_contents.mp hg
  obtain ⟨hne, hmem⟩ := h tag g htag
  obtain ⟨m, rest, hm⟩ := exists_cons_of_ne_nil hne
  have hstore := (hmem m (hm ▸ mem_cons_self)).1
  rw [hm]
  exact ne_none_iff_isSome.mpr (lookup_isSome.mpr hstore)

/-- A group of an index is under the hash of its tags. -/
theorem Indexed.keyed (h : Indexed sum64 all store index) (hinj : Injective sum64 all joins)
    (hstore : Entered sum64 all store) : Keyed (tagHashKey sum64 store) Group.members index := by
  intro tag g htag
  obtain ⟨hne, hmem⟩ := h tag g htag
  obtain ⟨m, rest, hm⟩ := exists_cons_of_ne_nil hne
  obtain ⟨hin, s, hs, hhash, htags⟩ := hmem m (hm ▸ mem_cons_self)
  obtain ⟨s', hs'⟩ := mem_iff.mp hin
  obtain ⟨hmem', hhash'⟩ := hstore m s' hs'
  have hmetric := hinj.hash s' hmem' s hs (hhash'.trans hhash.symm)
  have hfirst : firstSeries store g.members = some s' := by rw [hm]; exact hs'
  rw [tagHashKey, hfirst, map_some, hmetric, htags]

/-- What is filed are the groups with a first series. -/
theorem files_rehashSet (order : MapOrder ℕ) (on : List String) :
    Files (hashKey sum64 store on) Group.members (rehashSet sum64 order index store on)
      ((groupsOf index).filter fun g => hashKey sum64 store on g ≠ none) := by
  rw [← coe_map_values order]
  exact Files.fileUnder (order.values index)

theorem Grounded.files_rehashSet (hg : Grounded store (groupsOf index)) (order : MapOrder ℕ)
    (on : List String) :
    Files (hashKey sum64 store on) Group.members (rehashSet sum64 order index store on)
      (groupsOf index) := by
  have hall : (groupsOf index).filter (fun g => hashKey sum64 store on g ≠ none) = groupsOf index :=
    filter_eq_self.mpr fun g hmem => by simpa [hashKey] using hg g hmem
  exact hall ▸ Eval.files_rehashSet order on

theorem groupsOf_flatten {key : List ℕ → Option ℕ} {rehashed : Rehashed} {s : Multiset (List ℕ)}
    (h : Files key Group.members rehashed s) (order : MapOrder ℕ) :
    groupsOf (flatten order rehashed) = s := by
  rw [flatten, groupsOf_number]
  exact h.flatten order

section OnJoin

variable {order : MapOrder ℕ} {R R' : Rehashed} {l l' : List Group} {k : ℕ} {b : Bool}

theorem lookup_onJoin_both (hk : R.lookup k = some l) (hk' : R'.lookup k = some l')
    (hne : mergePairs l l' ≠ []) : (onJoin order R R' b).lookup k = some (mergePairs l l') := by
  have hmem : k ∈ R := mem_iff.mpr ⟨l, hk⟩
  rw [onJoin, lookup_build, if_pos (mem_keys.mpr hmem), hk, hk']
  exact if_neg hne

theorem lookup_onJoin_of_none (hk : R.lookup k = none) : (onJoin order R R' b).lookup k = none := by
  rw [onJoin, lookup_build, if_neg]
  rw [Finmap.mem_keys]
  exact Finmap.lookup_eq_none.mp hk

theorem lookup_onJoin_inner (hk' : R'.lookup k = none) :
    (onJoin order R R' true).lookup k = none := by
  rw [onJoin, lookup_build]
  cases hk : R.lookup k <;> simp [hk']

theorem lookup_exclude :
    (Eval.exclude order R R').lookup k = if k ∈ R' then none else R.lookup k := by
  rw [Eval.exclude, lookup_build]
  by_cases hk : k ∈ R
  · rw [if_pos (mem_keys.mpr hk)]
  · rw [if_neg (fun h => hk (mem_keys.mp h)), lookup_eq_none.mpr hk, ite_self]

variable {key : List ℕ → Option ℕ} {s t : Multiset (List ℕ)}
  (hR : Files key Group.members R s) (hR' : Files key Group.members R' t)

include hR hR'

theorem files_onJoin_inner (hmerge : ∀ a ∈ s, ∀ b, key (a ++ b) = key a) :
    Files key Group.members (onJoin order R R' true) (HashJoin.inner key (· ++ ·) s t) :=
  hR.inner hR' members_merge hmerge
    (fun k l l' hk hk' => lookup_onJoin_both hk hk'
      (Files.pairs_ne_nil (hR.ne_nil k l hk) (hR'.ne_nil k l' hk')))
    fun _ h => h.elim lookup_onJoin_of_none lookup_onJoin_inner

theorem files_exclude :
    Files key Group.members (Eval.exclude order R R') (HashJoin.exclude key s t) :=
  hR.exclude hR' fun _ => lookup_exclude

/-- A left join is the inner one and, under the other keys, what has no partner. -/
theorem files_onJoin_left (hmerge : ∀ a ∈ s, ∀ b, key (a ++ b) = key a) :
    Files key Group.members (onJoin order R R' false) (left key (· ++ ·) s t) := by
  have hinner : Files key Group.members (onJoin order R R' true) _ :=
    files_onJoin_inner hR hR' hmerge
  have hexclude : Files key Group.members (Eval.exclude order R R') _ := files_exclude hR hR'
  rw [left_eq_inner_add]
  refine hinner.add hexclude (fun k => ?_) fun k => ?_
  · by_cases hk' : k ∈ R'
    · exact .inr (by rw [lookup_exclude, if_pos hk'])
    · exact .inl (lookup_onJoin_inner (lookup_eq_none.mpr hk'))
  · simp only [onJoin, Eval.exclude, lookup_build]
    cases hk : R.lookup k <;> cases hk' : R'.lookup k <;> simp [mem_iff, hk']

end OnJoin

theorem groupsOf_noneJoin (o₁ o₂ : MapOrder ℕ) (index₁ index₂ : TagIndex) :
    groupsOf (noneJoin o₁ o₂ index₁ index₂) = groupsOf index₁ + groupsOf index₂ := by
  rw [noneJoin, groupsOf_number, map_append, ← coe_add, coe_map_values, coe_map_values]

theorem groupsOf_cartesianJoin (o : MapOrder ℕ) (inner : ℕ → MapOrder ℕ)
    (index₁ index₂ : TagIndex) : groupsOf (cartesianJoin o inner index₁ index₂)
      = cross (· ++ ·) (groupsOf index₁) (groupsOf index₂) := by
  have hrow : ∀ (l : List Group) (i : ℕ), (((l.zipIdx i).flatMap fun g =>
      ((inner g.2).values index₂).map fun g' => mergeNewArray [g.1, g']).map Group.members :
        Multiset (List ℕ)) = cross (· ++ ·) ↑(l.map Group.members) (groupsOf index₂) := by
    intro l
    induction l with
    | nil => exact fun _ => rfl
    | cons g l ih =>
      intro i
      have hmap : (((inner i).values index₂).map fun g' => mergeNewArray [g, g']).map Group.members
          = (((inner i).values index₂).map Group.members).map (g.members ++ ·) := by
        simp [members_merge, Function.comp_def]
      rw [zipIdx_cons, flatMap_cons, map_append, ← coe_add, ih, hmap, ← Multiset.map_coe,
        coe_map_values, List.map_cons, ← cons_coe, cross, cross, cons_bind]
  rw [cartesianJoin, groupsOf_number, hrow, coe_map_values]

theorem lookup_originalJoin (o : MapOrder ℕ) (index₁ index₂ : TagIndex) (k : ℕ) :
    ((originalJoin o index₁ index₂).lookup k).map Group.members
      = merge (· ++ ·) ((index₁.lookup k).map Group.members)
        ((index₂.lookup k).map Group.members) := by
  rw [originalJoin, lookup_build]
  by_cases hk : k ∈ index₁.keys ∪ index₂.keys
  · rw [if_pos hk]
    cases index₁.lookup k <;> cases index₂.lookup k <;> simp [mergeNewArray]
  · rw [if_neg hk]
    rw [Finset.mem_union, not_or, Finmap.mem_keys, Finmap.mem_keys] at hk
    rw [lookup_eq_none.mpr hk.1, lookup_eq_none.mpr hk.2]
    rfl

theorem keyed_originalJoin {o : MapOrder ℕ} {index₁ index₂ : TagIndex}
    (h₁ : Keyed (tagHashKey sum64 store) Group.members index₁)
    (h₂ : Keyed (tagHashKey sum64 store) Group.members index₂)
    (hg : Grounded store (groupsOf index₁)) :
    Keyed (tagHashKey sum64 store) Group.members (originalJoin o index₁ index₂) := by
  intro k g hk
  have hlook := lookup_originalJoin o index₁ index₂ k
  rw [hk, map_some] at hlook
  cases hk₁ : index₁.lookup k with
  | none =>
    cases hk₂ : index₂.lookup k with
    | none => simp [hk₁, hk₂] at hlook
    | some g₂ =>
      simp only [hk₁, hk₂, map_none, map_some, merge_none_left, some_inj] at hlook
      rw [hlook]
      exact h₂ k g₂ hk₂
  | some g₁ =>
    have hin : g₁.members ∈ groupsOf index₁ := mem_map_of_mem _ (mem_contents.mpr ⟨k, hk₁⟩)
    cases hk₂ : index₂.lookup k with
    | none =>
      simp only [hk₁, hk₂, map_none, map_some, merge_none_right, some_inj] at hlook
      rw [hlook]
      exact h₁ k g₁ hk₁
    | some g₂ =>
      simp only [hk₁, hk₂, map_some, merge_some_some, some_inj] at hlook
      rw [hlook, tagHashKey_append hg _ hin]
      exact h₁ k g₁ hk₁

end Maps

/-! ## One join -/

/-- **The running result of the code follows the fold.**  The flat result has its groups; while no
flat join was made the regrouped one files them, and while none was counted they are under their
tags. -/
structure Follows (sum64 : String → ℕ) (store : Store) (on : List String) (regrouped tagged : Prop)
    (acc : Joined) (s : Multiset (List ℕ)) : Prop where
  groups : groupsOf acc.last = s
  grounded : Grounded store s
  files : regrouped → Files (hashKey sum64 store on) Group.members acc.lastRehashed s
  keyed : tagged → Keyed (tagHashKey sum64 store) Group.members acc.last

theorem follows_flatten {sum64 : String → ℕ} {store : Store} {on : List String} {p q : Prop}
    {t : Multiset (List ℕ)} {rehashed : Rehashed}
    (hfiles : Files (hashKey sum64 store on) Group.members rehashed t) (hg : Grounded store t)
    (hq : ¬ q) (order : MapOrder ℕ) :
    Follows sum64 store on p q ⟨flatten order rehashed, rehashed⟩ t where
  groups := groupsOf_flatten hfiles order
  grounded := hg
  files _ := hfiles
  keyed h := absurd h hq

section Step

variable {sum64 : String → ℕ} {all : List DataResp} {store : Store} {indexes : Indexes}
  {joins : List Join} {join : Join} {on : List String} {p q : Prop} {acc : Joined}
  {s : Multiset (List ℕ)} {order : ℕ → MapOrder ℕ}

/-- A join on labels follows the fold, if the regrouped result does. -/
theorem Follows.processJoin_onLabels (hinj : Injective sum64 all joins)
    (hstore : Entered sum64 all store) (hjoin : join ∈ joins)
    (hcur : Grounded store (groupsOf ((indexes.lookup join.ref).getD ∅)))
    (h : Follows sum64 store join.on p q acc s) (hp : p) (htype : join.joinType.onLabels) :
    Follows sum64 store join.on (p ∧ ¬ join.joinType.flat) (q ∧ ¬ join.joinType.counts)
      (processJoin sum64 order indexes store acc join)
      (joinOne store s join (groupsOf ((indexes.lookup join.ref).getD ∅))) := by
  have hground := h.grounded.joinOne hcur join
  have hlast := h.files hp
  have hrehash : Files (hashKey sum64 store join.on) _ _ _ := hcur.files_rehashSet (order 0) join.on
  have hst := hashKey_eq_iff hinj hstore hjoin h.grounded hcur
  have hts := hashKey_eq_iff hinj hstore hjoin hcur h.grounded
  cases ht : join.joinType with
  | innerJoin =>
    simp only [joinOne, ht, processJoin] at hground ⊢
    rw [← inner_congr hst] at hground ⊢
    exact follows_flatten (files_onJoin_inner hlast hrehash (hashKey_append h.grounded)) hground
      (fun h => h.2 rfl) _
  | leftJoin =>
    simp only [joinOne, ht, processJoin] at hground ⊢
    rw [← left_congr hst] at hground ⊢
    exact follows_flatten (files_onJoin_left hlast hrehash (hashKey_append h.grounded)) hground
      (fun h => h.2 rfl) _
  | rightJoin =>
    simp only [joinOne, ht, processJoin] at hground ⊢
    rw [← left_congr hts] at hground ⊢
    exact follows_flatten (files_onJoin_left hrehash hlast (hashKey_append hcur)) hground
      (fun h => h.2 rfl) _
  | leftExclude =>
    simp only [joinOne, ht, processJoin] at hground ⊢
    rw [← exclude_congr hst] at hground ⊢
    exact follows_flatten (files_exclude hlast hrehash) hground (fun h => h.2 rfl) _
  | rightExclude =>
    simp only [joinOne, ht, processJoin] at hground ⊢
    rw [← exclude_congr hts] at hground ⊢
    exact follows_flatten (files_exclude hrehash hlast) hground (fun h => h.2 rfl) _
  | original | none | cartesian | other name => simp [ht, JoinType.onLabels] at htype

/-- **One join of the code is one join of the fold**, if what the join reads is up to date: a join
on labels the regrouped result, an `original` join the tags. -/
theorem Follows.processJoin (hinj : Injective sum64 all joins) (hstore : Entered sum64 all store)
    (hindexes : ∀ ref index, indexes.lookup ref = some index → Indexed sum64 all store index)
    (hjoin : join ∈ joins) (h : Follows sum64 store on p q acc s)
    (hon : join.joinType.onLabels → p ∧ join.on = on) (htag : join.joinType = .original → q) :
    Follows sum64 store on (p ∧ ¬ join.joinType.flat) (q ∧ ¬ join.joinType.counts)
      (processJoin sum64 order indexes store acc join)
      (joinOne store s join (groupsOf ((indexes.lookup join.ref).getD ∅))) := by
  have hcur : Indexed sum64 all store ((indexes.lookup join.ref).getD ∅) := by
    cases hl : indexes.lookup join.ref with
    | none => exact fun tag g hg => by simp at hg
    | some index => exact hindexes join.ref index hl
  by_cases htype : join.joinType.onLabels
  · obtain ⟨hp, rfl⟩ := hon htype
    exact h.processJoin_onLabels hinj hstore hjoin hcur.grounded hp htype
  have hground := h.grounded.joinOne hcur.grounded join
  cases ht : join.joinType with
  | original =>
    have hkeyed := h.keyed (htag ht)
    have hgroups : Grounded store (groupsOf acc.last) := h.groups ▸ h.grounded
    have hkeyed' := hcur.keyed hinj hstore
    have hjoined := @keyed_originalJoin sum64 store (order 0) _ _ hkeyed hkeyed' hgroups
    simp only [joinOne, ht, Eval.processJoin] at hground ⊢
    refine ⟨?_, hground, fun hf => absurd rfl hf.2, fun _ => hjoined⟩
    rw [← outer_congr (tagHashKey_eq_iff hinj hstore h.grounded hcur.grounded), ← h.groups]
    exact hkeyed.contents_outer hkeyed' hjoined (tagHashKey_append hgroups)
      (lookup_originalJoin (order 0) _ _)
  | none =>
    simp only [joinOne, ht, Eval.processJoin] at hground ⊢
    refine ⟨?_, hground, fun hf => absurd rfl hf.2, fun hf => absurd rfl hf.2⟩
    rw [groupsOf_noneJoin, h.groups]
  | cartesian =>
    simp only [joinOne, ht, Eval.processJoin] at hground ⊢
    refine ⟨?_, hground, fun hf => absurd rfl hf.2, fun hf => absurd rfl hf.2⟩
    rw [groupsOf_cartesianJoin, h.groups]
  | other name =>
    simp only [joinOne, ht, Eval.processJoin]
    exact ⟨h.groups, h.grounded, fun hf => h.files hf.1, fun hf => h.keyed hf.1⟩
  | innerJoin | leftJoin | rightJoin | leftExclude | rightExclude =>
    exact absurd (by rw [ht]; rfl) htype

/-! ## All joins -/

/-- The joins of a list that is steady after what was done before follow the fold. -/
theorem Follows.foldl (hinj : Injective sum64 all joins) (hstore : Entered sum64 all store)
    (hindexes : ∀ ref index, indexes.lookup ref = some index → Indexed sum64 all store index)
    (o : ℕ → ℕ → MapOrder ℕ) (l : List Join) (n : ℕ) (hl : ∀ join ∈ l, join ∈ joins)
    (hon : ∀ join ∈ l, join.joinType.onLabels → p ∧ join.on = on)
    (htag : ∀ join ∈ l, join.joinType = .original → q)
    (hpair : l.Pairwise fun earlier join => (join.joinType.onLabels → ¬ earlier.joinType.flat) ∧
      (join.joinType = .original → ¬ earlier.joinType.counts))
    (h : Follows sum64 store on p q acc s) : groupsOf ((l.zipIdx n).foldl (fun acc join =>
        Eval.processJoin sum64 (o join.2) indexes store acc join.1) acc).last
      = l.foldl (fun prev join =>
          joinOne store prev join (groupsOf ((indexes.lookup join.ref).getD ∅))) s := by
  induction l generalizing n acc s p q with
  | nil => exact h.groups
  | cons join l ih =>
    obtain ⟨hfirst, hpair⟩ := pairwise_cons.mp hpair
    rw [List.zipIdx_cons, List.foldl_cons, List.foldl_cons]
    refine ih (n + 1) (fun j hj => hl j (mem_cons_of_mem join hj)) ?_ ?_ hpair
      (h.processJoin hinj hstore hindexes (hl join mem_cons_self)
        (hon join mem_cons_self) (htag join mem_cons_self))
    · intro j hj hj'
      obtain ⟨hp, heq⟩ := hon j (mem_cons_of_mem join hj) hj'
      exact ⟨⟨hp, (hfirst j hj).1 hj'⟩, heq⟩
    · intro j hj hj'
      exact ⟨htag j (mem_cons_of_mem join hj) hj', (hfirst j hj).2 hj'⟩

end Step

/-- **The joins of a steady trigger are a left fold**, whatever the queries returned. -/
theorem processJoins_of_steady (sum64 : String → ℕ) (o : Orders) (trigger : Trigger)
    (answers : List (Query × List DataResp)) (hjoins : trigger.joins ≠ [])
    (hinj : Injective sum64 (answers.flatMap (·.2)) trigger.joins)
    (hsteady : Steady trigger.joins) :
    groupsOf (processJoins sum64 o trigger (collect sum64 answers).2 (collect sum64 answers).1)
      = joinAll (collect sum64 answers).1 trigger (collect sum64 answers).2 := by
  obtain ⟨hstore, hindexes⟩ := @collect_keeps sum64 answers
  generalize collect sum64 answers = collected at *
  obtain ⟨store, indexes⟩ := collected
  obtain ⟨first, rest, hfr⟩ := exists_cons_of_ne_nil hjoins
  rw [processJoins, joinAll, hfr]
  dsimp only
  split_ifs with hcard
  · rfl
  have hlast : Indexed sum64 (answers.flatMap (·.2)) store
      ((indexes.lookup trigger.joinRef).getD ∅) := by
    cases hl : indexes.lookup trigger.joinRef with
    | none => exact fun tag g hg => by simp at hg
    | some index => exact hindexes _ index hl
  have hstart : Follows sum64 store first.on True True
      ⟨(indexes.lookup trigger.joinRef).getD ∅,
        rehashSet sum64 o.rehash ((indexes.lookup trigger.joinRef).getD ∅) store first.on⟩
      (groupsOf ((indexes.lookup trigger.joinRef).getD ∅)) :=
    ⟨rfl, hlast.grounded, fun _ => hlast.grounded.files_rehashSet _ _,
      fun _ => hlast.keyed hinj hstore⟩
  rw [hfr] at hsteady hinj
  exact hstart.foldl hinj hstore hindexes o.join (first :: rest) 0 (fun join hj => hj)
    (fun join hj ht => ⟨trivial, hsteady.1 first rfl join hj ht⟩) (fun _ _ _ => trivial) hsteady.2

/-! ## One join -/

section Single

variable (sum64 : String → ℕ) (indexes : Indexes) (store : Store) (on : List String)

/-- The groups of a query. -/
def queryGroups (ref : String) : Multiset (List ℕ) := groupsOf ((indexes.lookup ref).getD ∅)

/-- `ProcessJoins` with one join, of the queries `a` and `b`. -/
def joined (o : Orders) (joinType : JoinType) (a b : String) : Multiset (List ℕ) :=
  groupsOf (processJoins sum64 o { joins := [⟨joinType, b, on⟩], joinRef := a } indexes store)

/-- The groups of a query that are filed. -/
def filed (ref : String) : Multiset (List ℕ) :=
  (queryGroups indexes ref).filter fun g => hashKey sum64 store on g ≠ none

variable {indexes}

theorem joined_eq (hcard : 2 ≤ indexes.keys.card) (o : Orders) (joinType : JoinType)
    (a b : String) : joined sum64 indexes store on o joinType a b
      = groupsOf (processJoin sum64 (o.join 0) indexes store
        ⟨(indexes.lookup a).getD ∅, rehashSet sum64 o.rehash ((indexes.lookup a).getD ∅) store on⟩
        ⟨joinType, b, on⟩).last := congrArg groupsOf (if_neg (not_lt.mpr hcard))

theorem joined_onLabels (hcard : 2 ≤ indexes.keys.card) (o : Orders) (a b : String) :
    joined sum64 indexes store on o .innerJoin a b
      = HashJoin.inner (hashKey sum64 store on) (· ++ ·) (filed sum64 indexes store on a)
        (filed sum64 indexes store on b) ∧
    joined sum64 indexes store on o .leftJoin a b = left (hashKey sum64 store on) (· ++ ·)
      (filed sum64 indexes store on a) (filed sum64 indexes store on b) ∧
    joined sum64 indexes store on o .rightJoin a b = left (hashKey sum64 store on) (· ++ ·)
      (filed sum64 indexes store on b) (filed sum64 indexes store on a) ∧
    joined sum64 indexes store on o .leftExclude a b = HashJoin.exclude (hashKey sum64 store on)
      (filed sum64 indexes store on a) (filed sum64 indexes store on b) ∧
    joined sum64 indexes store on o .rightExclude a b = HashJoin.exclude (hashKey sum64 store on)
      (filed sum64 indexes store on b) (filed sum64 indexes store on a) := by
  have hfiles : ∀ ref (order : MapOrder ℕ), Files (hashKey sum64 store on) Group.members
      (rehashSet sum64 order ((indexes.lookup ref).getD ∅) store on)
      (filed sum64 indexes store on ref) := fun ref order => files_rehashSet order on
  have hmerge : ∀ ref, ∀ g ∈ filed sum64 indexes store on ref, ∀ g',
      hashKey sum64 store on (g ++ g') = hashKey sum64 store on g := by
    intro ref
    refine hashKey_append fun g hg => ?_
    simpa [hashKey] using (mem_filter.mp hg).2
  simp only [joined_eq sum64 store on hcard, processJoin]
  exact ⟨groupsOf_flatten (files_onJoin_inner (hfiles a _) (hfiles b _) (hmerge a)) _,
    groupsOf_flatten (files_onJoin_left (hfiles a _) (hfiles b _) (hmerge a)) _,
    groupsOf_flatten (files_onJoin_left (hfiles b _) (hfiles a _) (hmerge b)) _,
    groupsOf_flatten (files_exclude (hfiles a _) (hfiles b _)) _,
    groupsOf_flatten (files_exclude (hfiles b _) (hfiles a _)) _⟩

/-- **The laws of single joins**, for any hash, store and indexes, whatever order each is computed
in. -/
theorem join_laws (hcard : 2 ≤ indexes.keys.card) (o₁ o₂ o₃ : Orders) (a b : String) :
    joined sum64 indexes store on o₁ .leftJoin a b
      = joined sum64 indexes store on o₂ .innerJoin a b
        + joined sum64 indexes store on o₃ .leftExclude a b ∧
    joined sum64 indexes store on o₁ .rightJoin a b
      = joined sum64 indexes store on o₂ .leftJoin b a ∧
    joined sum64 indexes store on o₁ .rightExclude a b
      = joined sum64 indexes store on o₂ .leftExclude b a ∧
    (joined sum64 indexes store on o₁ .cartesian a b).card
      = (queryGroups indexes a).card * (queryGroups indexes b).card ∧
    (joined sum64 indexes store on o₁ .none a b).card
      = (queryGroups indexes a).card + (queryGroups indexes b).card := by
  have hab := fun o => joined_onLabels sum64 store on hcard o a b
  have hba := fun o => joined_onLabels sum64 store on hcard o b a
  refine ⟨?_, ?_, ?_, ?_, ?_⟩
  · rw [(hab o₁).2.1, (hab o₂).1, (hab o₃).2.2.2.1, left_eq_inner_add]
  · rw [(hab o₁).2.2.1, (hba o₂).2.1]
  · rw [(hab o₁).2.2.2.2, (hba o₂).2.2.2.1]
  · rw [joined_eq sum64 store on hcard, processJoin]
    exact (congrArg _ (groupsOf_cartesianJoin _ _ _ _)).trans card_cross
  · rw [joined_eq sum64 store on hcard, processJoin]
    exact (congrArg _ (groupsOf_noneJoin _ _ _ _)).trans (card_add _ _)

end Single

namespace Example

/-- A hash that tells all texts apart. -/
def sum64 (s : String) : ℕ := s.toList.foldl (fun h c => h * 1114112 + c.toNat + 1) 0

/-- Numbers in their order. -/
def ascending : MapOrder ℕ := MapOrder.sortOn (fun n : ℕ => n) fun _ _ h => h

/-- Every map visited in the order of its keys. -/
def orders : Orders := ⟨alphabetical, ascending, fun _ _ => ascending, ascending, alphabetical⟩

/-- A series with the given labels. -/
def series (ref : String) (labels : List (String × String)) : DataResp where
  ref := ref
  metric := labels.foldl (fun m p => m.insert p.1 p.2) ∅
  values := [[60, 1]]

/-- Three queries, each with one series. -/
def threeQueries : List (Query × List DataResp) :=
  [(⟨some "A", ""⟩, [series "A" [("host", "h"), ("job", "j")]]),
    (⟨some "B", ""⟩, [series "B" [("host", "h")]]),
    (⟨some "C", ""⟩, [series "C" [("job", "j"), ("host", "h")]])]

/-- `A` joined with `B` on the host, and then with `C`. -/
def hostThen (on : List String) : Trigger where
  joinRef := "A"
  joins := [⟨.innerJoin, "B", ["host"]⟩, ⟨.innerJoin, "C", on⟩]

instance (series : List DataResp) (joins : List Join) : Decidable (Injective sum64 series joins) :=
  decidable_of_iff (_ ∧ _ ∧ _) ⟨fun h => ⟨h.1, h.2.1, h.2.2⟩, fun h => ⟨h.1, h.2, h.3⟩⟩

/-- Where both joins are on the host the three series are one group. -/
theorem processJoins_hostThen_host :
    (joinAll (collect sum64 threeQueries).1 (hostThen ["host"])
      (collect sum64 threeQueries).2).card = 1 ∧
    groupsOf (processJoins sum64 orders (hostThen ["host"]) (collect sum64 threeQueries).2
        (collect sum64 threeQueries).1)
      = joinAll (collect sum64 threeQueries).1 (hostThen ["host"])
          (collect sum64 threeQueries).2 :=
  ⟨by decide +kernel, processJoins_of_steady sum64 orders (hostThen ["host"]) threeQueries
    (by decide) (by decide +kernel) (by decide)⟩

/-- **A second join on other labels finds nothing**: what was joined so far is filed under the
labels of the first join. -/
theorem processJoins_hostThen_job :
    (joinAll (collect sum64 threeQueries).1 (hostThen ["job"])
      (collect sum64 threeQueries).2).card = 1 ∧
    groupsOf (processJoins sum64 orders (hostThen ["job"]) (collect sum64 threeQueries).2
        (collect sum64 threeQueries).1) = 0 ∧
    groupsOf (processJoins sum64 orders (hostThen ["job"]) (collect sum64 threeQueries).2
        (collect sum64 threeQueries).1)
      ≠ joinAll (collect sum64 threeQueries).1 (hostThen ["job"])
          (collect sum64 threeQueries).2 := by
  have hone : (joinAll (collect sum64 threeQueries).1 (hostThen ["job"])
      (collect sum64 threeQueries).2).card = 1 := by decide +kernel
  have hzero : groupsOf (processJoins sum64 orders (hostThen ["job"])
      (collect sum64 threeQueries).2 (collect sum64 threeQueries).1) = 0 := by decide +kernel
  refine ⟨hone, hzero, fun heq => ?_⟩
  rw [← heq, hzero] at hone
  cases hone

/-- With three queries collected there is enough to join. -/
theorem join_laws_threeQueries :
    (joined sum64 (collect sum64 threeQueries).2 (collect sum64 threeQueries).1 ["host"] orders
      .cartesian "A" "B").card
      = (queryGroups (collect sum64 threeQueries).2 "A").card
        * (queryGroups (collect sum64 threeQueries).2 "B").card :=
  (join_laws sum64 _ ["host"] (by decide +kernel) orders orders orders "A" "B").2.2.2.1

end Example

end Nightingale.Eval
