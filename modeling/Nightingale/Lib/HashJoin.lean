import Nightingale.Lib.Overlay

/-!
# Lib/HashJoin — joins, by nested loops and by buckets

Two collections are joined on a key.  What a join *is* is said by nested loops over multisets: an
item of the one side is merged with every item of the other that has its key, and what has no
partner is kept or dropped.

    inner    every pair with one key, merged          outer     left, and the right without partner
    left     inner, and the left without partner      exclude   the left without partner

A program does it by buckets: the items of a side are filed in a map under their keys, and two such
maps are joined key by key.  `Files` relates the two readings, `Files.left` and its siblings carry
it through a join, and `Files.flatten` reads the collection back.
-/

namespace Nightingale

open List Option Finmap Multiset GoMap

namespace GoMap

variable {κ β : Type*} [DecidableEq κ]

/-- The values of a map, as a multiset. -/
def contents (m : GoMap κ β) : Multiset β := m.entries.map Sigma.snd

theorem mem_contents {m : GoMap κ β} {b : β} : b ∈ contents m ↔ ∃ k, m.lookup k = some b := by
  rw [contents, Multiset.mem_map]
  constructor
  · rintro ⟨⟨k, b'⟩, hmem, rfl⟩
    exact ⟨k, mem_lookup_iff.mpr hmem⟩
  · rintro ⟨k, hk⟩
    exact ⟨⟨k, b⟩, mem_lookup_iff.mp hk, rfl⟩

/-- However the keys are visited, the values met are the contents. -/
theorem coe_values (o : MapOrder κ) (m : GoMap κ β) : (o.values m : Multiset β) = contents m := by
  have hkeys : (o.list m.keys : Multiset κ) = m.entries.map Sigma.fst :=
    Multiset.Nodup.ext (Multiset.coe_nodup.mpr (o.nodup _)) m.keys.nodup |>.mpr fun k => by
      rw [Multiset.mem_coe, o.mem_list]
      rfl
  have hfilter : (o.values m : Multiset β) = (o.list m.keys : Multiset κ).filterMap m.lookup := rfl
  rw [hfilter, hkeys, Multiset.filterMap_map, contents]
  have hlook : ∀ e ∈ m.entries, m.lookup e.1 = some e.2 := fun e he => mem_lookup_iff.mpr he
  revert hlook
  induction m.entries using Multiset.induction_on with
  | empty => simp
  | cons e es ih =>
    intro hlook
    have hcons := Multiset.filterMap_cons_some ((fun k => m.lookup k) ∘ Sigma.fst) e es
      (hlook e (Multiset.mem_cons_self e es))
    rw [hcons, Multiset.map_cons, ih fun e' he' => hlook e' (Multiset.mem_cons_of_mem he')]

/-- `for k := range keys { if … { m[k] = f(k) } }`. -/
def build (o : MapOrder κ) (keys : Finset κ) (f : κ → Option β) : GoMap κ β :=
  (o.list keys).foldl (fun m k => (f k).elim m fun b => m.insert k b) ∅

theorem lookup_foldl_build (l : List κ) (f : κ → Option β) (m : GoMap κ β) (k : κ) :
    (l.foldl (fun m k => (f k).elim m fun b => m.insert k b) m).lookup k
      = if k ∈ l then (f k).or (m.lookup k) else m.lookup k := by
  induction l generalizing m with
  | nil => simp
  | cons a l ih =>
    rw [List.foldl_cons, ih]
    by_cases hk : k = a
    · subst hk
      cases hf : f k <;> simp [lookup_insert]
    · cases hf : f a <;> simp [hk, lookup_insert_of_ne]

theorem lookup_build (o : MapOrder κ) (keys : Finset κ) (f : κ → Option β) (k : κ) :
    (build o keys f).lookup k = if k ∈ keys then f k else none := by
  simp [build, lookup_foldl_build]

/-- A list entered under the numbers from zero. -/
def number (l : List β) : GoMap ℕ β := l.zipIdx.foldl (fun m p => m.insert p.2 p.1) ∅

theorem contents_foldl_insert (l : List β) (n : ℕ) (m : GoMap ℕ β) (hm : ∀ k ∈ m, k < n) :
    contents ((l.zipIdx n).foldl (fun m p => m.insert p.2 p.1) m) = contents m + ↑l := by
  induction l generalizing n m with
  | nil => simp
  | cons b l ih =>
    have hn : n ∉ m := fun h => absurd (hm n h) (lt_irrefl n)
    rw [List.zipIdx_cons, List.foldl_cons, ih, contents, entries_insert_of_notMem hn,
      Multiset.map_cons, ← Multiset.cons_coe, Multiset.cons_add, Multiset.add_cons, contents]
    intro k hk
    rcases mem_insert.mp hk with rfl | hk
    · exact Nat.lt_succ_self _
    · exact (hm k hk).trans (Nat.lt_succ_self n)

@[simp] theorem contents_number (l : List β) : contents (number l) = ↑l := by
  rw [number, contents_foldl_insert l 0 ∅ fun k hk => absurd hk (notMem_empty)]
  exact zero_add _

end GoMap

namespace HashJoin

/-! ## By nested loops -/

section Nested

variable {α κ : Type*} [DecidableEq κ] (key : α → κ) (merge : α → α → α)

/-- The items of the other side that have the key of `a`. -/
def partners (t : Multiset α) (a : α) : Multiset α := t.filter fun b => key b = key a

/-- Every pair of partners, merged. -/
def inner (s t : Multiset α) : Multiset α := s.bind fun a => (partners key t a).map (merge a)

/-- What `a` contributes to a left join. -/
def keep (t : Multiset α) (a : α) : Multiset α :=
  if key a ∈ t.map key then (partners key t a).map (merge a) else {a}

/-- Every pair of partners, merged, and what has no partner on the right. -/
def left (s t : Multiset α) : Multiset α := s.bind (keep key merge t)

/-- What has no partner on the right. -/
def exclude (s t : Multiset α) : Multiset α := s.filter fun a => key a ∉ t.map key

/-- Every pair of partners, merged, and what has no partner on either side. -/
def outer (s t : Multiset α) : Multiset α := left key merge s t + exclude key t s

/-- Every pair, merged. -/
def cross (s t : Multiset α) : Multiset α := s.bind fun a => t.map (merge a)

variable {key merge} {s t : Multiset α}

theorem left_eq_inner_add : left key merge s t = inner key merge s t + exclude key s t := by
  have hkeep : ∀ a, keep key merge t a
      = (partners key t a).map (merge a) + if key a ∉ t.map key then {a} else 0 := by
    intro a
    by_cases ha : key a ∈ t.map key
    · simp [keep, ha]
    · have hnone : partners key t a = 0 :=
        filter_eq_nil.mpr fun b hb h => ha (h ▸ mem_map_of_mem key hb)
      simp [keep, ha, hnone]
  rw [left, bind_congr fun a _ => hkeep a, bind_add, inner, exclude, filter_eq_bind]

theorem card_cross : (cross merge s t).card = s.card * t.card := by
  rw [cross, card_bind]
  simp

end Nested

section Congr

variable {α κ κ' : Type*} [DecidableEq κ] [DecidableEq κ'] {key : α → κ} {key' : α → κ'}
  {merge : α → α → α} {s t : Multiset α}

omit [DecidableEq κ] [DecidableEq κ'] in
theorem mem_map_key_congr {a : α} (h : ∀ b ∈ t, key b = key a ↔ key' b = key' a) :
    key a ∈ t.map key ↔ key' a ∈ t.map key' := by
  simp only [Multiset.mem_map]
  exact exists_congr fun b => and_congr_right fun hb => h b hb

variable (h : ∀ a ∈ s, ∀ b ∈ t, key b = key a ↔ key' b = key' a)

include h

/-- **Only which keys are equal matters.** -/
theorem inner_congr : inner key merge s t = inner key' merge s t := bind_congr fun a ha => by
    rw [partners, partners, filter_congr (h a ha)]

theorem exclude_congr : exclude key s t = exclude key' s t :=
  filter_congr fun a ha => not_congr (mem_map_key_congr (h a ha))

theorem left_congr : left key merge s t = left key' merge s t := by
  rw [left_eq_inner_add, left_eq_inner_add, inner_congr h, exclude_congr h]

theorem outer_congr : outer key merge s t = outer key' merge s t := by
  have h' : ∀ b ∈ t, ∀ a ∈ s, key a = key b ↔ key' a = key' b := fun b hb a ha =>
    eq_comm.trans ((h a ha b hb).trans eq_comm)
  rw [outer, outer, left_congr h, exclude_congr h']

end Congr

/-! ## Part by part

The part of a join that has one key is the join of the parts that have it. -/

section Parts

variable {α κ : Type*} [DecidableEq κ] {key : α → κ} {merge : α → α → α} {s t : Multiset α}

/-- The part of a collection that has a key. -/
def part (key : α → κ) (s : Multiset α) (k : κ) : Multiset α := s.filter fun a => key a = k

/-- **A collection is known from its parts.** -/
theorem eq_of_part_eq (key : α → κ) (h : ∀ k, part key s k = part key t k) : s = t := by
  classical
  refine ext.mpr fun a => ?_
  have hcount := congrArg (Multiset.count a) (h (key a))
  rwa [part, part, count_filter_of_pos (p := fun b => key b = key a) rfl,
    count_filter_of_pos (p := fun b => key b = key a) rfl] at hcount

theorem part_bind {f : α → Multiset α} (hf : ∀ a ∈ s, ∀ b ∈ f a, key b = key a) (k : κ) :
    part key (s.bind f) k = (part key s k).bind f := by
  rw [part, Multiset.filter_bind, part, Multiset.bind_filter]
  refine Multiset.bind_congr fun a ha => ?_
  split_ifs with hk
  · exact Multiset.filter_eq_self.mpr fun b hb => (hf a ha b hb).trans hk
  · exact Multiset.filter_eq_nil.mpr fun b hb hb' => hk ((hf a ha b hb).symm.trans hb')

theorem part_add (k : κ) : part key (s + t) k = part key s k + part key t k := filter_add _ s t

theorem mem_map_key_iff {k : κ} : k ∈ t.map key ↔ part key t k ≠ 0 := by
  rw [Multiset.mem_map]
  constructor
  · rintro ⟨b, hb, hk⟩ h0
    exact absurd (h0 ▸ Multiset.mem_filter.mpr ⟨hb, hk⟩) (Multiset.notMem_zero b)
  · intro h0
    obtain ⟨b, hb⟩ := Multiset.exists_mem_of_ne_zero h0
    exact ⟨b, Multiset.mem_filter.mp hb⟩

theorem part_exclude (k : κ) :
    part key (exclude key s t) k = if k ∈ t.map key then 0 else part key s k := by
  rw [exclude, part, Multiset.filter_filter]
  split_ifs with hk
  · exact Multiset.filter_eq_nil.mpr fun a _ ha => ha.2 (ha.1 ▸ hk)
  · exact Multiset.filter_congr fun a _ => and_iff_left_of_imp fun ha => ha ▸ hk

variable (hmerge : ∀ a ∈ s, ∀ b, key (merge a b) = key a)

include hmerge

theorem exists_of_mem_inner {b : α} (hb : b ∈ inner key merge s t) : ∃ a ∈ s, key b = key a := by
  obtain ⟨a, ha, hb⟩ := mem_bind.mp hb
  obtain ⟨c, -, rfl⟩ := mem_map.mp hb
  exact ⟨a, ha, hmerge a ha c⟩

theorem part_inner (k : κ) : part key (inner key merge s t) k
      = (part key s k).bind fun a => (part key t k).map (merge a) := by
  rw [inner, part_bind]
  · refine bind_congr fun a ha => ?_
    rw [partners, (mem_filter.mp ha).2, part]
  · intro a ha b hb
    obtain ⟨c, -, rfl⟩ := mem_map.mp hb
    exact hmerge a ha c

end Parts

/-! ## By buckets -/

section Buckets

variable {α β κ : Type*} [DecidableEq κ]

/-- The items of a list filed under their keys; one without a key is left out. -/
def fileUnder (key : β → Option κ) (l : List β) : GoMap κ (List β) :=
  l.foldl (fun R b => (key b).elim R fun k => R.insert k ((R.lookup k).getD [] ++ [b])) ∅

/-- Every pair of two buckets, merged. -/
def pairs (merge : β → β → β) (l l' : List β) : List β := l.flatMap fun b => l'.map (merge b)

/-- **The map files the collection**: its bucket of a key is the part that has the key, and every
item has one.  `f` is what counts of an item of the map. -/
structure Files (key : α → Option κ) (f : β → α) (R : GoMap κ (List β)) (s : Multiset α) :
    Prop where
  keyed : ∀ a ∈ s, key a ≠ none
  part_eq : ∀ k, part key s (some k) = ↑(((R.lookup k).getD []).map f)
  ne_nil : ∀ k l, R.lookup k = some l → l ≠ []

variable {key : α → Option κ} {f : β → α} {R R' R'' : GoMap κ (List β)} {s t : Multiset α}
  {merge : α → α → α} {mergeItems : β → β → β}

theorem part_none (hs : ∀ a ∈ s, key a ≠ none) : part key s none = 0 := filter_eq_nil.mpr hs

namespace Files

theorem empty : Files key f (∅ : GoMap κ (List β)) 0 where
  keyed a ha := absurd ha (notMem_zero a)
  part_eq k := by simp [part]
  ne_nil k l h := by simp at h

theorem insert (h : Files key f R s) {b : β} {k : κ} (hk : key (f b) = some k) :
    Files key f (R.insert k ((R.lookup k).getD [] ++ [b])) (s + {f b}) where
  keyed a ha := by
    rcases Multiset.mem_add.mp ha with ha | ha
    · exact h.keyed a ha
    · rw [Multiset.mem_singleton.mp ha, hk]
      exact some_ne_none k
  part_eq k' := by
    have hpart := h.part_eq k'
    rw [part] at hpart
    rw [part, Multiset.filter_add, hpart, Multiset.filter_singleton, hk]
    by_cases hkk : k' = k
    · subst hkk
      simp [← Multiset.coe_add]
    · simp [lookup_insert_of_ne _ hkk, Ne.symm hkk]
  ne_nil k' l hl := by
    rcases lookup_insert_eq_some.mp hl with ⟨-, rfl⟩ | ⟨-, hl⟩
    · simp
    · exact h.ne_nil k' l hl

/-- **Filing a list files what has a key on it.** -/
theorem fileUnder (l : List β) : Files key f (HashJoin.fileUnder (fun b => key (f b)) l)
    ((l.map f : Multiset α).filter fun a => key a ≠ none) := by
  have hfold : ∀ (R : GoMap κ (List β)) (s : Multiset α), Files key f R s →
      Files key f (l.foldl (fun R b => (key (f b)).elim R fun k =>
        R.insert k ((R.lookup k).getD [] ++ [b])) R)
        (s + (l.map f : Multiset α).filter fun a => key a ≠ none) := by
    induction l with
    | nil => simp
    | cons b l ih =>
      intro R s h
      rw [List.foldl_cons, List.map_cons, ← cons_coe]
      cases hk : key (f b) with
      | none => simpa [hk] using ih R s h
      | some k =>
        rw [filter_cons_of_pos _ (by simp [hk]), ← singleton_add, ← add_assoc]
        exact ih _ _ (h.insert hk)
  simpa [HashJoin.fileUnder] using hfold ∅ 0 empty

theorem lookup_eq_none_iff (h : Files key f R s) {k : κ} :
    R.lookup k = none ↔ part key s (some k) = 0 := by
  rw [h.part_eq k]
  cases hk : R.lookup k with
  | none => simp
  | some l => simp [h.ne_nil k l hk]

/-- **The buckets hold the collection**, whatever order they are visited in. -/
theorem flatten (h : Files key f R s) (o : MapOrder κ) :
    (((o.list R.keys).flatMap fun k => (R.lookup k).getD []).map f : Multiset α) = s := by
  have hbind : (((o.list R.keys).flatMap fun k => (R.lookup k).getD []).map f : Multiset α)
      = (o.list R.keys : Multiset κ).bind fun k => part key s (some k) := by
    rw [map_flatMap, ← coe_bind]
    exact bind_congr fun k _ => (h.part_eq k).symm
  rw [hbind]
  refine eq_of_part_eq key fun o' => ?_
  cases o' with
  | none =>
    rw [part_none h.keyed, part_none]
    intro a ha
    obtain ⟨k, -, ha⟩ := mem_bind.mp ha
    exact h.keyed a (mem_of_mem_filter ha)
  | some k₀ =>
    have hone : ∀ k, (part key s (some k)).filter (fun a => key a = some k₀)
        = if k = k₀ then part key s (some k₀) else 0 := by
      intro k
      rw [part, Multiset.filter_filter]
      split_ifs with hk
      · rw [hk, part]
        exact filter_congr fun a _ => and_self_iff
      · refine filter_eq_nil.mpr fun a _ => ?_
        rintro ⟨h₀, hk'⟩
        exact hk (some.inj (hk'.symm.trans h₀))
    rw [part, Multiset.filter_bind, Multiset.bind_congr fun k _ => hone k,
      ← bind_filter, filter_eq', coe_count]
    by_cases hmem : k₀ ∈ o.list R.keys
    · rw [count_eq_one_of_mem (o.nodup _) hmem, Multiset.replicate_one, singleton_bind]
    · rw [count_eq_zero_of_not_mem hmem, Multiset.replicate_zero, Multiset.zero_bind]
      have hnone : R.lookup k₀ = none :=
        lookup_eq_none.mpr fun hk => hmem ((o.mem_list_keys R k₀).mpr hk)
      exact (h.lookup_eq_none_iff.mp hnone).symm

/-! ### Joins of buckets

What is left to say of a join of two maps is what it does at a key. -/

theorem coe_map_pairs (hf : ∀ b b', f (mergeItems b b') = merge (f b) (f b')) (l l' : List β) :
    ((pairs mergeItems l l').map f : Multiset α)
      = (l.map f : Multiset α).bind fun a => (l'.map f : Multiset α).map (merge a) := by
  induction l with
  | nil => rfl
  | cons b l ih =>
    rw [pairs, List.flatMap_cons, List.map_append, ← coe_add, ← pairs, ih, List.map_cons,
      ← cons_coe, cons_bind]
    simp [hf, Function.comp_def]

theorem pairs_ne_nil {l l' : List β} (hl : l ≠ []) (hl' : l' ≠ []) :
    pairs mergeItems l l' ≠ [] := by
  obtain ⟨b, hb⟩ := exists_mem_of_ne_nil l hl
  obtain ⟨b', hb'⟩ := exists_mem_of_ne_nil l' hl'
  exact ne_nil_of_mem (mem_flatMap.mpr ⟨b, hb, mem_map_of_mem hb'⟩)

theorem inner (hR : Files key f R s) (hR' : Files key f R' t)
    (hf : ∀ b b', f (mergeItems b b') = merge (f b) (f b'))
    (hmerge : ∀ a ∈ s, ∀ b, key (merge a b) = key a)
    (hboth : ∀ k l l', R.lookup k = some l → R'.lookup k = some l' →
      R''.lookup k = some (pairs mergeItems l l'))
    (hone : ∀ k, R.lookup k = none ∨ R'.lookup k = none → R''.lookup k = none) :
    Files key f R'' (inner key merge s t) where
  keyed a ha := by
    obtain ⟨b, hb, hkey⟩ := exists_of_mem_inner hmerge ha
    rw [hkey]
    exact hR.keyed b hb
  part_eq k := by
    rw [part_inner hmerge, hR.part_eq k, hR'.part_eq k]
    cases hk : R.lookup k with
    | none => simp [hone k (.inl hk)]
    | some l =>
      cases hk' : R'.lookup k with
      | none => simp [hone k (.inr hk')]
      | some l' =>
        rw [hboth k l l' hk hk', getD_some, getD_some, getD_some, coe_map_pairs hf]
  ne_nil k l'' hl := by
    cases hk : R.lookup k with
    | none => simp [hone k (.inl hk)] at hl
    | some l =>
      cases hk' : R'.lookup k with
      | none => simp [hone k (.inr hk')] at hl
      | some l' =>
        rw [hboth k l l' hk hk', some_inj] at hl
        exact hl ▸ pairs_ne_nil (hR.ne_nil k l hk) (hR'.ne_nil k l' hk')

theorem exclude (hR : Files key f R s) (hR' : Files key f R' t)
    (hlook : ∀ k, R''.lookup k = if k ∈ R' then none else R.lookup k) :
    Files key f R'' (exclude key s t) where
  keyed a ha := hR.keyed a (mem_of_mem_filter ha)
  part_eq k := by
    have hmem : some k ∈ t.map key ↔ k ∈ R' := by
      rw [mem_map_key_iff, ← not_iff_not, not_not, ← hR'.lookup_eq_none_iff, lookup_eq_none]
    rw [part_exclude, hR.part_eq k, hlook, if_congr hmem rfl rfl]
    split_ifs <;> rfl
  ne_nil k l hl := by
    rw [hlook] at hl
    split_ifs at hl
    exact hR.ne_nil k l hl

theorem add (h : Files key f R s) (h' : Files key f R' t)
    (hone : ∀ k, R.lookup k = none ∨ R'.lookup k = none)
    (hlook : ∀ k, R''.lookup k = (R.lookup k).or (R'.lookup k)) : Files key f R'' (s + t) where
  keyed a ha := (mem_add.mp ha).elim (h.keyed a) (h'.keyed a)
  part_eq k := by
    rw [part_add, h.part_eq k, h'.part_eq k, hlook]
    rcases hone k with hk | hk <;> simp [hk]
  ne_nil k l hl := by
    rw [hlook, or_eq_some_iff] at hl
    exact hl.elim (h.ne_nil k l) fun hl => h'.ne_nil k l hl.2

end Files

/-! ### One item to a key -/

/-- Every item of the map is under its own key. -/
def Keyed (key : α → Option κ) (f : β → α) (m : GoMap κ β) : Prop :=
  ∀ k b, m.lookup k = some b → key (f b) = some k

section Keyed

variable {m m' m'' : GoMap κ β}

theorem Keyed.ne_none (h : Keyed key f m) : ∀ a ∈ (GoMap.contents m).map f, key a ≠ none := by
  intro a ha
  obtain ⟨b, hb, rfl⟩ := mem_map.mp ha
  obtain ⟨k, hk⟩ := mem_contents.mp hb
  rw [h k b hk]
  exact some_ne_none k

theorem Keyed.part_eq (h : Keyed key f m) (k : κ) :
    part key ((GoMap.contents m).map f) (some k) = ↑((m.lookup k).toList.map f) := by
  have hfilter : m.entries.filter (fun e => key (f e.2) = some k)
      = m.entries.filter fun e => e.1 = k := by
    refine Multiset.filter_congr fun e he => ?_
    rw [h e.1 e.2 (mem_lookup_iff.mpr he), some_inj]
  rw [part, contents, Multiset.map_map, Multiset.filter_map]
  refine (congrArg _ hfilter).trans ?_
  cases hk : m.lookup k with
  | none =>
    have hnil : (m.entries.filter fun e => e.1 = k) = 0 := by
      refine Multiset.filter_eq_nil.mpr ?_
      rintro ⟨k', b⟩ he rfl
      rw [mem_lookup_iff.mpr he] at hk
      cases hk
    rw [hnil]
    rfl
  | some b =>
    have hone : (m.entries.filter fun e => e.1 = k) = {⟨k, b⟩} := by
      refine (Multiset.Nodup.ext (m.nodup_entries.filter _) (Multiset.nodup_singleton _)).mpr ?_
      rintro ⟨k', b'⟩
      rw [Multiset.mem_filter, Multiset.mem_singleton, ← mem_lookup_iff]
      constructor
      · rintro ⟨hl, rfl⟩
        rw [hk, mem_some_iff] at hl
        rw [hl]
      · intro he
        cases he
        exact ⟨hk, rfl⟩
    rw [hone]
    rfl

/-- **Two such maps, united key by key, are joined on both sides.** -/
theorem Keyed.contents_outer (hm : Keyed key f m) (hm' : Keyed key f m')
    (hm'' : Keyed key f m'')
    (hmerge : ∀ a ∈ (GoMap.contents m).map f, ∀ b, key (merge a b) = key a)
    (hlook : ∀ k, (m''.lookup k).map f = Option.merge merge ((m.lookup k).map f)
      ((m'.lookup k).map f)) : (GoMap.contents m'').map f
      = outer key merge ((GoMap.contents m).map f) ((GoMap.contents m').map f) := by
  refine eq_of_part_eq key fun o => ?_
  rw [outer, left_eq_inner_add, part_add, part_add]
  cases o with
  | none =>
    rw [part_none hm''.ne_none, part_none, part_none, part_none, add_zero, add_zero]
    · exact fun a ha => hm'.ne_none a (mem_of_mem_filter ha)
    · exact fun a ha => hm.ne_none a (mem_of_mem_filter ha)
    · intro a ha
      obtain ⟨b, hb, hkey⟩ := exists_of_mem_inner hmerge ha
      exact hkey ▸ hm.ne_none b hb
  | some k =>
    have hmem : ∀ {n : GoMap κ β}, Keyed key f n →
        (some k ∈ ((contents n).map f).map key ↔ n.lookup k ≠ none) := fun hn => by
      rw [mem_map_key_iff, hn.part_eq k]
      simp
    simp only [part_inner hmerge, part_exclude, hmem hm, hmem hm', hm.part_eq k, hm'.part_eq k,
      hm''.part_eq k, ← toList_map, hlook k]
    cases m.lookup k <;> cases m'.lookup k <;> simp [Option.merge]

end Keyed

end Buckets

end HashJoin

end Nightingale
