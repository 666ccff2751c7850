import Nightingale.Lib.MapOrder

/-!
# Lib/Overlay — layers that decide for the keys they have

A `Layer` found some items, each under a key, and decides for a finite set of keys: for a key of its
own the layers before it no longer count, whether or not it found anything.

    layer₁ ─▸ layer₂ ─▸ … ─▸ layerₙ        k is decided by the last layer that has k

`wanted` is that reading, item by item.  `overlay` is one layer as a loop over a map: an item enters
under its key, and keys under which none does are deleted at the end.  The map then holds the first
wanted item of every key (`isFirst_foldl_overlay`), so all wanted items are in it exactly if no two
of them share a key (`values_perm_iff`).
-/

namespace Nightingale

open List Option Finmap Function

namespace MapOrder

variable {α β : Type*} [DecidableEq α]

/-- The values of a map, in the order its keys are visited. -/
def values (o : MapOrder α) (m : GoMap α β) : List β := (o.list m.keys).filterMap m.lookup

theorem mem_values {o : MapOrder α} {m : GoMap α β} {b : β} :
    b ∈ o.values m ↔ ∃ a, m.lookup a = some b := by
  rw [values, mem_filterMap]
  constructor
  · rintro ⟨a, -, h⟩
    exact ⟨a, h⟩
  · rintro ⟨a, h⟩
    exact ⟨a, (o.mem_list_keys m a).mpr (mem_iff.mpr ⟨b, h⟩), h⟩

theorem length_values (o : MapOrder α) (m : GoMap α β) : (o.values m).length = m.keys.card := by
  have hsome : ∀ a ∈ o.list m.keys, (m.lookup a).isSome = true := fun a ha =>
    lookup_isSome.mpr ((o.mem_list_keys m a).mp ha)
  rw [values, ← o.length_list, length_filterMap_eq_countP]
  exact countP_eq_length.mpr fun a ha => by simpa using hsome a ha

end MapOrder

namespace Overlay

variable {κ ι : Type*} [DecidableEq κ]

/-- The map holds the first item of every key. -/
def IsFirst (m : GoMap κ ι) (items : List (κ × ι)) : Prop :=
  ∀ k, m.lookup k = (items.find? fun it => it.1 = k).map (·.2)

section IsFirst

variable {m : GoMap κ ι} {items : List (κ × ι)}

theorem IsFirst.keys_eq (h : IsFirst m items) : m.keys = (items.map (·.1)).toFinset := by
  ext k
  rw [Finmap.mem_keys, ← Finmap.lookup_isSome, h k, isSome_map, find?_isSome,
    List.mem_toFinset, List.mem_map]
  simp

theorem find?_of_nodup (hnd : (items.map (·.1)).Nodup) {it : κ × ι} (hit : it ∈ items) :
    (items.find? fun it' => it'.1 = it.1) = some it := by
  induction items with
  | nil => cases hit
  | cons x xs ih =>
    rw [map_cons, nodup_cons] at hnd
    rcases mem_cons.mp hit with rfl | hit
    · simp
    · have hne : x.1 ≠ it.1 := fun heq => hnd.1 (heq ▸ mem_map_of_mem hit)
      rw [find?_cons_of_neg (by simpa using hne)]
      exact ih hnd.2 hit

/-- **All items are in the map exactly if no two share a key.** -/
theorem IsFirst.values_perm_iff (h : IsFirst m items) (o : MapOrder κ) :
    (o.values m).Perm (items.map (·.2)) ↔ (items.map (·.1)).Nodup := by
  constructor
  · intro hp
    have hlen := hp.length_eq
    rw [o.length_values, h.keys_eq, length_map] at hlen
    refine Multiset.coe_nodup.mp (Multiset.toFinset_card_eq_card_iff_nodup.mp ?_)
    simpa using hlen
  · intro hnd
    have hkeys : (o.list m.keys).Perm (items.map (·.1)) :=
      (perm_ext_iff_of_nodup (o.nodup _) hnd).mpr fun k => by simp [h.keys_eq]
    have hvals : (items.map (·.1)).filterMap m.lookup = items.map (·.2) := by
      rw [filterMap_map, ← filterMap_eq_map]
      refine filterMap_congr fun it hit => ?_
      rw [comp_apply, h, find?_of_nodup hnd hit, map_some, comp_apply]
    rw [← hvals]
    exact hkeys.filterMap _

end IsFirst

/-! ## One layer -/

/-- What a layer found, and the keys it decides for. -/
structure Layer (κ ι : Type*) where
  items : List (κ × ι)
  keys : Finset κ

/-- One turn of a layer's loop: the map so far, and the keys still open. -/
def place (acc : GoMap κ ι × Finset κ) (item : κ × ι) : GoMap κ ι × Finset κ :=
  if item.1 ∈ acc.2 then (acc.1.insert item.1 item.2, acc.2.erase item.1) else acc

/-- A layer over a map. -/
def overlay (o : MapOrder κ) (m : GoMap κ ι) (l : Layer κ ι) : GoMap κ ι :=
  let acc := l.items.foldl place (m, l.keys)
  (o.list acc.2).foldl (fun m k => m.erase k) acc.1

theorem foldl_place (items : List (κ × ι)) (m : GoMap κ ι) (open' : Finset κ) (k : κ) :
    ((items.foldl place (m, open')).1.lookup k = if k ∈ open' then
        ((items.find? fun it => it.1 = k).map (·.2)).or (m.lookup k) else m.lookup k) ∧
      (k ∈ (items.foldl place (m, open')).2 ↔
        k ∈ open' ∧ (items.find? fun it => it.1 = k) = none) := by
  induction items generalizing m open' with
  | nil => simp
  | cons it items ih =>
    rw [foldl_cons, place]
    by_cases hit : it.1 ∈ open'
    · simp only [hit, if_true]
      obtain ⟨hl, hm⟩ := ih (m.insert it.1 it.2) (open'.erase it.1)
      rw [hl, hm]
      by_cases hk : it.1 = k
      · subst hk
        simp [hit]
      · have hk' : k ≠ it.1 := fun h => hk h.symm
        simp [hk, hk', lookup_insert_of_ne]
    · simp only [hit, if_false]
      obtain ⟨hl, hm⟩ := ih m open'
      rw [hl, hm]
      by_cases hk : it.1 = k
      · subst hk
        simp [hit]
      · simp [hk]

/-- **A layer decides for its keys**, and leaves the others as they were. -/
theorem lookup_overlay (o : MapOrder κ) (m : GoMap κ ι) (l : Layer κ ι) (k : κ) :
    (overlay o m l).lookup k = if k ∈ l.keys then
      (l.items.find? fun it => it.1 = k).map (·.2) else m.lookup k := by
  obtain ⟨hl, hm⟩ := foldl_place l.items m l.keys k
  rw [overlay, MapOrder.lookup_foldl_erase, hl]
  simp only [MapOrder.mem_list, hm]
  by_cases hk : k ∈ l.keys
  · cases hf : l.items.find? fun it => it.1 = k <;> simp [hk]
  · simp [hk]

/-! ## All layers -/

/-- The items whose layer is the last that has their key. -/
def wanted : List (Layer κ ι) → List (κ × ι)
  | [] => []
  | l :: ls =>
    (l.items.filter fun it => it.1 ∈ l.keys ∧ ∀ l' ∈ ls, it.1 ∉ l'.keys) ++ wanted ls

theorem wanted_concat (ls : List (Layer κ ι)) (l : Layer κ ι) :
    wanted (ls ++ [l]) = (wanted ls).filter (fun it => it.1 ∉ l.keys)
      ++ l.items.filter fun it => it.1 ∈ l.keys := by
  induction ls with
  | nil => simp [wanted]
  | cons l₀ ls ih =>
    rw [List.cons_append, wanted, ih, wanted, List.filter_append, List.filter_filter,
      ← List.append_assoc]
    congr 2
    refine List.filter_congr fun it _ => ?_
    simp only [List.mem_append, List.mem_singleton, decide_eq_decide, ← Bool.decide_and]
    constructor
    · rintro ⟨hin, hno⟩
      exact ⟨hno l (.inr rfl), hin, fun l' hl' => hno l' (.inl hl')⟩
    · rintro ⟨hl, hin, hno⟩
      refine ⟨hin, fun l' hl' => ?_⟩
      rcases hl' with hl' | rfl
      · exact hno l' hl'
      · exact hl

omit [DecidableEq κ] in
theorem find?_filter_of_imp {l : List (κ × ι)} {p q : κ × ι → Bool} (h : ∀ a, q a → p a) :
    (l.filter p).find? q = l.find? q := by
  rw [find?_filter]
  congr 1
  funext a
  cases hq : q a with
  | false => simp
  | true => simp [h a hq]

/-- **The map after all layers holds the first wanted item of every key.** -/
theorem isFirst_foldl_overlay (o : MapOrder κ) (ls : List (Layer κ ι)) :
    IsFirst (ls.foldl (overlay o) ∅) (wanted ls) := by
  induction ls using reverseRecOn with
  | nil => exact fun k => by simp [wanted]
  | append_singleton ls l ih =>
    intro k
    rw [foldl_append, foldl_cons, foldl_nil, lookup_overlay, wanted_concat, find?_append]
    by_cases hk : k ∈ l.keys
    · have hno : ((wanted ls).filter fun it => it.1 ∉ l.keys).find? (fun it => it.1 = k) = none :=
        find?_eq_none.mpr fun it hit h => by
          have hkeys := of_decide_eq_true (mem_filter.mp hit).2
          exact hkeys ((of_decide_eq_true h) ▸ hk)
      rw [if_pos hk, hno, none_or, find?_filter_of_imp fun it h => ?_]
      exact decide_eq_true ((of_decide_eq_true h) ▸ hk)
    · have hno : (l.items.filter fun it => it.1 ∈ l.keys).find? (fun it => it.1 = k) = none :=
        find?_eq_none.mpr fun it hit h => by
          have hkeys := of_decide_eq_true (mem_filter.mp hit).2
          exact hk ((of_decide_eq_true h) ▸ hkeys)
      rw [if_neg hk, hno, or_none, ih k, find?_filter_of_imp fun it h => ?_]
      exact decide_eq_true ((of_decide_eq_true h) ▸ hk)

/-! ## Keys under other names -/

/-- A layer with its keys renamed. -/
def Layer.mapKey {κ' : Type*} [DecidableEq κ'] (f : κ → κ') (l : Layer κ ι) : Layer κ' ι where
  items := l.items.map fun it => (f it.1, it.2)
  keys := l.keys.image f

/-- **Renaming keys renames what is wanted**, if no item gets the name of a key it does not have. -/
theorem wanted_mapKey {κ' : Type*} [DecidableEq κ'] (f : κ → κ') (ls : List (Layer κ ι))
    (hf : ∀ l ∈ ls, ∀ it ∈ l.items, ∀ l' ∈ ls, f it.1 ∈ l'.keys.image f → it.1 ∈ l'.keys) :
    wanted (ls.map (Layer.mapKey f)) = (wanted ls).map fun it => (f it.1, it.2) := by
  induction ls with
  | nil => rfl
  | cons l ls ih =>
    have htail := ih fun l₁ h₁ it hit l₂ h₂ =>
      hf l₁ (mem_cons_of_mem l h₁) it hit l₂ (mem_cons_of_mem l h₂)
    have hkey : ∀ it ∈ l.items, ∀ l' ∈ l :: ls, f it.1 ∈ l'.keys.image f ↔ it.1 ∈ l'.keys :=
      fun it hit l' hl' => ⟨hf l mem_cons_self it hit l' hl', Finset.mem_image_of_mem f⟩
    rw [List.map_cons, wanted, htail, wanted, List.map_append, Layer.mapKey, List.filter_map]
    congr 2
    refine filter_congr fun it hit => ?_
    simp only [comp_apply, List.forall_mem_map, decide_eq_decide]
    refine and_congr (hkey it hit l List.mem_cons_self) (forall₂_congr fun l' hl' => ?_)
    exact not_congr (hkey it hit l' (mem_cons_of_mem l hl'))

end Overlay

end Nightingale
