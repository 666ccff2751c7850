import Mathlib

/-!
# Lib/MapOrder — unordered maps and the order a loop visits them in

A hash map has no order of its own; a `for … range` over it visits every key once, in an order the
program does not control.  `GoMap` is the unordered map, and a `MapOrder` is one such choice: an
enumeration, without repetition, of every finite set of keys.  A loop over a map takes a `MapOrder`
as an argument, so a theorem for every `MapOrder` is a theorem for every iteration order.  A loop
that only deletes is the same for all of them (`lookup_deleteWhere`).
-/

namespace Nightingale

open List Finmap

/-- An unordered finite map. -/
abbrev GoMap (α β : Type*) := Finmap fun _ : α => β

namespace GoMap

variable {α β : Type*} [DecidableEq α]

theorem lookup_insert_ite (m : GoMap α β) (k a : α) (b : β) :
    (m.insert k b).lookup a = if a = k then some b else m.lookup a := by
  split_ifs with ha
  · rw [ha, lookup_insert]
  · rw [lookup_insert_of_ne _ ha]

theorem lookup_erase_ite (m : GoMap α β) (k a : α) :
    (m.erase k).lookup a = if a = k then none else m.lookup a := by
  split_ifs with ha
  · rw [ha, lookup_erase]
  · rw [lookup_erase_ne ha]

variable {m : GoMap α β} {k a : α} {b x : β}

/-- What is found after an insertion is what was inserted, or was there under another key. -/
theorem lookup_insert_eq_some : (m.insert k b).lookup a = some x ↔
    a = k ∧ b = x ∨ a ≠ k ∧ m.lookup a = some x := by
  rw [lookup_insert_ite]
  split_ifs with ha <;> simp [ha]

theorem lookup_erase_eq_some : (m.erase k).lookup a = some x ↔ a ≠ k ∧ m.lookup a = some x := by
  rw [lookup_erase_ite]
  split_ifs with ha <;> simp [ha]

/-- What held of every entry of a map, and holds of a new one, holds of every entry afterwards. -/
theorem forall_lookup_insert {P : α → β → Prop} (hk : P k b)
    (hm : ∀ a x, m.lookup a = some x → P a x) (a : α) (x : β)
    (h : (m.insert k b).lookup a = some x) : P a x := by
  rcases lookup_insert_eq_some.mp h with ⟨rfl, rfl⟩ | ⟨-, h⟩
  · exact hk
  · exact hm a x h

/-- A loop that inserts leaves under a key what it inserted there last. -/
theorem lookup_foldl_insert {γ : Type*} {step : GoMap α β → γ → GoMap α β}
    {f : γ → Option (α × β)} (hstep : ∀ m c, step m c = (f c).elim m fun p => m.insert p.1 p.2)
    (l : List γ) (m : GoMap α β) (a : α) : (l.foldl step m).lookup a
      = (l.reverse.findSome? fun c => (f c).bind fun p => if p.1 = a then some p.2 else none).or
        (m.lookup a) := by
  induction l generalizing m with
  | nil => rfl
  | cons c l ih =>
    rw [foldl_cons, ih, reverse_cons, findSome?_append, Option.or_assoc, hstep]
    cases hc : f c with
    | none => simp [hc]
    | some p =>
      rw [Option.elim_some, lookup_insert_ite]
      by_cases hp : p.1 = a
      · simp [hc, hp]
      · simp [hc, hp, Ne.symm hp]

section Foldl

variable {γ : Type*} (key : γ → α) (val : γ → β)

theorem lookup_foldl_insert_key (l : List γ) (m : GoMap α β) (a : α) :
    (l.foldl (fun m c => m.insert (key c) (val c)) m).lookup a
      = (l.reverse.findSome? fun c => if key c = a then some (val c) else none).or (m.lookup a) :=
  lookup_foldl_insert (f := fun c => some (key c, val c)) (fun _ _ => rfl) l m a

theorem lookup_foldl_insert_self (key : β → α) (l : List β) (m : GoMap α β) (a : α) :
    (l.foldl (fun m b => m.insert (key b) b) m).lookup a
      = (l.reverse.find? fun b => key b = a).or (m.lookup a) := by
  have hguard : (fun b => if key b = a then some b else none)
      = Option.guard fun b => key b = a := by
    funext b
    simp [Option.guard_def]
  rw [lookup_foldl_insert_key key fun b => b, hguard, find?_eq_findSome?_guard]

/-- Whatever a loop of insertions leaves under a key was there or was inserted there. -/
theorem exists_of_lookup_foldl_insert {l : List γ} {m : GoMap α β} {a : α} {b : β}
    (h : (l.foldl (fun m c => m.insert (key c) (val c)) m).lookup a = some b) :
    m.lookup a = some b ∨ ∃ c ∈ l, key c = a ∧ val c = b := by
  rw [lookup_foldl_insert_key, Option.or_eq_some_iff] at h
  obtain h | ⟨-, h⟩ := h
  · obtain ⟨c, hc, hval⟩ := exists_of_findSome?_eq_some h
    split_ifs at hval with hkey
    exact .inr ⟨c, mem_reverse.mp hc, hkey, Option.some.inj hval⟩
  · exact .inl h

theorem lookup_foldl_insert_of_notMem {l : List γ} {a : α} (ha : a ∉ l.map key)
    (m : GoMap α β) : (l.foldl (fun m c => m.insert (key c) (val c)) m).lookup a = m.lookup a := by
  have hnone : (l.reverse.findSome? fun c => if key c = a then some (val c) else none) = none := by
    rw [findSome?_eq_none_iff]
    intro c hc
    rw [if_neg fun h => ha (mem_map.mpr ⟨c, mem_reverse.mp hc, h⟩)]
  rw [lookup_foldl_insert_key, hnone, Option.none_or]

theorem lookup_foldl_insert_of_mem {l : List γ} (hnodup : (l.map key).Nodup) {c : γ} (hc : c ∈ l)
    (m : GoMap α β) :
    (l.foldl (fun m c => m.insert (key c) (val c)) m).lookup (key c) = some (val c) := by
  induction l generalizing m with
  | nil => cases hc
  | cons d l ih =>
    rw [map_cons, nodup_cons] at hnodup
    rw [foldl_cons]
    rcases mem_cons.mp hc with rfl | hc
    · rw [lookup_foldl_insert_of_notMem key val hnodup.1, lookup_insert]
    · exact ih hnodup.2 hc _

/-- The keys a loop of insertions leaves, whatever the values are made from. -/
theorem mem_foldl_insert (val : GoMap α β → γ → β) (l : List γ) (m : GoMap α β) (a : α) :
    a ∈ l.foldl (fun m c => m.insert (key c) (val m c)) m ↔ a ∈ m ∨ ∃ c ∈ l, key c = a := by
  induction l generalizing m with
  | nil => simp
  | cons c l ih =>
    rw [foldl_cons, ih, mem_insert, exists_mem_cons_iff, eq_comm (a := a),
      or_comm (a := key c = a), or_assoc]

end Foldl

end GoMap

/-- A way to visit the keys of any map: each exactly once. -/
structure MapOrder (α : Type*) where
  list : Finset α → List α
  nodup : ∀ s, (list s).Nodup
  mem_list : ∀ s a, a ∈ list s ↔ a ∈ s

namespace MapOrder

variable {α : Type*}

attribute [simp] MapOrder.mem_list

theorem mem_list_keys {β : Type*} (o : MapOrder α) (m : GoMap α β) (a : α) :
    a ∈ o.list m.keys ↔ a ∈ m := (o.mem_list _ a).trans mem_keys

@[simp] theorem list_empty (o : MapOrder α) : o.list ∅ = [] :=
  eq_nil_iff_forall_not_mem.mpr fun a ha => by simp at ha

theorem length_list [DecidableEq α] (o : MapOrder α) (s : Finset α) :
    (o.list s).length = s.card := by
  have hs : (o.list s).toFinset = s := by
    ext a
    simp
  rw [← toFinset_card_of_nodup (o.nodup s), hs]

@[simp] theorem list_singleton (o : MapOrder α) (a : α) : o.list {a} = [a] := by
  have hmem : ∀ b ∈ o.list {a}, b = a := fun b hb => by simpa using hb
  have ha : a ∈ o.list {a} := by simp
  have hnd := o.nodup {a}
  rcases hl : o.list {a} with _ | ⟨b, _ | ⟨c, t⟩⟩
  · simp [hl] at ha
  · rw [hmem b (by simp [hl])]
  · rw [hl] at hnd
    have hb : b = a := hmem b (by simp [hl])
    have hc : c = a := hmem c (by simp [hl])
    simp [hb, hc] at hnd

/-- Visiting the keys in the order of a total order on them. -/
def sortBy (r : α → α → Prop) [DecidableRel r] [Std.Total r] [IsTrans α r]
    [Std.Antisymm r] : MapOrder α where
  list s := Quot.liftOn s.val (fun l => l.insertionSort r) fun l₁ l₂ h =>
    List.Perm.eq_of_pairwise' (pairwise_insertionSort r l₁) (pairwise_insertionSort r l₂)
      (((perm_insertionSort r l₁).trans h).trans (perm_insertionSort r l₂).symm)
  nodup s := by
    obtain ⟨⟨l⟩, hl⟩ := s
    exact (perm_insertionSort r l).nodup_iff.mpr hl
  mem_list s a := by
    obtain ⟨⟨l⟩, hl⟩ := s
    exact mem_insertionSort r

/-- The orders of texts and of numbers are total, transitive and antisymmetric, under names of their
own: every `sortBy` over them then has the same arguments. -/
instance total_string_le : Std.Total fun a b : String => a ≤ b := inferInstance

instance isTrans_string_le : IsTrans String fun a b => a ≤ b := inferInstance

instance antisymm_string_le : Std.Antisymm fun a b : String => a ≤ b := inferInstance

instance total_int_le : Std.Total fun a b : ℤ => a ≤ b := inferInstance

instance isTrans_int_le : IsTrans ℤ fun a b => a ≤ b := inferInstance

instance antisymm_int_le : Std.Antisymm fun a b : ℤ => a ≤ b := inferInstance

/-- Visiting the keys in the order of their images. -/
def sortOn {β : Type*} [LinearOrder β] (f : α → β) (hf : Function.Injective f) : MapOrder α :=
  have : Std.Total fun a b => f a ≤ f b := ⟨fun a b => le_total (f a) (f b)⟩
  have : IsTrans α fun a b => f a ≤ f b := ⟨fun _ _ _ => le_trans⟩
  have : Std.Antisymm fun a b => f a ≤ f b := ⟨fun _ _ h h' => hf (le_antisymm h h')⟩
  sortBy fun a b => f a ≤ f b

/-! ### Orders there always are -/

/-- Some order. -/
noncomputable instance : Inhabited (MapOrder α) where
  default := ⟨Finset.toList, Finset.nodup_toList, fun _ _ => Finset.mem_toList⟩

/-- The keys that satisfy `p` first. -/
def prefer (o : MapOrder α) (p : α → Bool) : MapOrder α where
  list s := (o.list s).filter p ++ (o.list s).filter fun a => !p a
  nodup s := nodup_append.mpr ⟨(o.nodup s).filter _, (o.nodup s).filter _, by
    rintro a ha _ hb rfl
    have hp := (mem_filter.mp ha).2
    have hn := (mem_filter.mp hb).2
    rw [hp] at hn
    cases hn⟩
  mem_list s a := by cases hp : p a <;> simp [hp]

/-- A search that can succeed on a preferred key ends on one. -/
theorem findSome?_prefer {β : Type*} (o : MapOrder α) {p : α → Bool} {f : α → Option β}
    {s : Finset α} (h : ∃ a ∈ s, p a ∧ f a ≠ none) :
    ∃ a ∈ s, p a ∧ ((o.prefer p).list s).findSome? f = f a ∧ f a ≠ none := by
  obtain ⟨a, has, hpa, hfa⟩ := h
  cases hb : ((o.list s).filter p).findSome? f with
  | none =>
    have hnone := findSome?_eq_none_iff.mp hb a
      (mem_filter.mpr ⟨(o.mem_list s a).mpr has, hpa⟩)
    exact absurd hnone hfa
  | some b =>
    obtain ⟨a', ha', hfa'⟩ := exists_of_findSome?_eq_some hb
    obtain ⟨hmem, hpa'⟩ := mem_filter.mp ha'
    refine ⟨a', (o.mem_list s a').mp hmem, hpa', ?_, by simp [hfa']⟩
    rw [prefer, findSome?_append, hb, hfa', Option.some_or]

/-! ### A loop that deletes while it visits -/

section Delete

variable {β : Type*} [DecidableEq α]

/-- The keys a loop deletes, in the order it meets them. -/
def doomed (o : MapOrder α) (p : α → β → Bool) (m : GoMap α β) : List α :=
  (o.list m.keys).filter fun k => (m.lookup k).any (p k)

/-- `for k, v := range m { if p(k, v) { delete(m, k) } }`. -/
def deleteWhere (o : MapOrder α) (p : α → β → Bool) (m : GoMap α β) : GoMap α β :=
  (o.doomed p m).foldl (fun acc k => acc.erase k) m

theorem lookup_foldl_erase (ks : List α) (m : GoMap α β) (k : α) :
    (ks.foldl (fun acc k => acc.erase k) m).lookup k = if k ∈ ks then none else m.lookup k := by
  induction ks generalizing m with
  | nil => simp
  | cons k₀ ks ih =>
    rw [foldl_cons, ih]
    by_cases hk : k = k₀
    · subst hk; simp
    · simp [hk, lookup_erase_ne hk]

/-- **The order does not matter**: what is left is what the condition spares. -/
theorem lookup_deleteWhere (o : MapOrder α) (p : α → β → Bool) (m : GoMap α β) (k : α) :
    (o.deleteWhere p m).lookup k = (m.lookup k).filter fun v => !p k v := by
  rw [deleteWhere, lookup_foldl_erase]
  cases hk : m.lookup k with
  | none => simp
  | some v =>
    have hmem : k ∈ m := Finmap.mem_iff.mpr ⟨v, hk⟩
    cases hp : p k v <;> simp [doomed, Finmap.mem_keys, hmem, hk, hp, Option.filter]

end Delete

end MapOrder

end Nightingale
