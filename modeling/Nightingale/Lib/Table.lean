import Mathlib.Data.List.Basic
import Mathlib.Data.List.Nodup
import Mathlib.Order.Nat

/-!
# Lib/Table — a database table with an auto-incremented key

The rows of a `Table` stand in the order of their keys, every key was issued by the table itself,
and a key is never issued twice.  The statements are the four a caller sees:

    insert         INSERT, the key is the next one
    update p f     UPDATE … WHERE p
    get? i         SELECT … WHERE id = i
    newest p       SELECT … WHERE p ORDER BY id DESC LIMIT 1

`newest_eq_some_iff` is the rule for the last.
-/

namespace Nightingale

open List

/-- Rows with their keys, and the key the next row gets. -/
structure Table (α : Type*) where
  rows : List (ℕ × α)
  next : ℕ
  sorted : rows.Pairwise fun x y => x.1 < y.1
  issued : ∀ x ∈ rows, 0 < x.1 ∧ x.1 < next
  next_pos : 0 < next

namespace Table

variable {α : Type*} (t : Table α)

/-- A table without rows. -/
def empty : Table α := ⟨[], 1, .nil, by simp, Nat.one_pos⟩

/-- `INSERT`. -/
def insert (a : α) : Table α where
  rows := t.rows ++ [(t.next, a)]
  next := t.next + 1
  sorted := pairwise_append.mpr ⟨t.sorted, pairwise_singleton _ _, fun x hx y hy => by
    rw [mem_singleton.mp hy]; exact (t.issued x hx).2⟩
  issued x hx := by
    rcases mem_append.mp hx with hx | hx
    · exact ⟨(t.issued x hx).1, Nat.lt_succ_of_lt (t.issued x hx).2⟩
    · rw [mem_singleton.mp hx]; exact ⟨t.next_pos, Nat.lt_succ_self _⟩
  next_pos := Nat.succ_pos _

/-- `UPDATE … WHERE p`. -/
def update (p : ℕ → α → Bool) (f : α → α) : Table α where
  rows := t.rows.map fun x => (x.1, if p x.1 x.2 then f x.2 else x.2)
  next := t.next
  sorted := pairwise_map.mpr t.sorted
  issued x hx := by
    obtain ⟨y, hy, rfl⟩ := mem_map.mp hx
    exact t.issued y hy
  next_pos := t.next_pos

/-- `SELECT … WHERE id = i`. -/
def get? (i : ℕ) : Option α := (t.rows.find? fun x => x.1 == i).map Prod.snd

/-- `SELECT … WHERE p ORDER BY id DESC LIMIT 1`. -/
def newest (p : α → Bool) : Option (ℕ × α) := t.rows.reverse.find? fun x => p x.2

section Lemmas

variable {t}

/-- **A key belongs to one row.** -/
theorem eq_of_key_eq {x y : ℕ × α} (hx : x ∈ t.rows) (hy : y ∈ t.rows) (h : x.1 = y.1) : x = y := by
  have hnodup : (t.rows.map Prod.fst).Nodup :=
    pairwise_map.mpr (t.sorted.imp fun hlt => Nat.ne_of_lt hlt)
  exact inj_on_of_nodup_map hnodup hx hy h

theorem get?_eq_some_iff {i : ℕ} {a : α} : t.get? i = some a ↔ (i, a) ∈ t.rows := by
  constructor
  · intro h
    obtain ⟨x, hx, rfl⟩ := Option.map_eq_some_iff.mp h
    obtain rfl : x.1 = i := by simpa using find?_some hx
    exact mem_of_find?_eq_some hx
  · intro h
    cases hf : t.rows.find? fun x => x.1 == i with
    | none => exact absurd (find?_eq_none.mp hf _ h) (by simp)
    | some x =>
      have hx : x.1 = i := by simpa using find?_some hf
      rw [get?, hf, eq_of_key_eq (mem_of_find?_eq_some hf) h hx]
      rfl

@[simp] theorem mem_rows_empty {x : ℕ × α} : x ∉ (empty : Table α).rows := not_mem_nil

@[simp] theorem mem_rows_insert {a : α} {x : ℕ × α} :
    x ∈ (t.insert a).rows ↔ x ∈ t.rows ∨ x = (t.next, a) := by
  simp [insert]

/-- An update rewrites the rows that satisfy its condition and keeps the others. -/
theorem mem_rows_update {p : ℕ → α → Bool} {f : α → α} {i : ℕ} {b : α} :
    (i, b) ∈ (t.update p f).rows ↔ ∃ a, (i, a) ∈ t.rows ∧ b = if p i a then f a else a := by
  constructor
  · intro h
    obtain ⟨⟨j, a⟩, ha, heq⟩ := mem_map.mp h
    cases heq
    exact ⟨a, ha, rfl⟩
  · rintro ⟨a, ha, rfl⟩
    exact mem_map.mpr ⟨(i, a), ha, rfl⟩

theorem get?_eq_none_of_next_le {i : ℕ} (h : t.next ≤ i) : t.get? i = none := by
  cases hg : t.get? i with
  | none => rfl
  | some a => exact absurd (t.issued _ (get?_eq_some_iff.mp hg)).2 (not_lt.mpr h)

theorem lt_next_of_get? {i : ℕ} {a : α} (h : t.get? i = some a) : i < t.next :=
  (t.issued _ (get?_eq_some_iff.mp h)).2

theorem get?_insert (a : α) (i : ℕ) :
    (t.insert a).get? i = if i = t.next then some a else t.get? i := by
  split
  · next h => exact get?_eq_some_iff.mpr (mem_rows_insert.mpr (.inr (by rw [h])))
  · next h =>
    cases hg : t.get? i with
    | some b =>
      exact get?_eq_some_iff.mpr (mem_rows_insert.mpr (.inl (get?_eq_some_iff.mp hg)))
    | none =>
      cases hi : (t.insert a).get? i with
      | none => rfl
      | some b =>
        rcases mem_rows_insert.mp (get?_eq_some_iff.mp hi) with hmem | heq
        · rw [get?_eq_some_iff.mpr hmem] at hg
          cases hg
        · exact absurd (congrArg Prod.fst heq) h

theorem get?_update (p : ℕ → α → Bool) (f : α → α) (i : ℕ) :
    (t.update p f).get? i = (t.get? i).map fun a => if p i a then f a else a := by
  cases hg : t.get? i with
  | some a =>
    exact get?_eq_some_iff.mpr (mem_rows_update.mpr ⟨a, get?_eq_some_iff.mp hg, rfl⟩)
  | none =>
    cases hi : (t.update p f).get? i with
    | none => rfl
    | some b =>
      obtain ⟨a, hmem, -⟩ := mem_rows_update.mp (get?_eq_some_iff.mp hi)
      rw [get?_eq_some_iff.mpr hmem] at hg
      cases hg

/-- **The newest row of a kind** is the one of the largest key. -/
theorem newest_eq_some_iff {p : α → Bool} {x : ℕ × α} :
    t.newest p = some x ↔ x ∈ t.rows ∧ p x.2 ∧ ∀ y ∈ t.rows, p y.2 → y.1 ≤ x.1 := by
  have hsome : ∀ {x}, t.newest p = some x →
      x ∈ t.rows ∧ p x.2 ∧ ∀ y ∈ t.rows, p y.2 → y.1 ≤ x.1 := by
    intro x h
    obtain ⟨hp, newer, older, heq, hnew⟩ := find?_eq_some_iff_append.mp h
    have hrows : t.rows = older.reverse ++ x :: newer.reverse := by
      rw [← reverse_reverse t.rows, heq]; simp
    have hsort := t.sorted
    rw [hrows] at hsort ⊢
    refine ⟨by simp, hp, fun y hy hpy => ?_⟩
    rcases mem_append.mp hy with hy | hy
    · exact ((pairwise_append.mp hsort).2.2 y hy x (by simp)).le
    · rcases mem_cons.mp hy with rfl | hy
      · exact le_rfl
      · have := hnew y (mem_reverse.mp hy)
        simp [hpy] at this
  refine ⟨hsome, fun ⟨hx, hp, hmax⟩ => ?_⟩
  cases hn : t.newest p with
  | none =>
    have := find?_eq_none.mp hn x (mem_reverse.mpr hx)
    exact absurd hp this
  | some y =>
    obtain ⟨hy, hpy, hymax⟩ := hsome hn
    rw [eq_of_key_eq hy hx (le_antisymm (hmax y hy hpy) (hymax x hx hp))]

end Lemmas

end Table

end Nightingale
