import Mathlib.Algebra.BigOperators.Group.Finset.Basic
import Mathlib.Data.Nat.Notation
import Mathlib.Logic.Equiv.Basic
import Mathlib.Logic.Function.Basic

/-!
# Lib/Heap — cells behind references

A program that passes records by pointer shares them: what one holder writes, every holder reads.
`Heap α` is the smallest model of that — an allocation counter and a cell per reference — with the
three operations a pointer supports:

    alloc  a fresh cell          get  what a reference reads          modify  a write through it

Freshness is a bound on the reference (`r < h.next`), so a lemma about old references asks for
nothing else.
-/

namespace Nightingale

open Function Finset

/-- A reference to a heap cell. -/
abbrev Ref := ℕ

/-- The cells of a heap, and the next reference to hand out. -/
structure Heap (α : Type*) where
  next : Ref
  cell : Ref → α

namespace Heap

variable {α : Type*}

/-- The heap before anything is allocated. -/
def empty [Inhabited α] : Heap α := ⟨0, fun _ => default⟩

/-- What a reference reads. -/
def get (h : Heap α) (r : Ref) : α := h.cell r

/-- The heap with `a` in a fresh cell; the new reference is the old `next`. -/
def alloc (h : Heap α) (a : α) : Heap α := ⟨h.next + 1, update h.cell h.next a⟩

/-- A write through a reference. -/
def modify (h : Heap α) (r : Ref) (f : α → α) : Heap α :=
  ⟨h.next, update h.cell r (f (h.cell r))⟩

@[simp] theorem next_alloc (h : Heap α) (a : α) : (h.alloc a).next = h.next + 1 := rfl

@[simp] theorem next_modify (h : Heap α) (r : Ref) (f : α → α) : (h.modify r f).next = h.next := rfl

@[simp] theorem get_alloc_self (h : Heap α) (a : α) : (h.alloc a).get h.next = a :=
  update_self _ _ _

/-- **An allocation moves no old cell.** -/
theorem get_alloc_of_lt (h : Heap α) (a : α) {r : Ref} (hr : r < h.next) :
    (h.alloc a).get r = h.get r := update_of_ne (Nat.ne_of_lt hr) _ _

@[simp] theorem get_modify_self (h : Heap α) (r : Ref) (f : α → α) :
    (h.modify r f).get r = f (h.get r) := update_self _ _ _

theorem get_modify_of_ne (h : Heap α) {r r' : Ref} (f : α → α) (hne : r' ≠ r) :
    (h.modify r f).get r' = h.get r' := update_of_ne hne _ _

theorem get_modify (h : Heap α) (r r' : Ref) (f : α → α) :
    (h.modify r f).get r' = if r' = r then f (h.get r) else h.get r' := by
  by_cases hr : r' = r
  · subst hr; simp
  · rw [get_modify_of_ne h f hr, if_neg hr]

/-- **A write that keeps a projection keeps it at every reference**, whoever shares the cell. -/
theorem proj_get_modify {β : Type*} (π : α → β) (h : Heap α) (r r' : Ref) (f : α → α)
    (hf : π (f (h.get r)) = π (h.get r)) : π ((h.modify r f).get r') = π (h.get r') := by
  rw [get_modify]
  split
  · next hr => rw [hr, hf]
  · rfl

/-! ## What all cells hold together -/

/-- **One write changes a total by what it changes its cell.** -/
theorem sum_modify (h : Heap α) (f : α → ℕ) {r : Ref} (hr : r < h.next) (g : α → α) :
    ∑ i ∈ range h.next, f ((h.modify r g).get i) + f (h.get r) =
      ∑ i ∈ range h.next, f (h.get i) + f (g (h.get r)) := by
  have hrest : ∑ i ∈ (range h.next).erase r, f ((h.modify r g).get i) =
      ∑ i ∈ (range h.next).erase r, f (h.get i) :=
    sum_congr rfl fun i hi => by rw [get_modify_of_ne h g (ne_of_mem_erase hi)]
  rw [← sum_erase_add _ _ (mem_range.mpr hr), hrest, get_modify_self,
    ← sum_erase_add _ (fun i => f (h.get i)) (mem_range.mpr hr)]
  exact Nat.add_right_comm _ _ _

theorem sum_alloc (h : Heap α) (f : α → ℕ) (a : α) :
    ∑ i ∈ range (h.next + 1), f ((h.alloc a).get i) = ∑ i ∈ range h.next, f (h.get i) + f a := by
  have hrest : ∑ i ∈ range h.next, f ((h.alloc a).get i) = ∑ i ∈ range h.next, f (h.get i) :=
    sum_congr rfl fun i hi => by rw [get_alloc_of_lt h a (mem_range.mp hi)]
  rw [sum_range_succ, hrest, get_alloc_self]

/-! ## Heaps that agree up to a projection

`Keeps π h h'`: nothing was allocated, and whatever was written, `π` reads the same everywhere. -/

/-- The two heaps have the same references, and `π` of every cell is unchanged. -/
structure Keeps {β : Type*} (π : α → β) (h h' : Heap α) : Prop where
  next : h'.next = h.next
  get : ∀ r, π (h'.get r) = π (h.get r)

namespace Keeps

variable {β γ : Type*} {π : α → β} {h h' h'' : Heap α}

theorem refl (π : α → β) (h : Heap α) : Keeps π h h := ⟨rfl, fun _ => rfl⟩

theorem trans (h₁ : Keeps π h h') (h₂ : Keeps π h' h'') : Keeps π h h'' :=
  ⟨h₂.next.trans h₁.next, fun r => (h₂.get r).trans (h₁.get r)⟩

theorem modify (h : Heap α) (r : Ref) {f : α → α} (hf : ∀ a, π (f a) = π a) :
    Keeps π h (h.modify r f) := ⟨rfl, fun r' => proj_get_modify π h r r' f (hf _)⟩

theorem comp (k : Keeps π h h') (ρ : α → γ) (hρ : ∀ a b, π a = π b → ρ a = ρ b) :
    Keeps ρ h h' := ⟨k.next, fun r => hρ _ _ (k.get r)⟩

end Keeps

/-! ## Some cells, under other names

Two runs of a program hand out references in different orders.  `Renames σ P h h'`: the cells of `h`
that meet `P` are in `h'`, behind the references `σ` gives them; nothing is said of the others. -/

/-- The cells of `h` that meet `P` are those of `h'` under their new names. -/
def Renames (σ : Equiv.Perm Ref) (P : α → Prop) (h h' : Heap α) : Prop :=
  ∀ r, P (h.get r) → h'.get (σ r) = h.get r

namespace Renames

variable {σ τ : Equiv.Perm Ref} {P : α → Prop} {h h' h'' : Heap α} {r : Ref}

theorem trans (m : Renames σ P h h') (n : Renames τ P h' h'') : Renames (σ.trans τ) P h h'' := by
  intro r hr
  have hr' : P (h'.get (σ r)) := by
    rw [m r hr]
    exact hr
  exact (n (σ r) hr').trans (m r hr)

/-- **The same write on both sides**, to a cell that is in both. -/
theorem modify (m : Renames σ P h h') (hr : P (h.get r)) (f : α → α) :
    Renames σ P (h.modify r f) (h'.modify (σ r) f) := by
  intro r' hr'
  by_cases hrr : r' = r
  · subst hrr
    rw [get_modify_self, get_modify_self, m r' hr]
  · rw [get_modify_of_ne h f hrr] at hr' ⊢
    rw [get_modify_of_ne h' f fun heq => hrr (σ.injective heq), m r' hr']

/-- **A write elsewhere** is not seen. -/
theorem modify_elsewhere (hr : ¬ P (h.get r)) (f : α → α) :
    Renames (Equiv.refl Ref) P h (h.modify r f) := by
  intro r' hr'
  have hrr : r' ≠ r := fun heq => hr (heq ▸ hr')
  exact get_modify_of_ne h f hrr

end Renames

end Heap

end Nightingale
