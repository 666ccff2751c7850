import Mathlib.Algebra.BigOperators.Group.List.Basic
import Mathlib.Algebra.Order.BigOperators.Group.Finset
import Mathlib.Data.Finset.Basic
import Nightingale.Lib.Run

/-!
# Lib/Kahn — counting predecessors, when only some edges are followed

Kahn's algorithm keeps for every node the number of its incoming edges that have not been followed
yet, and takes a node once that number is zero.  Here a node that is taken need not follow all its
edges: `follow m` is what it does follow, `total t` counts all edges into `t`.

    deg t = total t − (edges into t followed so far)          `Inv.deg`
    taken or waiting  ⟺  known and deg = 0                    `Inv.queued`

The second line is an equivalence at every moment of the run, so at its end the nodes taken are
exactly those all of whose incoming edges were followed (`Inv.mem_popped_iff`).  Cycles are allowed.
-/

namespace Nightingale.Kahn

open List Function

/-- The counters, the nodes that wait, and the nodes taken so far. -/
structure State (α : Type*) where
  deg : α → ℤ
  queue : List α
  popped : List α

variable {α : Type*} [DecidableEq α]

/-- An edge into `t` is followed. -/
def relax (s : State α) (t : α) : State α where
  deg := update s.deg t (s.deg t - 1)
  queue := if s.deg t - 1 = 0 then s.queue ++ [t] else s.queue
  popped := s.popped

/-- The node `n` is taken off the queue, and its edges are followed. -/
def visit (follow : α → List α) (s : State α) (n : α) (rest : List α) : State α :=
  (follow n).foldl relax { s with queue := rest, popped := s.popped ++ [n] }

/-- **The invariant**, when the edges followed so far lead to `done`. -/
structure Inv (total : α → ℕ) (known : α → Prop) (done : List α) (s : State α) : Prop where
  nodup : (s.popped ++ s.queue).Nodup
  deg : ∀ t, s.deg t = total t - (done.count t : ℤ)
  queued : ∀ t, t ∈ s.popped ++ s.queue ↔ known t ∧ s.deg t = 0

section Run

variable {total : α → ℕ} {known : α → Prop} {done : List α} {s : State α}

theorem Inv.initial {queue : List α} (hnodup : queue.Nodup)
    (hqueue : ∀ t, t ∈ queue ↔ known t ∧ total t = 0) :
    Inv total known [] { deg := fun t => total t, queue := queue, popped := [] } where
  nodup := by simpa using hnodup
  deg t := by simp
  queued t := by simpa using hqueue t

/-- **One edge**: its target was not there yet, and is now if this was the last edge into it. -/
theorem Inv.relax (h : Inv total known done s) {x : α} (hx : known x)
    (hbound : (done ++ [x]).count x ≤ total x) : Inv total known (done ++ [x]) (relax s x) := by
  have hcount : (done ++ [x]).count x = done.count x + 1 := by simp
  have hdeg := h.deg x
  have hpos : s.deg x ≠ 0 := by omega
  have hfresh : x ∉ s.popped ++ s.queue := fun hmem => hpos ((h.queued x).mp hmem).2
  refine ⟨?_, fun t => ?_, fun t => ?_⟩
  · unfold Kahn.relax
    split_ifs
    · rw [← append_assoc]
      exact h.nodup.append (nodup_singleton x) (by simpa using hfresh)
    · exact h.nodup
  · by_cases ht : t = x
    · subst ht
      simp only [Kahn.relax, update_self]
      omega
    · simp only [Kahn.relax, update_of_ne ht, h.deg t, count_append, count_singleton,
        beq_eq_false_iff_ne.mpr (Ne.symm ht), Bool.false_eq_true, if_false, Nat.add_zero]
  · by_cases ht : t = x
    · subst ht
      simp only [Kahn.relax, update_self]
      split_ifs with hzero
      · simp [hzero, hx]
      · exact iff_of_false hfresh fun hk => hzero hk.2
    · simp only [Kahn.relax, update_of_ne ht]
      rw [← h.queued t]
      split_ifs
      · simp [ht]
      · rfl

/-- **A list of edges.** -/
theorem Inv.foldl_relax (hknown : ∀ t, 0 < total t → known t) (h : Inv total known done s)
    {l : List α} (hbound : ∀ t, (done ++ l).count t ≤ total t) :
    Inv total known (done ++ l) (l.foldl Kahn.relax s) := by
  induction l generalizing done s with
  | nil => simpa using h
  | cons x l ih =>
    have hb : ∀ t, (done ++ [x] ++ l).count t ≤ total t := by simpa using hbound
    have hx : (done ++ [x]).count x ≤ total x := by
      have := hb x
      rw [count_append] at this
      omega
    have hpos : 0 < total x := by
      have : (done ++ [x]).count x = done.count x + 1 := by simp
      omega
    have := ih (h.relax (hknown x hpos) hx) hb
    simpa using this

/-- **One node.** -/
theorem Inv.visit {follow : α → List α}
    (hbound : ∀ l : List α, l.Nodup → ∀ t, (l.flatMap follow).count t ≤ total t)
    (hknown : ∀ t, 0 < total t → known t) (h : Inv total known (s.popped.flatMap follow) s)
    {n : α} {rest : List α} (hq : s.queue = n :: rest) :
    Inv total known ((s.popped ++ [n]).flatMap follow) (visit follow s n rest) := by
  have hnodup := h.nodup
  rw [hq, append_cons] at hnodup
  have hb := hbound (s.popped ++ [n]) hnodup.of_append_left
  rw [flatMap_append, flatMap_singleton] at hb ⊢
  have htaken : Inv total known (s.popped.flatMap follow)
      { s with queue := rest, popped := s.popped ++ [n] } :=
    ⟨hnodup, h.deg, fun t => by rw [← h.queued t, hq, ← append_cons]⟩
  exact htaken.foldl_relax hknown hb

/-- **At the end**, the nodes taken are those all of whose incoming edges were followed. -/
theorem Inv.mem_popped_iff (h : Inv total known done s) (hq : s.queue = []) (t : α) :
    t ∈ s.popped ↔ known t ∧ done.count t = total t := by
  have hqueued := h.queued t
  rw [hq, append_nil] at hqueued
  rw [hqueued, h.deg t]
  exact and_congr_right fun _ => by omega

end Run

/-! ## Counting edges -/

section Edges

variable {sources : Finset α} {outputs follow : α → List α}

/-- The number of edges into a node. -/
def edgesInto (sources : Finset α) (outputs : α → List α) (t : α) : ℕ :=
  ∑ m ∈ sources, (outputs m).count t

section

variable {l : List α} (hsub : ∀ m t, (follow m).count t ≤ (outputs m).count t)
  (hout : ∀ m ∉ sources, outputs m = []) (hl : l.Nodup) (t : α)

include hsub hout hl

/-- The edges into `t` that the nodes of a list follow, source by source. -/
theorem count_flatMap_eq_sum : (l.flatMap follow).count t
      = ∑ m ∈ sources, if m ∈ l then (follow m).count t else 0 := by
  have hzero : ∀ m ∈ l.toFinset, m ∉ sources.filter (· ∈ l) → (count t ∘ follow) m = 0 := by
    intro m hm hms
    have hns : m ∉ sources := fun h => hms (by simpa using ⟨h, mem_toFinset.mp hm⟩)
    have := hsub m t
    rw [hout m hns] at this
    simpa using this
  have hincl : sources.filter (· ∈ l) ⊆ l.toFinset := fun m hm => by
    simpa using (Finset.mem_filter.mp hm).2
  rw [count_flatMap, ← sum_toFinset _ hl, ← Finset.sum_subset hincl hzero, Finset.sum_filter]
  rfl

theorem count_flatMap_le : (l.flatMap follow).count t ≤ edgesInto sources outputs t := by
  rw [count_flatMap_eq_sum hsub hout hl t]
  refine Finset.sum_le_sum fun m _ => ?_
  split_ifs
  · exact hsub m t
  · exact Nat.zero_le _

/-- **All edges into `t` are followed** if and only if every source of one is taken and follows
it. -/
theorem count_flatMap_eq_iff : (l.flatMap follow).count t = edgesInto sources outputs t ↔
      ∀ m, t ∈ outputs m → m ∈ l ∧ (follow m).count t = (outputs m).count t := by
  have hle : ∀ m ∈ sources, (if m ∈ l then (follow m).count t else 0) ≤ (outputs m).count t := by
    intro m _
    split_ifs
    · exact hsub m t
    · exact Nat.zero_le _
  rw [count_flatMap_eq_sum hsub hout hl t, edgesInto, Finset.sum_eq_sum_iff_of_le hle]
  constructor
  · intro h m hm
    have hms : m ∈ sources := by
      by_contra hns
      rw [hout m hns] at hm
      cases hm
    have heq := h m hms
    have hpos := count_pos_iff.mpr hm
    split_ifs at heq with hml
    · exact ⟨hml, heq⟩
    · omega
  · intro h m _
    by_cases hm : t ∈ outputs m
    · rw [if_pos (h m hm).1, (h m hm).2]
    · have hz := count_eq_zero.mpr hm
      have := hsub m t
      split_ifs <;> omega

end

end Edges

end Nightingale.Kahn
