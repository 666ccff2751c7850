import Mathlib.Data.List.Basic
import Mathlib.Data.List.Infix

/-!
# Lib/History — properties of a history, entry by entry

A history is a list that only grows.  Much of what one says of it has the form "whenever `x` was
recorded, `P` held of `x` and what had been recorded before": `Historic P`.  Such a property is
proved one entry at a time (`historic_concat`), survives in every prefix, and is decidable when `P`
is.
-/

namespace Nightingale

open List

variable {α : Type*} {P : List α → α → Prop}

/-- Every entry of the history stands in `P` to what came before it. -/
def Historic (P : List α → α → Prop) (log : List α) : Prop :=
  ∀ past x rest, log = past ++ x :: rest → P past x

theorem historic_nil : Historic P [] := fun past x rest h => by simp at h

/-- **A history grows one entry at a time.** -/
theorem historic_concat {log : List α} {x : α} :
    Historic P (log ++ [x]) ↔ Historic P log ∧ P log x := by
  constructor
  · intro h
    exact ⟨fun past y rest heq => h past y (rest ++ [x]) (by simp [heq]), h log x [] rfl⟩
  · rintro ⟨h, hx⟩ past y rest heq
    rcases eq_nil_or_concat rest with rfl | ⟨rest, z, rfl⟩
    · obtain ⟨rfl, hyx⟩ := append_inj' heq rfl
      obtain rfl := (cons.inj hyx).1
      exact hx
    · rw [concat_eq_append, ← cons_append, ← append_assoc] at heq
      exact h past y rest (append_inj' heq rfl).1

/-- **A history that holds held before.** -/
theorem Historic.of_prefix {log log' : List α} (h : Historic P log') (hp : log <+: log') :
    Historic P log := by
  obtain ⟨new, rfl⟩ := hp
  exact fun past x rest heq => h past x (rest ++ new) (by simp [heq])

/-- Entries that stand in `P` to everything from the present history on may be added. -/
theorem Historic.append_of_prefix {log new : List α} (h : Historic P log)
    (hnew : ∀ past, log <+: past → ∀ x ∈ new, P past x) : Historic P (log ++ new) := by
  induction new using reverseRecOn with
  | nil => simpa using h
  | append_singleton new x ih =>
    rw [← append_assoc]
    exact historic_concat.mpr ⟨ih fun past hp y hy => hnew past hp y (by simp [hy]),
      hnew _ (prefix_append log new) x (by simp)⟩

theorem Historic.append {log new : List α} (h : Historic P log)
    (hnew : ∀ past, ∀ x ∈ new, P past x) : Historic P (log ++ new) :=
  h.append_of_prefix fun past _ => hnew past

theorem historic_iff_getElem {log : List α} :
    Historic P log ↔ ∀ i (h : i < log.length), P (log.take i) log[i] := by
  constructor
  · intro h i hi
    exact h _ _ (log.drop (i + 1)) (by simp)
  · rintro h past x rest rfl
    have := h past.length (by simp)
    simpa using this

instance Historic.decidable [∀ past x, Decidable (P past x)] (log : List α) :
    Decidable (Historic P log) := decidable_of_iff _ historic_iff_getElem.symm

end Nightingale
