import Mathlib.Data.List.Basic
import Mathlib.Data.List.Infix

/-!
# Lib/Run — what holds along a run

A deterministic machine is a step function; a run of it is a `List.foldl`.  `Along step C s as` says
that every action of the run from `s` meets the condition `C` in the state it is taken in, and
`Along.invariant` is the rule to prove anything about such runs: what one step keeps under `C`, the
run keeps.

`foldl_prefix_induction` is the same rule for a loop that must also say how far it got.
-/

namespace Nightingale

open List

variable {σ α : Type*}

/-- Every action of the run from `s` meets the condition in the state it is taken in. -/
def Along (step : σ → α → σ) (C : σ → α → Prop) : σ → List α → Prop
  | _, [] => True
  | s, a :: as => C s a ∧ Along step C (step s a) as

section Along

variable {step : σ → α → σ} {C : σ → α → Prop}

instance Along.decidable [∀ s a, Decidable (C s a)] :
    (s : σ) → (as : List α) → Decidable (Along step C s as)
  | _, [] => inferInstanceAs (Decidable True)
  | s, a :: as =>
    have := Along.decidable (step s a) as
    inferInstanceAs (Decidable (C s a ∧ Along step C (step s a) as))

/-- **What every step keeps, a run keeps.** -/
theorem Along.invariant {I : σ → Prop} (hstep : ∀ s a, C s a → I s → I (step s a))
    {s : σ} {as : List α} (h : Along step C s as) (hs : I s) : I (as.foldl step s) := by
  induction as generalizing s with
  | nil => exact hs
  | cons a as ih => exact ih h.2 (hstep s a h.1 hs)

/-- **What follows at every step** from the condition and an invariant follows along the run. -/
theorem Along.imp {D : σ → α → Prop} {I : σ → Prop}
    (hstep : ∀ s a, C s a → I s → I (step s a)) (himp : ∀ s a, C s a → I s → D s a)
    {s : σ} {as : List α} (h : Along step C s as) (hs : I s) : Along step D s as := by
  induction as generalizing s with
  | nil => exact trivial
  | cons a as ih => exact ⟨himp s a h.1 hs, ih h.2 (hstep s a h.1 hs)⟩

/-- **What an invariant of all steps implies** holds along every run. -/
theorem Along.of_invariant {I : σ → Prop} (hstep : ∀ s a, I s → I (step s a))
    (himp : ∀ s a, I s → C s a) {s : σ} (hs : I s) (as : List α) : Along step C s as := by
  induction as generalizing s with
  | nil => exact trivial
  | cons a as ih => exact ⟨himp s a hs, ih (hstep s a hs)⟩

theorem along_append {s : σ} {as bs : List α} :
    Along step C s (as ++ bs) ↔ Along step C s as ∧ Along step C (as.foldl step s) bs := by
  induction as generalizing s with
  | nil => simp [Along]
  | cons a as ih => simp [Along, ih, and_assoc]

end Along

/-- **A loop that knows what it has done**: what holds of nothing done, and goes from what is done
to one more, holds of the whole list. -/
theorem foldl_prefix_induction {f : σ → α → σ} {I : List α → σ → Prop} {s : σ} (l : List α)
    (h0 : I [] s) (hs : ∀ done a s, done ++ [a] <+: l → I done s → I (done ++ [a]) (f s a)) :
    I l (l.foldl f s) := by
  have key : ∀ done, done <+: l → I done (done.foldl f s) := by
    intro done
    induction done using reverseRecOn with
    | nil => exact fun _ => h0
    | append_singleton done a ih =>
      intro hp
      rw [foldl_append]
      exact hs done a _ hp (ih ((prefix_append done [a]).trans hp))
  exact key l (prefix_refl l)

/-- **A loop in which one turn counts**: it comes once, and every other turn changes nothing. -/
theorem foldl_eq_single {f : σ → α → σ} {l : List α} {a : α} (hl : l.Nodup) (ha : a ∈ l)
    (hf : ∀ s b, b ≠ a → f s b = s) (s : σ) : l.foldl f s = f s a := by
  have hidle : ∀ (l : List α) (s : σ), a ∉ l → l.foldl f s = s := by
    intro l
    induction l with
    | nil => exact fun _ _ => rfl
    | cons b l ih =>
      intro s hb
      obtain ⟨hne, hb⟩ := not_or.mp (mem_cons.not.mp hb)
      rw [foldl_cons, hf s b (Ne.symm hne), ih s hb]
  obtain ⟨l₁, l₂, rfl⟩ := append_of_mem ha
  obtain ⟨-, hcons, hapart⟩ := nodup_append.mp hl
  have h₁ : a ∉ l₁ := fun h => hapart a h a mem_cons_self rfl
  rw [foldl_append, foldl_cons, hidle l₁ s h₁, hidle l₂ _ (nodup_cons.mp hcons).1]

/-! ## Steps that may fail -/

section Fallible

variable {ε α β : Type}

theorem ok_of_bind {x : Except ε α} {f : α → Except ε β} {b : β} (h : x >>= f = .ok b) :
    ∃ a, x = .ok a ∧ f a = .ok b := by
  cases x with
  | error err => cases h
  | ok a => exact ⟨a, rfl, h⟩

theorem ok_of_toOption {x : Except ε α} {a : α} (h : x.toOption = some a) : x = .ok a := by
  cases x with
  | error err => cases h
  | ok b =>
    cases h
    rfl

theorem mapM_eq_some_iff {f : α → Option β} {l : List α} {r : List β} :
    l.mapM f = some r ↔ l.map f = r.map some := by
  induction l generalizing r with
  | nil => cases r <;> simp
  | cons a l ih =>
    rw [mapM_cons]
    cases ha : f a with
    | none => cases r <;> simp [ha]
    | some b =>
      cases r with
      | nil => cases h : l.mapM f <;> simp [ha]
      | cons c r =>
        rw [map_cons, map_cons, ha, cons.injEq, ← ih]
        cases h : l.mapM f <;> simp

end Fallible

end Nightingale
