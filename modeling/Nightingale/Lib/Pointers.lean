import Mathlib.Logic.Function.Basic
import Mathlib.Logic.Relation

/-!
# Lib/Pointers — following pointers to a free entry

A table of pointers gives every known entry nothing, or another entry it is behind.  `Rooted p a`
says that following the pointers from `a` ends at an entry that is behind nothing.  An update keeps
every entry rooted as long as the new pointer does not close a circle (`Rooted.update`):

    x ──▸ b ──▸ … ──▸ free        x not on the way from b
-/

namespace Nightingale

open Option Function

variable {α : Type*}

/-- `a` is behind `b`. -/
def Points (p : α → Option (Option α)) (a b : α) : Prop := p a = some (some b)

/-- The pointers from `a` end at a free entry. -/
inductive Rooted (p : α → Option (Option α)) : α → Prop
  | free {a : α} : p a = some none → Rooted p a
  | behind {a b : α} : p a = some (some b) → Rooted p b → Rooted p a

section Update

variable [DecidableEq α] {p : α → Option (Option α)} {x : α} {target : Option α}

/-- What does not lead to the entry updated is not affected. -/
theorem Rooted.update_of_avoids {a : α} (h : Rooted p a)
    (havoid : ¬ Relation.ReflTransGen (Points p) a x) : Rooted (update p x (some target)) a := by
  have hne : ∀ {b}, ¬ Relation.ReflTransGen (Points p) b x → b ≠ x := by
    rintro b hb rfl
    exact hb .refl
  induction h with
  | free hfree => exact .free (by rwa [update_of_ne (hne havoid)])
  | behind hab _ ih =>
    refine .behind (by rwa [update_of_ne (hne havoid)]) (ih fun hb => havoid ?_)
    exact .head hab hb

/-- **An update that closes no circle**: if every known entry is rooted, and the new pointer is none
or leads to a known entry that does not lead back, then every known entry is rooted afterwards. -/
theorem Rooted.update (hall : ∀ a, p a ≠ none → Rooted p a)
    (htarget : ∀ b ∈ target, p b ≠ none ∧ ¬ Relation.ReflTransGen (Points p) b x) (a : α)
    (ha : update p x (some target) a ≠ none) : Rooted (update p x (some target)) a := by
  have hx : Rooted (Function.update p x (some target)) x := by
    cases htgt : target with
    | none => exact .free (update_self x _ p)
    | some b =>
      obtain ⟨hb, havoid⟩ := htarget b htgt
      refine .behind (update_self x _ p) ?_
      exact (hall b hb).update_of_avoids havoid
  by_cases hax : a = x
  · exact hax ▸ hx
  · rw [update_of_ne hax] at ha
    have hrooted := hall a ha
    clear ha hax
    induction hrooted with
    | @free a hfree =>
      by_cases hax : a = x
      · exact hax ▸ hx
      · exact .free (by rwa [update_of_ne hax])
    | @behind a b hab _ ih =>
      by_cases hax : a = x
      · exact hax ▸ hx
      · exact .behind (by rwa [update_of_ne hax]) ih

end Update

theorem not_rooted_of_pair {p : α → Option (Option α)} {a b : α} (hab : Points p a b)
    (hba : Points p b a) : ¬ Rooted p a := by
  have key : ∀ c, Rooted p c → c ≠ a ∧ c ≠ b := by
    intro c hc
    induction hc with
    | @free c hfree =>
      constructor
      · rintro rfl
        exact absurd (hfree.symm.trans hab) (by simp)
      · rintro rfl
        exact absurd (hfree.symm.trans hba) (by simp)
    | @behind c d hcd _ ih =>
      constructor
      · rintro rfl
        exact ih.2 (some.inj (some.inj (hcd.symm.trans hab)))
      · rintro rfl
        exact ih.1 (some.inj (some.inj (hcd.symm.trans hba)))
  exact fun h => (key a h).1 rfl

end Nightingale
