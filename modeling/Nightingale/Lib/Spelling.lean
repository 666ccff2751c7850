import Mathlib

/-!
# Lib/Spelling — values between separators of their own

A record is written as the value of its first key, and for every further key a separator that is
that key's own, and its value:

    v₀ ─ sep k₁ ─ v₁ ─ sep k₂ ─ v₂ ─ ⋯

The text says which values were written unless a separator can be found in another place.  It is
enough to look at each separator between its two neighbours: if there it is `Lone`, then no other
values are written the same way (`spell_inj`), and if one is not, then others are
(`exists_spell_eq`).
-/

namespace Nightingale.Text

open List Function

variable {α κ : Type*} (sep : κ → List α)

/-- A value, and the values of further keys, each behind the separator of its key. -/
def spell (f : κ → List α) : List α → List κ → List α
  | v, [] => v
  | v, k :: ks => v ++ sep k ++ spell f (f k) ks

/-- Between two values the separator is found where it was put, and nowhere else with text on both
sides. -/
def Lone (s v w : List α) : Prop :=
  ∀ v' w', v' ≠ [] → w' ≠ [] → v' ++ s ++ w' = v ++ s ++ w → v' = v

section Reading

variable {sep} {f g : κ → List α}

theorem spell_append (u v : List α) (ks : List κ) :
    spell sep f (u ++ v) ks = u ++ spell sep f v ks := by
  cases ks with
  | nil => rfl
  | cons k ks => simp [spell]

/-- What is written after the first value does not depend on it. -/
theorem spell_eq_append (v : List α) (ks : List κ) : spell sep f v ks = v ++ spell sep f [] ks := by
  rw [← spell_append, append_nil]

theorem prefix_spell (v : List α) (ks : List κ) : v <+: spell sep f v ks :=
  ⟨_, (spell_eq_append v ks).symm⟩

theorem spell_congr {v : List α} {ks : List κ} (h : ∀ k ∈ ks, f k = g k) :
    spell sep f v ks = spell sep g v ks := by
  induction ks generalizing v with
  | nil => rfl
  | cons k ks ih =>
    rw [forall_mem_cons] at h
    rw [spell, spell, h.1, ih h.2]

/-- A lone separator is not found again inside the value behind it. -/
theorem Lone.eq_nil_of_shift {s v w u : List α} (hlone : Lone s v w) (hshift : u ++ s <+: s ++ w)
    (hlt : u.length < w.length) : u = [] := by
  obtain ⟨w', hw'⟩ := hshift
  by_contra hu
  have hlength := congrArg length hw'
  simp only [length_append] at hlength
  have hleft : v ++ u ≠ [] := by simp [hu]
  have hright : w' ≠ [] := ne_nil_of_length_pos (by omega)
  have hsame : v ++ u ++ s ++ w' = v ++ s ++ w := by
    rw [append_assoc v, append_assoc v, hw', append_assoc]
  exact hu (append_right_eq_self.mp (hlone _ w' hleft hright hsame))

section

variable {k : κ} {ks : List κ} {v : List α}
  (hlone : (k :: ks).IsChain fun k k' => Lone (sep k') (f k) (f k'))

include hlone

/-- A first value that ends later pushes every separator behind its place. -/
theorem length_le_of_spell_eq (hg : ∀ k ∈ ks, g k ≠ [])
    (h : spell sep g v ks = spell sep f (f k) ks) : v.length ≤ (f k).length := by
  induction ks generalizing k v with
  | nil => exact le_of_eq (congrArg length h)
  | cons k' ks ih =>
    obtain ⟨hfirst, hrest⟩ := isChain_cons_cons.mp hlone
    obtain ⟨hk', hks⟩ := forall_mem_cons.mp hg
    rw [spell, spell, append_assoc, append_assoc] at h
    by_contra! hlt
    -- the value runs into the separator: `v = f k ++ u`
    obtain ⟨u, rfl⟩ : f k <+: v := prefix_of_prefix_length_le ⟨_, h.symm⟩ ⟨_, rfl⟩ hlt.le
    rw [append_assoc, append_cancel_left_eq, ← append_assoc, ← spell_append] at h
    have hinto : u ++ sep k' ++ g k' <+: spell sep g (u ++ sep k' ++ g k') ks := prefix_spell _ _
    obtain ⟨w, hw⟩ : sep k' <+: u ++ sep k' ++ g k' := by
      refine prefix_of_prefix_length_le ⟨_, h.symm⟩ hinto ?_
      simp only [length_append]
      omega
    rw [← hw, spell_append, append_cancel_left_eq] at h
    have hlength := congrArg length hw
    have hpos := length_pos_iff.mpr hk'
    have hle := ih hrest hks h
    simp only [length_append] at hlength hlt
    -- so the next value ends inside its neighbour, and the separator is found twice
    have hnext : sep k' ++ f k' <+: spell sep g (u ++ sep k' ++ g k') ks := by
      rw [← hw, spell_append, h]
      exact (prefix_append_right_inj _).mpr (prefix_spell _ _)
    have hshift : u ++ sep k' <+: sep k' ++ f k' := by
      refine prefix_of_prefix_length_le ((prefix_append _ _).trans hinto) hnext ?_
      simp only [length_append]
      omega
    have hnil : u = [] := hfirst.eq_nil_of_shift hshift (by omega)
    rw [hnil, length_nil] at hlt
    omega

/-- **Lone separators are read in one way**: no other values are written the same. -/
theorem spell_inj (hf : ∀ k ∈ ks, f k ≠ []) (hg : ∀ k ∈ ks, g k ≠ []) (hv : v ≠ [])
    (h : spell sep g v ks = spell sep f (f k) ks) : v = f k ∧ ∀ k ∈ ks, g k = f k := by
  induction ks generalizing k v with
  | nil => exact ⟨h, by simp⟩
  | cons k' ks ih =>
    obtain ⟨hfirst, hrest⟩ := isChain_cons_cons.mp hlone
    have hle := length_le_of_spell_eq hlone hg h
    rw [spell, spell, append_assoc, append_assoc] at h
    have hvk : v = f k := by
      obtain ⟨u, hu⟩ : v <+: f k := prefix_of_prefix_length_le ⟨_, h⟩ ⟨_, rfl⟩ hle
      rw [← hu, append_assoc, append_cancel_left_eq, ← append_assoc] at h
      -- the separator behind `v` is found again in `u ++ sep k'`
      obtain ⟨w, hw⟩ : sep k' <+: u ++ sep k' := by
        refine prefix_of_prefix_length_le ⟨_, h⟩ ⟨_, rfl⟩ ?_
        simp only [length_append]
        omega
      refine hfirst v (w ++ f k') hv ?_ ?_
      · exact append_ne_nil_of_right_ne_nil _ (hf k' mem_cons_self)
      · rw [← hu, ← append_assoc, append_assoc v, hw]
        simp only [append_assoc]
    rw [hvk, append_cancel_left_eq, append_cancel_left_eq] at h
    obtain ⟨hhead, htail⟩ := ih hrest (fun k hk => hf k (mem_cons_of_mem _ hk))
      (fun k hk => hg k (mem_cons_of_mem _ hk)) (hg k' mem_cons_self) h
    exact ⟨hvk, forall_mem_cons.mpr ⟨hhead, htail⟩⟩

end

/-- A separator is lone if its first letter is not in the values. -/
theorem lone_of_notMem [DecidableEq α] {c : α} {s v w : List α} (hv : c ∉ v) (hw : c ∉ w) :
    Lone (c :: s) v w := by
  intro v' w' _ _ h
  have hv' : c ∉ v' := by
    have hcount := congrArg (count c) h
    simp only [count_append, count_eq_zero.mpr hv, count_eq_zero.mpr hw] at hcount
    exact count_eq_zero.mp (by omega)
  have hcut : ∀ x l : List α, c ∉ x → (x ++ c :: s ++ l).takeWhile (· ≠ c) = x := fun x l hx => by
    rw [append_assoc, takeWhile_append_of_pos fun d hd => by simpa using ne_of_mem_of_not_mem hd hx]
    simp
  rw [← hcut v' w' hv', h, hcut v w hv]

/-- **A separator that is not lone** can be read elsewhere: other values are written the same. -/
theorem exists_spell_eq [DecidableEq κ] {k : κ} {ks : List κ} (hnodup : ks.Nodup)
    (hf : ∀ k ∈ ks, f k ≠ []) (hk : f k ≠ [])
    (hlone : ¬ (k :: ks).IsChain fun k k' => Lone (sep k') (f k) (f k')) :
    ∃ v g, v ≠ [] ∧ (∀ k ∈ ks, g k ≠ []) ∧ spell sep g v ks = spell sep f (f k) ks ∧
      ¬ (v = f k ∧ ∀ k ∈ ks, g k = f k) := by
  induction ks generalizing k with
  | nil => exact absurd (isChain_singleton k) hlone
  | cons k' ks ih =>
    obtain ⟨hk', hnodup⟩ := nodup_cons.mp hnodup
    obtain ⟨hfk', hf⟩ := forall_mem_cons.mp hf
    have hother : ∀ (h : κ → List α) w, ∀ j ∈ ks, update h k' w j = h j := by
      intro h w j hj
      exact update_of_ne (ne_of_mem_of_not_mem hj hk') _ _
    by_cases hfirst : Lone (sep k') (f k) (f k')
    · obtain ⟨w, g, hw, hg, hspell, hne⟩ := ih hnodup hf hfk' fun hrest =>
        hlone (isChain_cons_cons.mpr ⟨hfirst, hrest⟩)
      refine ⟨f k, update g k' w, hk, ?_, ?_, ?_⟩
      · rw [forall_mem_cons, update_self]
        exact ⟨hw, fun j hj => by rw [hother g w j hj]; exact hg j hj⟩
      · rw [spell, spell, update_self, spell_congr (hother g w), hspell]
      · rw [forall_mem_cons, update_self]
        rintro ⟨-, hhead, htail⟩
        exact hne ⟨hhead, fun j hj => by rw [← htail j hj, hother g w j hj]⟩
    · simp only [Lone, not_forall] at hfirst
      obtain ⟨v, w, hv, hw, htext, hne⟩ := hfirst
      refine ⟨v, update f k' w, hv, ?_, ?_, fun h => hne h.1⟩
      · rw [forall_mem_cons, update_self]
        exact ⟨hw, fun j hj => by rw [hother f w j hj]; exact hf j hj⟩
      · rw [spell, spell, update_self, spell_congr (hother f w), spell_eq_append w,
          spell_eq_append (f k'), ← append_assoc, ← append_assoc, htext]

end Reading

end Nightingale.Text
