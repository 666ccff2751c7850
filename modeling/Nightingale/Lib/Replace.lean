import Nightingale.Lib.Text

/-!
# Lib/Replace — replacing every occurrence of a text

`replaceAll` is `strings.ReplaceAll`.  It runs as splitting does: an occurrence is found, or a
character is passed over, and this gives it its equations.

A common use is an escape: one character is written as a run of another, and the run is read back.

    a.b ──escapeChar──▸ a___b ──unescapeChar──▸ a.b          a_.b ──▸ a____b ──▸ a._b

Reading back finds the text again exactly if it holds no such run and nowhere the one character
directly before the other (`unescapeChar_escapeChar_iff`).
-/

namespace Nightingale.Text

open List

variable {α : Type*} [DecidableEq α]

/-! ## The equations of replacing -/

section Replace

variable {old new : List α}

@[simp] theorem replaceAll_nil : replaceAll old new [] = [] := by simp [replaceAll]

theorem replaceAll_append (hold : old ≠ []) (l : List α) :
    replaceAll old new (old ++ l) = new ++ replaceAll old new l := by
  rw [replaceAll, split_sep_append hold, intercalate_cons_of_ne_nil (split_ne_nil hold l),
    nil_append, replaceAll]

theorem replaceAll_cons_of_not_starts (hold : old ≠ []) {c : α} {l : List α}
    (h : ¬ old <+: c :: l) : replaceAll old new (c :: l) = c :: replaceAll old new l := by
  obtain ⟨x, xs, hx⟩ := exists_cons_of_ne_nil (split_ne_nil hold l)
  rw [replaceAll, split_cons_of_not_starts h, replaceAll, hx, modifyHead_cons,
    intercalate_cons_cons_left]

theorem replaceAll_singleton (a : α) (l : List α) :
    replaceAll [a] new l = l.flatMap fun c => if c = a then new else [c] := by
  induction l with
  | nil => simp
  | cons c l ih =>
    rw [flatMap_cons, ← ih]
    split_ifs with hc
    · rw [hc]
      exact replaceAll_append (cons_ne_nil a []) l
    · refine replaceAll_cons_of_not_starts (cons_ne_nil a []) fun hstarts => hc ?_
      exact (cons_prefix_cons.mp hstarts).1.symm

end Replace

/-! ## An escape -/

section Escape

variable (d u : α) (n : ℕ)

/-- The character `d` is written as a run of `u`s. -/
def escapeChar (l : List α) : List α := replaceAll [d] (replicate n u) l

/-- A run of `u`s is read as `d`. -/
def unescapeChar (l : List α) : List α := replaceAll (replicate n u) [d] l

/-- No run of `u`s stands in the text, and no `u` before a `d`. -/
def Escapable (l : List α) : Prop := ¬ replicate n u <:+: l ∧ ¬ [u, d] <:+: l

variable {d u n} {c : α} {l : List α}

theorem escapeChar_cons : escapeChar d u n (c :: l)
    = (if c = d then replicate n u else [c]) ++ escapeChar d u n l := by
  rw [escapeChar, escapeChar, replaceAll_singleton, replaceAll_singleton, flatMap_cons]

theorem notMem_escapeChar (hne : d ≠ u) : d ∉ escapeChar d u n l := by
  rw [escapeChar, replaceAll_singleton, mem_flatMap]
  rintro ⟨c, -, hc⟩
  split_ifs at hc with h
  · exact hne (eq_of_mem_replicate hc)
  · exact h (mem_singleton.mp hc).symm

omit [DecidableEq α] in
theorem Escapable.of_cons (h : Escapable d u n (c :: l)) : Escapable d u n l :=
  ⟨fun hin => h.1 (hin.trans (suffix_cons c l).isInfix),
    fun hin => h.2 (hin.trans (suffix_cons c l).isInfix)⟩

/-- In an escapable text, a run behind a `u` was a run before. -/
theorem replicate_prefix_of_escapeChar {k : ℕ} (h : ¬ [u, d] <:+: u :: l)
    (hk : replicate k u <+: escapeChar d u n l) : replicate k u <+: l := by
  induction k generalizing l with
  | zero => exact nil_prefix
  | succ k ih =>
    rw [replicate_succ] at hk ⊢
    cases l with
    | nil => simp [escapeChar] at hk
    | cons c l =>
      have hcd : c ≠ d := by
        rintro rfl
        exact h ⟨[], l, rfl⟩
      rw [escapeChar_cons, if_neg hcd, singleton_append, cons_prefix_cons] at hk
      obtain ⟨rfl, hk⟩ := hk
      refine cons_prefix_cons.mpr ⟨rfl, ih (fun hin => h ?_) hk⟩
      exact hin.trans (suffix_cons u (u :: l)).isInfix

theorem unescapeChar_escapeChar (hn : n ≠ 0) (h : Escapable d u n l) :
    unescapeChar d u n (escapeChar d u n l) = l := by
  have hrun : replicate n u ≠ [] := by simpa using hn
  induction l with
  | nil => simp [escapeChar, unescapeChar]
  | cons c l ih =>
    have ih := ih h.of_cons
    rw [escapeChar_cons]
    split_ifs with hc
    · rw [unescapeChar, replaceAll_append hrun, singleton_append, hc]
      exact congrArg _ ih
    · rw [unescapeChar, singleton_append, replaceAll_cons_of_not_starts hrun]
      · exact congrArg _ ih
      · intro hstarts
        obtain ⟨m, rfl⟩ := Nat.exists_eq_succ_of_ne_zero hn
        rw [replicate_succ, cons_prefix_cons] at hstarts
        obtain ⟨rfl, hstarts⟩ := hstarts
        refine h.1 (IsPrefix.isInfix ?_)
        rw [replicate_succ, cons_prefix_cons]
        exact ⟨rfl, replicate_prefix_of_escapeChar h.2 hstarts⟩

theorem replicate_prefix_of_unescapeChar (hn : n ≠ 0) (hne : d ≠ u) {k : ℕ}
    (hk : replicate k u <+: unescapeChar d u n l) : replicate k u <+: l := by
  have hrun : replicate n u ≠ [] := by simpa using hn
  induction l using split_induct hrun generalizing k with
  | nil => simpa [unescapeChar] using hk
  | found l _ =>
    rw [unescapeChar, replaceAll_append hrun] at hk
    cases k with
    | zero => exact nil_prefix
    | succ k =>
      rw [replicate_succ] at hk
      exact absurd (cons_prefix_cons.mp hk).1.symm hne
  | pass c l h ih =>
    rw [unescapeChar, replaceAll_cons_of_not_starts hrun h] at hk
    cases k with
    | zero => exact nil_prefix
    | succ k =>
      rw [replicate_succ, cons_prefix_cons] at hk ⊢
      exact ⟨hk.1, ih hk.2⟩

theorem replicate_prefix_of_cons_unescapeChar (hn : n ≠ 0) (hd : d ∉ l)
    (h : [d] <+: unescapeChar d u n l) : replicate n u <+: l := by
  have hrun : replicate n u ≠ [] := by simpa using hn
  by_contra hno
  cases l with
  | nil => simp [unescapeChar] at h
  | cons c l =>
    rw [unescapeChar, replaceAll_cons_of_not_starts hrun hno] at h
    exact hd ((cons_prefix_cons.mp h).1 ▸ mem_cons_self)

theorem escapable_unescapeChar (hn : n ≠ 0) (hne : d ≠ u) (hd : d ∉ l) :
    Escapable d u n (unescapeChar d u n l) := by
  have hrun : replicate n u ≠ [] := by simpa using hn
  obtain ⟨m, rfl⟩ := Nat.exists_eq_succ_of_ne_zero hn
  induction l using split_induct hrun with
  | nil => simp [unescapeChar, Escapable]
  | found l ih =>
    have ih := ih fun h => hd (mem_append_right _ h)
    have hfound : unescapeChar d u (m + 1) (replicate (m + 1) u ++ l)
        = d :: unescapeChar d u (m + 1) l := replaceAll_append hrun l
    rw [hfound]
    refine ⟨fun hin => ?_, fun hin => ?_⟩
    · rcases infix_cons_iff.mp hin with hpre | hin
      · rw [replicate_succ, cons_prefix_cons] at hpre
        exact hne hpre.1.symm
      · exact ih.1 hin
    · rcases infix_cons_iff.mp hin with hpre | hin
      · exact hne (cons_prefix_cons.mp hpre).1.symm
      · exact ih.2 hin
  | pass c l h ih =>
    have hdl : d ∉ l := fun h => hd (mem_cons_of_mem c h)
    have ih := ih hdl
    have hpass : unescapeChar d u (m + 1) (c :: l) = c :: unescapeChar d u (m + 1) l :=
      replaceAll_cons_of_not_starts hrun h
    rw [hpass]
    rw [replicate_succ] at h
    refine ⟨fun hin => ?_, fun hin => ?_⟩
    · rcases infix_cons_iff.mp hin with hpre | hin
      · rw [replicate_succ, cons_prefix_cons] at hpre
        obtain ⟨rfl, hpre⟩ := hpre
        have hleft := replicate_prefix_of_unescapeChar hn hne hpre
        exact h (cons_prefix_cons.mpr ⟨rfl, hleft⟩)
      · exact ih.1 hin
    · rcases infix_cons_iff.mp hin with hpre | hin
      · obtain ⟨rfl, hrest⟩ := cons_prefix_cons.mp hpre
        have hleft := replicate_prefix_of_cons_unescapeChar hn hdl hrest
        rw [replicate_succ'] at hleft
        exact h (cons_prefix_cons.mpr ⟨rfl, (prefix_append _ _).trans hleft⟩)
      · exact ih.2 hin

/-- **The text is read back exactly if it is escapable.** -/
theorem unescapeChar_escapeChar_iff (hn : n ≠ 0) (hne : d ≠ u) :
    unescapeChar d u n (escapeChar d u n l) = l ↔ Escapable d u n l := by
  refine ⟨fun h => ?_, unescapeChar_escapeChar hn⟩
  rw [← h]
  exact escapable_unescapeChar hn hne (notMem_escapeChar hne)

end Escape

theorem toList_replaceText (old new s : String) :
    (replaceText old new s).toList = replaceAll old.toList new.toList s.toList := by
  rw [replaceText, String.toList_ofList]

end Nightingale.Text
