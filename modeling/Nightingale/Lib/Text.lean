import Mathlib.Data.List.Infix
import Mathlib.Data.List.TakeWhile
import Mathlib.Tactic.Linarith

/-!
# Lib/Text — splitting at a separator, and when it undoes joining

A program that stores a list as one text joins it with a separator and splits the text to read it
back.  `split` is the splitting of `strings.Split`: separators are found from the left and do not
overlap.

    xs ──intercalate sep──▸ text ──split sep──▸ ys

Joining undoes splitting always (`intercalate_split`); splitting undoes joining exactly if the parts
are `Clean` (`split_intercalate_iff`): no part holds the separator, and in no part but the last does
a separator begin that the joining completes.
-/

namespace Nightingale.Text

open List

variable {α : Type*}

section Split

variable [DecidableEq α]

/-! ## Splitting -/

/-- `split`, with the rest of a separator to skip first. -/
def splitFrom (sep : List α) : ℕ → List α → List (List α)
  | _, [] => [[]]
  | skip + 1, _ :: l => splitFrom sep skip l
  | 0, c :: l =>
    if sep <+: c :: l then [] :: splitFrom sep (sep.length - 1) l
    else (splitFrom sep 0 l).modifyHead (c :: ·)

/-- `strings.Split` at a separator that is not empty. -/
def split (sep l : List α) : List (List α) := splitFrom sep 0 l

variable {sep : List α}

@[simp] theorem split_nil : split sep [] = [[]] := by simp [split, splitFrom]

theorem splitFrom_eq_split_drop (k : ℕ) (l : List α) :
    splitFrom sep k l = split sep (l.drop k) := by
  induction l generalizing k with
  | nil => cases k <;> simp [split, splitFrom]
  | cons c l ih =>
    cases k with
    | zero => rfl
    | succ k => rw [splitFrom, ih, drop_succ_cons]

theorem split_sep_append (hsep : sep ≠ []) (l : List α) :
    split sep (sep ++ l) = [] :: split sep l := by
  obtain ⟨c, s, rfl⟩ := exists_cons_of_ne_nil hsep
  rw [split, cons_append, splitFrom, if_pos ⟨l, rfl⟩, splitFrom_eq_split_drop]
  simp

theorem split_cons_of_not_starts {c : α} {l : List α} (h : ¬ sep <+: c :: l) :
    split sep (c :: l) = (split sep l).modifyHead (c :: ·) := by
  rw [split, splitFrom, if_neg h]
  rfl

/-- **The induction splitting runs by**: a separator is found, or a character is passed over. -/
theorem split_induct (hsep : sep ≠ []) {P : List α → Prop} (nil : P [])
    (found : ∀ l, P l → P (sep ++ l)) (pass : ∀ c l, ¬ sep <+: c :: l → P l → P (c :: l)) : ∀ l, P l
  | [] => nil
  | c :: l => by
    by_cases h : sep <+: c :: l
    · obtain ⟨rest, hrest⟩ := h
      have hlen : rest.length < l.length + 1 := by
        have := congrArg length hrest
        have := length_pos_of_ne_nil hsep
        simp only [length_append, length_cons] at *
        omega
      rw [← hrest]
      exact found rest (split_induct hsep nil found pass rest)
    · exact pass c l h (split_induct hsep nil found pass l)
termination_by l => l.length

theorem split_ne_nil (hsep : sep ≠ []) (l : List α) : split sep l ≠ [] := by
  induction l using split_induct hsep with
  | nil => simp
  | found l _ => simp [split_sep_append hsep]
  | pass c l h ih =>
    obtain ⟨x, xs, hx⟩ := exists_cons_of_ne_nil ih
    simp [split_cons_of_not_starts h, hx]

/-- **Joining undoes splitting.** -/
theorem intercalate_split (hsep : sep ≠ []) (l : List α) : sep.intercalate (split sep l) = l := by
  induction l using split_induct hsep with
  | nil => simp
  | found l ih =>
    rw [split_sep_append hsep, intercalate_cons_of_ne_nil (split_ne_nil hsep l), ih, nil_append]
  | pass c l h ih =>
    obtain ⟨x, xs, hx⟩ := exists_cons_of_ne_nil (split_ne_nil hsep l)
    rw [hx] at ih
    rw [split_cons_of_not_starts h, hx, modifyHead_cons, intercalate_cons_cons_left, ih]

omit [DecidableEq α] in
/-- What is not in the separator is in the joined parts if it is in one of them. -/
theorem mem_intercalate_iff {a : α} {xs : List (List α)} (ha : a ∉ sep) :
    a ∈ sep.intercalate xs ↔ ∃ x ∈ xs, a ∈ x := by
  induction xs with
  | nil => simp
  | cons x xs ih =>
    cases xs with
    | nil => simp
    | cons y ys =>
      rw [intercalate_cons_cons, mem_append, mem_append, ih]
      simp [ha]

/-! ## Parts that survive -/

/-- In the part followed by the separator, no separator begins before the end of the part. -/
def FirstAfter (sep x : List α) : Prop := ∀ y, y <:+ x → y ≠ [] → ¬ sep <+: y ++ sep

/-- Parts that splitting finds again: none holds a separator, and none but the last begins one. -/
def Clean (sep : List α) : List (List α) → Prop
  | [] => False
  | [x] => ¬ sep <:+: x
  | x :: y :: xs => FirstAfter sep x ∧ Clean sep (y :: xs)

theorem clean_split (hsep : sep ≠ []) (l : List α) : Clean sep (split sep l) := by
  induction l using split_induct hsep with
  | nil => simpa [Clean] using hsep
  | found l ih =>
    obtain ⟨x, xs, hx⟩ := exists_cons_of_ne_nil (split_ne_nil hsep l)
    rw [split_sep_append hsep, hx]
    rw [hx] at ih
    exact ⟨fun y hy hne => absurd (suffix_nil.mp hy) hne, ih⟩
  | pass c l h ih =>
    have hjoin := intercalate_split hsep l
    rw [split_cons_of_not_starts h]
    rcases hx : split sep l with _ | ⟨x, _ | ⟨y, ys⟩⟩
    · exact absurd hx (split_ne_nil hsep l)
    · rw [hx] at ih hjoin
      rw [intercalate_singleton] at hjoin
      subst hjoin
      exact fun hin => (infix_cons_iff.mp hin).elim h ih
    · rw [hx] at ih hjoin
      refine ⟨fun z hz hne => ?_, ih.2⟩
      rcases suffix_cons_iff.mp hz with rfl | hz
      · intro hpre
        rw [← hjoin, intercalate_cons_cons] at h
        exact h (hpre.trans ⟨sep.intercalate (y :: ys), by simp⟩)
      · exact ih.1 z hz hne

theorem split_of_not_infix {x : List α} (h : ¬ sep <:+: x) : split sep x = [x] := by
  induction x with
  | nil => simp
  | cons c x ih =>
    rw [infix_cons_iff, not_or] at h
    rw [split_cons_of_not_starts h.1, ih h.2, modifyHead_cons]

/-- A part that begins no separator is cut off where its separator stands. -/
theorem split_append_of_firstAfter (hsep : sep ≠ []) {x : List α} (h : FirstAfter sep x)
    (rest : List α) : split sep (x ++ sep ++ rest) = x :: split sep rest := by
  induction x with
  | nil => exact split_sep_append hsep rest
  | cons c x ih =>
    have hno : ¬ sep <+: c :: (x ++ sep ++ rest) := fun hpre => by
      refine h (c :: x) suffix_rfl (by simp) ?_
      exact prefix_of_prefix_length_le hpre ⟨rest, by simp⟩ (by simp; omega)
    have htail : FirstAfter sep x := fun y hy => h y (hy.trans (suffix_cons c x))
    rw [cons_append, cons_append, split_cons_of_not_starts hno, ih htail, modifyHead_cons]

/-- **Splitting undoes joining exactly on clean parts.** -/
theorem split_intercalate_iff (hsep : sep ≠ []) {xs : List (List α)} :
    split sep (sep.intercalate xs) = xs ↔ Clean sep xs := by
  constructor
  · intro h
    rw [← h]
    exact clean_split hsep _
  · intro h
    induction xs with
    | nil => exact absurd h id
    | cons x xs ih =>
      cases xs with
      | nil =>
        rw [intercalate_singleton]
        exact split_of_not_infix h
      | cons y ys =>
        rw [intercalate_cons_cons, split_append_of_firstAfter hsep h.1, ih h.2]

/-! ### A separator of two equal characters -/

omit [DecidableEq α] in
theorem firstAfter_pair_iff {a : α} {x : List α} :
    FirstAfter [a, a] x ↔ ¬ [a, a] <:+: x ∧ x.getLast? ≠ some a := by
  constructor
  · intro h
    refine ⟨fun hin => ?_, fun hlast => ?_⟩
    · obtain ⟨s, t, rfl⟩ := hin
      exact h ([a, a] ++ t) ⟨s, by simp⟩ (by simp) ⟨t ++ [a, a], by simp⟩
    · obtain ⟨s, rfl⟩ := getLast?_eq_some_iff.mp hlast
      exact h [a] ⟨s, rfl⟩ (by simp) ⟨[a], rfl⟩
  · rintro ⟨hin, hlast⟩ y hy hne hpre
    obtain ⟨s, rfl⟩ := hy
    rcases y with _ | ⟨b, _ | ⟨c, y⟩⟩
    · exact hne rfl
    · obtain ⟨rfl, -⟩ := cons_prefix_cons.mp hpre
      exact hlast (by simp)
    · obtain ⟨rfl, hpre'⟩ := cons_prefix_cons.mp hpre
      have hc := (cons_prefix_cons.mp hpre').1
      exact hin ⟨s, y, by simp [hc]⟩

/-- **For a doubled character**: no part holds it doubled, and none but the last ends in it. -/
theorem clean_pair_iff {a : α} {xs : List (List α)} :
    Clean [a, a] xs ↔ xs ≠ [] ∧ (∀ x ∈ xs, ¬ [a, a] <:+: x) ∧
      ∀ x ∈ xs.dropLast, x.getLast? ≠ some a := by
  induction xs with
  | nil => simp [Clean]
  | cons x xs ih =>
    cases xs with
    | nil => simp [Clean]
    | cons y ys =>
      rw [Clean, firstAfter_pair_iff, ih]
      simp only [ne_eq, reduceCtorEq, not_false_eq_true, true_and, forall_mem_cons,
        dropLast_cons_cons]
      tauto

omit [DecidableEq α] in
theorem prefix_of_prefix_append_cons {c : α} {l x y : List α} (hc : c ∉ l)
    (h : l <+: x ++ c :: y) : l <+: x := by
  rcases prefix_or_prefix_of_prefix h (prefix_append x (c :: y)) with hl | ⟨t, rfl⟩
  · exact hl
  · rw [prefix_append_right_inj] at h
    rcases t with _ | ⟨d, t⟩
    · simp
    · obtain ⟨rfl, -⟩ := cons_prefix_cons.mp h
      simp at hc

omit [DecidableEq α] in
/-- A text that does not hold a character is found before or behind it. -/
theorem infix_append_cons_iff {c : α} {l x y : List α} (hc : c ∉ l) :
    l <:+: x ++ c :: y ↔ l <:+: x ∨ l <:+: y := by
  induction x with
  | nil =>
    rw [nil_append, infix_cons_iff, infix_nil]
    refine or_congr_left ⟨fun h => ?_, ?_⟩
    · exact prefix_nil.mp (prefix_of_prefix_append_cons (x := []) hc h)
    · rintro rfl
      exact nil_prefix
  | cons d x ih =>
    rw [cons_append, infix_cons_iff, ih, infix_cons_iff, or_assoc, ← cons_append]
    refine or_congr_left ⟨prefix_of_prefix_append_cons hc, fun h => h.trans ?_⟩
    exact prefix_append _ _

/-! ### A separator of one character -/

omit [DecidableEq α] in
theorem firstAfter_singleton_iff {a : α} {x : List α} : FirstAfter [a] x ↔ a ∉ x := by
  constructor
  · intro h hmem
    obtain ⟨s, t, rfl⟩ := append_of_mem hmem
    exact h (a :: t) ⟨s, rfl⟩ (by simp) ⟨t ++ [a], by simp⟩
  · intro hno y hy hne hpre
    obtain ⟨b, z, rfl⟩ := exists_cons_of_ne_nil hne
    obtain ⟨rfl, -⟩ := cons_prefix_cons.mp hpre
    exact hno (hy.subset mem_cons_self)

omit [DecidableEq α] in
/-- **For one character**: no part holds it. -/
theorem clean_singleton_iff {a : α} {xs : List (List α)} :
    Clean [a] xs ↔ xs ≠ [] ∧ ∀ x ∈ xs, a ∉ x := by
  induction xs with
  | nil => simp [Clean]
  | cons x xs ih =>
    cases xs with
    | nil => simp [Clean, singleton_infix_iff]
    | cons y ys =>
      rw [Clean, firstAfter_singleton_iff, ih]
      simp

theorem split_singleton (a : α) (l : List α) : split [a] l = l.splitOn a := by
  induction l with
  | nil => simp [splitOn]
  | cons c l ih =>
    rw [splitOn, splitOnP_cons_eq_if_modifyHead, ← splitOn, ← ih]
    by_cases hc : c = a
    · rw [hc, if_pos (beq_self_eq_true a)]
      exact split_sep_append (cons_ne_nil a []) l
    · rw [if_neg (by simpa using hc), split_cons_of_not_starts]
      exact fun h => hc (cons_prefix_cons.mp h).1.symm

/-! ## Replacing, and fields -/

/-- `strings.Replace` of every occurrence of a text that is not empty. -/
def replaceAll (old new l : List α) : List α := new.intercalate (split old l)

end Split

/-- `strings.Fields`, for the characters `p` calls space. -/
def fields (p : α → Bool) (l : List α) : List (List α) := (l.splitOnP p).filter (· ≠ [])

section Fields

variable {p : α → Bool}

theorem fields_of_forall {x : List α} (hx : ∀ c ∈ x, p c = false) (hne : x ≠ []) :
    fields p x = [x] := by
  rw [fields, splitOnP_eq_singleton hx]
  simp [hne]

theorem fields_append_cons {x : List α} (hx : ∀ c ∈ x, p c = false) (hne : x ≠ []) {s : α}
    (hs : p s = true) (l : List α) : fields p (x ++ s :: l) = x :: fields p l := by
  rw [fields, splitOnP_append_cons_of_forall_mem hx s hs]
  simp [hne, fields]

/-- **Joined by a space, words that are not empty and hold none are found again.** -/
theorem fields_intercalate {s : α} (hs : p s = true) {xs : List (List α)}
    (h : ∀ x ∈ xs, x ≠ [] ∧ ∀ c ∈ x, p c = false) : fields p ([s].intercalate xs) = xs := by
  induction xs with
  | nil => simp [fields]
  | cons x xs ih =>
    obtain ⟨hne, hx⟩ := h x mem_cons_self
    have hxs := fun y hy => h y (mem_cons_of_mem x hy)
    cases xs with
    | nil => rw [intercalate_singleton, fields_of_forall hx hne]
    | cons y ys =>
      rw [intercalate_cons_cons, append_assoc, singleton_append,
        fields_append_cons hx hne hs, ih hxs]

theorem forall_of_mem_splitOnP {l x : List α} (hx : x ∈ l.splitOnP p) : ∀ c ∈ x, p c = false := by
  induction l generalizing x with
  | nil => simp_all
  | cons c l ih =>
    rw [splitOnP_cons_eq_if_modifyHead] at hx
    split at hx
    · rcases mem_cons.mp hx with rfl | hx
      · simp
      · exact ih hx
    · next hc =>
      obtain ⟨y, ys, hy⟩ := exists_cons_of_ne_nil (splitOnP_ne_nil p l)
      rw [hy, modifyHead_cons] at hx
      rcases mem_cons.mp hx with rfl | hx
      · intro d hd
        rcases mem_cons.mp hd with rfl | hd
        · simpa using hc
        · exact ih (hy ▸ mem_cons_self) d hd
      · exact ih (hy ▸ mem_cons_of_mem y hx)

/-- There are no fields exactly if there is nothing but spaces. -/
theorem fields_eq_nil_iff {l : List α} : fields p l = [] ↔ ∀ c ∈ l, p c = true := by
  induction l with
  | nil => simp [fields]
  | cons c l ih =>
    rw [fields, splitOnP_cons_eq_if_modifyHead, forall_mem_cons, ← ih]
    split
    · next hc => simp [fields, hc]
    · next hc =>
      obtain ⟨y, ys, hy⟩ := exists_cons_of_ne_nil (splitOnP_ne_nil p l)
      simp [hy, hc]

theorem mem_fields {l x : List α} (hx : x ∈ fields p l) : x ≠ [] ∧ ∀ c ∈ x, p c = false := by
  obtain ⟨hx, hne⟩ := mem_filter.mp hx
  exact ⟨by simpa using hne, forall_of_mem_splitOnP hx⟩

end Fields

/-! ## Parts set apart -/

/-- A part of a list that is set apart in it: before it stands nothing or a separator, and so
behind it. -/
def Apart (p : α → Bool) (x l : List α) : Prop :=
  ∃ pre post, l = pre ++ x ++ post ∧ (∀ c ∈ pre.getLast?, p c = true) ∧
    ∀ c ∈ post.head?, p c = true

namespace Apart

variable {p q : α → Bool} {x y l : List α}

theorem trans (hxy : Apart p x y) (hyl : Apart p y l) : Apart p x l := by
  obtain ⟨pre, post, rfl, hpre, hpost⟩ := hxy
  obtain ⟨pre', post', rfl, hpre', hpost'⟩ := hyl
  refine ⟨pre' ++ pre, post ++ post', by simp, fun c hc => ?_, fun c hc => ?_⟩
  · rw [getLast?_append] at hc
    cases h : pre.getLast? with
    | none => exact hpre' c (by simpa [h] using hc)
    | some d => exact hpre c (by simpa [h] using hc)
  · rw [head?_append] at hc
    cases h : post.head? with
    | none => exact hpost' c (by simpa [h] using hc)
    | some d => exact hpost c (by simpa [h] using hc)

theorem mono (h : Apart p x l) (hpq : ∀ c, p c = true → q c = true) : Apart q x l := by
  obtain ⟨pre, post, heq, hpre, hpost⟩ := h
  exact ⟨pre, post, heq, fun c hc => hpq c (hpre c hc), fun c hc => hpq c (hpost c hc)⟩

theorem reverse (h : Apart p x l) : Apart p x.reverse l.reverse := by
  obtain ⟨pre, post, rfl, hpre, hpost⟩ := h
  exact ⟨post.reverse, pre.reverse, by simp, by simpa using hpost, by simpa using hpre⟩

theorem dropWhile (p : α → Bool) (l : List α) : Apart p (l.dropWhile p) l := by
  refine ⟨l.takeWhile p, [], by simp, fun c hc => ?_, by simp⟩
  exact mem_takeWhile_imp (mem_of_getLast? hc)

theorem trim (p : α → Bool) (l : List α) :
    Apart p ((l.dropWhile p).reverse.dropWhile p).reverse l := by
  have h := (dropWhile p (l.dropWhile p).reverse).reverse
  rw [reverse_reverse] at h
  exact h.trans (dropWhile p l)

/-- **The parts of a list that is split are set apart.** -/
theorem of_mem_splitOnP (hx : x ∈ l.splitOnP p) : Apart p x l := by
  -- The first part stands at the front, and every other one behind a separator.
  suffices h : ∃ y ys, l.splitOnP p = y :: ys ∧
      (∃ post, l = y ++ post ∧ ∀ c ∈ post.head?, p c = true) ∧
      ∀ z ∈ ys, ∃ pre s post, l = pre ++ s :: (z ++ post) ∧ p s = true ∧
        ∀ c ∈ post.head?, p c = true by
    obtain ⟨y, ys, heq, ⟨post, rfl, hpost⟩, hys⟩ := h
    rw [heq] at hx
    rcases mem_cons.mp hx with rfl | hx
    · exact ⟨[], post, by simp, by simp, hpost⟩
    · obtain ⟨pre, s, post, hl, hs, hpost⟩ := hys x hx
      exact ⟨pre ++ [s], post, by simp [hl], by simpa using hs, hpost⟩
  clear hx
  induction l with
  | nil => exact ⟨[], [], by simp, ⟨[], by simp, by simp⟩, by simp⟩
  | cons c l ih =>
    obtain ⟨y, ys, heq, ⟨post, hl, hpost⟩, hys⟩ := ih
    rw [splitOnP_cons_eq_if_modifyHead, heq]
    split_ifs with hc
    · refine ⟨[], y :: ys, rfl, ⟨c :: l, rfl, by simpa using hc⟩, fun z hz => ?_⟩
      rcases mem_cons.mp hz with rfl | hz
      · exact ⟨[], c, post, by simp [hl], hc, hpost⟩
      · obtain ⟨pre, s, post', hl', hs, hpost'⟩ := hys z hz
        exact ⟨c :: pre, s, post', by simp [hl'], hs, hpost'⟩
    · refine ⟨c :: y, ys, rfl, ⟨post, by simp [hl], hpost⟩, fun z hz => ?_⟩
      obtain ⟨pre, s, post', hl', hs, hpost'⟩ := hys z hz
      exact ⟨c :: pre, s, post', by simp [hl'], hs, hpost'⟩

end Apart

/-! ## On texts -/

/-- `strings.Split`. -/
def splitText (sep s : String) : List String := (split sep.toList s.toList).map String.ofList

/-- `strings.SplitN(s, sep, 2)` at a character, when it yields two parts. -/
def splitN (sep : Char) (s : String) : Option (String × String) :=
  match s.toList.span (· ≠ sep) with
  | (_, []) => none
  | (k, _ :: v) => some (String.ofList k, String.ofList v)

/-- `strings.Replace` of every occurrence. -/
def replaceText (old new s : String) : String :=
  String.ofList (replaceAll old.toList new.toList s.toList)

theorem replaceText_of_not_infix {old new s : String} (h : ¬ old.toList <:+: s.toList) :
    replaceText old new s = s := by
  rw [replaceText, replaceAll, split_of_not_infix h, intercalate_singleton, String.ofList_toList]

/-- `strings.Contains`. -/
def containsText (s sub : String) : Bool := decide (sub.toList <:+: s.toList)

/-- `unicode.ToUpper` or `unicode.ToLower`, known on ASCII only. -/
structure CaseMap (ascii : Char → Char) where
  char : Char → Char
  eq_ascii : ∀ c, c.toNat < 128 → char c = ascii c

/-- `strings.ToUpper` or `strings.ToLower`. -/
def CaseMap.text {ascii : Char → Char} (m : CaseMap ascii) (s : String) : String :=
  String.ofList (s.toList.map m.char)

theorem CaseMap.text_of_ascii {ascii : Char → Char} (m : CaseMap ascii) {s : String}
    (h : ∀ c ∈ s.toList, c.toNat < 128) : m.text s = String.ofList (s.toList.map ascii) := by
  rw [text, map_congr_left fun c hc => m.eq_ascii c (h c hc)]

/-- **A list of texts survives joining and splitting exactly if its parts are clean.** -/
theorem splitText_intercalate_iff {sep : String} (hsep : sep.toList ≠ []) {xs : List String} :
    splitText sep (sep.intercalate xs) = xs ↔ Clean sep.toList (xs.map String.toList) := by
  have hinj : Function.Injective (map String.ofList) := map_injective_iff.mpr fun a b h => by
      have h' := congrArg String.toList h
      rwa [String.toList_ofList, String.toList_ofList] at h'
  have hxs : (xs.map String.toList).map String.ofList = xs := by simp
  rw [← split_intercalate_iff hsep, splitText, String.toList_intercalate]
  constructor
  · intro h
    exact hinj (h.trans hxs.symm)
  · intro h
    rw [h, hxs]

end Nightingale.Text
