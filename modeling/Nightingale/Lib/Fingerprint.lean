import Mathlib.Data.List.MinMax
import Mathlib.Order.Basic
import Nightingale.Lib.Run

/-!
# Lib/Fingerprint — a copy of a table, guarded by two numbers

A copy of a table is kept up to date by asking for two numbers first, how many rows there are and
the newest stamp among them, and by reading the table only if one of them has changed:

    numbers asked ──unchanged──▸ done
                  ──changed────▸ table read, numbers kept ──▸ done

The table may change at any moment, also between the two.  Let every row that is put in or changed
be stamped later than the newest stamp seen.  Then the rows that are not newer only become fewer,
and as long as there are as many as were seen they are the same: so equal numbers mean an equal
table.  They do not yet mean an equal copy, for the copy may hold a row that was put in between the
numbers and the read, and is gone again; such a copy is **mixed**, and of a mixed copy no newer row
may be taken out.

`Guarded` says this of a state; by `Guarded.fresh` the copy is right whenever an update ends.
-/

namespace Nightingale

open List Option

/-- What is asked of a table and what is read of it: the rows that count, their stamps, the rows a
read returns at a time, and what is made of them.  A row that is read counts. -/
structure Mirror (ρ γ : Type) where
  counts : ρ → Bool
  stamp : ρ → ℤ
  shows : ℤ → ρ → Bool
  build : List ρ → γ
  counts_of_shows : ∀ now r, shows now r = true → counts r = true

/-- A change of a table: every row is kept, changed or taken out, and rows are put in. -/
structure Edit (ρ : Type) where
  edit : ρ → Option ρ
  added : List ρ

/-- The table after a change. -/
def Edit.apply {ρ : Type} (c : Edit ρ) (table : List ρ) : List ρ :=
  table.filterMap c.edit ++ c.added

namespace Mirror

variable {ρ γ : Type}

/-- The table and the copy: what it holds, the two numbers it was read under, when it was read, if
it is mixed, and the numbers of an update under way. -/
structure State (ρ γ : Type) where
  table : List ρ
  content : γ
  total : ℤ := -1
  newest : ℤ := -1
  readAt : ℤ := 0
  mixed : Bool := false
  pending : Option (ℤ × ℤ) := none

/-- The numbers seen last. -/
def State.seen (s : State ρ γ) : ℤ × ℤ := s.pending.getD (s.total, s.newest)

/-- The table changes, the numbers are asked for, or the table is read. -/
inductive Action (ρ : Type) where
  | change (c : Edit ρ)
  | ask (now : ℤ)
  | read (now : ℤ)

/-- When an action happens, if it looks at the clock. -/
def Action.now : Action ρ → ℤ
  | .change _ => 0
  | .ask now => now
  | .read now => now

variable (m : Mirror ρ γ)

/-- How many rows count. -/
def total (table : List ρ) : ℤ := table.countP m.counts

/-- The newest stamp, 0 if there is none. -/
def newest (table : List ρ) : ℤ := ((table.filter m.counts).map m.stamp).max?.getD 0

/-- What a read of the table returns. -/
def view (now : ℤ) (table : List ρ) : γ := m.build (table.filter (m.shows now))

/-- The row is newer than a stamp. -/
def newer (newest : ℤ) (r : ρ) : Bool := m.counts r && decide (newest < m.stamp r)

/-- The row is not newer than a stamp. -/
def older (newest : ℤ) (r : ρ) : Bool := m.counts r && decide (m.stamp r ≤ newest)

/-- One action.  Nothing is asked for while an update is under way. -/
def step (s : State ρ γ) : Action ρ → State ρ γ
  | .change c => { s with table := c.apply s.table }
  | .ask _ =>
    match s.pending with
    | some _ => s
    | none =>
      if s.total = m.total s.table ∧ s.newest = m.newest s.table then s
      else { s with pending := some (m.total s.table, m.newest s.table) }
  | .read now =>
    match s.pending with
    | none => s
    | some (total, newest) =>
      { s with
        content := m.view now s.table
        total := total
        newest := newest
        readAt := now
        mixed := s.table.any (m.newer newest)
        pending := none }

/-- An update ends with an action: the numbers are as they were, or the table is read. -/
def Ends (s : State ρ γ) : Action ρ → Prop
  | .change _ => False
  | .ask _ => s.pending = none ∧ s.total = m.total s.table ∧ s.newest = m.newest s.table
  | .read _ => s.pending ≠ none

instance (s : State ρ γ) : (a : Action ρ) → Decidable (m.Ends s a)
  | .change _ => inferInstanceAs (Decidable False)
  | .ask _ => inferInstanceAs (Decidable (_ ∧ _))
  | .read _ => inferInstanceAs (Decidable (¬ _))

/-- **The copy is right** if the action ends an update: it is what a read returns. -/
def Fresh (s : State ρ γ) (a : Action ρ) : Prop :=
  m.Ends s a → (m.step s a).content = m.view a.now (m.step s a).table

instance [DecidableEq γ] (s : State ρ γ) (a : Action ρ) : Decidable (m.Fresh s a) :=
  inferInstanceAs (Decidable (_ → _))

/-- Rows put in or changed are newer than a stamp. -/
def Orderly (newest : ℤ) (table : List ρ) (c : Edit ρ) : Prop :=
  (∀ r ∈ c.added, m.counts r = true → newest < m.stamp r) ∧
    ∀ r ∈ table, c.edit r = some r ∨ ∀ r' ∈ c.edit r, m.counts r' = true → newest < m.stamp r'

/-- No row newer than a stamp is taken out. -/
def Spares (newest : ℤ) (table : List ρ) (c : Edit ρ) : Prop :=
  ∀ r ∈ table, m.newer newest r = true → ∃ r' ∈ c.edit r, m.counts r' = true

/-- **Orderly actions.**  Once the numbers have been seen, changes are orderly for them, and no
newer row is taken out of a table whose copy is mixed; and when the numbers are found as they were,
a read would return the rows that it returned last time. -/
def Heeds (s : State ρ γ) : Action ρ → Prop
  | .change c => 0 ≤ s.seen.1 → m.Orderly s.seen.2 s.table c ∧
      (s.pending = none → s.mixed = true → m.Spares s.seen.2 s.table c)
  | .ask now => m.Ends s (.ask now) → ∀ r ∈ s.table, m.shows s.readAt r = m.shows now r
  | .read _ => True

/-! ## What the two numbers show -/

variable {m}

theorem total_eq_length (table : List ρ) : m.total table = (table.filter m.counts).length := by
  rw [total, countP_eq_length_filter]

theorem stamp_le_newest {table : List ρ} {r : ρ} (hr : r ∈ table) (hc : m.counts r = true) :
    m.stamp r ≤ m.newest table := by
  have hmem : m.stamp r ∈ (table.filter m.counts).map m.stamp :=
    mem_map_of_mem (mem_filter.mpr ⟨hr, hc⟩)
  cases hmax : ((table.filter m.counts).map m.stamp).max? with
  | none =>
    rw [max?_eq_none_iff] at hmax
    rw [hmax] at hmem
    exact absurd hmem not_mem_nil
  | some x =>
    rw [newest, hmax, getD_some]
    exact (max?_eq_some_iff.mp hmax).2 _ hmem

theorem not_newer_newest (table : List ρ) : table.any (m.newer (m.newest table)) = false := by
  refine any_eq_false.mpr fun r hr hnew => ?_
  obtain ⟨hc, hlt⟩ := Bool.and_eq_true_iff.mp hnew
  exact absurd (stamp_le_newest hr hc) (not_le.mpr (of_decide_eq_true hlt))

theorem filter_older {newest : ℤ} {table : List ρ} (h : table.any (m.newer newest) = false) :
    table.filter (m.older newest) = table.filter m.counts := by
  refine filter_congr fun r hr => ?_
  have hnot := any_eq_false.mp h r hr
  cases hc : m.counts r with
  | false => simp [older, hc]
  | true => simpa [older, newer, hc] using hnot

theorem view_filter_counts (now : ℤ) (table : List ρ) :
    m.view now (table.filter m.counts) = m.view now table := by
  rw [view, view, List.filter_filter]
  refine congrArg m.build (List.filter_congr fun r _ => ?_)
  cases hshows : m.shows now r with
  | false => rfl
  | true => rw [m.counts_of_shows now r hshows]; rfl

/-! ## One change -/

/-- Of the rows with a property, if no row comes to have it, only rows are taken out. -/
theorem filter_filterMap_sublist {p : ρ → Bool} {edit : ρ → Option ρ} {table : List ρ}
    (h : ∀ r ∈ table, edit r = some r ∨ ∀ r' ∈ edit r, p r' = false) :
    ((table.filterMap edit).filter p).Sublist (table.filter p) := by
  induction table with
  | nil => exact Sublist.refl _
  | cons r table ih =>
    obtain ⟨hr, htable⟩ := forall_mem_cons.mp h
    rcases hr with hr | hr
    · rw [filterMap_cons_some hr, filter_cons, filter_cons]
      split_ifs
      · exact (ih htable).cons_cons r
      · exact ih htable
    · have hhead : ((r :: table).filterMap edit).filter p = (table.filterMap edit).filter p := by
        cases hedit : edit r with
        | none => rw [filterMap_cons_none hedit]
        | some r' =>
          rw [filterMap_cons_some hedit, filter_cons_of_neg (by simp [hr r' hedit])]
      rw [hhead]
      exact (ih htable).trans ((sublist_cons_self r table).filter p)

/-- **After an orderly change** the older rows are those from before, or some of them. -/
theorem Orderly.filter_older_sublist {newest : ℤ} {table : List ρ} {c : Edit ρ}
    (h : m.Orderly newest table c) :
    ((c.apply table).filter (m.older newest)).Sublist (table.filter (m.older newest)) := by
  have hnot : ∀ r, (m.counts r = true → newest < m.stamp r) → m.older newest r = false := by
    intro r hr
    cases hc : m.counts r with
    | false => simp [older, hc]
    | true => simpa [older, hc] using hr hc
  have hadded : c.added.filter (m.older newest) = [] :=
    filter_eq_nil_iff.mpr fun r hr => by simp [hnot r (h.1 r hr)]
  rw [Edit.apply, filter_append, hadded, append_nil]
  exact filter_filterMap_sublist fun r hr =>
    (h.2 r hr).imp_right fun hnewer r' hr' => hnot r' (hnewer r' hr')

theorem any_newer_apply {newest : ℤ} {table : List ρ} {c : Edit ρ} (h : m.Orderly newest table c)
    (hspares : m.Spares newest table c) (hnew : table.any (m.newer newest) = true) :
    (c.apply table).any (m.newer newest) = true := by
  obtain ⟨r, hr, hnewer⟩ := any_eq_true.mp hnew
  obtain ⟨r', hr', hc⟩ := hspares r hr hnewer
  refine any_eq_true.mpr
    ⟨r', mem_append_left _ (mem_filterMap.mpr ⟨r, hr, hr'⟩), ?_⟩
  rcases h.2 r hr with hkept | hlater
  · obtain rfl := some.inj (hkept.symm.trans hr')
    exact hnewer
  · simpa [newer, hc] using hlater r' hr' hc

/-! ## Runs -/

/-- What is known of the copy, once the numbers have been seen: there are no more older rows than
were seen; and if no update is under way, a mixed copy has a newer row to show for it, and any other
is what a read at its time makes of the older rows, as long as there are as many. -/
def Guarded (m : Mirror ρ γ) (s : State ρ γ) : Prop :=
  s.seen.1 < 0 ∨
    ((s.table.filter (m.older s.seen.2)).length : ℤ) ≤ s.seen.1 ∧
      (s.pending = none →
        (s.mixed = true → s.table.any (m.newer s.seen.2) = true) ∧
        (s.mixed = false → ((s.table.filter (m.older s.seen.2)).length : ℤ) = s.seen.1 →
          s.content = m.view s.readAt (s.table.filter (m.older s.seen.2))))

variable {s : State ρ γ}

theorem Guarded.change (hs : m.Guarded s) {c : Edit ρ} (h : m.Heeds s (.change c)) :
    m.Guarded (m.step s (.change c)) := by
  rcases hs with hneg | ⟨hle, hcopy⟩
  · exact .inl hneg
  · obtain ⟨horderly, hspares⟩ := h (by omega)
    have hsub := horderly.filter_older_sublist
    have hlen := hsub.length_le
    refine .inr ⟨?_, fun hpending => ⟨fun hmixed => ?_, fun hmixed htotal => ?_⟩⟩
    · exact le_trans (by exact_mod_cast hlen) hle
    · exact any_newer_apply horderly (hspares hpending hmixed) ((hcopy hpending).1 hmixed)
    · have htotal : ((c.apply s.table).filter (m.older s.seen.2)).length = s.seen.1 := htotal
      have hsame := hsub.eq_of_length (by omega)
      exact ((hcopy hpending).2 hmixed (by rw [← hsame]; exact htotal)).trans
        (congrArg (m.view s.readAt) hsame.symm)

/-- **The numbers are as they were**: then the copy is what a read at its time returns. -/
theorem Guarded.content_eq (hs : m.Guarded s) {now : ℤ} (h : m.Ends s (.ask now)) :
    s.content = m.view s.readAt s.table := by
  obtain ⟨hpending, htotal, hnewest⟩ := h
  have hseen : s.seen = (m.total s.table, m.newest s.table) := by
    rw [State.seen, hpending, getD_none, htotal, hnewest]
  have hnot := m.not_newer_newest s.table
  rw [Guarded, hseen, filter_older hnot, ← total_eq_length] at hs
  rcases hs with hneg | ⟨-, hcopy⟩
  · rw [total_eq_length] at hneg
    omega
  · obtain ⟨hmixed, hcontent⟩ := hcopy hpending
    have hclean : s.mixed = false := Bool.eq_false_of_not_eq_true fun h =>
      absurd (hmixed h) (by simp [hnot])
    rw [hcontent hclean rfl, view_filter_counts]

/-- **One action.** -/
theorem Guarded.step (hs : m.Guarded s) {a : Action ρ} (h : m.Heeds s a) :
    m.Guarded (m.step s a) := by
  cases a with
  | change c => exact hs.change h
  | ask now =>
    simp only [Mirror.step]
    cases hpending : s.pending with
    | some p => exact hs
    | none =>
      split_ifs
      · exact hs
      · refine .inr ⟨?_, fun h => by cases h⟩
        simp only [State.seen, getD_some]
        rw [filter_older (m.not_newer_newest s.table), total_eq_length]
  | read now =>
    simp only [Mirror.step]
    cases hpending : s.pending with
    | none => exact hs
    | some p =>
      have hseen : s.seen = p := by rw [State.seen, hpending, getD_some]
      rw [Guarded, hseen] at hs
      rcases hs with hneg | ⟨hle, -⟩
      · exact .inl hneg
      · refine .inr ⟨hle, fun _ => ⟨fun hmixed => hmixed, fun hmixed _ => ?_⟩⟩
        simp only [State.seen, getD_none]
        rw [filter_older hmixed, view_filter_counts]

/-- **An update that ends leaves the copy right.** -/
theorem Guarded.fresh (hs : m.Guarded s) {a : Action ρ} (h : m.Heeds s a) : m.Fresh s a := by
  intro hends
  cases a with
  | change c => exact hends.elim
  | ask now =>
    have hsame : m.step s (.ask now) = s := by
      obtain ⟨hpending, hnumbers⟩ := id hends
      simp only [Mirror.step, hpending, if_pos hnumbers]
    rw [hsame, hs.content_eq hends, view, view, Action.now, filter_congr (h hends)]
  | read now =>
    obtain ⟨p, hp⟩ := ne_none_iff_exists'.mp hends
    simp only [Mirror.step, hp, Action.now]

end Mirror

end Nightingale
