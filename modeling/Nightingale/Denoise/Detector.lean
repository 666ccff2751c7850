import Nightingale.Denoise.Aggregator

/-!
# Denoise/Detector — when a storm is seen

`StormDetector.Observe` keeps the times of an incident's events.  A call drops those before its own
window for good, adds its own, and answers true if they are as many as its threshold, neither more
nor less:

    retained ──drop before now − w──▸ ── + now ──▸ length = threshold?  ──yes──▸ true, start over

The threshold and the window are those of the rule as it is now.  What is counted are then the
events in the windows of *all* calls since the last storm (`Retains`), which are fewer than
those in the window of this call if a window was shorter before, and already too many if the
threshold was higher.
-/

namespace Nightingale.Denoise

open List StormDetector

/-! ## Calls on one incident -/

/-- A call of `Observe`: the clock, and the storm settings of the rule at that time. -/
structure Observation where
  now : ℤ
  threshold : ℤ
  windowSec : ℤ
  deriving DecidableEq

/-- The beginning of a call's window. -/
def Observation.cutoff (o : Observation) : ℤ := o.now - o.windowSec

/-- The times retained for an incident. -/
def StormDetector.retained (s : StormDetector) (incidentId : ℕ) : List ℤ :=
  (s.lookup incidentId).getD []

/-- The observations in the window of a call. -/
def seen (since : List Observation) (o : Observation) : ℕ :=
  since.countP fun p => o.cutoff ≤ p.now

/-- **The detector is right about a sequence of calls**, when `since` are those since the last true
result: a call answers true exactly if the observations since then, this one included, that are not
older than its window are at least as many as its threshold; and it retains less times than that. -/
def Detects (incidentId : ℕ) : StormDetector → List Observation → List Observation → Prop
  | _, _, [] => True
  | s, since, o :: calls =>
    let (storm, s) := s.observe o.now incidentId o.threshold o.windowSec
    (storm = true ↔ o.threshold ≤ (seen since o + 1 : ℕ)) ∧
      ((s.retained incidentId).length : ℤ) < o.threshold ∧
      Detects incidentId s (if storm then [] else since ++ [o]) calls

/-! ## What is retained -/

/-- The observations that lie in the windows of all calls. -/
def InAll (calls : List Observation) (p : Observation) : Prop := ∀ q ∈ calls, q.cutoff ≤ p.now

instance (calls : List Observation) : DecidablePred (InAll calls) := fun p =>
  inferInstanceAs (Decidable (∀ q ∈ calls, q.cutoff ≤ p.now))

/-- The observations since the last storm that have stayed: in the window of this call, and in those
of all calls before it. -/
def stayed (since : List Observation) (o : Observation) : ℕ := since.countP (InAll (since ++ [o]))

theorem stayed_le_seen (since : List Observation) (o : Observation) :
    stayed since o ≤ seen since o := countP_mono_left fun p _ hp => by
    rw [decide_eq_true_eq] at hp ⊢
    exact hp o (by simp)

theorem dropWhile_eq_filter {times : List ℤ} (h : times.Pairwise (· ≤ ·)) (cutoff : ℤ) :
    times.dropWhile (fun t => t < cutoff) = times.filter fun t => cutoff ≤ t := by
  induction times with
  | nil => rfl
  | cons t times ih =>
    obtain ⟨hfirst, hrest⟩ := pairwise_cons.mp h
    by_cases ht : t < cutoff
    · rw [dropWhile_cons_of_pos (by simpa using ht), ih hrest,
        filter_cons_of_neg (by simpa using ht)]
    · rw [dropWhile_cons_of_neg (by simpa using ht), filter_eq_self.mpr]
      intro x hx
      rcases mem_cons.mp hx with rfl | hx
      · simpa using ht
      · simpa using (not_lt.mp ht).trans (hfirst x hx)

section Step

variable {s : StormDetector} {incidentId : ℕ} {since : List Observation} {o : Observation}

/-- The times of observations in order, with windows that are not empty. -/
structure Chronological (calls : List Observation) : Prop where
  sorted : calls.Pairwise (·.now ≤ ·.now)
  windows : ∀ o ∈ calls, 0 < o.windowSec

/-- What the detector retains: the observations since the last storm in the windows of all calls
since then. -/
def Retains (s : StormDetector) (incidentId : ℕ) (since : List Observation) : Prop :=
  s.retained incidentId = (since.filter (InAll since)).map Observation.now

/-- An observation lies in its own window and in those before. -/
theorem Chronological.inAll_last (h : Chronological (since ++ [o])) : InAll (since ++ [o]) o := by
  intro q hq
  have hpos := h.windows q hq
  have hle : q.now ≤ o.now := by
    rcases mem_append.mp hq with hq | hq
    · exact (pairwise_append.mp h.sorted).2.2 q hq o (by simp)
    · rw [mem_singleton.mp hq]
  unfold Observation.cutoff
  omega

/-- **What a call keeps** before it looks at its threshold. -/
theorem Retains.trim (h : Retains s incidentId since) (ho : Chronological (since ++ [o])) :
    ((s.retained incidentId).dropWhile fun t => t < o.now - o.windowSec) ++ [o.now]
      = ((since ++ [o]).filter (InAll (since ++ [o]))).map Observation.now := by
  have hsorted : (s.retained incidentId).Pairwise (· ≤ ·) := by
    rw [h, pairwise_map]
    exact ((pairwise_append.mp ho.sorted).1.filter _)
  rw [dropWhile_eq_filter hsorted, h, filter_map, filter_filter, filter_append,
    filter_cons_of_pos (by simpa using ho.inAll_last), map_append]
  congr 2
  refine filter_congr fun p _ => ?_
  simp [InAll, Observation.cutoff, and_comm, or_imp, forall_and]

theorem length_filter_inAll (ho : Chronological (since ++ [o])) :
    ((since ++ [o]).filter (InAll (since ++ [o]))).length = stayed since o + 1 := by
  rw [filter_append, filter_cons_of_pos (by simpa using ho.inAll_last),
    length_append, stayed, countP_eq_length_filter]
  rfl

/-- **One call**: it answers true if what has stayed, with this observation, is its threshold, and
starts over then. -/
theorem Retains.observe (h : Retains s incidentId since) (ho : Chronological (since ++ [o]))
    (hpos : 0 < o.threshold) : ∃ s', Retains s' incidentId
        (if ((stayed since o + 1 : ℕ) : ℤ) = o.threshold then [] else since ++ [o]) ∧
      s.observe o.now incidentId o.threshold o.windowSec
        = (decide (((stayed since o + 1 : ℕ) : ℤ) = o.threshold), s') := by
  unfold StormDetector.observe
  have htrim : (((s.lookup incidentId).getD []).dropWhile fun t => t < o.now - o.windowSec)
      ++ [o.now] = _ := h.trim ho
  rw [if_neg (not_le.mpr hpos)]
  dsimp only
  rw [htrim, length_map, length_filter_inAll ho]
  split_ifs with hfull
  · refine ⟨_, ?_, by rw [decide_eq_true hfull]⟩
    simp [Retains, retained]
  · refine ⟨_, ?_, by rw [decide_eq_false hfull]⟩
    simp [Retains, retained]

end Step

/-! ## When the detector is right -/

/-- **The settings are steady along the calls**: whenever a storm is due, the observations that have
stayed in all windows, with the present one, are exactly as many as the threshold. -/
def Steady : List Observation → List Observation → Prop
  | _, [] => True
  | since, o :: calls =>
    if o.threshold ≤ (seen since o + 1 : ℕ) then
      ((stayed since o + 1 : ℕ) : ℤ) = o.threshold ∧ Steady [] calls
    else Steady (since ++ [o]) calls

section Run

variable {s : StormDetector} {incidentId : ℕ} {since calls : List Observation}

theorem Chronological.left (h : Chronological (since ++ calls)) : Chronological since :=
  ⟨(pairwise_append.mp h.sorted).1, fun o ho => h.windows o (mem_append_left _ ho)⟩

theorem Chronological.right (h : Chronological (since ++ calls)) : Chronological calls :=
  ⟨(pairwise_append.mp h.sorted).2.1, fun o ho => h.windows o (mem_append_right _ ho)⟩

theorem retained_length {o : Observation} (ho : Chronological (since ++ [o]))
    (h : Retains s incidentId (since ++ [o])) :
    (s.retained incidentId).length = stayed since o + 1 := by
  rw [h, length_map, length_filter_inAll ho]

/-- **The run**, by induction on the calls; what is retained carries it. -/
theorem Retains.detects_iff (h : Retains s incidentId since) (ho : Chronological (since ++ calls))
    (hpos : ∀ o ∈ calls, 0 < o.threshold) :
    Detects incidentId s since calls ↔ Steady since calls := by
  induction calls generalizing s since with
  | nil => exact Iff.rfl
  | cons o calls ih =>
    have hsplit : since ++ o :: calls = (since ++ [o]) ++ calls := by simp
    rw [hsplit] at ho
    have hthreshold := hpos o mem_cons_self
    obtain ⟨s', hs', hobserve⟩ := h.observe ho.left hthreshold
    have hle := stayed_le_seen since o
    have hpos' : ∀ o ∈ calls, 0 < o.threshold := fun o ho => hpos o (mem_cons_of_mem _ ho)
    rw [Detects, Steady, hobserve]
    dsimp only
    by_cases hfull : ((stayed since o + 1 : ℕ) : ℤ) = o.threshold
    · -- The call answers true, and the detector starts over.
      have hdue : o.threshold ≤ (seen since o + 1 : ℕ) := by omega
      rw [if_pos hfull] at hs'
      have hempty : s'.retained incidentId = [] := hs'
      rw [decide_eq_true hfull, if_pos rfl, if_pos hdue, hempty, ih hs' (by simpa using ho.right)
        hpos']
      exact ⟨fun h => ⟨hfull, h.2.2⟩, fun h => ⟨iff_of_true rfl hdue, hthreshold, h.2⟩⟩
    · rw [if_neg hfull] at hs'
      rw [decide_eq_false hfull, if_neg Bool.false_ne_true, retained_length ho.left hs']
      by_cases hdue : o.threshold ≤ (seen since o + 1 : ℕ)
      · rw [if_pos hdue]
        exact iff_of_false (fun h => Bool.false_ne_true (h.1.mpr hdue)) fun h => hfull h.1
      · rw [if_neg hdue, ih hs' ho hpos']
        exact ⟨fun h => h.2.2, fun h => ⟨iff_of_false Bool.false_ne_true hdue, by omega, h⟩⟩

/-- **Settings that are not edited are steady**, and so are thresholds that are only raised and
windows that never reach further back: an observation out of one window is out of all later ones. -/
theorem steady_of_monotone (hpos : ∀ o ∈ calls, 0 < o.threshold)
    (hmono : (since ++ calls).Pairwise fun p q => p.threshold ≤ q.threshold ∧ p.cutoff ≤ q.cutoff)
    (hbelow : ∀ o ∈ calls, (seen since o : ℤ) < o.threshold) (ho : Chronological (since ++ calls)) :
    Steady since calls := by
  induction calls generalizing since with
  | nil => trivial
  | cons o calls ih =>
    have hsplit : since ++ o :: calls = (since ++ [o]) ++ calls := by simp
    rw [hsplit] at ho hmono
    have hpos' : ∀ o ∈ calls, 0 < o.threshold := fun o ho => hpos o (mem_cons_of_mem _ ho)
    have hbefore : ∀ p ∈ since, p.cutoff ≤ o.cutoff := fun p hp =>
      ((pairwise_append.mp (pairwise_append.mp hmono).1).2.2 p hp o (by simp)).2
    have hsame : stayed since o = seen since o := by
      refine countP_congr fun p _ => ?_
      rw [decide_eq_true_eq, decide_eq_true_eq]
      refine ⟨fun hp => hp o (by simp), fun hp q hq => ?_⟩
      rcases mem_append.mp hq with hq | hq
      · exact (hbefore q hq).trans hp
      · rwa [mem_singleton.mp hq]
    have hlt := hbelow o mem_cons_self
    rw [Steady]
    split_ifs with hdue
    · refine ⟨by omega, ih hpos' ?_ ?_ ?_⟩
      · simpa using (pairwise_append.mp hmono).2.1
      · intro q hq
        simpa [seen] using hpos' q hq
      · simpa using ho.right
    · refine ih hpos' hmono (fun q hq => ?_) ho
      have hafter := (pairwise_append.mp hmono).2.2 o (by simp) q hq
      have hseen : seen (since ++ [o]) q ≤ seen since o + 1 := by
        unfold seen
        rw [countP_append]
        refine Nat.add_le_add (countP_mono_left fun p _ hp => ?_) countP_le_length
        rw [decide_eq_true_eq] at hp ⊢
        exact hafter.2.trans hp
      omega

end Run

/-- **When the detector is right.**  Take any calls on an incident the detector does not know yet,
at non-decreasing times, with positive thresholds and windows that may be others at each call.
Every call answers true exactly if the observations since the last true result within its window,
with its own, reach its threshold, and retains less times than that, if and only if the settings are
steady. -/
theorem storms_detected_iff (s : StormDetector) (incidentId : ℕ) (calls : List Observation)
    (hnew : s.lookup incidentId = none) (hsorted : calls.Pairwise (·.now ≤ ·.now))
    (hpos : ∀ o ∈ calls, 0 < o.threshold ∧ 0 < o.windowSec) :
    (Detects incidentId s [] calls ↔ Steady [] calls) ∧
      (calls.Pairwise (fun p q => p.threshold ≤ q.threshold ∧ p.cutoff ≤ q.cutoff) →
        Steady [] calls) := by
  have horder : Chronological ([] ++ calls) := ⟨hsorted, fun o ho => (hpos o ho).2⟩
  have hretains : Retains s incidentId [] := by simp [Retains, retained, hnew]
  refine ⟨hretains.detects_iff horder fun o ho => (hpos o ho).1, fun hmono => ?_⟩
  exact steady_of_monotone (fun o ho => (hpos o ho).1) hmono
    (fun o ho => by simpa [seen] using (hpos o ho).1) horder

namespace Example

/-- Three events in a minute make a storm; nobody edits the rule. -/
def unedited : List Observation := [⟨1000, 3, 60⟩, ⟨1010, 3, 60⟩, ⟨1020, 3, 60⟩, ⟨1100, 3, 60⟩]

/-- Two events, and then the threshold is lowered from five to two. -/
def lowered : List Observation := [⟨1000, 5, 60⟩, ⟨1010, 5, 60⟩, ⟨1020, 2, 60⟩]

/-- Two events in a window of ten seconds, of which the second drops the first, and then the window
is widened to a minute. -/
def widened : List Observation := [⟨1000, 3, 10⟩, ⟨1020, 3, 10⟩, ⟨1030, 3, 60⟩]

end Example

/-- The third of the four calls is a storm. -/
theorem detects_unedited : Detects 42 ∅ [] Example.unedited :=
  (storms_detected_iff ∅ 42 Example.unedited rfl (by decide) (by decide)).1.mpr
    ((storms_detected_iff ∅ 42 Example.unedited rfl (by decide) (by decide)).2 (by decide))

/-- **Two edits that miss a storm.**  With the threshold lowered to two, the third call answers
false though there are three events in its window, and retains all three.  With the window widened
to a minute, the third call answers false though there are three events in it. -/
theorem storm_missed_after_edit : (Example.lowered.Pairwise (·.now ≤ ·.now) ∧
      (∀ o ∈ Example.lowered, 0 < o.threshold ∧ 0 < o.windowSec) ∧
      ¬ Detects 42 ∅ [] Example.lowered) ∧ Example.widened.Pairwise (·.now ≤ ·.now) ∧
      (∀ o ∈ Example.widened, 0 < o.threshold ∧ 0 < o.windowSec) ∧
      ¬ Detects 42 ∅ [] Example.widened := by
  refine ⟨⟨by decide, by decide, ?_⟩, by decide, by decide, ?_⟩
  · rintro ⟨-, -, -, -, hthird, -⟩
    exact absurd (hthird.mpr (by decide)) (by decide)
  · rintro ⟨-, -, -, -, hthird, -⟩
    exact absurd (hthird.mpr (by decide)) (by decide)

end Nightingale.Denoise
