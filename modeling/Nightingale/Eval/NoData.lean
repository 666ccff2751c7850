import Nightingale.Eval.Joins

/-!
# Eval/NoData — series that are not there any more

A rule with a no-data trigger remembers the series of its evaluations in `LastSeriesStore`, and
makes a point for every one that an evaluation does not return.

    history      … s₁ s₂ │ s₁ │ failed │ s₂ …          an evaluation returns series, or fails
    remembered   the latest of every series, unless it is too old by now

The store is keyed by a hash of the labels and the query of a series, so this is only so where no
two series of the run have one hash.  Then what is remembered is what the history says
(`Remembers`), evaluation by evaluation, and the points are for the series that were returned before
and are not now (`nodata_of_noCollision`).
-/

namespace Nightingale.Eval

open List Option Finmap Evaluation

/-! ## The history of a run -/

/-- What a series is: its labels and the query it is of. -/
def DataResp.subject (d : DataResp) : Metric × String := (d.metric, d.ref)

/-- The series an evaluation returned, unless it failed. -/
def Evaluation.returned (rule : RuleQuery) (e : Evaluation) : Option (List DataResp) :=
  (e.answers rule.queries).toOption.map (·.flatMap (·.2))

/-- The series the evaluations of a run returned, from the first to the last. -/
def history (rule : RuleQuery) (es : List Evaluation) : List DataResp :=
  (es.filterMap (returned rule)).flatten

/-- The latest appearance of a series. -/
def latestOf (series : List DataResp) (subject : Metric × String) : Option DataResp :=
  series.reverse.find? fun d => d.subject = subject

/-- The worker after a run. -/
def afterRun (tools : Tools) (rule : RuleQuery) (es : List Evaluation) : AlertRuleWorker :=
  es.foldl (fun w e => (getAnomalyPoint tools (.ok rule) w e).1) {}

/-- No two different series have one hash. -/
def NoCollision (sum64 : String → ℕ) (series : List DataResp) : Prop :=
  ∀ d ∈ series, ∀ d' ∈ series,
    getHash sum64 d.metric d.ref = getHash sum64 d'.metric d'.ref → d.subject = d'.subject

instance (sum64 : String → ℕ) (series : List DataResp) : Decidable (NoCollision sum64 series) :=
  inferInstanceAs (Decidable (∀ _ ∈ _, ∀ _ ∈ _, _ → _))

section Latest

variable {series series' : List DataResp} {subject : Metric × String} {d : DataResp}

theorem latestOf_append : latestOf (series ++ series') subject
      = (latestOf series' subject).or (latestOf series subject) := by
  rw [latestOf, reverse_append, find?_append]
  rfl

theorem mem_of_latestOf (h : latestOf series subject = some d) : d ∈ series :=
  mem_reverse.mp (mem_of_find?_eq_some h)

theorem subject_of_latestOf (h : latestOf series subject = some d) : d.subject = subject := by
  simpa using find?_some h

theorem latestOf_eq_none_iff :
    latestOf series subject = none ↔ ∀ d ∈ series, d.subject ≠ subject := by
  simp [latestOf]

end Latest

/-! ## The store of one evaluation -/

section Store

variable {sum64 : String → ℕ}

theorem foldl_addSeries_fst (ref : Option String) (series : List DataResp) (store : Store)
    (index : TagIndex) : (series.foldl (addSeries sum64 ref) (store, index)).1
      = series.foldl (fun m d => m.insert (getHash sum64 d.metric d.ref) d) store := by
  induction series generalizing store index with
  | nil => rfl
  | cons d series ih => exact ih _ _

theorem collect_fst (answers : List (Query × List DataResp)) :
    (collect sum64 answers).1 = (answers.flatMap (·.2)).foldl
      (fun m d => m.insert (getHash sum64 d.metric d.ref) d) ∅ := by
  have hfold : ∀ (store : Store) (indexes : Indexes),
      (answers.foldl (addQuery sum64) (store, indexes)).1 = (answers.flatMap (·.2)).foldl
        (fun m d => m.insert (getHash sum64 d.metric d.ref) d) store := by
    induction answers with
    | nil => exact fun _ _ => rfl
    | cons answer answers ih =>
      intro store indexes
      rw [foldl_cons, flatMap_cons, foldl_append,
        ← foldl_addSeries_fst answer.1.ref answer.2 store ∅]
      exact ih _ _
  exact hfold ∅ ∅

/-- **A series is in the store exactly if it was returned**, where no two have one hash. -/
theorem lookup_collect {answers : List (Query × List DataResp)} {d : DataResp}
    (hno : ∀ d' ∈ answers.flatMap (·.2), getHash sum64 d'.metric d'.ref
      = getHash sum64 d.metric d.ref → d'.subject = d.subject) :
    (collect sum64 answers).1.lookup (getHash sum64 d.metric d.ref)
      = latestOf (answers.flatMap (·.2)) d.subject := by
  rw [collect_fst, GoMap.lookup_foldl_insert_self, lookup_empty, or_none, latestOf]
  refine find?_congr fun d' hd' => ?_
  rw [decide_eq_decide]
  constructor
  · exact hno d' (mem_reverse.mp hd')
  · intro h
    obtain ⟨hmetric, href⟩ := Prod.ext_iff.mp h
    rw [show d'.metric = d.metric from hmetric, show d'.ref = d.ref from href]

end Store

/-! ## What a worker remembers -/

section Expiry

variable {trigger : NodataTrigger} {now now' : ℤ} {d : DataResp}

theorem expired_mono (h : trigger.expired now d) (hle : now ≤ now') : trigger.expired now' d := by
  rw [NodataTrigger.expired, Bool.and_eq_true] at h ⊢
  obtain ⟨henable, hold⟩ := h
  refine ⟨henable, ?_⟩
  cases hlast : d.last with
  | none => simp [hlast] at hold
  | some tv =>
    simp only [hlast, decide_eq_true_eq] at hold ⊢
    omega

theorem expired_eq_false_iff : trigger.expired now d = false ↔
    (trigger.resolveAfterEnable → ∀ t v, d.last = some (t, v) →
      now - toInt64 t ≤ trigger.resolveAfter) := by
  rw [NodataTrigger.expired]
  cases trigger.resolveAfterEnable <;> rcases d.last with _ | ⟨t, v⟩ <;> simp

/-- A point is made for a series with a value exactly if it is neither too old nor there. -/
theorem missing_iff (hlast : d.last ≠ none) {store : Store} {h : ℕ} :
    trigger.missing now store h d ↔ trigger.expired now d = false ∧ h ∉ store := by
  obtain ⟨tv, htv⟩ := ne_none_iff_exists'.mp hlast
  simp [NodataTrigger.missing, htv]

end Expiry

/-- **What is remembered is the latest of every series, unless it is too old by now.** -/
structure Remembers (sum64 : String → ℕ) (trigger : NodataTrigger) (now : ℤ)
    (series : List DataResp) (store : Store) : Prop where
  latest : ∀ h d, store.lookup h = some d →
    getHash sum64 d.metric d.ref = h ∧ latestOf series d.subject = some d
  kept : ∀ d, latestOf series d.subject = some d →
    getHash sum64 d.metric d.ref ∈ store ∨ trigger.expired now d

section Remembers

variable {sum64 : String → ℕ} {trigger : NodataTrigger} {now now' : ℤ} {series : List DataResp}
  {store : Store}

theorem Remembers.empty : Remembers sum64 trigger now [] ∅ where
  latest h d hd := by simp at hd
  kept d hd := by simp [latestOf] at hd

theorem Remembers.mono (h : Remembers sum64 trigger now series store) (hle : now ≤ now') :
    Remembers sum64 trigger now' series store where
  latest := h.latest
  kept d hd := (h.kept d hd).imp_right fun hold => expired_mono hold hle

theorem Remembers.lookup_eq (h : Remembers sum64 trigger now series store)
    (hno : NoCollision sum64 series) {d : DataResp} (hd : latestOf series d.subject = some d)
    (hmem : getHash sum64 d.metric d.ref ∈ store) :
    store.lookup (getHash sum64 d.metric d.ref) = some d := by
  obtain ⟨d', hd'⟩ := mem_iff.mp hmem
  obtain ⟨hhash, hlatest⟩ := h.latest _ d' hd'
  have hsubject := hno d' (mem_of_latestOf hlatest) d (mem_of_latestOf hd) hhash
  rw [hsubject, hd] at hlatest
  rw [hd', ← hlatest]

variable {answers : List (Query × List DataResp)}

/-- What `LastSeriesStore` holds after an evaluation. -/
theorem lookup_updateLastStore (order : MapOrder ℕ) (lastStore store : Store) (h : ℕ) :
    (updateLastStore order trigger now lastStore store).lookup h
      = (store.lookup h).or ((lastStore.lookup h).filter fun d => !trigger.expired now d) := by
  rw [updateLastStore]
  by_cases hmem : h ∈ store
  · obtain ⟨d, hd⟩ := mem_iff.mp hmem
    rw [lookup_union_left hmem, hd, some_or]
  · rw [lookup_union_right hmem, lookup_eq_none.mpr hmem, none_or, MapOrder.lookup_deleteWhere]

/-- **An evaluation keeps what is remembered up to date.** -/
theorem Remembers.update (h : Remembers sum64 trigger now series store)
    (hno : NoCollision sum64 (series ++ answers.flatMap (·.2))) (order : MapOrder ℕ) :
    Remembers sum64 trigger now (series ++ answers.flatMap (·.2))
      (updateLastStore order trigger now store (collect sum64 answers).1) := by
  have hcollect : ∀ d ∈ series ++ answers.flatMap (·.2),
      (collect sum64 answers).1.lookup (getHash sum64 d.metric d.ref)
        = latestOf (answers.flatMap (·.2)) d.subject := fun d hd =>
    lookup_collect fun d' hd' => hno d' (mem_append_right _ hd') d hd
  constructor
  · intro k d hk
    rw [lookup_updateLastStore, or_eq_some_iff] at hk
    rw [latestOf_append]
    rcases hk with hk | ⟨hk, hold⟩
    · obtain ⟨hmem, hhash⟩ := (@collect_keeps sum64 answers).1 k d hk
      have hlatest := hcollect d (mem_append_right _ hmem)
      rw [hhash, hk] at hlatest
      exact ⟨hhash, by rw [← hlatest, some_or]⟩
    · obtain ⟨hlook, -⟩ := filter_eq_some_iff.mp hold
      obtain ⟨hhash, hlatest⟩ := h.latest k d hlook
      have hnew := hcollect d (mem_append_left _ (mem_of_latestOf hlatest))
      rw [hhash, hk] at hnew
      exact ⟨hhash, by rw [← hnew, none_or, hlatest]⟩
  · intro d hd
    have hnew := hcollect d (mem_of_latestOf hd)
    rw [latestOf_append, or_eq_some_iff] at hd
    rw [← lookup_isSome, lookup_updateLastStore, hnew]
    rcases hd with hd | ⟨hnone, hd⟩
    · exact .inl (by rw [hd, some_or]; rfl)
    · rw [hnone, none_or]
      by_cases hexp : trigger.expired now d
      · exact .inr hexp
      · rcases h.kept d hd with hmem | hexp'
        · have hno' : NoCollision sum64 series := fun a ha b hb =>
            hno a (mem_append_left _ ha) b (mem_append_left _ hb)
          rw [h.lookup_eq hno' hd hmem]
          exact .inl (by simp [hexp])
        · exact absurd hexp' hexp

end Remembers

/-! ## Runs -/

section Runs

variable {tools : Tools} {rule : RuleQuery}

theorem history_concat (es : List Evaluation) (e : Evaluation) :
    history rule (es ++ [e]) = history rule es ++ (e.returned rule).getD [] := by
  rw [history, filterMap_append, flatten_append, history]
  cases h : e.returned rule <;> simp [h]

theorem history_of_no_queries (hq : rule.queries = []) (es : List Evaluation) :
    history rule es = [] := by
  refine flatten_eq_nil_iff.mpr fun l hl => ?_
  obtain ⟨e, -, he⟩ := mem_filterMap.mp hl
  rw [returned, hq] at he
  exact (some.inj he).symm

/-- **What an evaluation does to `LastSeriesStore`**: nothing if it fails or has no queries. -/
theorem lastSeriesStore_getAnomalyPoint (henable : rule.nodataTrigger.enable)
    (w : AlertRuleWorker) (e : Evaluation) : ((e.returned rule).getD [] = [] ∧
      (getAnomalyPoint tools (.ok rule) w e).1.lastSeriesStore = w.lastSeriesStore) ∨
    ∃ answers, e.returned rule = some (answers.flatMap (·.2)) ∧
      (getAnomalyPoint tools (.ok rule) w e).1.lastSeriesStore
        = updateLastStore e.lastOrder rule.nodataTrigger e.now w.lastSeriesStore
            (collect tools.sum64 answers).1 := by
  rw [getAnomalyPoint, returned]
  dsimp only
  split
  · next hq => exact .inl ⟨by rw [hq]; rfl, rfl⟩
  · cases ha : e.answers rule.queries with
    | error err => exact .inl ⟨rfl, rfl⟩
    | ok answers => exact .inr ⟨answers, rfl, rfl⟩

/-- **After every run the worker remembers what the history says.** -/
theorem remembers_afterRun (henable : rule.nodataTrigger.enable) (es : List Evaluation)
    (hsorted : es.Pairwise fun a b => a.now ≤ b.now)
    (hno : NoCollision tools.sum64 (history rule es)) (now : ℤ) (hnow : ∀ e ∈ es, e.now ≤ now) :
    Remembers tools.sum64 rule.nodataTrigger now (history rule es)
      (afterRun tools rule es).lastSeriesStore := by
  induction es using reverseRecOn generalizing now with
  | nil => exact Remembers.empty
  | append_singleton es e ih =>
    obtain ⟨hsorted, -, hle⟩ := pairwise_append.mp hsorted
    rw [history_concat] at hno ⊢
    have hbefore := ih hsorted
      (fun a ha b hb => hno a (mem_append_left _ ha) b (mem_append_left _ hb)) e.now
      fun a ha => hle a ha e (mem_singleton_self e)
    refine Remembers.mono ?_ (hnow e (by simp))
    rw [afterRun, foldl_append]
    rcases lastSeriesStore_getAnomalyPoint henable (afterRun tools rule es) e with
      ⟨hnil, hstore⟩ | ⟨answers, hret, hstore⟩
    · rw [hnil, append_nil]
      exact hstore ▸ hbefore
    · rw [hret, getD_some] at hno ⊢
      exact hstore ▸ hbefore.update hno e.lastOrder

end Runs

/-! ## Points -/

section Points

variable {tools : Tools} {rule : RuleQuery}

/-- The points of an evaluation are those of its groups, and those of the series it misses. -/
theorem points_getAnomalyPoint (henable : rule.nodataTrigger.enable) (w : AlertRuleWorker)
    (e : Evaluation) {answers : List (Query × List DataResp)} (hq : rule.queries ≠ [])
    (ha : e.answers rule.queries = .ok answers) :
    ∃ ordinary recoverPoints, (getAnomalyPoint tools (.ok rule) w e).2 = .ok (ordinary ++
        (nodataSeries e.lastOrder rule.nodataTrigger e.now w.lastSeriesStore
          (collect tools.sum64 answers).1).map (nodataPoint tools rule.nodataTrigger e.now),
        recoverPoints) ∧ ∀ p ∈ ordinary, p.triggerType = .normal := by
  rw [getAnomalyPoint]
  simp only [if_neg hq, ha, if_pos henable]
  refine ⟨_, _, rfl, fun p hp => ?_⟩
  obtain ⟨outcome, hout, hpoint⟩ := mem_filterMap.mp hp
  obtain ⟨turn, -, rfl⟩ := mem_map.mp hout
  rw [Turn.outcome] at hpoint
  split at hpoint
  · cases hpoint
    rfl
  · split at hpoint
    · split at hpoint <;> cases hpoint
    · cases hpoint

theorem mem_nodataSeries {order : MapOrder ℕ} {trigger : NodataTrigger} {now : ℤ}
    {lastStore store : Store} {d : DataResp} : d ∈ nodataSeries order trigger now lastStore store
      ↔ ∃ h, lastStore.lookup h = some d ∧ trigger.missing now store h d := by
  rw [nodataSeries, mem_filterMap]
  constructor
  · rintro ⟨h, -, hd⟩
    exact ⟨h, filter_eq_some_iff.mp hd⟩
  · rintro ⟨h, hd, hmissing⟩
    exact ⟨h, (order.mem_list_keys lastStore h).mpr (mem_iff.mpr ⟨d, hd⟩),
      filter_eq_some_iff.mpr ⟨hd, hmissing⟩⟩

/-- **The missing series are those the history has and the evaluation has not**, unless they are
too old. -/
theorem mem_nodataSeries_iff {trigger : NodataTrigger} {now : ℤ} {series : List DataResp}
    {lastStore : Store} {answers : List (Query × List DataResp)} {order : MapOrder ℕ}
    (h : Remembers tools.sum64 trigger now series lastStore)
    (hno : NoCollision tools.sum64 (series ++ answers.flatMap (·.2)))
    (hvalued : ∀ d ∈ series, d.last ≠ none) (subject : Metric × String) :
    (∃ d ∈ nodataSeries order trigger now lastStore (collect tools.sum64 answers).1,
      d.subject = subject) ↔ ∃ d, latestOf series subject = some d ∧
        (∀ d' ∈ answers.flatMap (·.2), d'.subject ≠ subject) ∧
        (trigger.resolveAfterEnable → ∀ t v, d.last = some (t, v) →
          now - toInt64 t ≤ trigger.resolveAfter) := by
  have hcollect : ∀ d ∈ series, getHash tools.sum64 d.metric d.ref ∉ (collect tools.sum64 answers).1
      ↔ ∀ d' ∈ answers.flatMap (·.2), d'.subject ≠ d.subject := by
    intro d hd
    rw [← latestOf_eq_none_iff, ← lookup_collect fun d' hd' =>
      hno d' (mem_append_right _ hd') d (mem_append_left _ hd), lookup_eq_none]
  constructor
  · rintro ⟨d, hd, rfl⟩
    obtain ⟨k, hlook, hmissing⟩ := mem_nodataSeries.mp hd
    obtain ⟨rfl, hlatest⟩ := h.latest k d hlook
    have hmem := mem_of_latestOf hlatest
    obtain ⟨hexp, hnot⟩ := (missing_iff (hvalued d hmem)).mp hmissing
    exact ⟨d, hlatest, (hcollect d hmem).mp hnot, expired_eq_false_iff.mp hexp⟩
  · rintro ⟨d, hlatest, hgone, hfresh⟩
    obtain rfl := subject_of_latestOf hlatest
    have hmem := mem_of_latestOf hlatest
    have hexp := expired_eq_false_iff.mpr hfresh
    have hin : getHash tools.sum64 d.metric d.ref ∈ lastStore :=
      (h.kept d hlatest).resolve_right (by simp [hexp])
    have hno' : NoCollision tools.sum64 series := fun a ha b hb =>
      hno a (mem_append_left _ ha) b (mem_append_left _ hb)
    exact ⟨d, mem_nodataSeries.mpr ⟨_, h.lookup_eq hno' hlatest hin,
      (missing_iff (hvalued d hmem)).mpr ⟨hexp, (hcollect d hmem).mpr hgone⟩⟩, rfl⟩

end Points

/-- **No-data detection.**  In every run in which no two series have one hash, an evaluation that
does not fail makes a no-data point for a series exactly if the series was returned before, is not
returned now, and its latest appearance is not too long ago. -/
theorem nodata_of_noCollision (tools : Tools) (rule : RuleQuery)
    (henable : rule.nodataTrigger.enable) (es : List Evaluation) (e : Evaluation)
    (hsorted : (es ++ [e]).Pairwise fun a b => a.now ≤ b.now)
    (hvalued : ∀ d ∈ history rule (es ++ [e]), d.last ≠ none)
    (hno : NoCollision tools.sum64 (history rule (es ++ [e])))
    (series : List DataResp) (hret : e.returned rule = some series) :
    ∃ (ordinary : List AnomalyPoint) (missing : List DataResp)
      (recoverPoints : List AnomalyPoint),
      (getAnomalyPoint tools (.ok rule) (afterRun tools rule es) e).2 = .ok (ordinary ++
        missing.map (nodataPoint tools rule.nodataTrigger e.now), recoverPoints) ∧
      (∀ p ∈ ordinary, p.triggerType = .normal) ∧ ∀ subject, (∃ d ∈ missing, d.subject = subject) ↔
        ∃ d, latestOf (history rule es) subject = some d ∧ (∀ d' ∈ series, d'.subject ≠ subject) ∧
          (rule.nodataTrigger.resolveAfterEnable → ∀ t v, d.last = some (t, v) →
            e.now - toInt64 t ≤ rule.nodataTrigger.resolveAfter) := by
  obtain ⟨hsorted, -, hle⟩ := pairwise_append.mp hsorted
  rw [history_concat, hret, getD_some] at hno hvalued
  rw [returned] at hret
  cases ha : e.answers rule.queries with
  | error err => simp [ha, Except.toOption] at hret
  | ok answers =>
    obtain rfl : answers.flatMap (·.2) = series := by simpa [ha, Except.toOption] using hret
    by_cases hq : rule.queries = []
    · refine ⟨[], [], [], by rw [getAnomalyPoint]; simp [hq], by simp, fun subject => ?_⟩
      simp [history_of_no_queries hq, latestOf]
    · obtain ⟨ordinary, recoverPoints, hres, hnormal⟩ :=
        @points_getAnomalyPoint tools rule henable (afterRun tools rule es) e answers hq ha
      have hbefore := remembers_afterRun henable es hsorted
        (fun a ha b hb => hno a (mem_append_left _ ha) b (mem_append_left _ hb)) e.now
        fun a ha => hle a ha e (mem_singleton_self e)
      exact ⟨ordinary, _, recoverPoints, hres, hnormal, mem_nodataSeries_iff hbefore hno
        fun d hd => hvalued d (mem_append_left _ hd)⟩

namespace Example

/-- A rule that tells missing data for an hour. -/
def nodataRule : RuleQuery where
  queries := [⟨some "A", ""⟩]
  nodataTrigger := ⟨true, 2, true, 3600⟩

/-- What is rendered as text matters little here. -/
def plainTools : Tools :=
  ⟨sum64, fun _ _ => .error "", fun _ _ => "", fun _ => "", fun _ => "", fun _ => "",
    fun _ _ => "", fun _ => "", fun _ => ""⟩

/-- An evaluation in which the query returns the given series. -/
def returning (now : ℤ) (series : List DataResp) : Evaluation where
  now := now
  queryData _ := .ok series
  orders _ := orders
  lastOrder := ascending

/-- Two hosts, and then only one. -/
def hostGone : List DataResp := [series "A" [("host", "x")], series "A" [("host", "y")]]

/-- The condition is met by two hosts, one of which is gone; a point is made for it. -/
theorem nodata_hostGone :
    (∃ d, latestOf (history nodataRule [returning 60 hostGone]) (series "A" [("host", "y")]).subject
      = some d) ∧ ∃ (ordinary : List AnomalyPoint) (missing : List DataResp)
      (recoverPoints : List AnomalyPoint), (getAnomalyPoint plainTools (.ok nodataRule)
        (afterRun plainTools nodataRule [returning 60 hostGone])
        (returning 120 [series "A" [("host", "x")]])).2 = .ok (ordinary ++
          missing.map (nodataPoint plainTools nodataRule.nodataTrigger 120), recoverPoints) ∧
      (∀ p ∈ ordinary, p.triggerType = .normal) ∧ ∀ subject, (∃ d ∈ missing, d.subject = subject) ↔
        ∃ d, latestOf (history nodataRule [returning 60 hostGone]) subject = some d ∧
          (∀ d' ∈ [series "A" [("host", "x")]], d'.subject ≠ subject) ∧
          (nodataRule.nodataTrigger.resolveAfterEnable → ∀ t v, d.last = some (t, v) →
            120 - toInt64 t ≤ nodataRule.nodataTrigger.resolveAfter) :=
  ⟨⟨series "A" [("host", "y")], by decide +kernel⟩,
    nodata_of_noCollision plainTools nodataRule rfl [returning 60 hostGone]
      (returning 120 [series "A" [("host", "x")]]) (by decide) (by decide +kernel)
      (by decide +kernel) [series "A" [("host", "x")]] rfl⟩

/-- A label whose value reads like two labels. -/
def slashed : DataResp := series "A" [("a", "1/b/2")]

/-- The two labels. -/
def twoLabels : DataResp := series "A" [("a", "1"), ("b", "2")]

/-- **One series hides that another is gone**: the texts their hashes are computed from are the
same, so no point is made for the series that is missing. -/
theorem nodata_hidden : slashed.subject ≠ twoLabels.subject ∧
    latestOf (history nodataRule [returning 60 [slashed]]) slashed.subject = some slashed ∧
    (returning 120 [twoLabels]).returned nodataRule = some [twoLabels] ∧
    slashed.last = some (60, 1) ∧ ((getAnomalyPoint plainTools (.ok nodataRule)
      (afterRun plainTools nodataRule [returning 60 [slashed]])
      (returning 120 [twoLabels])).2.toOption.map (·.1)) = some [] := by
  decide +kernel

end Example

end Nightingale.Eval
