import Nightingale.Eval.Variables

/-!
# Eval/Filling — the points that filling variables keeps, and those it loses

Both functions of `Eval/Variables` file what they find in one map, under the texts of combinations
joined by `@@`.  A map has one place for a text, and that is where points get lost:

    after    two series of one combination: only the first is kept
    before   two combinations whose points have the same labels: the last to finish is kept

Layers and interleavings are those of `Lib/Overlay` and `Lib/Weave`.
-/

namespace Nightingale.Eval

open Text Overlay List Option MapOrder Weave

/-- The label of each variable; none, where looking for them panics. -/
def PromQuery.varToLabel (q : PromQuery) : GoMap String String :=
  (extractVarMapping q.promQl).getD ∅

/-- The combinations an entry decides for: none, if a parameter has no values. -/
def entryCombinations (reader : Reader) (q : PromQuery) (e : ParamVal × ℕ) : List (List String) :=
  (combinations reader e.2 q e.1 q.varToLabel).toOption.getD []

theorem getParamPermutation_eq {reader : Reader} {q : PromQuery} {e : ParamVal × ℕ}
    {s : Finset String} (h : getParamPermutation reader e.2 q e.1 q.varToLabel = .ok s) :
    s = (entryCombinations reader q e).toFinset.image joinMark.intercalate := by
  rw [getParamPermutation] at h
  rw [entryCombinations]
  cases hc : combinations reader e.2 q e.1 q.varToLabel with
  | error msg => simp [hc, Except.map] at h
  | ok l =>
    simp only [hc, Except.map, Except.ok.injEq] at h
    subst h
    ext k
    simp [Except.toOption]

theorem entryCombinations_of_error {reader : Reader} {q : PromQuery} {e : ParamVal × ℕ}
    {msg : String} (h : getParamPermutation reader e.2 q e.1 q.varToLabel = .error msg) :
    entryCombinations reader q e = [] := by
  rw [getParamPermutation] at h
  rw [entryCombinations]
  cases hc : combinations reader e.2 q e.1 q.varToLabel with
  | error msg => rfl
  | ok l => simp [hc, Except.map] at h

/-! ## After the query

The layers of the configuration are layers in the sense of `Lib/Overlay`, with the combinations as
keys; the code runs them with the joined texts as keys. -/

section After

variable (valOrder : MapOrder String) (reader : Reader) (q : PromQuery)

/-- The samples an entry's query returned; none, if a series came without values. -/
def entrySamples (e : ParamVal × ℕ) : Option (List Sample) :=
  (reader.query e.2 (fillThresholds valOrder e.1 (removeVal q.promQl))).toOption.bind getSamples

/-- What an entry found, by combination, and the combinations it decides for. -/
def entryLayer (e : ParamVal × ℕ) : Layer (List String) AnomalyPoint where
  items := ((entrySamples valOrder reader q e).getD []).map fun s =>
    (combinationOf q q.varToLabel s.metric, samplePoint valOrder q q.varToLabel e.1 s)
  keys := (entryCombinations reader q e).toFinset

/-- The layers of a query, from the first entry to the last. -/
def entryLayers : List (Layer (List String) AnomalyPoint) :=
  q.entries.zipIdx.map (entryLayer valOrder reader q)

/-- No sample's text is that of a combination it does not have. -/
def Unambiguous : Prop :=
  ∀ l ∈ entryLayers valOrder reader q, ∀ it ∈ l.items, ∀ l' ∈ entryLayers valOrder reader q,
    joinMark.intercalate it.1 ∈ l'.keys.image joinMark.intercalate → it.1 ∈ l'.keys

instance : Decidable (Unambiguous valOrder reader q) :=
  inferInstanceAs (Decidable (∀ _ ∈ _, ∀ _ ∈ _, ∀ _ ∈ _, _ → _))

end After

section After

variable {valOrder order : MapOrder String} {reader : Reader} {q : PromQuery}

/-- **An entry of the code is its layer, under joined texts.** -/
theorem afterEntry_eq (m : GoMap String AnomalyPoint) {e : ParamVal × ℕ} {value : Value}
    (hq : reader.query e.2 (fillThresholds valOrder e.1 (removeVal q.promQl)) = .ok value) :
    afterEntry valOrder order reader q q.varToLabel m e
      = (entrySamples valOrder reader q e).map fun _ =>
        overlay order m ((entryLayer valOrder reader q e).mapKey joinMark.intercalate) := by
  have hsamples : entrySamples valOrder reader q e = getSamples value := by
    rw [entrySamples, hq]
    rfl
  unfold afterEntry
  simp only [hq, hsamples]
  cases hs : getSamples value with
  | none => rfl
  | some seqVals =>
    simp only [map_some, some.injEq]
    cases hp : getParamPermutation reader e.2 q e.1 q.varToLabel with
    | error msg =>
      have hkeys : ((entryLayer valOrder reader q e).mapKey joinMark.intercalate).keys = ∅ := by
        simp [Layer.mapKey, entryLayer, entryCombinations_of_error hp]
      exact Finmap.ext_lookup fun k => by
        rw [lookup_overlay, hkeys, if_neg (Finset.notMem_empty k)]
    | ok s =>
      simp only [getParamPermutation_eq hp, Layer.mapKey, entryLayer, hsamples, hs,
        getD_some, List.map_map]
      rfl

/-- A loop that can only fail or go on: it goes on to the end if it can at every turn. -/
theorem foldlM_option {σ α β : Type*} {f : σ → α → Option σ} {g : σ → α → σ} {P : α → Option β}
    (l : List α) (h : ∀ a ∈ l, ∀ s, f s a = (P a).map fun _ => g s a) (s : σ) :
    l.foldlM f s = if ∀ a ∈ l, (P a).isSome then some (l.foldl g s) else none := by
  induction l generalizing s with
  | nil => simp
  | cons a l ih =>
    rw [foldlM_cons, h a mem_cons_self]
    cases hP : P a with
    | none => simp [hP]
    | some b =>
      have hl := ih (fun a' ha' => h a' (mem_cons_of_mem a ha')) (g s a)
      simpa [hP] using hl

end After

namespace Example

/-- Keys in alphabetical order. -/
def order : MapOrder String := MapOrder.sortBy fun a b : String => a ≤ b

/-- A data source that always answers. -/
def answer (value : String → Value) : Reader where
  query _ text := .ok (value text)
  getHostIdents _ := .error ""
  getDeviceIdents _ := .error ""
  getParamKeyAllLabel _ _ _ := .error ""

/-- The labels of a host. -/
def host (name : String) : Metric := Finmap.singleton "host" name

/-- A value of a series at second 60. -/
def sample (metric : Metric) (value : String) : Sample := ⟨metric, { text := value }, 60⟩

/-- The parameters of an entry: the hosts it decides for, and its threshold. -/
def params (hosts : List String) (val : String) : List (String × ParamQuery) :=
  [("host", ⟨.enum, .texts hosts⟩), ("val", ⟨.threshold, .number val⟩)]

/-- Memory over a threshold that is higher for host `b`. -/
def memQuery : PromQuery where
  promQl := "mem\x7bhost=\"$host\"\x7d > $val"
  severity := 2
  paramVal := params ["a", "b"] "80"
  childVarConfigs := [[(params ["b"] "90").foldl (fun m p => m.insert p.1 p.2) ∅]]

/-- Both hosts are over the lower threshold, and none over the higher. -/
def twoHosts : Reader := answer fun text =>
  if text = "mem\x7b\x7d > 80" then .vector [sample (host "a") "85", sample (host "b") "85"]
  else .vector []

/-- Two devices of one host, both over the threshold. -/
def twoDevices : Reader := answer fun _ =>
  .vector [sample ((host "a").insert "device" "x") "85",
    sample ((host "a").insert "device" "y") "95"]

/-- The query above without the higher threshold. -/
def plainQuery : PromQuery := { memQuery with childVarConfigs := [] }

end Example

/-! ## Before the query

Every combination has a goroutine of its own, which writes to the places of its points, or deletes
its own if it has none.  Which places these are is read from the labels the query returned, and an
aggregation may have removed them. -/

section Before

variable (valOrder : MapOrder String) (reader : Reader) (q : PromQuery)

/-- The combinations of a query with one layer. -/
def firstCombinations : List (List String) := entryCombinations reader q (q.firstParamVal, 0)

/-- The query of a combination: the thresholds put in, and the values of the combination. -/
def filledQuery (c : List String) : String :=
  (q.paramKeys.zip c).foldl (fun query p => fillVar query p.1 p.2)
    (fillThresholds valOrder q.firstParamVal q.promQl)

/-- The query its goroutine asks: the values are read back from the text of the combination. -/
def issuedQuery (c : List String) : String :=
  fillKey q (fillThresholds valOrder q.firstParamVal q.promQl) (joinMark.intercalate c)

/-- The points the goroutine of a combination is answered. -/
def issuedPoints (c : List String) : List AnomalyPoint :=
  queryPoints reader 0 q (issuedQuery valOrder q c)

/-- The places of the map a combination writes to: those of its points, or its own. -/
def places (c : List String) : List String :=
  if issuedPoints valOrder reader q c = [] then [joinMark.intercalate c]
  else (issuedPoints valOrder reader q c).map (pointKey q q.varToLabel)

/-- However the queries are started and finish, every combination whose query returned a point has
a point in the result, and the result is the same. -/
def NoAlertLost : Prop :=
  (∀ order sched, ∃ points, varFillingBeforeQuery valOrder order sched reader q = some points ∧
    ∀ c ∈ firstCombinations reader q,
      queryPoints reader 0 q (filledQuery valOrder q c) ≠ [] →
        ∃ p ∈ points, p.query = filledQuery valOrder q c) ∧
  ∀ order order' sched sched' points points',
    varFillingBeforeQuery valOrder order sched reader q = some points →
    varFillingBeforeQuery valOrder order' sched' reader q = some points' →
    ∀ p, p ∈ points ↔ p ∈ points'

/-- Every query with points is asked. -/
def Asked : Prop :=
  ∀ c ∈ firstCombinations reader q, queryPoints reader 0 q (filledQuery valOrder q c) ≠ [] →
    ∃ c' ∈ firstCombinations reader q, issuedQuery valOrder q c' = filledQuery valOrder q c

/-- Combinations that ask different queries write to different places. -/
def Apart : Prop :=
  ∀ c ∈ firstCombinations reader q, ∀ c' ∈ firstCombinations reader q,
    issuedQuery valOrder q c ≠ issuedQuery valOrder q c' →
      (places valOrder reader q c).Disjoint (places valOrder reader q c')

instance : Decidable (Asked valOrder reader q) :=
  inferInstanceAs (Decidable (∀ _ ∈ _, _ → ∃ _ ∈ _, _))

instance : Decidable (Apart valOrder reader q) :=
  inferInstanceAs (Decidable (∀ _ ∈ _, ∀ _ ∈ _, _ → ∀ ⦃_⦄, _ ∈ _ → _ ∉ _))

end Before

section Before

variable {valOrder : MapOrder String} {reader : Reader} {q : PromQuery}

theorem query_of_mem_queryPoints {i : ℕ} {promql : String} {p : AnomalyPoint}
    (h : p ∈ queryPoints reader i q promql) : p.query = promql := by
  rw [queryPoints] at h
  split at h
  · cases h
  · obtain ⟨p', -, rfl⟩ := mem_map.mp h
    rfl

/-- What the goroutine of a combination does, by the combination. -/
def writes (valOrder : MapOrder String) (reader : Reader) (q : PromQuery) (key : String) :
    List (Weave.Write String AnomalyPoint) :=
  queryWrites reader 0 q q.varToLabel (fillThresholds valOrder q.firstParamVal q.promQl) key

/-- The texts of the combinations. -/
def combinationKeys (reader : Reader) (q : PromQuery) : Finset String :=
  (firstCombinations reader q).toFinset.image joinMark.intercalate

theorem mem_combinationKeys {key : String} : key ∈ combinationKeys reader q
    ↔ ∃ c ∈ firstCombinations reader q, joinMark.intercalate c = key := by
  simp [combinationKeys]

/-- **A query with one layer is one run of its goroutines**, interleaved. -/
theorem varFillingBeforeQuery_eq (hone : q.childVarConfigs = []) {v : GoMap String String}
    (hv : extractVarMapping q.promQl = some v) (order : MapOrder String) (sched : ℕ → List ℕ) :
    varFillingBeforeQuery valOrder order sched reader q = some (order.values
      (run ∅ (weave (sched 0)
        ((order.list (combinationKeys reader q)).map (writes valOrder reader q))))) := by
  have hvar : v = q.varToLabel := by rw [PromQuery.varToLabel, hv, getD_some]
  have hentries : q.entries.zipIdx = [(q.firstParamVal, 0)] := by simp [PromQuery.entries, hone]
  rw [varFillingBeforeQuery, hv, map_some, hentries, foldl_cons, foldl_nil, hvar, beforeEntry]
  cases hp : getParamPermutation reader 0 q q.firstParamVal q.varToLabel with
  | error msg =>
    have hnil : combinationKeys reader q = ∅ := by
      simp [combinationKeys, firstCombinations,
        entryCombinations_of_error (e := (q.firstParamVal, 0)) hp]
    simp [hnil, run]
  | ok s =>
    rw [getParamPermutation_eq (e := (q.firstParamVal, 0)) hp]
    rfl

/-- A map in which every point has the place its labels name is known from its points. -/
theorem eq_of_mem_values_iff (order order' : MapOrder String) {m m' : GoMap String AnomalyPoint}
    {f : AnomalyPoint → String} (hm : ∀ k p, m.lookup k = some p → f p = k)
    (hm' : ∀ k p, m'.lookup k = some p → f p = k)
    (h : ∀ p, p ∈ order.values m ↔ p ∈ order'.values m') : m = m' := by
  refine Finmap.ext_lookup fun k => ext fun p => ?_
  constructor
  · intro hp
    obtain ⟨k', hk'⟩ := mem_values.mp ((h p).mp (mem_values.mpr ⟨k, hp⟩))
    rwa [← hm k p hp, hm' k' p hk']
  · intro hp
    obtain ⟨k', hk'⟩ := mem_values.mp ((h p).mpr (mem_values.mpr ⟨k, hp⟩))
    rwa [← hm' k p hp, hm k' p hk']

section Writes

variable (hquery : ∀ i text, ∃ value, reader.query i text = .ok value) {c : List String}

include hquery

/-- The writes of a combination: a deletion of its own place, or a store for each point. -/
theorem writes_eq : writes valOrder reader q (joinMark.intercalate c)
    = if issuedPoints valOrder reader q c = [] then [⟨joinMark.intercalate c, none⟩]
      else (issuedPoints valOrder reader q c).map fun p => ⟨pointKey q q.varToLabel p, some p⟩ := by
  obtain ⟨value, hvalue⟩ := hquery 0 (issuedQuery valOrder q c)
  rw [issuedQuery] at hvalue
  simp only [writes, queryWrites, hvalue, issuedPoints, issuedQuery]
  congr

theorem lastOn_writes_ne_none_iff {k : String} :
    lastOn k (writes valOrder reader q (joinMark.intercalate c)) ≠ none
      ↔ k ∈ places valOrder reader q c := by
  rw [writes_eq hquery, places]
  split
  · simp [lastOn, eq_comm]
  · induction issuedPoints valOrder reader q c with
    | nil => simp [lastOn]
    | cons p points ih =>
      rw [map_cons, map_cons, lastOn, mem_cons, ← ih]
      by_cases hk : pointKey q q.varToLabel p = k
      · simp [hk]
      · simp [hk, Ne.symm hk]

/-- **What a combination leaves at a place of its own**: one of its points, if it has any. -/
theorem lastOn_writes_cases {k : String} {o : Option AnomalyPoint}
    (h : lastOn k (writes valOrder reader q (joinMark.intercalate c)) = some o) :
    issuedPoints valOrder reader q c = [] ∧ o = none ∧ joinMark.intercalate c = k ∨
      ∃ p ∈ issuedPoints valOrder reader q c, o = some p ∧ pointKey q q.varToLabel p = k := by
  rw [writes_eq hquery] at h
  split_ifs at h with hp
  · rw [lastOn, lastOn, none_or] at h
    split at h
    · next hk => exact .inl ⟨hp, (some.inj h).symm, hk⟩
    · cases h
  · right
    clear hp
    revert h
    induction issuedPoints valOrder reader q c with
    | nil => simp [lastOn]
    | cons p points ih =>
      rw [map_cons, lastOn, or_eq_some_iff]
      intro h
      rcases h with h | ⟨-, h⟩
      · obtain ⟨p', hp', ho⟩ := ih h
        exact ⟨p', mem_cons_of_mem p hp', ho⟩
      · split at h
        · next hk => exact ⟨p, mem_cons_self, (some.inj h).symm, hk⟩
        · cases h

/-- **Goroutines agree exactly if combinations with different queries keep apart.** -/
theorem agree_iff_apart : Weave.Agree (combinationKeys reader q) (writes valOrder reader q)
      ↔ Apart valOrder reader q := by
  constructor
  · intro h c hc c' hc' hne k hk hk'
    have hl := (lastOn_writes_ne_none_iff hquery).mpr hk
    have hl' := (lastOn_writes_ne_none_iff hquery).mpr hk'
    have heq := h _ (mem_combinationKeys.mpr ⟨c, hc, rfl⟩) _
      (mem_combinationKeys.mpr ⟨c', hc', rfl⟩) k hl hl'
    obtain ⟨o, ho⟩ := ne_none_iff_exists'.mp hl
    rcases lastOn_writes_cases hquery ho with ⟨-, rfl, hck⟩ | ⟨p, hmem, rfl, -⟩ <;>
      rcases lastOn_writes_cases hquery (heq ▸ ho) with ⟨-, hop, hck'⟩ | ⟨p', hmem', hop, -⟩
    · exact hne (by rw [issuedQuery, hck, ← hck', issuedQuery])
    · cases hop
    · cases hop
    · cases hop
      exact hne ((query_of_mem_queryPoints hmem).symm.trans (query_of_mem_queryPoints hmem'))
  · intro h a ha b hb k hka hkb
    obtain ⟨c, hc, rfl⟩ := mem_combinationKeys.mp ha
    obtain ⟨c', hc', rfl⟩ := mem_combinationKeys.mp hb
    have hk := (lastOn_writes_ne_none_iff hquery).mp hka
    have hk' := (lastOn_writes_ne_none_iff hquery).mp hkb
    by_cases heq : issuedQuery valOrder q c = issuedQuery valOrder q c'
    · have hpoints : issuedPoints valOrder reader q c = issuedPoints valOrder reader q c' := by
        rw [issuedPoints, heq, issuedPoints]
      by_cases hp : issuedPoints valOrder reader q c = []
      · rw [places, if_pos hp, mem_singleton] at hk
        rw [places, if_pos (hpoints ▸ hp), mem_singleton] at hk'
        rw [← hk, ← hk']
      · rw [writes_eq hquery, writes_eq hquery, if_neg hp, if_neg (hpoints ▸ hp), hpoints]
    · exact absurd hk' (h c hc c' hc' heq hk)

/-- Every point of a run answers the query of some combination, and is at the place its labels
name. -/
theorem mem_issuedPoints_of_lookup_run {order : MapOrder String} {sched : List ℕ} {k : String}
    {p : AnomalyPoint}
    (h : (run ∅ (weave sched ((order.list (combinationKeys reader q)).map
      (writes valOrder reader q)))).lookup k = some p) : ∃ c ∈ firstCombinations reader q,
      p ∈ issuedPoints valOrder reader q c ∧ pointKey q q.varToLabel p = k := by
  rw [lookup_run] at h
  rcases lastOn_weave k sched ((order.list (combinationKeys reader q)).map
    (writes valOrder reader q)) with ⟨-, hnone⟩ | ⟨l, hl, hne, heq⟩
  · simp [hnone] at h
  · obtain ⟨key, hkey, rfl⟩ := mem_map.mp hl
    obtain ⟨c, hc, rfl⟩ := mem_combinationKeys.mp ((order.mem_list _ key).mp hkey)
    obtain ⟨o, ho⟩ := ne_none_iff_exists'.mp hne
    rw [heq, ho, getD_some] at h
    subst h
    rcases lastOn_writes_cases hquery ho with ⟨-, hop, -⟩ | ⟨p', hmem, hop, hk⟩
    · cases hop
    · cases hop
      exact ⟨c, hc, hmem, hk⟩

/-- A combination that is answered points has one of them in a run of goroutines that agree. -/
theorem exists_lookup_run_of_agree
    (hagree : Weave.Agree (combinationKeys reader q) (writes valOrder reader q))
    (hc : c ∈ firstCombinations reader q)
    (hp : issuedPoints valOrder reader q c ≠ []) (order : MapOrder String) (sched : List ℕ) :
    ∃ k, ∃ p ∈ issuedPoints valOrder reader q c, (run ∅ (weave sched
      ((order.list (combinationKeys reader q)).map (writes valOrder reader q)))).lookup k
        = some p := by
  obtain ⟨p₀, hp₀⟩ := exists_mem_of_ne_nil _ hp
  have hplace : pointKey q q.varToLabel p₀ ∈ places valOrder reader q c := by
    rw [places, if_neg hp]
    exact mem_map_of_mem hp₀
  obtain ⟨o, ho⟩ := ne_none_iff_exists'.mp ((lastOn_writes_ne_none_iff hquery).mpr hplace)
  rcases lastOn_writes_cases hquery ho with ⟨hnil, -⟩ | ⟨p, hmem, rfl, -⟩
  · exact absurd hnil hp
  · exact ⟨_, p, hmem, lookup_weave_of_agree hagree ∅ order sched
      (mem_combinationKeys.mpr ⟨c, hc, rfl⟩) ho⟩

end Writes

/-- **No alert is lost exactly if every query with points is asked, and combinations that ask
different queries write to different places** (and looking for the variables does not panic). -/
theorem noAlertLost_iff (valOrder : MapOrder String) (reader : Reader) (q : PromQuery)
    (hone : q.childVarConfigs = [])
    (hquery : ∀ i text, ∃ value, reader.query i text = .ok value) :
    NoAlertLost valOrder reader q ↔ (extractVarMapping q.promQl).isSome ∧
      Asked valOrder reader q ∧ Apart valOrder reader q := by
  cases hv : extractVarMapping q.promQl with
  | none =>
    simp only [isSome_none, Bool.false_eq_true, false_and, iff_false]
    rintro ⟨h, -⟩
    obtain ⟨points, hpoints, -⟩ := h default fun _ => []
    rw [varFillingBeforeQuery, hv, map_none] at hpoints
    cases hpoints
  | some v =>
    have heq := @varFillingBeforeQuery_eq valOrder reader q hone v hv
    rw [← agree_iff_apart hquery]
    simp only [isSome_some, true_and]
    constructor
    · rintro ⟨hfound, hsame⟩
      constructor
      · intro c hc hp
        obtain ⟨points, hpoints, hall⟩ := hfound default fun _ => []
        obtain ⟨p, hmem, hpq⟩ := hall c hc hp
        rw [heq] at hpoints
        cases hpoints
        obtain ⟨k, hk⟩ := mem_values.mp hmem
        obtain ⟨c', hc', hp', -⟩ := mem_issuedPoints_of_lookup_run hquery hk
        exact ⟨c', hc', (query_of_mem_queryPoints hp').symm.trans hpq⟩
      · refine (same_iff_agree ∅).mp fun o o' sched sched' => ?_
        have hkey : ∀ order sched k p, (run ∅ (weave sched
            ((list order (combinationKeys reader q)).map
              (writes valOrder reader q)))).lookup k = some p → pointKey q q.varToLabel p = k := by
          intro order sched k p hp
          obtain ⟨c, -, -, hk⟩ := mem_issuedPoints_of_lookup_run hquery hp
          exact hk
        exact eq_of_mem_values_iff o o' (hkey o sched) (hkey o' sched')
          (hsame o o' (fun _ => sched) (fun _ => sched') _ _ (heq o _) (heq o' _))
    · rintro ⟨hasked, hagree⟩
      constructor
      · intro order sched
        refine ⟨_, heq order sched, fun c hc hp => ?_⟩
        obtain ⟨c', hc', hquery'⟩ := hasked c hc hp
        rw [← hquery'] at hp ⊢
        obtain ⟨k, p, hmem, hk⟩ := exists_lookup_run_of_agree hquery hagree hc' hp order (sched 0)
        exact ⟨p, mem_values.mpr ⟨k, hk⟩, query_of_mem_queryPoints hmem⟩
      · intro order order' sched sched' points points' hp hp' p
        rw [heq] at hp hp'
        cases hp
        cases hp'
        rw [mem_values, mem_values, (same_iff_agree ∅).mpr hagree order order' (sched 0) (sched' 0)]

end Before

namespace Example

/-- The average of a host's memory. -/
def avgQuery (promQl : String) : PromQuery where
  promQl := promQl
  severity := 2
  paramVal := params ["a", "b"] "80"

/-- Both hosts are over the threshold, and each answer names its host. -/
def namedAverages : Reader := answer fun text =>
  if text = "avg(mem\x7bhost=\"a\"\x7d) by (host) > 80" then
    .vector [sample (host "a") "85"]
  else if text = "avg(mem\x7bhost=\"b\"\x7d) by (host) > 80" then
    .vector [sample (host "b") "95"]
  else .vector []

/-- The condition is met where the average keeps the host. -/
theorem noAlertLost_namedAverages : (firstCombinations namedAverages
      (avgQuery "avg(mem\x7bhost=\"$host\"\x7d) by (host) > $val")) = [["a"], ["b"]] ∧
    NoAlertLost order namedAverages
      (avgQuery "avg(mem\x7bhost=\"$host\"\x7d) by (host) > $val") :=
  ⟨by decide +kernel, (noAlertLost_iff order namedAverages _ rfl (fun _ _ => ⟨_, rfl⟩)).mpr
    ⟨by decide +kernel, by decide +kernel, by decide +kernel⟩⟩

/-- Both hosts are over the threshold, and the average has removed their names. -/
def namelessAverages : Reader := answer fun text =>
  if text = "avg(mem\x7bhost=\"a\"\x7d) > 80" then .vector [sample ∅ "85"]
  else if text = "avg(mem\x7bhost=\"b\"\x7d) > 80" then .vector [sample ∅ "95"]
  else .vector []

/-- **The alert of one host is lost**: both points are filed under the empty name, and the host
whose query finishes last is the one that is left. -/
theorem not_noAlertLost_namelessAverages :
    (varFillingBeforeQuery order order (fun _ => []) namelessAverages
      (avgQuery "avg(mem\x7bhost=\"$host\"\x7d) > $val")).map (·.map (·.query))
        = some ["avg(mem\x7bhost=\"b\"\x7d) > 80"] ∧
    (varFillingBeforeQuery order order (fun _ => [1]) namelessAverages
      (avgQuery "avg(mem\x7bhost=\"$host\"\x7d) > $val")).map (·.map (·.query))
        = some ["avg(mem\x7bhost=\"a\"\x7d) > 80"] ∧
    ¬ NoAlertLost order namelessAverages (avgQuery "avg(mem\x7bhost=\"$host\"\x7d) > $val") := by
  have hlast : (varFillingBeforeQuery order order (fun _ => []) namelessAverages
      (avgQuery "avg(mem\x7bhost=\"$host\"\x7d) > $val")).map (·.map (·.query))
        = some ["avg(mem\x7bhost=\"b\"\x7d) > 80"] := by decide +kernel
  refine ⟨hlast, by decide +kernel, ?_⟩
  rintro ⟨hfound, -⟩
  obtain ⟨points, hpoints, hall⟩ := hfound order fun _ => []
  obtain ⟨p, hp, hquery⟩ := hall ["a"] (by decide +kernel) (by decide +kernel)
  rw [hpoints, map_some] at hlast
  have hmem := mem_map_of_mem (f := (·.query)) hp
  rw [some.inj hlast, mem_singleton, hquery] at hmem
  exact absurd hmem (by decide +kernel)

end Example

/-! ## The combinations

`combine` of the source fills one buffer from the left and copies it at the end of each branch; the
next branch writes over it, from the same place on. -/

/-- `combine`, from an index on: the names that are left, the buffer, and what has been copied. -/
def combineFrom (paraMap : GoMap String (List String)) :
    List String → ℕ → List String × List (List String) → List String × List (List String)
  | [], _, (current, result) => (current, result ++ [current])
  | key :: keys, index, s => ((paraMap.lookup key).getD []).foldl
      (fun s value => combineFrom paraMap keys (index + 1) (s.1.set index value, s.2)) s

/-- `mapPermutation`. -/
def mapPermutation (paramKeys : List String) (paraMap : GoMap String (List String)) :
    List (List String) :=
  (combineFrom paraMap paramKeys 0 (replicate paramKeys.length "", [])).2

/-- The lists of values, in the order of the names. -/
def valueLists (paramKeys : List String) (paraMap : GoMap String (List String)) :
    List (List String) :=
  paramKeys.map fun key => (paraMap.lookup key).getD []

/-- **What a branch leaves**: the buffer is written from the index on, and every combination of the
values that are left is copied behind what stands before the index. -/
theorem combineFrom_spec (paraMap : GoMap String (List String)) (keys before after : List String)
    (result : List (List String)) (hlen : after.length = keys.length) :
    ∃ after', after'.length = keys.length ∧
      combineFrom paraMap keys before.length (before ++ after, result)
        = (before ++ after', result ++ (combine (valueLists keys paraMap)).map (before ++ ·)) := by
  induction keys generalizing before after result with
  | nil =>
    obtain rfl := length_eq_zero_iff.mp hlen
    exact ⟨[], rfl, by simp [combineFrom, combine, valueLists]⟩
  | cons key keys ih =>
    rw [combineFrom, valueLists, map_cons, combine, ← valueLists]
    induction (paraMap.lookup key).getD [] generalizing after result with
    | nil => exact ⟨after, hlen, by simp⟩
    | cons value values ih' =>
      obtain ⟨a, after, rfl⟩ := exists_cons_of_length_eq_add_one hlen
      obtain ⟨after₁, hlen₁, h₁⟩ := ih (before ++ [value]) after result (by simpa using hlen)
      obtain ⟨after₂, hlen₂, h₂⟩ := ih' (value :: after₁) (result ++
        (combine (valueLists keys paraMap)).map (before ++ [value] ++ ·)) (by simpa using hlen₁)
      refine ⟨after₂, hlen₂, ?_⟩
      simp only [length_append, length_singleton, append_assoc, singleton_append] at h₁ h₂
      rw [foldl_cons, set_append_right _ _ le_rfl, Nat.sub_self, set_cons_zero, h₁, h₂]
      simp [Function.comp_def]

/-- **The combinations are the product of the lists**, each as often as it occurs there. -/
theorem combine_perm (lists : List (List String)) : combine lists ~ lists.sections := by
  induction lists with
  | nil => exact .refl _
  | cons values lists ih =>
    rw [combine, sections]
    induction values with
    | nil => simp
    | cons v values ihv =>
      rw [flatMap_cons]
      exact ((ih.map _).append ihv).trans (map_append_flatMap_perm _ _ _)

/-- A combination whose joined text can be read: no value holds `@@`, and none but the last ends in
`@`. -/
def Splittable (c : List String) : Prop :=
  c ≠ [] ∧ (∀ v ∈ c, ¬ ['@', '@'] <:+: v.toList) ∧ ∀ v ∈ c.dropLast, v.toList.getLast? ≠ some '@'

/-- The lists give only such combinations: there is one, no value holds `@@`, and none but those of
the last list ends in `@`. -/
def SplittableLists (lists : List (List String)) : Prop :=
  lists ≠ [] ∧ (∀ l ∈ lists, ∀ v ∈ l, ¬ ['@', '@'] <:+: v.toList) ∧
    ∀ l ∈ lists.dropLast, ∀ v ∈ l, v.toList.getLast? ≠ some '@'

/-- **Every value is in some combination**, if no list is empty. -/
theorem exists_section {pre post : List (List String)} {l : List String} {v : String}
    (h : [] ∉ pre ++ l :: post) (hv : v ∈ l) :
    ∃ p q, p ++ v :: q ∈ (pre ++ l :: post).sections ∧ (post ≠ [] → q ≠ []) := by
  have hheads : ∀ {ls : List (List String)}, [] ∉ ls →
      Forall₂ (· ∈ ·) (ls.map fun l => l.headD "") ls := by
    intro ls hls
    rw [forall₂_map_left_iff, forall₂_same]
    intro l hl
    cases l with
    | nil => exact absurd hl hls
    | cons v l => exact mem_cons_self
  simp only [mem_append, mem_cons, not_or] at h
  refine ⟨pre.map fun l => l.headD "", post.map fun l => l.headD "", ?_, by simp⟩
  rw [mem_sections]
  exact rel_append (hheads h.1) (.cons hv (hheads h.2.2))

theorem exists_mem_of_forall₂ {α β : Type*} {R : α → β → Prop} {l : List α} {l' : List β}
    (h : Forall₂ R l l') {a : α} (ha : a ∈ l) : ∃ b ∈ l', R a b := by
  induction h with
  | nil => simp at ha
  | cons hd _ ih =>
    rcases mem_cons.mp ha with rfl | ha
    · exact ⟨_, mem_cons_self, hd⟩
    · obtain ⟨b, hb, hab⟩ := ih ha
      exact ⟨b, mem_cons_of_mem _ hb, hab⟩

theorem splittable_of_mem_sections {lists : List (List String)} (h : SplittableLists lists)
    {c : List String} (hc : c ∈ lists.sections) : Splittable c := by
  rw [mem_sections] at hc
  have hlen := hc.length_eq
  refine ⟨fun hnil => h.1 ?_, fun v hv => ?_, fun v hv => ?_⟩
  · rw [hnil] at hlen
    exact length_eq_zero_iff.mp hlen.symm
  · obtain ⟨l, hl, hvl⟩ := exists_mem_of_forall₂ hc hv
    exact h.2.1 l hl v hvl
  · rw [dropLast_eq_take, hlen] at hv
    obtain ⟨l, hl, hvl⟩ := exists_mem_of_forall₂ (forall₂_take _ hc) hv
    rw [← dropLast_eq_take] at hl
    exact h.2.2 l hl v hvl

/-- **All combinations are splittable exactly if the lists are**, or there is none. -/
theorem forall_splittable_iff {lists : List (List String)} :
    (∀ c ∈ lists.sections, Splittable c) ↔ [] ∈ lists ∨ SplittableLists lists := by
  constructor
  · refine fun h => or_iff_not_imp_left.mpr fun hne =>
      ⟨?_, fun l hl v hv => ?_, fun l hl v hv => ?_⟩
    · rintro rfl
      exact (h [] (by simp)).1 rfl
    · obtain ⟨pre, post, rfl⟩ := append_of_mem hl
      obtain ⟨p, q, hmem, -⟩ := exists_section hne hv
      exact (h _ hmem).2.1 v (by simp)
    · obtain rfl | ⟨init, last, rfl⟩ := lists.eq_nil_or_concat'
      · simp at hl
      rw [dropLast_concat] at hl
      obtain ⟨pre, post, rfl⟩ := append_of_mem hl
      rw [append_assoc, cons_append] at hne h
      obtain ⟨p, q, hmem, hq⟩ := exists_section hne hv
      refine (h _ hmem).2.2 v ?_
      rw [dropLast_append_cons, dropLast_cons_of_ne_nil (hq (by simp))]
      simp
  · rintro (hnil | h) c hc
    · obtain ⟨v, -, hv⟩ := exists_mem_of_forall₂ (mem_sections.mp hc).flip hnil
      exact absurd hv not_mem_nil
    · exact splittable_of_mem_sections h hc

/-- **Combinations are enumerated, and each is read back exactly if it is splittable**; no two of
those have one text.  All are read back exactly if the lists of values are, or one is empty. -/
theorem combinations_encoded_iff (paramKeys : List String) (paraMap : GoMap String (List String)) :
    mapPermutation paramKeys paraMap ~ (valueLists paramKeys paraMap).sections ∧
    (∀ c ∈ mapPermutation paramKeys paraMap,
      (splitText joinMark (joinMark.intercalate c) = c ↔ Splittable c) ∧
      (Splittable c → ∀ c' ∈ mapPermutation paramKeys paraMap, Splittable c' →
        joinMark.intercalate c = joinMark.intercalate c' → c = c')) ∧
    ((∀ c ∈ mapPermutation paramKeys paraMap, splitText joinMark (joinMark.intercalate c) = c) ↔
      [] ∈ valueLists paramKeys paraMap ∨ SplittableLists (valueLists paramKeys paraMap)) := by
  have hsplit (c : List String) :
      splitText joinMark (joinMark.intercalate c) = c ↔ Splittable c := by
    rw [splitText_intercalate_iff (by decide)]
    change Clean ['@', '@'] _ ↔ _
    rw [clean_pair_iff]
    simp [Splittable, ← map_dropLast]
  obtain ⟨after, -, h⟩ := combineFrom_spec paraMap paramKeys [] _ [] length_replicate
  have hperm : mapPermutation paramKeys paraMap ~ (valueLists paramKeys paraMap).sections := by
    rw [nil_append, length_nil] at h
    rw [mapPermutation, h]
    simpa using combine_perm _
  refine ⟨hperm, fun c _ => ⟨hsplit c, fun hc c' _ hc' heq => ?_⟩, ?_⟩
  · rw [← (hsplit c).mpr hc, heq, (hsplit c').mpr hc']
  · simp only [hsplit, hperm.mem_iff, forall_splittable_iff]

/-- **Two combinations of one text**: `x@` with `y`, and `x` with `@y`. -/
theorem Example.combinations_collide :
    mapPermutation ["a", "b"] ((Finmap.singleton "a" ["x@", "x"]).insert "b" ["y", "@y"])
      = [["x@", "y"], ["x@", "@y"], ["x", "y"], ["x", "@y"]] ∧
    joinMark.intercalate ["x@", "y"] = joinMark.intercalate ["x", "@y"] ∧
    splitText joinMark (joinMark.intercalate ["x@", "y"]) ≠ ["x@", "y"] := by
  decide +kernel

/-! ## Aggregations -/

/-- In lower case, the parenthesis at a place of the query stands right behind a listed name. -/
def CalledAt (lower : Lower) (q : PromQuery) (n : ℕ) : Prop :=
  ∃ fn ∈ noLabelAggregators, ∃ a b, (lower.text q.promQl).toList = a ++ fn.toList ++ '(' :: b ∧
    (a ++ fn.toList).length = n

theorem hasLabelLossAggregator_iff (lower : Lower) (q : PromQuery) :
    hasLabelLossAggregator lower q ↔ ∃ n, CalledAt lower q n := by
  simp only [hasLabelLossAggregator, List.any_eq_true, containsText, decide_eq_true_eq]
  constructor
  · rintro ⟨fn, hfn, a, b, hab⟩
    exact ⟨_, fn, hfn, a, b, by simpa using hab.symm, rfl⟩
  · rintro ⟨-, fn, hfn, a, b, hab, -⟩
    exact ⟨fn, hfn, a, b, by simpa using hab.symm⟩

/-- **An aggregation is recognised exactly if its parenthesis stands right behind the operator, or
some other one behind a listed name.**  In lower case the query has an operator, then white space or
a clause set off by it, then a parenthesis. -/
theorem aggregation_recognised_iff (lower : Lower) (q : PromQuery) {op : String}
    (hop : op ∈ noLabelAggregators) {before between behind : List Char}
    (htext : (lower.text q.promQl).toList = before ++ op.toList ++ (between ++ '(' :: behind))
    (hgap : ∀ c ∈ between.head?, isSpace c = true) : hasLabelLossAggregator lower q ↔
      between = [] ∨ ∃ n ≠ (before ++ op.toList).length, CalledAt lower q n := by
  have hat : CalledAt lower q (before ++ op.toList).length ↔ between = [] := by
    constructor
    · rintro ⟨fn, -, a, b, hab, hlen⟩
      have hrest := (append_inj (hab.symm.trans htext) hlen).2
      cases between with
      | nil => rfl
      | cons c between =>
        have hc := hgap c rfl
        rw [← (cons.inj hrest).1] at hc
        cases hc
    · rintro rfl
      exact ⟨op, hop, before, behind, htext, rfl⟩
  rw [hasLabelLossAggregator_iff, ← hat]
  constructor
  · rintro ⟨n, hn⟩
    by_cases heq : n = (before ++ op.toList).length
    · exact .inl (heq ▸ hn)
    · exact .inr ⟨n, heq, hn⟩
  · rintro (h | ⟨n, -, h⟩)
    · exact ⟨_, h⟩
    · exact ⟨n, h⟩

namespace Example

/-- Lower case on ASCII. -/
def lower : Lower := ⟨Char.toLower, fun _ _ => rfl⟩

/-- A clause behind the argument. -/
theorem recognised_by_behind :
    hasLabelLossAggregator lower ⟨"SUM(mem\x7bhost=\"$host\"\x7d) by (host)", 0, [], []⟩ = true :=
  (@aggregation_recognised_iff _ _ "sum" (by decide) [] []
    "mem\x7bhost=\"$host\"\x7d) by (host)".toList (by decide +kernel) (by simp)).mpr (.inl rfl)

/-- **A clause before the argument**: the query is not recognised, and is filled after it is
asked. -/
theorem clause_before_missed :
    let q : PromQuery := ⟨"sum by (host) (mem\x7bhost=\"$host\"\x7d)", 0, [], []⟩
    ∀ lower, hasLabelLossAggregator lower q = false ∧ ∀ valOrder order sched reader,
      varFilling lower valOrder order sched reader q
        = varFillingAfterQuery valOrder order reader q := by
  intro q lower
  have htext : lower.text q.promQl = q.promQl := by
    rw [lower.text_of_ascii (by simp [q]), ← String.toList_inj, String.toList_ofList]
    decide
  have hno : hasLabelLossAggregator lower q = false := by
    rw [hasLabelLossAggregator, htext]
    decide +kernel
  have hexact : notExactMatch lower q = false := by
    rw [notExactMatch, htext]
    decide +kernel
  exact ⟨hno, fun _ _ _ _ => by rw [varFilling, hno, hexact]; rfl⟩

end Example

end Nightingale.Eval
