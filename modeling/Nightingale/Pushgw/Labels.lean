import Nightingale.Lib.Replace
import Nightingale.Lib.Run
import Nightingale.Pushgw.Convert

/-!
# Pushgw/Labels — the labels of a pushed series

A series should have its metric name once, no label name twice, and the host it is registered under
as its ident.  What stands in the way is said on the pushed metric alone: `Metric.names` is what its
tags are called as labels, and

    labels of the series  =  __name__, names of the metric, tags of the target, business group

up to order.  `distinct_label_names_iff` and `registered_host_iff` are the two results.
-/

namespace Nightingale.Pushgw

open Text List Option Finmap Multiset Function Except

/-! ## Names -/

/-- A character of a normalised name. -/
def normaliseChar (c : Char) : Char := if c = '.' ∨ c = '-' then '_' else c

theorem toList_replaceChar {old : String} {c : Char} (hold : old.toList = [c]) (s : String) :
    (if c ∈ s.toList then replaceText old "_" s else s).toList
      = s.toList.map fun d => if d = c then '_' else d := by
  have hmap : (replaceText old "_" s).toList = s.toList.map fun d => if d = c then '_' else d := by
    rw [toList_replaceText, hold, replaceAll_singleton, ← flatMap_pure_eq_map]
    refine flatMap_congr fun d _ => ?_
    by_cases hd : d = c <;> simp [hd]
  split_ifs with h
  · exact hmap
  · rw [← hmap, replaceText_of_not_infix]
    rwa [hold, singleton_infix_iff]

/-- **Both replacements at once.** -/
theorem toList_normalise (s : String) : (normalise s).toList = s.toList.map normaliseChar := by
  rw [normalise, toList_replaceChar rfl, toList_replaceChar rfl, List.map_map]
  refine List.map_congr_left fun d _ => ?_
  by_cases hdot : d = '.'
  · subst hdot
    decide
  · simp [normaliseChar, hdot]

/-- A name without dots, dashes and underscores is the normal form of itself alone. -/
theorem normalise_eq_iff {name : String}
    (hname : ∀ c ∈ name.toList, c ≠ '_' ∧ c ≠ '.' ∧ c ≠ '-') (s : String) :
    normalise s = name ↔ s = name := by
  have hchar : ∀ c ∈ name.toList, ∀ d, normaliseChar d = c ↔ d = c := by
    intro c hc d
    obtain ⟨hu, hdot, hdash⟩ := hname c hc
    unfold normaliseChar
    split_ifs with h
    · refine ⟨fun he => absurd he.symm hu, ?_⟩
      rintro rfl
      exact absurd h (not_or.mpr ⟨hdot, hdash⟩)
    · rfl
  rw [← String.toList_inj, ← String.toList_inj, toList_normalise]
  constructor
  · intro h
    refine ext_getElem (by simpa using congrArg length h) fun i h₁ h₂ => ?_
    have hi : normaliseChar s.toList[i] = name.toList[i] := by
      rw [← getElem_map normaliseChar (h := by simpa using h₁)]
      simp only [h]
    exact (hchar _ (getElem_mem h₂) _).mp hi
  · intro h
    rw [h]
    exact (map_congr_left fun c hc => (hchar c hc c).mpr rfl).trans (map_id _)

theorem normalise_eq_ident (s : String) : normalise s = "ident" ↔ s = "ident" := by
  refine normalise_eq_iff (fun c hc => ?_) s
  have hlist : "ident".toList = ['i', 'd', 'e', 'n', 't'] := rfl
  rw [hlist] at hc
  simp only [List.mem_cons, List.not_mem_nil, or_false] at hc
  rcases hc with rfl | rfl | rfl | rfl | rfl <;> decide

/-! ## What the tags of a metric are called

The names of a map of tags are a multiset: two keys may have one normal form. -/

/-- The names the tags of a map have as labels. -/
def tagNames (tags : GoMap String String) : Multiset String := tags.keys.val.map normalise

/-- The tags of a Datadog metric that have a key and a value. -/
def DatadogMetric.pairs {φ : Type} (m : DatadogMetric φ) : List (String × String) :=
  m.tags.filterMap (splitN ':')

open DatadogMetric

/-- The values a key has among the tags, in order. -/
def valuesOf (key : String) (pairs : List (String × String)) : List String :=
  (pairs.filter fun kv => kv.1 = key).map Prod.snd

/-- The last value of a key, or nothing. -/
def lastOf (key : String) (pairs : List (String × String)) : String :=
  ((valuesOf key pairs).getLast?).getD ""

/-- The host of a Datadog metric: its own, or that of the last tag. -/
def DatadogMetric.hostOf {φ : Type} (m : DatadogMetric φ) : String :=
  if m.host ≠ "" then m.host else lastOf "host" m.pairs

/-- The names the tags of a metric have as labels. -/
def Metric.names {φ : Type} : Metric φ → Multiset String
  | openTSDB m => tagNames (HTTPMetric.renameHost m.tags)
  | falcon m => tagNames (FalconMetric.addEndpoint m.endpoint (FalconMetric.tagmap m.tags)).1
  | datadog m =>
    ((m.pairs.filter fun kv => kv.1 ≠ "host").map fun kv => normalise kv.1 : List String) +
      if m.hostOf = "" then 0
      else {if lastOf "ident" m.pairs ≠ "" then "host" else "ident"}

/-- The names of the labels, in order. -/
def labelNames (labels : List Label) : List String := labels.map Label.name

@[simp] theorem labelNames_append (l l' : List Label) :
    labelNames (l ++ l') = labelNames l ++ labelNames l' := map_append

/-! ## The conversion -/

theorem nameLabel_eq_ok {metric : String} {labels : List Label}
    (h : nameLabel metric = .ok labels) : labels = [⟨metricNameLabel, normalise metric⟩] := by
  unfold nameLabel at h
  split_ifs at h
  exact (ok.inj h).symm

theorem tagLabel_eq_ok {key value : String} {label : Label}
    (h : tagLabel key value = .ok label) : label = ⟨normalise key, value⟩ := by
  unfold tagLabel at h
  split_ifs at h
  exact (ok.inj h).symm

/-- **A map of tags** comes out as one label for each key. -/
theorem appendTags_eq_ok {order : MapOrder String} {tags : GoMap String String}
    {labels labels' : List Label} (h : appendTags order tags labels = .ok labels') :
    labels' = labels ++ (order.list tags.keys).map fun key =>
      ⟨normalise key, (tags.lookup key).getD ""⟩ := by
  unfold appendTags at h
  generalize order.list tags.keys = keys at h ⊢
  induction keys generalizing labels with
  | nil =>
    cases h
    simp
  | cons key keys ih =>
    rw [foldlM_cons] at h
    obtain ⟨next, hnext, h⟩ := ok_of_bind h
    obtain ⟨label, hl, hnext⟩ := ok_of_bind hnext
    cases hnext
    rw [ih h, tagLabel_eq_ok hl, List.map_cons, List.append_assoc]
    rfl

theorem list_keys_perm (order : MapOrder String) (tags : GoMap String String) :
    (order.list tags.keys : Multiset String) = tags.keys.val :=
  (Nodup.ext (coe_nodup.mpr (order.nodup _)) tags.keys.nodup).mpr fun key =>
    order.mem_list _ key

theorem addTag_eq_ok {st st' : DatadogMetric.Loop} {tag : String}
    (h : addTag st tag = .ok st') :
    splitN ':' tag = none ∧ st' = st ∨ ∃ kv, splitN ':' tag = some kv ∧
      st'.labels = st.labels ++ (if kv.1 = "host" then [] else [⟨normalise kv.1, kv.2⟩]) ∧
      st'.identInTag = (if kv.1 = "ident" then kv.2 else st.identInTag) ∧
      st'.hostInTag = if kv.1 = "host" then kv.2 else st.hostInTag := by
  unfold addTag at h
  cases hs : splitN ':' tag with
  | none =>
    rw [hs] at h
    exact .inl ⟨rfl, (ok.inj h).symm⟩
  | some kv =>
    obtain ⟨key, value⟩ := kv
    rw [hs] at h
    refine .inr ⟨(key, value), rfl, ?_⟩
    by_cases hident : key = "ident"
    · subst hident
      cases h
      simp [(normalise_eq_ident "ident").mpr rfl]
    · by_cases hhost : key = "host"
      · subst hhost
        cases h
        simp
      · simp only [hident, hhost, if_false] at h ⊢
        obtain ⟨label, hl, h⟩ := ok_of_bind h
        cases h
        simp [tagLabel_eq_ok hl]

theorem valuesOf_cons (key : String) (kv : String × String) (pairs : List (String × String)) :
    valuesOf key (kv :: pairs) =
      if kv.1 = key then kv.2 :: valuesOf key pairs else valuesOf key pairs := by
  unfold valuesOf
  rw [filter_cons]
  split_ifs <;> simp_all

/-- A value that was read first counts until there is another. -/
theorem getD_getLast?_valuesOf_cons (key : String) (kv : String × String)
    (pairs : List (String × String)) (d : String) : ((valuesOf key (kv :: pairs)).getLast?).getD d =
      ((valuesOf key pairs).getLast?).getD (if kv.1 = key then kv.2 else d) := by
  rw [valuesOf_cons]
  split_ifs
  · rw [getLast?_cons, getD_some]
  · rfl

/-- **The loop over the tags of a Datadog metric**: the tags with a key and a value become labels,
those of the host apart, and of several idents and hosts the last is kept. -/
theorem addTag_foldlM_eq_ok : ∀ {tags : List String} {st st' : DatadogMetric.Loop},
      tags.foldlM addTag st = .ok st' →
        st'.labels = st.labels ++ ((tags.filterMap (splitN ':')).filter fun kv =>
          kv.1 ≠ "host").map (fun kv => ⟨normalise kv.1, kv.2⟩) ∧
        st'.identInTag =
          ((valuesOf "ident" (tags.filterMap (splitN ':'))).getLast?).getD st.identInTag ∧
        st'.hostInTag =
          ((valuesOf "host" (tags.filterMap (splitN ':'))).getLast?).getD st.hostInTag
  | [], st, st', h => by
    obtain rfl := Except.ok.inj h
    simp [valuesOf]
  | tag :: tags, st, st', h => by
    rw [foldlM_cons] at h
    obtain ⟨st₁, hst, h⟩ := ok_of_bind h
    obtain ⟨hlabels, hident, hhost⟩ := addTag_foldlM_eq_ok h
    rcases addTag_eq_ok hst with ⟨hnone, rfl⟩ | ⟨kv, hsome, hlabels₁, hident₁, hhost₁⟩
    · rw [filterMap_cons_none hnone]
      exact ⟨hlabels, hident, hhost⟩
    · rw [filterMap_cons_some hsome, getD_getLast?_valuesOf_cons,
        getD_getLast?_valuesOf_cons, ← hident₁, ← hhost₁]
      refine ⟨?_, hident, hhost⟩
      rw [hlabels, hlabels₁, filter_cons]
      split_ifs with h₁ h₂ h₂ <;> simp_all

/-! ### The series of a metric and its host -/

section Convert

variable {φ : Type} {fl : Floats φ} {order : MapOrder String} {ts : ℤ} {pt : Series φ}
  {ident : Option String}

/-- The labels of a metric name and a map of tags. -/
def tagLabels (order : MapOrder String) (metric : String) (tags : GoMap String String) :
    List Label :=
  ⟨metricNameLabel, normalise metric⟩ ::
    (order.list tags.keys).map fun key => ⟨normalise key, (tags.lookup key).getD ""⟩

theorem labelNames_tagLabels (order : MapOrder String) (metric : String)
    (tags : GoMap String String) : (labelNames (tagLabels order metric tags) : Multiset String)
      = metricNameLabel ::ₘ tagNames tags := by
  rw [tagNames, ← list_keys_perm order]
  simp [labelNames, tagLabels, comp_def]

theorem name_tags_eq_ok {metric : String} {tags : GoMap String String} {labels labels' : List Label}
    (hname : nameLabel metric = .ok labels) (htags : appendTags order tags labels = .ok labels') :
    labels' = tagLabels order metric tags := by
  rw [appendTags_eq_ok htags, nameLabel_eq_ok hname]
  rfl

theorem HTTPMetric.clean_eq_ok {m m' : HTTPMetric φ} (h : m.clean fl ts = .ok m') :
    m'.metric = m.metric ∧ m'.tags = m.tags := by
  unfold HTTPMetric.clean at h
  obtain ⟨value, -, h⟩ := ok_of_bind h
  cases h
  exact ⟨rfl, rfl⟩

theorem HTTPMetric.toProm_eq_ok {m : HTTPMetric φ} {r : HTTPMetric φ × Series φ}
    (h : m.toProm order = .ok r) :
    r.2.labels = tagLabels order m.metric (renameHost m.tags) ∧ r.1.tags = renameHost m.tags := by
  unfold HTTPMetric.toProm at h
  obtain ⟨labels, hname, h⟩ := ok_of_bind h
  obtain ⟨labels', htags, h⟩ := ok_of_bind h
  cases h
  exact ⟨name_tags_eq_ok hname htags, rfl⟩

theorem convert_openTSDB {m : HTTPMetric φ}
    (h : (Metric.openTSDB m).convert fl order ts = .ok (pt, ident)) :
    pt.labels = tagLabels order m.metric (HTTPMetric.renameHost m.tags) ∧
      ident = (HTTPMetric.renameHost m.tags).lookup "ident" := by
  unfold Metric.convert at h
  obtain ⟨m', hclean, h⟩ := ok_of_bind h
  obtain ⟨r, hr, h⟩ := ok_of_bind h
  obtain ⟨rfl, rfl⟩ := Prod.mk.inj (ok.inj h)
  obtain ⟨hmetric, htags⟩ := HTTPMetric.clean_eq_ok hclean
  obtain ⟨hlabels, hident⟩ := HTTPMetric.toProm_eq_ok hr
  rw [hlabels, hident, hmetric, htags]
  exact ⟨rfl, rfl⟩

theorem FalconMetric.clean_eq_ok {m m' : FalconMetric φ} (h : m.clean fl ts = .ok m') :
    m'.metric = m.metric ∧ m'.endpoint = m.endpoint ∧ m'.tags = m.tags := by
  unfold FalconMetric.clean at h
  obtain ⟨value, -, h⟩ := ok_of_bind h
  cases h
  exact ⟨rfl, rfl, rfl⟩

theorem FalconMetric.toProm_eq_ok {m : FalconMetric φ} {r : Series φ × String}
    (h : m.toProm order = .ok r) :
    r.1.labels = tagLabels order m.metric (addEndpoint m.endpoint (tagmap m.tags)).1 ∧
      r.2 = (addEndpoint m.endpoint (tagmap m.tags)).2 := by
  unfold FalconMetric.toProm at h
  obtain ⟨labels, hname, h⟩ := ok_of_bind h
  obtain ⟨labels', htags, h⟩ := ok_of_bind h
  cases h
  exact ⟨name_tags_eq_ok hname htags, rfl⟩

theorem convert_falcon {m : FalconMetric φ}
    (h : (Metric.falcon m).convert fl order ts = .ok (pt, ident)) :
    let tags := FalconMetric.addEndpoint m.endpoint (FalconMetric.tagmap m.tags)
    pt.labels = tagLabels order m.metric tags.1 ∧
      ident = if tags.2 ≠ "" then some tags.2 else none := by
  unfold Metric.convert at h
  obtain ⟨m', hclean, h⟩ := ok_of_bind h
  obtain ⟨r, hr, h⟩ := ok_of_bind h
  obtain ⟨rfl, rfl⟩ := Prod.mk.inj (Except.ok.inj h)
  obtain ⟨hmetric, hendpoint, htags⟩ := FalconMetric.clean_eq_ok hclean
  obtain ⟨hlabels, hident⟩ := FalconMetric.toProm_eq_ok hr
  rw [hlabels, hident, hmetric, hendpoint, htags]
  exact ⟨rfl, rfl⟩

/-- The labels of a Datadog metric. -/
def DatadogMetric.labels (m : DatadogMetric φ) : List Label :=
  ⟨metricNameLabel, normalise m.metric⟩ ::
    ((m.pairs.filter fun kv => kv.1 ≠ "host").map (fun kv => ⟨normalise kv.1, kv.2⟩) ++
      if m.hostOf = "" then []
      else [⟨if lastOf "ident" m.pairs ≠ "" then "host" else "ident", m.hostOf⟩])

/-- The ident of a Datadog metric: that of its tags, or its host. -/
def DatadogMetric.identOf (m : DatadogMetric φ) : String :=
  if lastOf "ident" m.pairs ≠ "" then lastOf "ident" m.pairs else m.hostOf

theorem DatadogMetric.clean_eq_ok {m m' : DatadogMetric φ} (h : m.clean = .ok m') : m' = m := by
  unfold clean at h
  split_ifs at h
  exact (ok.inj h).symm

theorem DatadogMetric.toProm_eq_ok {m : DatadogMetric φ} {r : Series φ × String}
    (h : m.toProm fl = .ok r) : r.1.labels = m.labels ∧ r.2 = m.identOf := by
  unfold toProm at h
  obtain ⟨labels, hname, h⟩ := ok_of_bind h
  obtain ⟨st, hst, h⟩ := ok_of_bind h
  cases h
  obtain ⟨hlabels, hident, hhost⟩ := addTag_foldlM_eq_ok hst
  have hident : st.identInTag = lastOf "ident" m.pairs := hident
  have hhost : (if m.host ≠ "" then m.host else st.hostInTag) = m.hostOf := by
    rw [hhost]
    rfl
  simp only [addHost, hident, hhost, hlabels, nameLabel_eq_ok hname]
  refine ⟨?_, rfl⟩
  rw [DatadogMetric.labels]
  split_ifs <;> simp [pairs]

theorem convert_datadog {m : DatadogMetric φ}
    (h : (Metric.datadog m).convert fl order ts = .ok (pt, ident)) :
    pt.labels = m.labels ∧ ident = if m.identOf ≠ "" then some m.identOf else none := by
  unfold Metric.convert at h
  obtain ⟨m', hclean, h⟩ := ok_of_bind h
  obtain ⟨r, hr, h⟩ := ok_of_bind h
  obtain ⟨rfl, rfl⟩ := Prod.mk.inj (ok.inj h)
  obtain rfl := clean_eq_ok hclean
  obtain ⟨hlabels, hident⟩ := toProm_eq_ok hr
  rw [hlabels, hident]
  exact ⟨rfl, rfl⟩

/-- **The labels of a converted series** are its metric name and the names of the metric. -/
theorem labelNames_convert {m : Metric φ} (h : m.convert fl order ts = .ok (pt, ident)) :
    (labelNames pt.labels : Multiset String) = metricNameLabel ::ₘ m.names := by
  cases m with
  | openTSDB m =>
    rw [(convert_openTSDB h).1]
    exact labelNames_tagLabels order _ _
  | falcon m =>
    rw [(convert_falcon h).1]
    exact labelNames_tagLabels order _ _
  | datadog m =>
    rw [(convert_datadog h).1, Metric.names, labels]
    by_cases hhost : m.hostOf = ""
    · simp [labelNames, hhost, comp_def]
    · simp only [labelNames, hhost, if_false, List.map_cons, List.map_append, List.map_map,
        comp_def, List.map_nil]
      rw [← cons_coe, ← coe_add]
      rfl

end Convert

/-! ## The labels of the target -/

theorem mem_labelKeys {labels : List Label} {key : String} :
    key ∈ labelKeys labels ↔ key ∈ labelNames labels := by
  rw [labelKeys, GoMap.mem_foldl_insert (fun l : Label × ℕ => l.1.name) fun _ l => l.2, labelNames,
    List.mem_map]
  refine ⟨?_, ?_⟩
  · rintro (h | ⟨⟨l, i⟩, hl, rfl⟩)
    · exact absurd h notMem_empty
    · exact ⟨l, List.fst_mem_of_mem_zipIdx hl, rfl⟩
  · rintro ⟨l, hl, rfl⟩
    obtain ⟨i, hi, rfl⟩ := List.getElem_of_mem hl
    exact .inr ⟨(labels[i], i), List.mem_zipIdx_iff_getElem?.mpr (by simp), rfl⟩

theorem labelNames_modify (labels : List Label) (index : ℕ) (value : String) :
    labelNames (labels.modify index fun l => { l with value }) = labelNames labels := by
  refine ext_getElem (by simp [labelNames]) fun i h₁ h₂ => ?_
  simp only [labelNames, getElem_map, getElem_modify]
  split_ifs <;> rfl

section Append

variable (cfg : Config) (keys : GoMap String ℕ)

theorem labelNames_appendTag (tags : GoMap String String) (labels : List Label) (key : String) :
    labelNames (appendTag cfg keys tags labels key) =
      labelNames labels ++ if key ∈ keys then [] else [key] := by
  unfold appendTag
  cases hk : keys.lookup key with
  | none =>
    rw [if_neg (lookup_eq_none.mp hk)]
    exact labelNames_append _ _
  | some index =>
    rw [if_pos (mem_iff.mpr ⟨index, hk⟩), append_nil]
    split_ifs
    · rfl
    · exact labelNames_modify _ _ _
    · rfl

/-- The tags of the target add the names that are not in the index. -/
theorem labelNames_appendTag_foldl (tags : GoMap String String) :
    ∀ (ks : List String) (labels : List Label),
      labelNames (ks.foldl (appendTag cfg keys tags) labels) =
        labelNames labels ++ ks.filter (· ∉ keys)
  | [], labels => by simp
  | key :: ks, labels => by
    rw [List.foldl_cons, labelNames_appendTag_foldl tags ks, labelNames_appendTag, List.filter_cons,
      List.append_assoc]
    by_cases hk : key ∈ keys <;> simp [hk]

/-- The business group of the target has a label for a series with these names. -/
def Target.Labelled (bgCache : ℤ → Option BusiGroup) (target : Target) (names : Multiset String) :
    Prop :=
  cfg.busiGroupLabelKey ∉ names ∧ target.groupId > 0 ∧ cfg.busiGroupLabelKey ≠ "" ∧
    ∃ bg ∈ bgCache target.groupId, bg.labelEnable ≠ 0

theorem labelNames_appendBusiGroup (bgCache : ℤ → Option BusiGroup) (target : Target)
    (labels labels' : List Label) : (target.Labelled cfg bgCache (labelNames labels) ∧
      labelNames (appendBusiGroup cfg (labelKeys labels) bgCache target labels') =
        labelNames labels' ++ [cfg.busiGroupLabelKey]) ∨
    (¬ target.Labelled cfg bgCache (labelNames labels) ∧
      labelNames (appendBusiGroup cfg (labelKeys labels) bgCache target labels') =
        labelNames labels') := by
  unfold appendBusiGroup Target.Labelled
  rw [mem_coe, ← mem_labelKeys]
  by_cases hkey : cfg.busiGroupLabelKey ∈ labelKeys labels
  · exact .inr ⟨fun h => h.1 hkey, by rw [if_pos hkey]⟩
  rw [if_neg hkey, lookup_eq_none.mpr hkey]
  by_cases hgroup : target.groupId > 0 ∧ cfg.busiGroupLabelKey ≠ ""
  · rw [if_pos hgroup]
    cases hbg : bgCache target.groupId with
    | none => exact .inr ⟨by simp, rfl⟩
    | some bg =>
      by_cases hbg : bg.labelEnable = 0
      · exact .inr ⟨by simp [hbg], by simp [hbg]⟩
      · exact .inl ⟨by simp [hkey, hgroup, hbg], by simp [hbg, labelNames]⟩
  · exact .inr ⟨fun h => hgroup ⟨h.2.1, h.2.2.1⟩, by rw [if_neg hgroup]⟩

end Append

/-- The names of the labels are pairwise distinct, and one of them is the metric name. -/
def WellFormed (labels : List Label) : Prop :=
  (labelNames labels).Nodup ∧ (labelNames labels).count metricNameLabel = 1

instance (labels : List Label) : Decidable (WellFormed labels) :=
  inferInstanceAs (Decidable (_ ∧ _))

theorem wellFormed_iff {labels : List Label} (h : metricNameLabel ∈ labelNames labels) :
    WellFormed labels ↔ (labelNames labels).Nodup :=
  ⟨And.left, fun hnd => ⟨hnd, count_eq_one_of_mem hnd h⟩⟩

/-- **What `AppendLabels` can spoil**: the names were distinct before, and a label of the business
group has not the name of a tag of the target. -/
theorem nodup_appendLabels_iff (cfg : Config) (order : MapOrder String)
    (bgCache : ℤ → Option BusiGroup) (target : Option Target) (labels : List Label) :
    (labelNames (appendLabels cfg order bgCache target labels)).Nodup ↔
      (labelNames labels).Nodup ∧ ∀ t ∈ target, t.Labelled cfg bgCache (labelNames labels) →
        cfg.busiGroupLabelKey ∉ t.tagsMap := by
  cases target with
  | none => simp [appendLabels]
  | some target =>
    have htags : (labelNames labels ++ (order.list target.tagsMap.keys).filter
        (· ∉ labelKeys labels)).Nodup ↔ (labelNames labels).Nodup := by
      refine nodup_append.trans ⟨And.left, fun h => ⟨h, (order.nodup _).filter _, ?_⟩⟩
      rintro name hname _ hkey rfl
      simp only [mem_filter, decide_eq_true_eq, mem_labelKeys] at hkey
      exact hkey.2 hname
    have hloop := labelNames_appendTag_foldl cfg (labelKeys labels) target.tagsMap
      (order.list target.tagsMap.keys) labels
    simp only [mem_some_iff, forall_eq', appendLabels]
    rcases labelNames_appendBusiGroup cfg bgCache target labels
      ((order.list target.tagsMap.keys).foldl
        (appendTag cfg (labelKeys labels) target.tagsMap) labels) with
      ⟨hadds, hnames⟩ | ⟨hadds, hnames⟩
    · rw [hnames, hloop, nodup_append, htags]
      have hkey : cfg.busiGroupLabelKey ∉ labelNames labels := hadds.1
      constructor
      · rintro ⟨hnd, -, hdisj⟩
        refine ⟨hnd, fun _ hmem => hdisj _ ?_ _ (List.mem_singleton_self _) rfl⟩
        simp [mem_labelKeys, hkey, Finmap.mem_keys, hmem]
      · rintro ⟨hnd, hmem⟩
        refine ⟨hnd, List.nodup_singleton _, ?_⟩
        rintro name hname _ hsingle rfl
        obtain rfl := List.mem_singleton.mp hsingle
        rcases mem_append.mp hname with hname | hname
        · exact hkey hname
        · exact hmem hadds ((order.mem_list_keys _ _).mp (mem_filter.mp hname).1)
    · rw [hnames, hloop, htags]
      exact ⟨fun hnd => ⟨hnd, fun h => absurd h hadds⟩, And.left⟩

theorem mem_labelNames_appendLabels {cfg : Config} {order : MapOrder String}
    {bgCache : ℤ → Option BusiGroup} {target : Option Target} {labels : List Label} {name : String}
    (h : name ∈ labelNames labels) :
    name ∈ labelNames (appendLabels cfg order bgCache target labels) := by
  cases target with
  | none => exact h
  | some target =>
    have hloop : name ∈ labelNames ((order.list target.tagsMap.keys).foldl
        (appendTag cfg (labelKeys labels) target.tagsMap) labels) := by
      rw [labelNames_appendTag_foldl]
      exact mem_append_left _ h
    rcases labelNames_appendBusiGroup cfg bgCache target labels _ with ⟨-, hnames⟩ | ⟨-, hnames⟩
    · exact hnames ▸ mem_append_left _ hloop
    · exact hnames ▸ hloop

/-- **Well-formed label sets.**  The series of an accepted metric has pairwise distinct label names
and one metric name after `AppendLabels` exactly when the tags of the metric have pairwise distinct
normal forms, none of them `__name__`, and no label of the business group is added to a target that
has a tag of that name. -/
theorem distinct_label_names_iff {φ : Type} {fl : Floats φ} {order : MapOrder String} {ts : ℤ}
    {m : Metric φ} {pt : Series φ} {ident : Option String}
    (h : m.convert fl order ts = .ok (pt, ident)) (cfg : Config) (order' : MapOrder String)
    (bgCache : ℤ → Option BusiGroup) (target : Option Target) :
    WellFormed (appendLabels cfg order' bgCache target pt.labels) ↔
      m.names.Nodup ∧ metricNameLabel ∉ m.names ∧
        ∀ t ∈ target, t.Labelled cfg bgCache (metricNameLabel ::ₘ m.names) →
          cfg.busiGroupLabelKey ∉ t.tagsMap := by
  have hnames := labelNames_convert h
  have hmem : metricNameLabel ∈ labelNames pt.labels := by
    rw [← Multiset.mem_coe, hnames]
    exact Multiset.mem_cons_self _ _
  rw [wellFormed_iff (mem_labelNames_appendLabels hmem), nodup_appendLabels_iff,
    ← Multiset.coe_nodup, hnames, Multiset.nodup_cons]
  tauto

namespace Example

/-- Whole numbers for floating-point ones. -/
def floats : Floats ℤ := ⟨fun _ => none, id⟩

/-- The alphabetical order. -/
def order : MapOrder String := .sortBy (· ≤ ·)

/-- A Datadog metric with the tags. -/
def datadog (tags : List String) : Metric ℤ :=
  .datadog {
    metric := "cpu.idle"
    points := [(1700000000, 97)]
    host := "web-1"
    tags }

/-- An OpenTSDB metric with the tags. -/
def openTSDB (tags : GoMap String String) : Metric ℤ :=
  .openTSDB {
    metric := "cpu.idle"
    timestamp := 1700000000
    valueUnTyped := .number 97
    value := 0
    tags }

/-- A Falcon metric without an endpoint and with the tags. -/
def falcon (tags : String) : Metric ℤ :=
  .falcon {
    metric := "cpu.idle"
    endpoint := ""
    timestamp := 1700000000
    valueUnTyped := .number 97
    value := 0
    tags }

/-- The metric is accepted, and the labels of its series are not well formed. -/
def Spoiled (m : Metric ℤ) (bgCache : ℤ → Option BusiGroup) (target : Target) : Prop :=
  ∃ pt ident, m.convert floats order 1700000000 = .ok (pt, ident) ∧
    ¬ WellFormed (appendLabels {} order bgCache (some target) pt.labels)

end Example

open Pushgw.Example

/-- A metric and a target with one tag each. -/
theorem one_tag_label_names : WellFormed (appendLabels {} order (fun _ => none)
      (some ⟨1, singleton "zone" "a"⟩)
      [⟨"__name__", "cpu_idle"⟩, ⟨"env", "prod"⟩, ⟨"ident", "web-1"⟩]) := by
  have hconvert : (datadog ["env:prod"]).convert floats order 1700000000 =
      .ok (⟨[(1700000000000, 97)], [⟨"__name__", "cpu_idle"⟩, ⟨"env", "prod"⟩, ⟨"ident", "web-1"⟩]⟩,
        some "web-1") := rfl
  refine (distinct_label_names_iff hconvert {} order _ _).mpr ?_
  refine ⟨by decide +kernel, by decide +kernel, fun t ht hlabelled => ?_⟩
  obtain ⟨bg, hbg, -⟩ := hlabelled.2.2.2
  cases hbg

/-- **Three ways to a label name twice**: a Datadog tag that is repeated, two OpenTSDB tags that
differ in a dot and a dash, and a target with a tag of the name of the business group's label. -/
theorem label_name_twice :
    Example.Spoiled (datadog ["env:prod", "env:test"]) (fun _ => none) ⟨0, ∅⟩ ∧
      Example.Spoiled (openTSDB ((singleton "a.b" "1").insert "a-b" "2"))
        (fun _ => none) ⟨0, ∅⟩ ∧
      Example.Spoiled (datadog []) (fun _ => some ⟨1, "cloud"⟩)
        ⟨1, singleton "busigroup" "web"⟩ :=
  ⟨⟨_, _, rfl, by decide +kernel⟩, ⟨_, _, rfl, by decide +kernel⟩, ⟨_, _, rfl, by decide +kernel⟩⟩

/-! ## The host of a series -/

/-- The host a metric is registered and looked up under is non-empty exactly when the series has an
ident label, and is then the value of every one. -/
def HostAgrees (labels : List Label) (ident : Option String) : Prop :=
  ((∃ host ∈ ident, host ≠ "") ↔ ∃ value, ⟨"ident", value⟩ ∈ labels) ∧
    ∀ host ∈ ident, host ≠ "" → ∀ value, ⟨"ident", value⟩ ∈ labels → value = host

/-- A metric that does not name its host in two ways, or with nothing: an OpenTSDB metric has no
empty `ident` tag (nor an empty `host` tag in its place), a Falcon metric has an endpoint and a
non-empty `ident` tag or no such tag, and the `ident` tags of a Datadog metric are the same and not
empty. -/
def Metric.NamesOneHost {φ : Type} : Metric φ → Prop
  | openTSDB m => (m.tags.lookup "ident" <|> m.tags.lookup "host") ≠ some ""
  | falcon m =>
    ∀ value ∈ (FalconMetric.tagmap m.tags).lookup "ident", m.endpoint ≠ "" ∧ value ≠ ""
  | datadog m =>
    ∀ value ∈ valuesOf "ident" m.pairs, value ≠ "" ∧ ∀ other ∈ valuesOf "ident" m.pairs,
      other = value

instance {φ : Type} : (m : Metric φ) → Decidable m.NamesOneHost
  | .openTSDB _ => inferInstanceAs (Decidable (_ ≠ _))
  | .falcon _ | .datadog _ => inferInstanceAs (Decidable (∀ _ ∈ _, _ ∧ _))

theorem ident_ne_metricNameLabel : "ident" ≠ metricNameLabel := by decide

/-- The ident labels out of a map of tags. -/
theorem ident_mem_tags (order : MapOrder String) (tags : GoMap String String)
    (metric value : String) :
    ⟨"ident", value⟩ ∈ tagLabels order metric tags ↔ tags.lookup "ident" = some value := by
  rw [tagLabels, List.mem_cons, List.mem_map]
  constructor
  · rintro (h | ⟨key, hkey, h⟩)
    · exact absurd (congrArg Label.name h) ident_ne_metricNameLabel
    · obtain rfl := (normalise_eq_ident key).mp (Label.mk.inj h).1
      obtain ⟨v, hv⟩ := mem_iff.mp ((order.mem_list_keys _ _).mp hkey)
      rw [hv] at h ⊢
      exact congrArg some (congrArg Label.value h)
  · intro h
    refine .inr ⟨"ident", (order.mem_list_keys _ _).mpr (mem_iff.mpr ⟨value, h⟩), ?_⟩
    rw [h, (normalise_eq_ident "ident").mpr rfl]
    rfl

theorem mem_valuesOf {key value : String} {pairs : List (String × String)} :
    value ∈ valuesOf key pairs ↔ (key, value) ∈ pairs := by
  simp [valuesOf]

section

variable {φ : Type} {fl : Floats φ} {order : MapOrder String} {ts : ℤ} {m : DatadogMetric φ}
  {pt : Series φ}

/-- …and out of the tags and the host of a Datadog metric. -/
theorem ident_mem_datadog {ident : Option String}
    (h : (Metric.datadog m).convert fl order ts = .ok (pt, ident)) (value : String) :
    ⟨"ident", value⟩ ∈ pt.labels ↔ value ∈ valuesOf "ident" m.pairs ∨
      lastOf "ident" m.pairs = "" ∧ m.hostOf ≠ "" ∧ value = m.hostOf := by
  rw [(convert_datadog h).1, labels, List.mem_cons, List.mem_append]
  have hname : (⟨"ident", value⟩ : Label) ≠ ⟨metricNameLabel, normalise m.metric⟩ :=
    fun h => ident_ne_metricNameLabel (congrArg Label.name h)
  have htags : (⟨"ident", value⟩ ∈ (m.pairs.filter fun kv => kv.1 ≠ "host").map
      fun kv => Label.mk (normalise kv.1) kv.2) ↔ value ∈ valuesOf "ident" m.pairs := by
    rw [mem_valuesOf, List.mem_map]
    constructor
    · rintro ⟨⟨key, v⟩, hkv, heq⟩
      obtain rfl := (normalise_eq_ident key).mp (Label.mk.inj heq).1
      obtain rfl : v = value := congrArg Label.value heq
      exact (List.mem_filter.mp hkv).1
    · intro hmem
      exact ⟨_, List.mem_filter.mpr ⟨hmem, rfl⟩, by rw [(normalise_eq_ident "ident").mpr rfl]⟩
  rw [htags, or_iff_right hname]
  refine or_congr_right ?_
  split_ifs with hhost htagged <;> simp_all

/-- The ident of an OpenTSDB metric is its tag `ident`, or else `host`. -/
theorem lookup_renameHost (tags : GoMap String String) :
    (HTTPMetric.renameHost tags).lookup "ident" =
      (tags.lookup "ident" <|> tags.lookup "host") := by
  unfold HTTPMetric.renameHost
  split_ifs with hident
  · obtain ⟨v, hv⟩ := mem_iff.mp hident
    rw [hv]
    rfl
  · rw [lookup_eq_none.mpr hident]
    cases hhost : tags.lookup "host" with
    | none => exact lookup_eq_none.mpr hident
    | some host => exact lookup_insert _

/-- With one ident label at most, the host agrees with it when it is that of the label, and not
empty. -/
theorem hostAgrees_iff {labels : List Label} {ident label : Option String}
    (hlabel : ∀ value, ⟨"ident", value⟩ ∈ labels ↔ label = some value) :
    HostAgrees labels ident ↔ label ≠ some "" ∧ ident.filter (· ≠ "") = label := by
  unfold HostAgrees
  simp only [hlabel]
  cases label with
  | none =>
    cases ident with
    | none => simp
    | some host => by_cases h : host = "" <;> simp [h, Option.filter]
  | some v =>
    cases ident with
    | none => simp
    | some host =>
      by_cases h : host = ""
      · simp [h, Option.filter]
      · simp only [Option.mem_some_iff, exists_eq_left', Option.some.injEq, exists_eq',
          forall_eq', Option.filter, h, not_false_iff, ne_eq, decide_true, if_true]
        refine ⟨fun hv => ?_, fun hv => ⟨trivial, fun _ => hv.2.symm⟩⟩
        obtain rfl := hv.2 trivial
        exact ⟨h, rfl⟩

/-- The ident of a Falcon metric and the ident of its tags. -/
theorem addEndpoint_cases (endpoint : String) (tags : GoMap String String) :
    endpoint = "" ∧ FalconMetric.addEndpoint endpoint tags = (tags, "") ∨
      endpoint ≠ "" ∧ (FalconMetric.addEndpoint endpoint tags).1.lookup "ident" =
        some (FalconMetric.addEndpoint endpoint tags).2 ∧
        (FalconMetric.addEndpoint endpoint tags).2 = (tags.lookup "ident").getD endpoint := by
  unfold FalconMetric.addEndpoint
  by_cases hend : endpoint = ""
  · exact .inl ⟨hend, if_pos hend⟩
  · refine .inr ⟨hend, ?_⟩
    rw [if_neg hend]
    cases hid : tags.lookup "ident" with
    | none => exact ⟨lookup_insert _, rfl⟩
    | some id => exact ⟨(lookup_insert_of_ne _ (by decide)).trans hid, rfl⟩

theorem hostAgrees_datadog {ident : Option String}
    (h : (Metric.datadog m).convert fl order ts = .ok (pt, ident)) :
    HostAgrees pt.labels ident ↔ (Metric.datadog m).NamesOneHost := by
  have hmem := ident_mem_datadog h
  have hident := (convert_datadog h).2
  rw [identOf] at hident
  rw [Metric.NamesOneHost]
  rcases eq_nil_or_concat (valuesOf "ident" m.pairs) with hnil | ⟨front, last, hconcat⟩
  · have hlast : lastOf "ident" m.pairs = "" := by rw [lastOf, hnil]; rfl
    have hlabel : ∀ value, ⟨"ident", value⟩ ∈ pt.labels ↔
        (if m.hostOf ≠ "" then some m.hostOf else none) = some value := by
      intro value
      rw [hmem, hnil, hlast]
      split_ifs with hhost <;> simp [hhost, eq_comm]
    rw [hostAgrees_iff hlabel, hident, hlast, hnil]
    by_cases hhost : m.hostOf = "" <;> simp [hhost, Option.filter]
  · have hlast : lastOf "ident" m.pairs = last := by
      rw [lastOf, hconcat, concat_eq_append, getLast?_concat]
      rfl
    have hin : last ∈ valuesOf "ident" m.pairs := by simp [hconcat]
    rw [hlast] at hmem hident
    by_cases hempty : last = ""
    · refine iff_of_false (fun hag => ?_) fun hall => (hall last hin).1 hempty
      obtain ⟨host, hhost, hne⟩ := hag.1.mpr ⟨last, (hmem last).mpr (.inl hin)⟩
      exact hne ((hag.2 host hhost hne last ((hmem last).mpr (.inl hin))) ▸ hempty)
    · have hsome : ident = some last := by simp [hident, hempty]
      have hmem : ∀ value, ⟨"ident", value⟩ ∈ pt.labels ↔ value ∈ valuesOf "ident" m.pairs :=
        fun value => (hmem value).trans (or_iff_left fun h => hempty h.1)
      constructor
      · intro hag
        have hall : ∀ value ∈ valuesOf "ident" m.pairs, value = last := fun value hv =>
          hag.2 last hsome hempty value ((hmem value).mpr hv)
        intro value hv
        rw [hall value hv]
        exact ⟨hempty, hall⟩
      · intro hall
        refine ⟨iff_of_true ⟨last, hsome, hempty⟩ ⟨last, (hmem last).mpr hin⟩, ?_⟩
        intro host hhost _ value hv
        obtain rfl : last = host := some.inj (hsome.symm.trans hhost)
        exact (hall last hin).2 value ((hmem value).mp hv)

end

/-- **The registered host is the host on the series** exactly when the metric names one host. -/
theorem registered_host_iff {φ : Type} {fl : Floats φ} {order : MapOrder String} {ts : ℤ}
    {m : Metric φ} {pt : Series φ} {ident : Option String}
    (h : m.convert fl order ts = .ok (pt, ident)) :
    HostAgrees pt.labels ident ↔ m.NamesOneHost := by
  cases m with
  | openTSDB m =>
    obtain ⟨hlabels, hident⟩ := convert_openTSDB h
    rw [hostAgrees_iff fun value => by rw [hlabels, ident_mem_tags], hident, Metric.NamesOneHost,
      ← lookup_renameHost]
    cases (HTTPMetric.renameHost m.tags).lookup "ident" with
    | none => simp
    | some v => by_cases hv : v = "" <;> simp [hv, Option.filter]
  | falcon m =>
    obtain ⟨hlabels, hident⟩ := convert_falcon h
    rw [hostAgrees_iff fun value => by rw [hlabels, ident_mem_tags], hident, Metric.NamesOneHost]
    rcases addEndpoint_cases m.endpoint (FalconMetric.tagmap m.tags) with
      ⟨hend, heq⟩ | ⟨hend, hlookup, heq⟩
    · rw [heq]
      cases (FalconMetric.tagmap m.tags).lookup "ident" <;> simp [hend]
    · rw [hlookup, heq]
      cases (FalconMetric.tagmap m.tags).lookup "ident" with
      | none => simp [hend, Option.filter]
      | some id => by_cases hid : id = "" <;> simp [hid, hend, Option.filter]
  | datadog m => exact hostAgrees_datadog h

/-- A metric that names its host. -/
theorem host_tag_registered :
    HostAgrees [⟨"__name__", "cpu_idle"⟩, ⟨"ident", "web-2"⟩, ⟨"host", "web-1"⟩]
      (some "web-2") := by
  have hconvert : (datadog ["ident:web-2"]).convert floats order 1700000000 =
      .ok (⟨[(1700000000000, 97)],
        [⟨"__name__", "cpu_idle"⟩, ⟨"ident", "web-2"⟩, ⟨"host", "web-1"⟩]⟩, some "web-2") := rfl
  exact (registered_host_iff hconvert).mpr (by decide +kernel)

theorem not_hostAgrees {labels : List Label} {ident : Option String} (value : String)
    (hlabel : ⟨"ident", value⟩ ∈ labels) (hident : ident.filter (· ≠ "") ≠ some value) :
    ¬ HostAgrees labels ident := by
  intro h
  obtain ⟨host, hhost, hne⟩ := h.1.mpr ⟨value, hlabel⟩
  obtain rfl := h.2 host hhost hne value hlabel
  exact hident (filter_eq_some_iff.mpr ⟨hhost, by simpa using hne⟩)

/-- The metric is accepted, and the host it is registered under is not that of its series. -/
def Example.HostMissed (m : Metric ℤ) : Prop :=
  ∃ pt ident, m.convert floats order 1700000000 = .ok (pt, ident) ∧ ¬ HostAgrees pt.labels ident

/-- **Three ways to a host that is not registered**: a Falcon metric with an `ident` tag and no
endpoint, an OpenTSDB metric with an empty `ident` tag, and a Datadog metric with two. -/
theorem host_not_registered :
    Example.HostMissed (falcon "ident=web-1") ∧
      Example.HostMissed (openTSDB (singleton "ident" "")) ∧
      Example.HostMissed (datadog ["ident:web-1", "ident:web-2"]) := by
  refine ⟨⟨_, _, rfl, not_hostAgrees "web-1" ?_ ?_⟩,
    ⟨_, _, rfl, not_hostAgrees "" ?_ ?_⟩,
    ⟨_, _, rfl, not_hostAgrees "web-1" ?_ ?_⟩⟩
  all_goals decide +kernel

end Nightingale.Pushgw
