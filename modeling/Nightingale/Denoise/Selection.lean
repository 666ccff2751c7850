import Nightingale.Denoise.Rule
import Nightingale.Lib.Spelling

/-!
# Denoise/Selection — the rule that is picked, and what its key says

`SelectBestRule` keeps the best rule it has met.  Rules are compared by one rank, the priority and
then the smaller id, so the loop computes a maximum (`selectBestRule_isBest`).

The key of the rule's dimensions is a text without escapes.  It is written

    d₁=v₁|d₂=v₂|⋯|dₙ=vₙ

with `<absent>` for a value that is missing, and it identifies the values of an event exactly if
all of them are there, none is the marker, and no `|dᵢ=` can be read in another place
(`identifies_iff`).
-/

namespace Nightingale.Denoise

open List Function String CustomAggregateRule Text

/-! ## The best rule -/

section Best

variable (ext : Externals) (event : AlertCurEvent)

/-- What rules are compared by: the priority, and then the id, the other way round. -/
def CustomAggregateRule.rank (r : CustomAggregateRule) : ℤ ×ₗ ℤᵒᵈ :=
  toLex (r.priority, OrderDual.toDual r.id)

theorem CustomAggregateRule.rank_le_iff {r b : CustomAggregateRule} :
    r.rank ≤ b.rank ↔ r.priority < b.priority ∨ r.priority = b.priority ∧ b.id ≤ r.id := by
  simp [rank, Prod.Lex.toLex_le_toLex]

theorem CustomAggregateRule.beats_iff {r b : CustomAggregateRule} :
    r.beats b ↔ b.rank < r.rank := by
  rw [beats, Bool.or_eq_true, Bool.and_eq_true, decide_eq_true_iff, decide_eq_true_iff,
    beq_iff_eq, rank, rank, Prod.Lex.toLex_lt_toLex, OrderDual.toDual_lt_toDual,
    @eq_comm _ r.priority, gt_iff_lt]

/-- **The loop is a maximum**, over the rules that match. -/
theorem selectBestRule_eq_argmax (rules : List CustomAggregateRule) : selectBestRule ext event rules
      = (rules.filter (matchRule ext event)).argmax rank := by
  rw [selectBestRule, argmax, foldl_filter]
  congr 1
  funext best r
  cases matchRule ext event r with
  | false => rfl
  | true =>
    cases best with
    | none => rfl
    | some b => simp [argAux, beats_iff]

/-- The rule that ought to be picked: it matches, and any other that does has a lower priority, or
the same and a larger id. -/
structure IsBest (rules : List CustomAggregateRule) (b : CustomAggregateRule) : Prop where
  mem : b ∈ rules
  matches_event : matchRule ext event b
  best : ∀ r ∈ rules, matchRule ext event r →
    r.priority < b.priority ∨ r.priority = b.priority ∧ b.id ≤ r.id

variable {ext event} {rules : List CustomAggregateRule} {b c : CustomAggregateRule}

theorem eq_of_rank_eq (hids : (rules.map (·.id)).Nodup) (hb : b ∈ rules) (hc : c ∈ rules)
    (h : b.rank = c.rank) : b = c := by
  have hid : b.id = c.id := (Prod.mk.inj (toLex.injective h)).2
  exact inj_on_of_nodup_map hids hb hc hid

theorem IsBest.unique (hids : (rules.map (·.id)).Nodup) (hb : IsBest ext event rules b)
    (hc : IsBest ext event rules c) : b = c := by
  have hle := rank_le_iff.mpr (hb.best c hc.mem hc.matches_event)
  have hge := rank_le_iff.mpr (hc.best b hb.mem hb.matches_event)
  exact eq_of_rank_eq hids hb.mem hc.mem (le_antisymm hge hle)

theorem isBest_of_selectBestRule (h : selectBestRule ext event rules = some b) :
    IsBest ext event rules b := by
  rw [selectBestRule_eq_argmax] at h
  obtain ⟨hmem, hmatch⟩ := mem_filter.mp (argmax_mem h)
  refine ⟨hmem, hmatch, fun r hr hrmatch => ?_⟩
  exact rank_le_iff.mp
    (le_of_mem_argmax (mem_filter.mpr ⟨hr, hrmatch⟩) h)

theorem selectBestRule_eq_none_iff :
    selectBestRule ext event rules = none ↔ ∀ r ∈ rules, matchRule ext event r = false := by
  simp [selectBestRule_eq_argmax, argmax_eq_none, filter_eq_nil_iff]

theorem selectBestRule_eq_some_iff (hids : (rules.map (·.id)).Nodup) :
    selectBestRule ext event rules = some b ↔ IsBest ext event rules b := by
  refine ⟨isBest_of_selectBestRule, fun hb => ?_⟩
  cases hsel : selectBestRule ext event rules with
  | none =>
    have hfalse := selectBestRule_eq_none_iff.mp hsel b hb.mem
    rw [hb.matches_event] at hfalse
    cases hfalse
  | some c => rw [(isBest_of_selectBestRule hsel).unique hids hb]

theorem IsBest.of_perm {rules' : List CustomAggregateRule} (hperm : rules'.Perm rules)
    (hb : IsBest ext event rules b) : IsBest ext event rules' b :=
  ⟨hperm.mem_iff.mpr hb.mem, hb.matches_event, fun r hr => hb.best r (hperm.mem_iff.mp hr)⟩

variable (ext event) in
/-- **`SelectBestRule` picks the best rule that matches**, none exactly if none matches, and the
same one whatever the order of the rules. -/
theorem selectBestRule_isBest (rules : List CustomAggregateRule)
    (hids : (rules.map (·.id)).Nodup) :
    (∀ b, selectBestRule ext event rules = some b ↔ IsBest ext event rules b) ∧
      (selectBestRule ext event rules = none ↔ ∀ r ∈ rules, matchRule ext event r = false) ∧
      ∀ rules', rules'.Perm rules →
        selectBestRule ext event rules' = selectBestRule ext event rules := by
  refine ⟨fun b => selectBestRule_eq_some_iff hids, selectBestRule_eq_none_iff, ?_⟩
  intro rules' hperm
  have hids' : (rules'.map (·.id)).Nodup := (hperm.map _).nodup_iff.mpr hids
  refine Option.ext fun b => ?_
  rw [selectBestRule_eq_some_iff hids', selectBestRule_eq_some_iff hids]
  exact ⟨fun h => h.of_perm hperm.symm, fun h => h.of_perm hperm⟩

end Best

namespace Example

/-- No filter and no list can be read, and no expression matches. -/
def noText : Externals where
  unmarshalStrings := fun _ => .ok []
  unmarshalFilters := fun _ => .ok []
  marshalMap := fun _ => "\x7b\x7d"
  compile := fun _ => .ok fun _ => false

/-- A rule for every event. -/
def ruleFor (id priority : ℤ) : CustomAggregateRule := { id, dimensions := "", priority }

/-- Of three rules, two of which have the higher priority, the one with the smaller id is picked. -/
theorem selectBestRule_three :
    selectBestRule noText {} [ruleFor 7 1, ruleFor 4 2, ruleFor 3 2] = some (ruleFor 3 2) := by
  refine ((selectBestRule_isBest noText {} _ (by decide)).1 _).mpr ⟨by simp, rfl, ?_⟩
  intro r hr _
  simp only [mem_cons, not_mem_nil, or_false] at hr
  obtain rfl | rfl | rfl := hr <;> decide

end Example

/-! ## Keys -/

section Keys

variable (event : AlertCurEvent) (dims : List String)

/-- The value of a label; an absent one counts as empty. -/
def label (dim : String) : String := (event.tagsMap.lookup dim).getD ""

/-- What stands in a key before the value of a dimension that is not the first. -/
def pairSep (dim : String) : List Char := '|' :: (dim.toList ++ ['='])

/-- The dimensions as the key has them. -/
def sorted : List String := dims.insertionSort (· ≤ ·)

/-- **What a key should say of an event**: which other events agree with it on every dimension, with
any order of the dimensions, and with which values. -/
structure Identifies : Prop where
  key_iff : ∀ other, buildIncidentKey other dims = buildIncidentKey event dims ↔
    ∀ d ∈ dims, label other d = label event d
  perm : ∀ dims', dims'.Perm dims → buildIncidentKey event dims' = buildIncidentKey event dims
  values : ∀ other, buildIncidentKey other dims = buildIncidentKey event dims →
    dimensionValuesMap other dims = dimensionValuesMap event dims

/-- The values can be read off the key: they are all there, none of them is the marker, and what
stands between two of them is found in one place only. -/
structure Legible : Prop where
  there : ∀ d ∈ dims, label event d ≠ "" ∧ label event d ≠ keyMissingValue
  lone : (sorted dims).IsChain fun d d' =>
    Text.Lone (pairSep d') (label event d).toList (label event d').toList

/-! ### The key as a text -/

variable {event dims}

theorem keyValue_eq (dim : String) :
    keyValue event dim = if label event dim = "" then keyMissingValue else label event dim := by
  unfold keyValue label
  cases event.tagsMap.lookup dim with
  | none => rfl
  | some v => by_cases hv : v = "" <;> simp [hv]

theorem keyValue_ne_empty (dim : String) : (keyValue event dim).toList ≠ [] := by
  rw [keyValue_eq]
  split_ifs with h
  · decide
  · simpa using h

theorem toList_intercalate_pairs (d : String) (ds : List String) :
    ("|".intercalate ((d :: ds).map fun dim => dim ++ "=" ++ keyValue event dim)).toList
      = d.toList ++ '=' :: spell pairSep (fun dim => (keyValue event dim).toList)
          (keyValue event d).toList ds := by
  induction ds generalizing d with
  | nil => simp [spell]
  | cons d' ds ih =>
    have hnext := ih d'
    rw [map_cons] at hnext
    rw [map_cons, map_cons, String.intercalate_cons_cons, String.toList_append,
      toList_append, hnext, spell]
    simp [pairSep]

section

variable {dims' : List String} {d : String} {other : AlertCurEvent}

theorem sorted_perm (h : dims'.Perm dims) : sorted dims' = sorted dims :=
  Perm.eq_of_pairwise' (pairwise_insertionSort _ _) (pairwise_insertionSort _ _)
    (((perm_insertionSort _ _).trans h).trans (perm_insertionSort _ _).symm)

theorem buildIncidentKey_perm (h : dims'.Perm dims) :
    buildIncidentKey event dims' = buildIncidentKey event dims := by
  have hsorted := sorted_perm h
  unfold sorted at hsorted
  rw [buildIncidentKey, buildIncidentKey, hsorted]

theorem mem_sorted : d ∈ sorted dims ↔ d ∈ dims := mem_insertionSort _

/-- Two keys of one list of dimensions are equal as the texts after the first `=` are. -/
theorem buildIncidentKey_eq_iff {ds : List String} (hsorted : sorted dims = d :: ds) :
    buildIncidentKey other dims = buildIncidentKey event dims ↔
      spell pairSep (fun dim => (keyValue other dim).toList) (keyValue other d).toList ds
        = spell pairSep (fun dim => (keyValue event dim).toList)
            (keyValue event d).toList ds := by
  unfold sorted at hsorted
  rw [buildIncidentKey, buildIncidentKey, hsorted, ← toList_inj, toList_intercalate_pairs,
    toList_intercalate_pairs, append_cancel_left_eq, cons_inj_right]

theorem buildIncidentKey_congr (h : ∀ d ∈ dims, keyValue other d = keyValue event d) :
    buildIncidentKey other dims = buildIncidentKey event dims := by
  unfold buildIncidentKey
  congr 1
  refine map_congr_left fun d hd => ?_
  rw [h d (mem_sorted.mp hd)]

theorem keyValue_congr (h : label other d = label event d) :
    keyValue other d = keyValue event d := by
  rw [keyValue_eq, keyValue_eq, h]

theorem keyValue_of_ne_empty (h : label event d ≠ "") : keyValue event d = label event d := by
  rw [keyValue_eq, if_neg h]

end

/-! ### Legible keys -/

theorem isChain_keyValue_iff
    (h : ∀ d ∈ dims, label event d ≠ "" ∧ label event d ≠ keyMissingValue) :
    ((sorted dims).IsChain fun d d' =>
        Text.Lone (pairSep d') (keyValue event d).toList (keyValue event d').toList) ↔
      (sorted dims).IsChain fun d d' =>
        Text.Lone (pairSep d') (label event d).toList (label event d').toList := by
  refine IsChain.iff_of_mem_imp fun d d' hd hd' => ?_
  rw [keyValue_of_ne_empty (h d (mem_sorted.mp hd)).1,
    keyValue_of_ne_empty (h d' (mem_sorted.mp hd')).1]

namespace Legible

variable (h : Legible event dims)

include h

section

variable {other : AlertCurEvent} {d : String}
  (hkey : buildIncidentKey other dims = buildIncidentKey event dims) (hd : d ∈ dims)

include hkey hd

theorem keyValue_eq_of_key_eq : keyValue other d = keyValue event d := by
  cases hsorted : sorted dims with
  | nil =>
    rw [← mem_sorted, hsorted] at hd
    cases hd
  | cons first rest =>
    have hlone := h.lone
    rw [← isChain_keyValue_iff h.there, hsorted] at hlone
    obtain ⟨hfirst, hrest⟩ := spell_inj hlone (fun d _ => keyValue_ne_empty d)
      (fun d _ => keyValue_ne_empty d) (keyValue_ne_empty first)
      ((buildIncidentKey_eq_iff hsorted).mp hkey)
    rw [← mem_sorted, hsorted] at hd
    rcases mem_cons.mp hd with rfl | hd
    · exact toList_inj.mp hfirst
    · exact toList_inj.mp (hrest d hd)

theorem label_eq_of_key_eq : label other d = label event d := by
  have hvalue := h.keyValue_eq_of_key_eq hkey hd
  rw [keyValue_of_ne_empty (h.there d hd).1, keyValue_eq] at hvalue
  split_ifs at hvalue with hempty
  · exact absurd hvalue.symm (h.there d hd).2
  · exact hvalue

end

end Legible

theorem lookup_of_label_ne_empty {d : String} (h : label event d ≠ "") :
    event.tagsMap.lookup d = some (label event d) := by
  unfold label at h ⊢
  cases hlookup : event.tagsMap.lookup d with
  | none => simp [hlookup] at h
  | some v => rfl

/-- **A legible key identifies** the values of the event. -/
theorem Legible.identifies (h : Legible event dims) : Identifies event dims where
  key_iff other := by
    constructor
    · intro hkey d hd
      exact h.label_eq_of_key_eq hkey hd
    · intro hlabel
      exact buildIncidentKey_congr fun d hd => keyValue_congr (hlabel d hd)
  perm dims' hperm := buildIncidentKey_perm hperm
  values other hkey := by
    unfold dimensionValuesMap
    refine foldl_ext _ _ _ fun out d hd => ?_
    have hlabel := h.label_eq_of_key_eq hkey hd
    have hne := (h.there d hd).1
    rw [lookup_of_label_ne_empty hne, lookup_of_label_ne_empty (hlabel ▸ hne), hlabel]

theorem legible_of_forall_notMem
    (hthere : ∀ d ∈ dims, label event d ≠ "" ∧ label event d ≠ keyMissingValue)
    (hbar : ∀ d ∈ dims, '|' ∉ (label event d).toList) : Legible event dims := by
  have hsorted : (sorted dims).IsChain (· ≤ ·) := (pairwise_insertionSort _ _).isChain
  refine ⟨hthere, hsorted.imp_of_mem_imp fun d d' hd hd' _ => ?_⟩
  exact lone_of_notMem (hbar d (mem_sorted.mp hd)) (hbar d' (mem_sorted.mp hd'))

/-! ### Keys that are not legible -/

theorem lookup_foldl_labels (values : String → String) (l : List String) (m : GoMap String String)
    (d : String) : (l.foldl (fun m d => m.insert d (values d)) m).lookup d
      = if d ∈ l then some (values d) else m.lookup d := by
  induction l generalizing m with
  | nil => simp
  | cons d' l ih =>
    rw [foldl_cons, ih, GoMap.lookup_insert_ite]
    by_cases hd : d = d'
    · simp [hd]
    · simp [hd]

/-- An event with given values of its dimensions. -/
def withLabels (dims : List String) (values : String → String) : AlertCurEvent :=
  { tagsMap := dims.foldl (fun m d => m.insert d (values d)) ∅ }

theorem label_withLabels (values : String → String) {d : String} (hd : d ∈ dims) :
    label (withLabels dims values) d = values d := by
  rw [label, withLabels, lookup_foldl_labels, if_pos hd, Option.getD_some]

namespace Identifies

variable (h : Identifies event dims)

include h

theorem label_eq_of_keyValue_eq (values : String → String)
    (hvalues : ∀ d ∈ dims, keyValue (withLabels dims values) d = keyValue event d) {d : String}
    (hd : d ∈ dims) : values d = label event d := by
  rw [← label_withLabels values hd]
  exact (h.key_iff _).mp (buildIncidentKey_congr hvalues) d hd

/-- The marker and a missing value are told apart by no key. -/
theorem there {d : String} (hd : d ∈ dims) :
    label event d ≠ "" ∧ label event d ≠ keyMissingValue := by
  have hother : ∀ v, (label event d = "" ∨ label event d = keyMissingValue) →
      (v = "" ∨ v = keyMissingValue) → v = label event d := by
    intro v hevent hv
    have hvalue : ∀ e : AlertCurEvent, (label e d = "" ∨ label e d = keyMissingValue) →
        keyValue e d = keyMissingValue := by
      rintro e (he | he) <;> simp [keyValue_eq, he]
    rw [← h.label_eq_of_keyValue_eq (update (label event) d v) ?_ hd, update_self]
    intro d' hd'
    by_cases hdd : d' = d
    · subst hdd
      rw [hvalue event hevent, hvalue]
      rwa [label_withLabels _ hd', update_self]
    · refine keyValue_congr ?_
      rw [label_withLabels _ hd', update_of_ne hdd]
  constructor
  · intro hempty
    have := hother keyMissingValue (.inl hempty) (.inr rfl)
    rw [hempty] at this
    exact absurd this (by decide)
  · intro hmarker
    have := hother "" (.inr hmarker) (.inl rfl)
    rw [hmarker] at this
    exact absurd this (by decide)

theorem legible (hnodup : dims.Nodup) : Legible event dims := by
  refine ⟨fun d hd => h.there hd, ?_⟩
  rw [← isChain_keyValue_iff fun d hd => h.there hd]
  have hsnodup : (sorted dims).Nodup := (perm_insertionSort _ _).nodup_iff.mpr hnodup
  cases hsorted : sorted dims with
  | nil => exact isChain_nil
  | cons first rest =>
    rw [hsorted] at hsnodup
    obtain ⟨hfirst, hrest⟩ := nodup_cons.mp hsnodup
    have hmem : ∀ d ∈ first :: rest, d ∈ dims := fun d hd => mem_sorted.mp (hsorted ▸ hd)
    by_contra hlone
    obtain ⟨v, g, hv, hg, hspell, hne⟩ := exists_spell_eq hrest
      (fun d _ => keyValue_ne_empty d) (keyValue_ne_empty first) hlone
    -- the other reading of the key, as the labels of an event
    let values := update (fun d => ofList (g d)) first (ofList v)
    have hvalue : ∀ d ∈ rest, values d = ofList (g d) := fun d hd =>
      update_of_ne (ne_of_mem_of_not_mem hd hfirst) _ _
    have hother : ∀ d ∈ first :: rest, keyValue (withLabels dims values) d = values d := by
      intro d hd
      rw [keyValue_of_ne_empty] <;> rw [label_withLabels values (hmem d hd)]
      rcases mem_cons.mp hd with rfl | hd
      · simpa [values] using hv
      · simpa [hvalue d hd] using hg d hd
    have hhead := hother first mem_cons_self
    have htail : ∀ d ∈ rest, (keyValue (withLabels dims values) d).toList = g d := by
      intro d hd
      rw [hother d (mem_cons_of_mem _ hd), hvalue d hd, toList_ofList]
    have hfirstValue : values first = ofList v := update_self _ _ _
    have hkey : buildIncidentKey (withLabels dims values) dims = buildIncidentKey event dims := by
      rw [buildIncidentKey_eq_iff hsorted, hhead, hfirstValue, toList_ofList,
        spell_congr htail, hspell]
    have hlabel : ∀ d ∈ first :: rest, values d = keyValue event d := by
      intro d hd
      rw [keyValue_of_ne_empty (h.there (hmem d hd)).1, ← label_withLabels values (hmem d hd)]
      exact (h.key_iff _).mp hkey d (hmem d hd)
    refine hne ⟨?_, fun d hd => ?_⟩
    · rw [← hlabel first mem_cons_self, hfirstValue, toList_ofList]
    · rw [← hlabel d (mem_cons_of_mem _ hd), hvalue d hd, toList_ofList]

end Identifies

variable (event) in
/-- **A key identifies the values of its dimensions exactly if it is legible**: each of them is
there and is not the marker, and what stands between two of them cannot be read elsewhere. -/
theorem identifies_iff (dims : List String) (hnodup : dims.Nodup) :
    Identifies event dims ↔ Legible event dims := ⟨fun h => h.legible hnodup, fun h => h.identifies⟩

end Keys

namespace Example

/-- An event with two labels. -/
def labelled (a b : String) : AlertCurEvent :=
  { tagsMap := ((∅ : GoMap String String).insert "a" a).insert "b" b }

/-- Values without a separator are legible. -/
theorem identifies_prod : Identifies (labelled "prod" "web") ["a", "b"] := by
  exact (identifies_iff _ _ (by decide)).mpr (legible_of_forall_notMem (by decide) (by decide))

/-- **A value with a separator in it**: two events whose labels differ have one key.  So have an
event without a label and one with the marker as its value; and an event without a label and one
with an empty value have one key, but not the same values. -/
theorem not_identifies_separator :
    (buildIncidentKey (labelled "1|b=2" "3") ["a", "b"]
        = buildIncidentKey (labelled "1" "2|b=3") ["a", "b"] ∧
      label (labelled "1|b=2" "3") "a" ≠ label (labelled "1" "2|b=3") "a") ∧
    (buildIncidentKey {} ["a"] = buildIncidentKey (labelled "<absent>" "") ["a"] ∧
      label {} "a" ≠ label (labelled "<absent>" "") "a") ∧
    buildIncidentKey {} ["a"] = buildIncidentKey (labelled "" "") ["a"] ∧
      dimensionValuesMap {} ["a"] ≠ dimensionValuesMap (labelled "" "") ["a"] := by
  decide +kernel

end Example

end Nightingale.Denoise
