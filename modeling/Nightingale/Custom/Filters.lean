import Nightingale.Denoise.Rule
import Nightingale.Mute.Evaluator
import Nightingale.Suppress.Inhibitor
import Nightingale.Lib.Run

/-!
# Custom/Filters — one format, two readings

A list of tag filters is stored as JSON and read in four places.  Aggregation, inhibition and the
mutes have a copy each of one matcher; `common.MatchTags` (`alert/common/key.go`) is the native one,
and it was written apart:

                       custom                       native
    Func empty         no filter matches            Op is taken
    key absent         the negative operators pass  no filter passes
    == and !=          a string, to the letter      any value, by its text, without outer spaces
    key target_group   a key like any other         the groups of the tag target

`filters_agree_iff` says for which tags and which lists all four give one answer.
-/

namespace Nightingale

open List Custom TagFilter

/-! ## The native matcher -/

mutual

/-- `%v`. -/
def Json.text : Json → String
  | .null => "<nil>"
  | .bool b => if b then "true" else "false"
  | .num text _ => text
  | .str s => s
  | .arr items => "[" ++ " ".intercalate (Json.texts items) ++ "]"
  | .obj text => text

/-- The texts of the items of an array. -/
def Json.texts : List Json → List String
  | [] => []
  | item :: items => item.text :: Json.texts items

end

/-- A `float64`, by its text; both zeros are one key of a map. -/
def Json.float : Json → Option String
  | .num text _ => some (if text = "-0" then "0" else text)
  | _ => none

/-- The operator of a filter is missing. -/
def FilterFunc.isEmpty : FilterFunc → Bool
  | .other text => text == ""
  | _ => false

/-- `Func` is filled from `Op` when it is empty. -/
def TagFilter.fill (f : TagFilter) : TagFilter :=
  if f.func.isEmpty then { f with func := f.op } else f

namespace Common

/-- The search of `targetGroupMatch` for a group id; an id that is no number panics. -/
def findGroup (ids : List String) : List Json → Option Bool
  | [] => some false
  | gid :: gids =>
    match gid.float with
    | none => none
    | some id => if id ∈ ids then some true else findGroup ids gids

/-- The search of `targetGroupMatch` for a group name. -/
def findName (regexp : Option (String → Bool)) : List Json → Option Bool
  | [] => some false
  | gname :: gnames =>
    match regexp with
    | none => none
    | some re => if re gname.text then some true else findName regexp gnames

/-- Whether the target is in a group the filter lists, if both have a list of ids. -/
def inGroups (valueMap : GoMap String Json) (f : TagFilter) : Option (Option Bool) :=
  match f.value with
  | .arr filterValueIds =>
    match filterValueIds.mapM Json.float with
    | none => none
    | some ids =>
      match valueMap.lookup "group_ids" with
      | some (.arr groupIds) => (findGroup ids groupIds).map some
      | _ => some none
  | _ => some none

/-- Whether the name of a group of the target matches, if it has a list of names. -/
def matchesGroups (valueMap : GoMap String Json) (f : TagFilter) : Option (Option Bool) :=
  match valueMap.lookup "group_names" with
  | some (.arr groupNames) => (findName f.regexp groupNames).map some
  | _ => some none

variable (decode : String → Option (GoMap String Json)) (tags : GoMap String String)

/-- `targetGroupMatch`; `none` is a panic. -/
def targetGroupMatch (value : String) (f : TagFilter) : Option Bool :=
  match decode value with
  | none => some false
  | some valueMap =>
    match f.func with
    | .isIn => (inGroups valueMap f).map fun found => found.any fun found => found
    | .notIn => (inGroups valueMap f).map fun found => found.any fun found => !found
    | .match => (matchesGroups valueMap f).map fun matched => matched.any fun matched => matched
    | .notMatch => (matchesGroups valueMap f).map fun matched => matched.any fun matched => !matched
    | .eq | .ne | .other _ => some false

/-- `matchTag`; `none` is a panic. -/
def matchTag (value : String) (f : TagFilter) : Option Bool :=
  match f.func with
  | .eq => some (trimSpace f.value.text == trimSpace value)
  | .ne => some (trimSpace f.value.text != trimSpace value)
  | .isIn => some (decide (value ∈ f.vset))
  | .notIn => some (decide (value ∉ f.vset))
  | .match => f.regexp.map fun re => re value
  | .notMatch => f.regexp.map fun re => !re value
  | .other _ => some false

/-- The body of the loop of `MatchTags`. -/
def matchFilter (f : TagFilter) : Option Bool :=
  if f.key = "target_group" then
    match tags.lookup "target" with
    | none => some false
    | some value => targetGroupMatch decode value f
  else
    match tags.lookup f.key with
    | none => some false
    | some value => matchTag value f

/-- `MatchTags`. -/
def matchTags : List TagFilter → Option Bool
  | [] => some true
  | f :: fs =>
    match matchFilter decode tags f with
    | some true => matchTags fs
    | out => out

end Common

open Common

/-! ## The four outcomes -/

/-- What comes of a list of filters. -/
inductive FilterOutcome where
  | malformed
  | panics
  | verdict (accepted : Bool)
  deriving DecidableEq

/-- The outcome of a custom matcher, from what its parser returns. -/
def Custom.filterOutcome (matchAll : List TagFilter → Bool) :
    Except String (List TagFilter) → FilterOutcome
  | .error _ => .malformed
  | .ok filters => .verdict (matchAll filters)

section Outcomes

variable (ext : Externals) (decode : String → Option (GoMap String Json))
  (tags : GoMap String String) (raw : String)

/-- The filters of an aggregation rule. -/
def Denoise.filterOutcome : FilterOutcome :=
  Custom.filterOutcome (Denoise.matchAllTagFilters tags) (Denoise.parseTagFilters ext raw)

/-- The filters of an inhibit rule. -/
def Suppress.filterOutcome : FilterOutcome :=
  Custom.filterOutcome (Suppress.matchAllTagFilters tags) (Suppress.decodeTagFilters ext raw)

/-- The filters of a cron mute. -/
def Mute.filterOutcome : FilterOutcome :=
  Custom.filterOutcome (Mute.matchAllTagFilters tags) (Mute.decodeTagFilters ext raw)

/-- The filters as they are stored. -/
def storedFilters : Except String (List TagFilter) :=
  if raw = "" then .ok [] else ext.unmarshalFilters raw

/-- The outcome of the native matcher, from what the parser returns. -/
def Common.outcomeOf : Except String (List TagFilter) → FilterOutcome
  | .error _ => .malformed
  | .ok filters =>
    match matchTags decode tags filters with
    | none => .panics
    | some accepted => .verdict accepted

/-- The native reading: `Func` is filled, the filters are parsed, and `MatchTags` is asked. -/
def Common.filterOutcome : FilterOutcome :=
  outcomeOf decode tags
    ((storedFilters ext raw).bind fun filters => parseTagFilter ext (filters.map fill))

end Outcomes

/-! ## Parsing a list -/

namespace TagFilter

variable (ext : Externals) (f : TagFilter)

/-- `ParseTagFilter` refuses the filter. -/
def Malformed : Prop := (f.parse ext).toOption = none

/-- The filter, parsed. -/
def compiled : TagFilter := (f.parse ext).toOption.getD f

theorem parse_eq_ok (h : ¬ f.Malformed ext) : f.parse ext = .ok (f.compiled ext) := by
  unfold Malformed compiled at *
  cases hp : f.parse ext with
  | error err => exact absurd (by rw [hp]; rfl) h
  | ok p => rfl

end TagFilter

section Parse

variable {ext : Externals} {fs : List TagFilter}

theorem parseTagFilter_eq_ok (h : ∀ f ∈ fs, ¬ f.Malformed ext) :
    parseTagFilter ext fs = .ok (fs.map fun f => f.compiled ext) := by
  unfold parseTagFilter
  induction fs with
  | nil => rfl
  | cons f fs ih =>
    rw [mapM_cons, f.parse_eq_ok ext (h f mem_cons_self), ih fun g hg => h g (mem_cons_of_mem _ hg)]
    rfl

theorem parseTagFilter_eq_error (h : ∃ f ∈ fs, f.Malformed ext) :
    ∃ err, parseTagFilter ext fs = .error err := by
  unfold parseTagFilter
  induction fs with
  | nil => simp at h
  | cons f fs ih =>
    rw [mapM_cons]
    cases hp : f.parse ext with
    | error err => exact ⟨err, rfl⟩
    | ok p =>
      obtain ⟨g, hg, hbad⟩ := h
      rcases mem_cons.mp hg with rfl | hg
      · rw [TagFilter.Malformed, hp] at hbad
        cases hbad
      · obtain ⟨err, herr⟩ := ih ⟨g, hg, hbad⟩
        exact ⟨err, by rw [herr]; rfl⟩

end Parse

/-! ## The answer of the native matcher -/

namespace Common

/-- What a filter on `target_group` takes for numbers are numbers: all its own values, and those of
the target up to the first that is one of them. -/
def Numeric (valueMap : GoMap String Json) (f : TagFilter) : Prop :=
  ∀ items, f.value = .arr items → ∃ ids : List String, items.map Json.float = ids.map some ∧
    ∀ gids, valueMap.lookup "group_ids" = some (.arr gids) →
      ∀ gid ∈ gids.takeWhile fun gid => gid.float ∉ ids.map some, gid.float.isSome

section Answer

variable (decode : String → Option (GoMap String Json)) (tags : GoMap String String)
  (f : TagFilter)

/-- The filter does not look for group ids, or finds numbers. -/
def Fits : Prop :=
  match f.func with
  | .isIn | .notIn => f.key = "target_group" → ∀ value ∈ tags.lookup "target",
      ∀ valueMap ∈ decode value, Numeric valueMap f
  | _ => True

/-- The native matcher accepts the filter.  On `target_group` it asks for a group of the target that
is listed, or whose name matches; on another key, for a tag that is there. -/
def Accepts : Prop :=
  if f.key = "target_group" then
    ∃ value ∈ tags.lookup "target", ∃ valueMap ∈ decode value,
      match f.func with
      | .isIn => ∃ items gids, f.value = .arr items ∧
          valueMap.lookup "group_ids" = some (.arr gids) ∧
            ∃ gid ∈ gids, gid.float ∈ items.map Json.float
      | .notIn => ∃ items gids, f.value = .arr items ∧
          valueMap.lookup "group_ids" = some (.arr gids) ∧
            ∀ gid ∈ gids, gid.float ∉ items.map Json.float
      | .match => ∃ gnames, valueMap.lookup "group_names" = some (.arr gnames) ∧
          ∃ gname ∈ gnames, ∃ re ∈ f.regexp, re gname.text = true
      | .notMatch => ∃ gnames, valueMap.lookup "group_names" = some (.arr gnames) ∧
          ∀ gname ∈ gnames, ∀ re ∈ f.regexp, re gname.text = false
      | .eq | .ne | .other _ => False
  else
    ∃ val ∈ tags.lookup f.key,
      match f.func with
      | .eq => trimSpace f.value.text = trimSpace val
      | .ne => trimSpace f.value.text ≠ trimSpace val
      | .isIn => val ∈ f.vset
      | .notIn => val ∉ f.vset
      | .match => ∃ re ∈ f.regexp, re val = true
      | .notMatch => ∃ re ∈ f.regexp, re val = false
      | .other _ => False

variable {decode tags f}

theorem isSome_findGroup_iff {ids : List String} {gids : List Json} : (findGroup ids gids).isSome ↔
    ∀ gid ∈ gids.takeWhile fun gid => gid.float ∉ ids.map some, gid.float.isSome := by
  induction gids with
  | nil => simp [findGroup]
  | cons gid gids ih =>
    rw [findGroup, takeWhile_cons]
    cases hid : gid.float with
    | none => simp [hid]
    | some id => by_cases hmem : id ∈ ids <;> simp_all

theorem isSome_inGroups_iff {valueMap : GoMap String Json} :
    (inGroups valueMap f).isSome ↔ Numeric valueMap f := by
  simp only [inGroups, Numeric, ← mapM_eq_some_iff, ← isSome_findGroup_iff]
  cases f.value with
  | arr items =>
    cases hids : items.mapM Json.float with
    | none => simp [hids]
    | some ids =>
      rcases valueMap.lookup "group_ids" with _ | _ | _ | _ | _ | gids | _ <;> simp [hids]
  | _ => simp

theorem findGroup_eq_some {ids : List String} {gids : List Json} {found : Bool}
    (h : findGroup ids gids = some found) :
    found = true ↔ ∃ gid ∈ gids, gid.float ∈ ids.map some := by
  induction gids with
  | nil => simp_all [findGroup]
  | cons gid gids ih =>
    rw [findGroup] at h
    cases hid : gid.float with
    | none => simp [hid] at h
    | some id => by_cases hmem : id ∈ ids <;> simp_all

theorem findName_some (re : String → Bool) (gnames : List Json) :
    findName (some re) gnames = some (gnames.any fun gname => re gname.text) := by
  induction gnames with
  | nil => rfl
  | cons gname gnames ih =>
    rw [findName, any_cons]
    cases re gname.text with
    | true => rfl
    | false => exact ih

theorem inGroups_eq_some {valueMap : GoMap String Json} {found : Option Bool}
    (h : inGroups valueMap f = some found) (hit : Bool) : found = some hit ↔
      ∃ items gids, f.value = .arr items ∧ valueMap.lookup "group_ids" = some (.arr gids) ∧
        (hit = true ↔ ∃ gid ∈ gids, gid.float ∈ items.map Json.float) := by
  unfold inGroups at h
  split at h
  next items hvalue =>
    split at h
    · cases h
    next ids hids =>
      split at h
      next gids hgids =>
        obtain ⟨b, hb, rfl⟩ := Option.map_eq_some_iff.mp h
        have hfound := findGroup_eq_some hb
        rw [← mapM_eq_some_iff.mp hids] at hfound
        simp only [hvalue, hgids, Json.arr.injEq, Option.some.injEq, exists_and_left,
          exists_eq_left', ← hfound]
        exact Bool.eq_iff_iff.trans iff_comm
      next hgids =>
        cases h
        grind
  next hvalue =>
    cases h
    grind

theorem isSome_matchesGroups (valueMap : GoMap String Json) {re : String → Bool}
    (h : f.regexp = some re) : (matchesGroups valueMap f).isSome := by
  rw [matchesGroups, h]
  split
  · rw [findName_some]
    rfl
  · rfl

theorem matchesGroups_eq_some {valueMap : GoMap String Json} {re : String → Bool}
    {matched : Option Bool} (hre : f.regexp = some re) (h : matchesGroups valueMap f = some matched)
    (hit : Bool) : matched = some hit ↔
      ∃ gnames, valueMap.lookup "group_names" = some (.arr gnames) ∧
        (hit = true ↔ ∃ gname ∈ gnames, re gname.text = true) := by
  rw [matchesGroups, hre] at h
  split at h
  next gnames hgnames =>
    rw [findName_some] at h
    cases h
    simp only [hgnames, Option.some.injEq, Json.arr.injEq, exists_eq_left', ← any_eq_true]
    exact Bool.eq_iff_iff.trans iff_comm
  next hgnames =>
    cases h
    grind

variable (hre : f.func = .match ∨ f.func = .notMatch → ∃ re, f.regexp = some re)

include hre

/-- **A parsed filter returns exactly if it fits.** -/
theorem isSome_matchFilter_iff : (matchFilter decode tags f).isSome ↔ Fits decode tags f := by
  unfold matchFilter Fits targetGroupMatch matchTag
  cases hfunc : f.func with
  | «match» | notMatch =>
    obtain ⟨re, hre⟩ := hre (by simp [hfunc])
    have hgroups := fun valueMap => isSome_matchesGroups valueMap hre
    grind
  | isIn | notIn =>
    have hgroups := fun valueMap => @isSome_inGroups_iff f valueMap
    grind
  | eq | ne | other => grind

theorem accepts_of_targetGroupMatch {value : String} {out : Bool}
    (hkey : f.key = "target_group") (hvalue : tags.lookup "target" = some value)
    (h : targetGroupMatch decode value f = some out) :
    out = true ↔ Accepts decode tags f := by
  unfold targetGroupMatch at h
  rw [Accepts, if_pos hkey]
  cases hmap : decode value with
  | none => simp_all
  | some valueMap =>
    simp only [hmap, hvalue] at h ⊢
    cases hfunc : f.func with
    | «match» | notMatch =>
      obtain ⟨re, hre⟩ := hre (by simp [hfunc])
      simp only [hfunc, Option.map_eq_some_iff] at h
      obtain ⟨matched, hmatched, rfl⟩ := h
      simp [hre, hmap, Option.any_eq_true, matchesGroups_eq_some hre hmatched]
    | isIn | notIn =>
      simp only [hfunc, Option.map_eq_some_iff] at h
      obtain ⟨found, hfound, rfl⟩ := h
      simp [hmap, Option.any_eq_true, inGroups_eq_some hfound]
    | eq | ne | other => simp_all

theorem accepts_of_matchFilter {out : Bool} (h : matchFilter decode tags f = some out) :
    out = true ↔ Accepts decode tags f := by
  unfold matchFilter at h
  split_ifs at h with hkey
  · split at h
    next hvalue => simp_all [Accepts]
    next value hvalue => exact accepts_of_targetGroupMatch hre hkey hvalue h
  · rw [Accepts, if_neg hkey]
    unfold matchTag at h
    cases hval : tags.lookup f.key with
    | none => simp_all
    | some val =>
      cases hfunc : f.func with
      | «match» | notMatch =>
        obtain ⟨re, hre⟩ := hre (by simp [hfunc])
        simp only [hval, hfunc, hre, Option.map_some, Option.some.injEq] at h
        simp [← h, hre]
      | isIn | notIn | eq | ne | other =>
        simp only [hval, hfunc, Option.some.injEq] at h
        simp [← h]

/-- **Its answer is then whether it is accepted.** -/
theorem matchFilter_eq_some_iff {accepted : Bool} :
    matchFilter decode tags f = some accepted ↔
      Fits decode tags f ∧ (accepted = true ↔ Accepts decode tags f) := by
  rw [← isSome_matchFilter_iff hre]
  cases hout : matchFilter decode tags f with
  | none => simp
  | some out =>
    rw [← accepts_of_matchFilter hre hout, ← Bool.eq_iff_iff]
    simp [eq_comm]

end Answer

end Common

/-! ## One filter -/

namespace TagFilter

section Reading

variable (ext : Externals) (decode : String → Option (GoMap String Json))
  (tags : GoMap String String) (f : TagFilter)

/-- What the custom matchers make of the filter. -/
def custom : Bool := matchSingleTagFilter tags (f.compiled ext)

/-- What the native matcher makes of it. -/
def native : Option Bool := matchFilter decode tags (f.fill.compiled ext)

/-- **The filter is read alike.**  Its operator stands in `Func`, or `Op` rejects it; on
`target_group` the tag of this name and the groups of the target decide alike; another key is there
under a negative operator, and for `==` and `!=` the value has the text of the tag, up to outer
spaces, only if it is that very string. -/
def Alike : Prop :=
  if f.func.isEmpty then
    Fits decode tags (f.fill.compiled ext) ∧ ¬ Accepts decode tags (f.fill.compiled ext)
  else if f.key = "target_group" then
    Fits decode tags (f.compiled ext) ∧
      (f.custom ext tags = true ↔ Accepts decode tags (f.compiled ext))
  else
    match f.func, tags.lookup f.key with
    | .eq, some val | .ne, some val => trimSpace f.value.text = trimSpace val ↔ f.value = .str val
    | .ne, none | .notMatch, none | .notIn, none => False
    | .eq, none | .match, _ | .notMatch, some _ | .isIn, _ | .notIn, some _ | .other _, _ => True

end Reading

variable {ext : Externals} {decode : String → Option (GoMap String Json)}
  {tags : GoMap String String} {f : TagFilter}

/-- What parsing leaves as it was, and what it puts in. -/
structure Parsed (f p : TagFilter) : Prop where
  key : p.key = f.key
  func : p.func = f.func
  value : p.value = f.value
  regexp : f.func = .match ∨ f.func = .notMatch → ∃ re, p.regexp = some re

theorem parsed_of_parse {p : TagFilter} (h : f.parse ext = .ok p) : Parsed f p := by
  obtain ⟨key, func, op, value, regexp, vset⟩ := f
  cases func with
  | «match» | notMatch =>
    cases value with
    | str pattern =>
      cases hre : ext.compile pattern with
      | error err => simp [parse, hre, Except.map] at h
      | ok re =>
        simp only [parse, hre, Except.map, Except.ok.injEq] at h
        subst h
        exact ⟨rfl, rfl, rfl, fun _ => ⟨re, rfl⟩⟩
    | _ => simp [parse] at h
  | isIn | notIn | eq | ne | other =>
    simp only [parse, Except.ok.injEq] at h
    subst h
    exact ⟨rfl, rfl, rfl, by simp⟩

theorem regexp_compiled (h : ¬ f.Malformed ext) :
    (f.compiled ext).func = .match ∨ (f.compiled ext).func = .notMatch →
      ∃ re, (f.compiled ext).regexp = some re := by
  have hparsed := parsed_of_parse (f.parse_eq_ok ext h)
  rw [hparsed.func]
  exact hparsed.regexp

theorem fill_of_func (h : f.func.isEmpty = false) : f.fill = f := by simp [fill, h]

theorem custom_of_isEmpty (h : f.func.isEmpty = true) : f.custom ext tags = false := by
  obtain ⟨key, func, op, value, regexp, vset⟩ := f
  cases func with
  | other text => rfl
  | _ => simp [FilterFunc.isEmpty] at h

theorem matchSingle_eq_iff {val : String} (hfunc : f.func = .eq)
    (hval : tags.lookup f.key = some val) :
    matchSingleTagFilter tags f = true ↔ f.value = .str val := by
  cases hvalue : f.value with
  | str s => simpa [matchSingleTagFilter, hfunc, hval, hvalue] using eq_comm
  | _ => simp [matchSingleTagFilter, hfunc, hval, hvalue]

theorem matchSingle_ne_iff {val : String} (hfunc : f.func = .ne)
    (hval : tags.lookup f.key = some val) :
    matchSingleTagFilter tags f = true ↔ f.value ≠ .str val := by
  cases hvalue : f.value with
  | str s => simpa [matchSingleTagFilter, hfunc, hval, hvalue] using not_congr eq_comm
  | _ => simp [matchSingleTagFilter, hfunc, hval, hvalue]

theorem reads_alike_iff {p : TagFilter} (hp : Parsed f p) (hkey : f.key ≠ "target_group")
    (hfunc : f.func.isEmpty = false) :
    matchFilter decode tags p = some (matchSingleTagFilter tags p) ↔
      f.Alike ext decode tags := by
  rw [← hp.key] at hkey
  rw [Alike, if_neg (by simp [hfunc]), if_neg (hp.key ▸ hkey), matchFilter, if_neg hkey,
    ← hp.key, ← hp.value]
  have hre := hp.regexp
  rw [← hp.func] at hre ⊢
  cases hval : tags.lookup p.key with
  | none => cases hop : p.func <;> simp [matchSingleTagFilter, hval, hop]
  | some val =>
    cases hop : p.func with
    | eq =>
      simp only [matchTag, hop]
      rw [Option.some_inj, Bool.eq_iff_iff, beq_iff_eq, matchSingle_eq_iff hop hval]
    | ne =>
      simp only [matchTag, hop]
      rw [Option.some_inj, Bool.eq_iff_iff, bne_iff_ne, matchSingle_ne_iff hop hval, not_iff_not]
    | «match» =>
      obtain ⟨re, hre⟩ := hre (.inl hop)
      simp [matchSingleTagFilter, matchTag, hval, hop, hre]
    | notMatch =>
      obtain ⟨re, hre⟩ := hre (.inr hop)
      simp [matchSingleTagFilter, matchTag, hval, hop, hre]
    | isIn | notIn | other => simp [matchSingleTagFilter, matchTag, hval, hop]

/-- **One filter gets one answer** if and only if it is read alike. -/
theorem native_eq_custom_iff (h : ¬ f.fill.Malformed ext) :
    f.native ext decode tags = some (f.custom ext tags) ↔ f.Alike ext decode tags := by
  have hnative : ∀ {accepted : Bool}, f.native ext decode tags = some accepted ↔ _ :=
    matchFilter_eq_some_iff (regexp_compiled h)
  cases hfunc : f.func.isEmpty with
  | true =>
    rw [Alike, if_pos hfunc, custom_of_isEmpty hfunc, hnative]
    simp
  | false =>
    by_cases hkey : f.key = "target_group"
    · rw [Alike, if_neg (by simp [hfunc]), if_pos hkey, hnative, fill_of_func hfunc]
    · unfold native custom
      rw [fill_of_func hfunc] at h ⊢
      exact reads_alike_iff (parsed_of_parse (f.parse_eq_ok ext h)) hkey hfunc

/-- A filter the custom parsers refuse is refused by the native one. -/
theorem Malformed.fill (h : f.Malformed ext) : f.fill.Malformed ext := by
  cases hfunc : f.func.isEmpty with
  | false => rwa [fill_of_func hfunc]
  | true =>
    obtain ⟨key, func, op, value, regexp, vset⟩ := f
    cases func with
    | other text => cases h
    | _ => simp [FilterFunc.isEmpty] at hfunc

end TagFilter

/-! ## A list of filters -/

section Lists

variable (ext : Externals) (decode : String → Option (GoMap String Json))
  (tags : GoMap String String) (fs : List TagFilter)

/-- The loop of `MatchTags` comes to a filter it rejects. -/
def Common.Rejects : Prop :=
  ∃ pre f post, fs = pre ++ f :: post ∧ (∀ g ∈ pre, g.native ext decode tags = some true) ∧
    f.native ext decode tags = some false

/-- **The list is read alike.**  A regular expression under `Func` is refused by all; otherwise none
under `Op` is, and all filters are read alike, or both sides come to a filter they reject. -/
def ReadAlike : Prop :=
  (∃ f ∈ fs, f.Malformed ext) ∨
    (∀ f ∈ fs, ¬ f.fill.Malformed ext) ∧
      ((∀ f ∈ fs, f.Alike ext decode tags) ∨
        (∃ f ∈ fs, f.custom ext tags = false) ∧ Common.Rejects ext decode tags fs)

variable {ext decode tags fs}

/-- The native loop, over the filters as they are stored. -/
def Common.loop (ext : Externals) (decode : String → Option (GoMap String Json))
    (tags : GoMap String String) (fs : List TagFilter) : Option Bool :=
  matchTags decode tags (fs.map fun f => f.fill.compiled ext)

theorem Common.loop_cons (f : TagFilter) : loop ext decode tags (f :: fs) =
      if f.native ext decode tags = some true then loop ext decode tags fs
      else f.native ext decode tags := by
  rw [loop, map_cons, matchTags, native]
  split
  next h => rw [if_pos h]; rfl
  next h => rw [if_neg h]

theorem Common.loop_eq_true_iff : loop ext decode tags fs = some true ↔
      ∀ f ∈ fs, f.native ext decode tags = some true := by
  induction fs with
  | nil => simp [loop, matchTags]
  | cons f fs ih =>
    rw [loop_cons, forall_mem_cons]
    split_ifs with hf
    · simp [hf, ih]
    · simp [hf]

/-- The loop rejects at its first filter, or accepts that and rejects later. -/
theorem Common.rejects_cons_iff (f : TagFilter) : Common.Rejects ext decode tags (f :: fs) ↔
      f.native ext decode tags = some false ∨
        f.native ext decode tags = some true ∧ Common.Rejects ext decode tags fs := by
  constructor
  · rintro ⟨pre, g, post, heq, hpre, hg⟩
    cases pre with
    | nil =>
      obtain ⟨rfl, -⟩ := cons.inj heq
      exact .inl hg
    | cons f' pre =>
      obtain ⟨rfl, rfl⟩ := cons.inj heq
      obtain ⟨hf, hpre⟩ := forall_mem_cons.mp hpre
      exact .inr ⟨hf, pre, g, post, rfl, hpre, hg⟩
  · rintro (hf | ⟨hf, pre, g, post, rfl, hpre, hg⟩)
    · exact ⟨[], f, fs, rfl, by simp, hf⟩
    · exact ⟨f :: pre, g, post, rfl, forall_mem_cons.mpr ⟨hf, hpre⟩, hg⟩

theorem Common.loop_eq_false_iff : loop ext decode tags fs = some false ↔
      Common.Rejects ext decode tags fs := by
  induction fs with
  | nil => simp [loop, matchTags, Common.Rejects]
  | cons f fs ih =>
    rw [loop_cons, rejects_cons_iff]
    split_ifs with hf
    · simp [hf, ih]
    · simp [hf]

theorem loop_of_native_eq
    (h : ∀ f ∈ fs, f.native ext decode tags = some (f.custom ext tags)) :
    loop ext decode tags fs = some (fs.all fun f => f.custom ext tags) := by
  induction fs with
  | nil => rfl
  | cons f fs ih =>
    obtain ⟨hf, hfs⟩ := forall_mem_cons.mp h
    rw [loop_cons, ih hfs, hf, all_cons]
    cases f.custom ext tags <;> rfl

/-- **Lists that parse.** -/
theorem loop_eq_custom_iff (h : ∀ f ∈ fs, ¬ f.fill.Malformed ext) :
    loop ext decode tags fs = some (fs.all fun f => f.custom ext tags) ↔
      (∀ f ∈ fs, f.Alike ext decode tags) ∨
        (∃ f ∈ fs, f.custom ext tags = false) ∧ Common.Rejects ext decode tags fs := by
  have halike : ∀ f ∈ fs, (f.native ext decode tags = some (f.custom ext tags) ↔
      f.Alike ext decode tags) := fun f hf => native_eq_custom_iff (h f hf)
  cases hall : fs.all fun f => f.custom ext tags with
  | true =>
    have htrue : ∀ f ∈ fs, f.custom ext tags = true := by simpa using hall
    rw [loop_eq_true_iff, or_iff_left]
    · refine forall₂_congr fun f hf => ?_
      rw [← halike f hf, htrue f hf]
    · rintro ⟨⟨f, hf, hfalse⟩, -⟩
      exact absurd (htrue f hf) (by simp [hfalse])
  | false =>
    have hfalse : ∃ f ∈ fs, f.custom ext tags = false := by simpa using hall
    rw [loop_eq_false_iff]
    constructor
    · exact fun hrej => .inr ⟨hfalse, hrej⟩
    · rintro (hread | ⟨-, hrej⟩)
      · rw [← loop_eq_false_iff, ← hall]
        exact loop_of_native_eq fun f hf => (halike f hf).mpr (hread f hf)
      · exact hrej

theorem Custom.filterOutcome_of_ok (h : ∀ f ∈ fs, ¬ f.Malformed ext) :
    filterOutcome (matchAllTagFilters tags) (parseTagFilter ext fs)
      = .verdict (fs.all fun f => f.custom ext tags) := by
  rw [parseTagFilter_eq_ok h, filterOutcome, matchAllTagFilters, all_map]
  rfl

/-- The outcome of the native matcher on filters that parse once they are filled. -/
theorem Common.outcomeOf_of_ok (h : ∀ f ∈ fs, ¬ f.fill.Malformed ext) :
    outcomeOf decode tags (parseTagFilter ext (fs.map fill))
      = (loop ext decode tags fs).elim .panics .verdict := by
  have hfill : ∀ g ∈ fs.map fill, ¬ g.Malformed ext := by
    intro g hg
    obtain ⟨f, hf, rfl⟩ := mem_map.mp hg
    exact h f hf
  have hloop : loop ext decode tags fs
      = matchTags decode tags (fs.map (compiled ext ∘ fill)) := rfl
  rw [parseTagFilter_eq_ok hfill, map_map, outcomeOf, hloop]
  cases matchTags decode tags _ <;> rfl

/-- …and on filters that do not. -/
theorem Common.outcomeOf_of_malformed (h : ∃ f ∈ fs, f.fill.Malformed ext) :
    outcomeOf decode tags (parseTagFilter ext (fs.map fill))
      = .malformed := by
  obtain ⟨f, hf, hmal⟩ := h
  have hfill : ∃ g ∈ fs.map fill, g.Malformed ext := ⟨f.fill, mem_map_of_mem hf, hmal⟩
  obtain ⟨err, herr⟩ := parseTagFilter_eq_error hfill
  rw [herr, outcomeOf]

/-- **Lists that are decoded.** -/
theorem filterOutcome_eq_iff : filterOutcome (matchAllTagFilters tags) (parseTagFilter ext fs)
        = outcomeOf decode tags (parseTagFilter ext (fs.map fill)) ↔
      ReadAlike ext decode tags fs := by
  by_cases hbad : ∃ f ∈ fs, f.Malformed ext
  · obtain ⟨err, herr⟩ := parseTagFilter_eq_error hbad
    obtain ⟨f, hf, hmal⟩ := id hbad
    rw [herr, outcomeOf_of_malformed ⟨f, hf, hmal.fill⟩]
    exact iff_of_true rfl (.inl hbad)
  have hok : ∀ f ∈ fs, ¬ f.Malformed ext := fun f hf hmal => hbad ⟨f, hf, hmal⟩
  rw [filterOutcome_of_ok hok, ReadAlike, or_iff_right hbad]
  by_cases hfill : ∃ f ∈ fs, f.fill.Malformed ext
  · rw [outcomeOf_of_malformed hfill]
    obtain ⟨f, hf, hmal⟩ := hfill
    exact iff_of_false (by simp) fun h => h.1 f hf hmal
  have hfilled : ∀ f ∈ fs, ¬ f.fill.Malformed ext := fun f hf hmal => hfill ⟨f, hf, hmal⟩
  rw [outcomeOf_of_ok hfilled, and_iff_right hfilled, ← loop_eq_custom_iff hfilled]
  cases loop ext decode tags fs with
  | none => simp
  | some accepted => simpa using eq_comm

end Lists

section Agreement

variable (ext : Externals) (decode : String → Option (GoMap String Json))
  (tags : GoMap String String) (raw : String)

/-- **When the four matchers agree.**  Aggregation, inhibition and the mutes give the outcome of the
native matcher if and only if the list, where it is one, is read alike. -/
theorem filters_agree_iff :
    (Denoise.filterOutcome ext tags raw = filterOutcome ext decode tags raw ∧
      Suppress.filterOutcome ext tags raw = filterOutcome ext decode tags raw ∧
      Mute.filterOutcome ext tags raw = filterOutcome ext decode tags raw) ↔
      ∀ fs, storedFilters ext raw = .ok fs → ReadAlike ext decode tags fs := by
  have hparse : Denoise.parseTagFilters ext raw
      = (storedFilters ext raw).bind (parseTagFilter ext) := by
    unfold Denoise.parseTagFilters storedFilters
    split_ifs <;> rfl
  have hone : Denoise.filterOutcome ext tags raw = filterOutcome ext decode tags raw ↔
      ∀ fs, storedFilters ext raw = .ok fs → ReadAlike ext decode tags fs := by
    rw [Denoise.filterOutcome, hparse, Common.filterOutcome]
    cases hstored : storedFilters ext raw with
    | error err => exact iff_of_true rfl fun fs hfs => by cases hfs
    | ok fs =>
      refine filterOutcome_eq_iff.trans ⟨?_, fun h => h fs rfl⟩
      rintro h fs' hfs'
      cases hfs'
      exact h
  exact ⟨fun h => hone.mp h.1, fun h => ⟨hone.mpr h, hone.mpr h, hone.mpr h⟩⟩

end Agreement

namespace Example

/-- A column that holds the filters. -/
def storing (filters : List TagFilter) : Externals where
  unmarshalStrings _ := .ok []
  unmarshalFilters _ := .ok filters
  marshalMap _ := ""
  compile _ := .ok fun _ => false

/-- The host is not `db`. -/
def notDb : TagFilter := { key := "host", func := .ne, value := .str "db" }

/-- The host is `db`. -/
def isDb : TagFilter := { key := "host", func := .eq, value := .str "db" }

end Example

/-- **An absent tag and a space.**  Without a host, `host != db` holds for the custom matchers and
not for the native one; with the host `db` and a space after it, `host == db` holds for the native
one only. -/
theorem absent_tag_divides :
    Denoise.filterOutcome (Example.storing [Example.notDb]) ∅ "[..]" = .verdict true ∧
      filterOutcome (Example.storing [Example.notDb]) (fun _ => none) ∅ "[..]"
        = .verdict false ∧
      Denoise.filterOutcome (Example.storing [Example.isDb]) (Finmap.singleton "host" "db ") "[..]"
        = .verdict false ∧ filterOutcome (Example.storing [Example.isDb]) (fun _ => none)
        (Finmap.singleton "host" "db ") "[..]" = .verdict true := by
  decide

/-! ## When the native matcher returns -/

namespace Common

section Returns

variable (decode : String → Option (GoMap String Json)) (tags : GoMap String String)

/-- Every filter that is asked fits. -/
def AllFit : List TagFilter → Prop
  | [] => True
  | f :: fs =>
    Fits decode tags f ∧ (matchFilter decode tags f = some true → AllFit fs)

variable {decode tags} {f : TagFilter}

theorem regexp_of_mem {ext : Externals} {raw filters : List TagFilter}
    (h : parseTagFilter ext raw = .ok filters) (hf : f ∈ filters) :
    f.func = .match ∨ f.func = .notMatch → ∃ re, f.regexp = some re := by
  by_cases hbad : ∃ g ∈ raw, g.Malformed ext
  · obtain ⟨err, herr⟩ := parseTagFilter_eq_error hbad
    rw [herr] at h
    cases h
  · rw [not_exists] at hbad
    have hok : ∀ g ∈ raw, ¬ g.Malformed ext := fun g hg hg' => hbad g ⟨hg, hg'⟩
    rw [parseTagFilter_eq_ok hok] at h
    cases h
    obtain ⟨g, hg, rfl⟩ := mem_map.mp hf
    exact regexp_compiled (hok g hg)

/-- **The native matcher returns exactly if every filter that is asked fits**, for filters that
`ParseTagFilter` accepts. -/
theorem matchTags_returns_iff (decode : String → Option (GoMap String Json))
    (tags : GoMap String String) {ext : Externals} {raw filters : List TagFilter}
    (h : parseTagFilter ext raw = .ok filters) :
    (matchTags decode tags filters).isSome ↔ AllFit decode tags filters := by
  have hfits : ∀ f ∈ filters, (matchFilter decode tags f).isSome ↔ Fits decode tags f :=
    fun f hf => isSome_matchFilter_iff (regexp_of_mem h hf)
  clear h
  induction filters with
  | nil => simp [matchTags, AllFit]
  | cons f fs ih =>
    rw [forall_mem_cons] at hfits
    rw [matchTags, AllFit, ← hfits.1]
    rcases matchFilter decode tags f with _ | _ | _
    · simp
    · simp
    · simpa using ih hfits.2

end Returns

end Common

namespace Example

/-- A filter on the groups of the target, parsed. -/
def inGroups (items : List Json) : TagFilter :=
  { key := "target_group"
    func := .isIn
    value := .arr items
    vset := (Json.arr items).values.toFinset }

/-- A target in two groups, the second not a number. -/
def grouped (_ : String) : Option (GoMap String Json) :=
  some (Finmap.singleton "group_ids" (.arr [.num "1" 1, .str "x"]))

end Example

open Nightingale.Example

/-- The group that is a number is found first. -/
theorem fits_found_group : Common.AllFit grouped (Finmap.singleton "target" "..")
    [inGroups [.num "1" 1]] :=
  (matchTags_returns_iff grouped _
    (rfl : parseTagFilter (storing []) [inGroups [.num "1" 1]] = _)).mp
    (by decide +kernel)

/-- **A group that is no number panics**, in the target and in the filter. -/
theorem groups_panic :
    matchTags grouped (Finmap.singleton "target" "..") [inGroups [.num "2" 2]]
      = none ∧
    matchTags grouped (Finmap.singleton "target" "..") [inGroups [.str "1"]]
      = none ∧
    (parseTagFilter (storing []) [inGroups [.str "1"]]).isOk := by
  decide +kernel

end Nightingale
