import Nightingale.Models.Event

/-!
# Models/Tags — an event's tags, stored and read back

A point's labels and the tags its rule appends make a map; the map becomes a sorted list of
`name=value` texts, and the list one text, which is the column of `alert_cur_event`.

    TagsMap ──labelMapToArr──▸ TagsJSON ──Join ",,"──▸ Tags
       ▴                          ▴                     │
       └──────── TagsMap ─────────┴────── Split ",," ───┘

Reading back happens in four methods: `DB2Mem` after a restart, `DB2FE` before an event is posted
from an edge to the center, `FE2DB` where it arrives, and `FillTagsMap` after a pipeline.  None of
them escapes or unescapes, and all of them trim.  `tags_survive_iff` says which maps survive every
sequence of them.
-/

namespace Nightingale.Tags

open Text List Option Finmap

/-! ## Building the tags -/

/-- `fmt.Sprintf("%s=%s", label, value)`. -/
def pair (label value : String) : String := label ++ "=" ++ value

/-- `labelMapToArr`. -/
def labelMapToArr (o : MapOrder String) (m : GoMap String String) : List String :=
  let labelStrings := (o.list m.keys).filterMap fun label => (m.lookup label).map (pair label)
  if m.keys.card > 1 then labelStrings.insertionSort (· ≤ ·) else labelStrings

/-- What `fillTags` reads of an alert rule. -/
structure Rule where
  id : ℤ
  name : String
  appendTagsJSON : List String

/-- `text/template`: the text of a template for a rule, filled in from the tags, or the error of
parsing or executing it. -/
abbrev Template := ℤ → String → GoMap String String → Except String String

/-- The definitions that stand before every tag value. -/
def defs : String := "\x7b\x7b$labels := .TagsMap\x7d\x7d\x7b\x7b$value := .TriggerValue\x7d\x7d"

/-- The turn of `fillTags` for one tag of the rule; a tag without `=` panics. -/
def fillTag (tpl : Template) (rule : Rule) (tagsMap : GoMap String String) (tag : String) :
    Option (GoMap String String) :=
  (splitTag tag).map fun arr =>
    match tpl rule.id (defs ++ arr.2) tagsMap with
    | .ok body => tagsMap.insert arr.1 body
    | .error err => tagsMap.insert arr.1 ("parse tag value failed, err:" ++ err)

/-- `Processor.fillTags`: the tag map and the list of tags. -/
def fillTags (tpl : Template) (rule : Rule) (o : MapOrder String) (labels : GoMap String String) :
    Option (GoMap String String × List String) :=
  ((rule.appendTagsJSON ++ ["rulename=" ++ rule.name]).foldlM (fillTag tpl rule) labels).map
    fun tagsMap => (tagsMap, labelMapToArr o tagsMap)

/-! ## Storing and reading -/

/-- The tag fields of `models.AlertCurEvent`, and the two `DB2FE` reads on its way to them. -/
structure TaggedEvent (α β : Type*) where
  tags : String := ""
  tagsJSON : List String := []
  tagsMap : GoMap String String := ∅
  annotations : String := ""
  annotationsJSON : α
  ruleConfig : String := ""
  ruleConfigJson : β

variable {α β : Type*}

namespace TaggedEvent

/-- The tags of a new event, as `BuildEvent` sets them. -/
def withTags (e : TaggedEvent α β) (built : GoMap String String × List String) :
    TaggedEvent α β :=
  { e with tagsMap := built.1, tagsJSON := built.2, tags := ",,".intercalate built.2 }

/-- `AlertCurEvent.FillTagsMap`. -/
def fillTagsMap (e : TaggedEvent α β) : TaggedEvent α β :=
  { e with tagsMap := Nightingale.fillTagsMap e.tagsJSON }

/-- `AlertCurEvent.DB2Mem`. -/
def db2Mem (e : TaggedEvent α β) : TaggedEvent α β :=
  let tagsJSON := splitText ",," e.tags
  { e with tagsJSON := tagsJSON, tagsMap := Nightingale.fillTagsMap tagsJSON }

/-- `AlertCurEvent.DB2FE`; it returns before the map if a text cannot be read. -/
def db2FE (ca : Codec α) (cr : Codec β) (e : TaggedEvent α β) : TaggedEvent α β :=
  let e := { e with tagsJSON := splitText ",," e.tags }
  let annotations := ca.unmarshal e.annotations e.annotationsJSON
  let e := { e with annotationsJSON := annotations.1 }
  if !annotations.2 then e
  else
    let ruleConfig := cr.unmarshal e.ruleConfig e.ruleConfigJson
    let e := { e with ruleConfigJson := ruleConfig.1 }
    if !ruleConfig.2 then e else e.fillTagsMap

/-- `b, _ := json.Marshal(v)`, as a text. -/
def written {γ : Type*} (c : Codec γ) (v : γ) : String := (c.marshal v).toOption.getD ""

/-- `AlertCurEvent.FE2DB`. -/
def fe2DB (ca : Codec α) (cr : Codec β) (e : TaggedEvent α β) : TaggedEvent α β :=
  { e with
    tags := ",,".intercalate e.tagsJSON
    annotations := written ca e.annotationsJSON
    ruleConfig := written cr e.ruleConfigJson }

/-- The row of an event: the fields tagged `gorm:"-"` are lost. -/
def columns (ca : Codec α) (cr : Codec β) (e : TaggedEvent α β) : TaggedEvent α β :=
  { e with tagsJSON := [], tagsMap := ∅, annotationsJSON := ca.nil, ruleConfigJson := cr.nil }

/-- An event posted as JSON: the fields tagged `json:"-"` are lost. -/
def post (ca : Codec α) (cr : Codec β) (e : TaggedEvent α β) : TaggedEvent α β :=
  { e with
    tags := ""
    annotations := ""
    annotationsJSON := (ca.unmarshal (written ca e.annotationsJSON) ca.nil).1
    ruleConfig := ""
    ruleConfigJson := (cr.unmarshal (written cr e.ruleConfigJson) cr.nil).1 }

end TaggedEvent

/-- What happens to an event. -/
inductive Hop where
  /-- It is stored, and a center reads it after a restart. -/
  | restart
  /-- An edge posts it to the center and keeps it. -/
  | persist
  /-- An edge has posted it, and reads it from the center after a restart. -/
  | edgeRestart
  /-- It went through a pipeline. -/
  | pipeline
  deriving DecidableEq, Repr

section Hops

variable (ca : Codec α) (cr : Codec β)

/-- The event in memory after a hop. -/
def Hop.apply (e : TaggedEvent α β) : Hop → TaggedEvent α β
  | .restart => ((e.columns ca cr).db2FE ca cr).db2Mem
  | .persist => e.db2FE ca cr
  | .edgeRestart =>
    let row := (((e.db2FE ca cr).post ca cr).fe2DB ca cr).columns ca cr
    (((row.db2FE ca cr).post ca cr).fe2DB ca cr).db2Mem
  | .pipeline => (e.fe2DB ca cr).fillTagsMap

/-- **Its tags are as before after any number of hops.** -/
def Survives (e : TaggedEvent α β) : Prop :=
  ∀ hops : List Hop, (hops.foldl (Hop.apply ca cr) e).tagsMap = e.tagsMap ∧
    (hops.foldl (Hop.apply ca cr) e).tagsJSON = e.tagsJSON

end Hops

/-! ## Maps that survive -/

/-- The text begins with white space. -/
def startsWithSpace (s : String) : Bool := s.toList.head?.any isSpace

/-- The text ends with white space. -/
def endsWithSpace (s : String) : Bool := s.toList.getLast?.any isSpace

/-- **A map that can be stored**: no name or value holds the separator, a value that ends with a
comma is in the last tag, no name begins with white space and no value ends with it. -/
structure Storable (m : GoMap String String) : Prop where
  separator : ∀ k v, m.lookup k = some v → ¬ containsText k ",," ∧ ¬ containsText v ",,"
  comma : ∀ k v, m.lookup k = some v → v.toList.getLast? = some ',' →
    ∀ k' v', m.lookup k' = some v' → pair k' v' ≤ pair k v
  space : ∀ k v, m.lookup k = some v → ¬ startsWithSpace k ∧ ¬ endsWithSpace v

/-! ## The list of tags -/

theorem toList_pair (k v : String) : (pair k v).toList = k.toList ++ '=' :: v.toList := by
  simp [pair]

theorem splitTag_of_toList {s : String} {k v : List Char} (hs : s.toList = k ++ '=' :: v)
    (hk : '=' ∉ k) : splitTag s = some (String.ofList k, String.ofList v) := by
  have hall : ∀ c ∈ k, decide (c ≠ '=') = true := by
    intro c hc
    rw [decide_eq_true_eq]
    rintro rfl
    exact hk hc
  rw [splitTag, splitN, hs, span_eq_takeWhile_dropWhile, takeWhile_append_of_pos hall,
    dropWhile_append_of_pos hall]
  simp

theorem name_of_splitTag {tag k v : String} (h : splitTag tag = some (k, v)) : '=' ∉ k.toList := by
  rw [splitTag, splitN, span_eq_takeWhile_dropWhile] at h
  split at h
  · cases h
  · next heq =>
    obtain ⟨hk, -⟩ := Prod.mk.inj heq
    obtain ⟨rfl, -⟩ := Prod.mk.inj (some.inj h)
    rw [String.toList_ofList, ← hk]
    intro hmem
    simpa using mem_takeWhile_imp hmem

section Pairs

variable {m : GoMap String String} (o : MapOrder String)

theorem pair_injective {k k' v v' : String} (hk : '=' ∉ k.toList) (hk' : '=' ∉ k'.toList)
    (h : pair k v = pair k' v') : k = k' ∧ v = v' := by
  have hl := splitTag_of_toList (toList_pair k v) hk
  have hl' := splitTag_of_toList (toList_pair k' v') hk'
  rw [h, hl'] at hl
  simpa [eq_comm] using hl

theorem labelMapToArr_eq : labelMapToArr o m = ((o.list m.keys).filterMap fun label =>
      (m.lookup label).map (pair label)).insertionSort (· ≤ ·) := by
  rw [labelMapToArr]
  split_ifs with h
  · rfl
  · have hlen := length_filterMap_le (fun label => (m.lookup label).map (pair label))
      (o.list m.keys)
    rw [o.length_list] at hlen
    refine (Pairwise.insertionSort_eq ?_).symm
    rcases hl : (o.list m.keys).filterMap fun label => (m.lookup label).map (pair label)
      with _ | ⟨tag, _ | ⟨tag', tags⟩⟩
    · exact Pairwise.nil
    · exact pairwise_singleton _ _
    · rw [hl, length_cons, length_cons] at hlen
      omega

theorem mem_labelMapToArr {tag : String} :
    tag ∈ labelMapToArr o m ↔ ∃ k v, m.lookup k = some v ∧ pair k v = tag := by
  rw [labelMapToArr_eq, mem_insertionSort, mem_filterMap]
  constructor
  · rintro ⟨k, -, h⟩
    obtain ⟨v, hv, rfl⟩ := map_eq_some_iff.mp h
    exact ⟨k, v, hv, rfl⟩
  · rintro ⟨k, v, hv, rfl⟩
    refine ⟨k, (o.mem_list_keys m k).mpr (mem_of_lookup_eq_some hv), ?_⟩
    rw [hv, map_some]

/-- No tag stands twice, so each is below the ones behind it. -/
theorem pairwise_lt_labelMapToArr (hm : ∀ k ∈ m, '=' ∉ k.toList) :
    (labelMapToArr o m).Pairwise (· < ·) := by
  have hnodup : (labelMapToArr o m).Nodup := by
    rw [labelMapToArr_eq, (perm_insertionSort _ _).nodup_iff]
    refine (o.nodup m.keys).filterMap fun k k' tag hk hk' => ?_
    obtain ⟨v, hv, rfl⟩ := map_eq_some_iff.mp hk
    obtain ⟨v', hv', hpair⟩ := map_eq_some_iff.mp hk'
    have hname := hm k (mem_of_lookup_eq_some hv)
    have hname' := hm k' (mem_of_lookup_eq_some hv')
    exact (pair_injective hname hname' hpair.symm).1
  have hsorted : (labelMapToArr o m).Pairwise (· ≤ ·) := by
    rw [labelMapToArr_eq]
    exact pairwise_insertionSort _ _
  exact (hsorted.and hnodup).imp fun h => lt_of_le_of_ne h.1 h.2

end Pairs

/-! ## Splitting the column -/

section Column

variable {m : GoMap String String} {o : MapOrder String}

theorem separator_infix_pair_iff (k v : String) : [',', ','] <:+: (pair k v).toList ↔
    containsText k ",," ∨ containsText v ",," := by
  rw [toList_pair, infix_append_cons_iff (by decide)]
  simp [containsText]

theorem getLast_pair_iff (k v : String) :
    (pair k v).toList.getLast? = some ',' ↔ v.toList.getLast? = some ',' := by
  rw [toList_pair, getLast?_append, getLast?_cons]
  rcases eq_nil_or_concat v.toList with hv | ⟨l, c, hv⟩ <;> simp [hv]

/-- Only the last tag ends with a comma exactly if the tag that does is the greatest. -/
theorem comma_dropLast_iff (hm : ∀ k ∈ m, '=' ∉ k.toList) :
    (∀ tag ∈ (labelMapToArr o m).dropLast, tag.toList.getLast? ≠ some ',') ↔
      ∀ k v, m.lookup k = some v → v.toList.getLast? = some ',' →
        ∀ k' v', m.lookup k' = some v' → pair k' v' ≤ pair k v := by
  have hlt := pairwise_lt_labelMapToArr o hm
  have hmem : ∀ tag, tag ∈ labelMapToArr o m ↔ ∃ k v, m.lookup k = some v ∧ pair k v = tag :=
    fun tag => mem_labelMapToArr o
  rcases List.eq_nil_or_concat (labelMapToArr o m) with hnil | ⟨init, last, hl⟩
  · simp only [hnil, List.not_mem_nil, false_iff, not_exists, not_and] at hmem
    simp only [hnil, List.dropLast_nil, List.not_mem_nil, false_imp_iff, implies_true, true_iff]
    intro k v hv
    exact absurd rfl (hmem _ k v hv)
  · rw [List.concat_eq_append] at hl
    rw [hl, List.pairwise_append] at hlt
    have hlast : ∀ tag ∈ init, tag < last := fun tag htag => hlt.2.2 tag htag last (by simp)
    simp only [hl, List.mem_append, List.mem_singleton] at hmem
    rw [hl, List.dropLast_concat]
    constructor
    · intro h k v hv hcomma k' v' hv'
      have hkv : pair k v = last := by
        rcases (hmem _).mpr ⟨k, v, hv, rfl⟩ with hin | hin
        · exact absurd ((getLast_pair_iff k v).mpr hcomma) (h _ hin)
        · exact hin
      rw [hkv]
      rcases (hmem _).mpr ⟨k', v', hv', rfl⟩ with hin | hin
      · exact (hlast _ hin).le
      · exact hin.le
    · intro h tag htag hcomma
      obtain ⟨k, v, hv, rfl⟩ := (hmem _).mp (.inl htag)
      obtain ⟨k', v', hv', hlast'⟩ := (hmem last).mp (.inr rfl)
      have hle := h k v hv ((getLast_pair_iff k v).mp hcomma) k' v' hv'
      rw [hlast'] at hle
      exact absurd (hlast _ htag) hle.not_gt

/-- **The list of tags is read back** exactly if no name or value holds the separator, and only the
last tag ends with a comma. -/
theorem split_column_iff (hne : m ≠ ∅) (hm : ∀ k ∈ m, '=' ∉ k.toList) :
    splitText ",," (",,".intercalate (labelMapToArr o m)) = labelMapToArr o m ↔
      (∀ k v, m.lookup k = some v → ¬ containsText k ",," ∧ ¬ containsText v ",,") ∧
      ∀ k v, m.lookup k = some v → v.toList.getLast? = some ',' →
        ∀ k' v', m.lookup k' = some v' → pair k' v' ≤ pair k v := by
  have hnil : labelMapToArr o m ≠ [] := by
    obtain ⟨k, hk⟩ : ∃ k, k ∈ m := by
      by_contra h
      push Not at h
      exact hne (ext_lookup fun k => by simp [lookup_eq_none.mpr (h k)])
    obtain ⟨v, hv⟩ := mem_iff.mp hk
    exact List.ne_nil_of_mem ((mem_labelMapToArr o).mpr ⟨k, v, hv, rfl⟩)
  rw [splitText_intercalate_iff (by decide), ← comma_dropLast_iff (o := o) hm]
  show Clean [',', ','] _ ↔ _
  rw [clean_pair_iff, ← List.map_dropLast]
  simp only [ne_eq, List.map_eq_nil_iff, hnil, not_false_eq_true, true_and, List.forall_mem_map]
  refine and_congr_left fun _ => ⟨fun h k v hv => ?_, fun h tag htag => ?_⟩
  · have := h _ ((mem_labelMapToArr o).mpr ⟨k, v, hv, rfl⟩)
    rwa [separator_infix_pair_iff, not_or] at this
  · obtain ⟨k, v, hv, rfl⟩ := (mem_labelMapToArr o).mp htag
    rw [separator_infix_pair_iff, not_or]
    exact h k v hv

end Column

/-! ## Reading the map -/

theorem trimSpace_pair (k v : String) : (trimSpace (pair k v)).toList =
    k.toList.dropWhile isSpace ++ '=' :: (v.toList.reverse.dropWhile isSpace).reverse := by
  have hstop : ∀ l l' : List Char, (l ++ '=' :: l').dropWhile isSpace
      = l.dropWhile isSpace ++ '=' :: l' := by
    intro l l'
    rw [dropWhile_append]
    split_ifs with h
    · rw [isEmpty_iff.mp h, dropWhile_cons_of_neg (by decide), nil_append]
    · rfl
  rw [trimSpace, String.toList_ofList, toList_pair, hstop, reverse_append, reverse_cons,
    append_assoc, singleton_append, hstop]
  simp

theorem dropWhile_space_eq_iff (l : List Char) :
    l.dropWhile isSpace = l ↔ l.head?.any isSpace = false := by
  rcases l with _ | ⟨c, l⟩
  · simp
  · by_cases hc : isSpace c
    · simp only [dropWhile_cons_of_pos hc, head?_cons, any_some, hc, Bool.true_eq_false, iff_false]
      intro h
      have := congrArg length h
      have := (dropWhile_suffix isSpace (l := l)).length_le
      simp only [length_cons] at *
      omega
    · simp [hc]

/-- Trimming leaves a name alone that does not begin with white space. -/
theorem trimmed_name_iff (k : String) :
    String.ofList (k.toList.dropWhile isSpace) = k ↔ ¬ startsWithSpace k := by
  rw [startsWithSpace, Bool.not_eq_true, ← dropWhile_space_eq_iff, ← String.toList_inj,
    String.toList_ofList]

/-- Trimming leaves a value alone that does not end with white space. -/
theorem trimmed_value_iff (v : String) :
    String.ofList (v.toList.reverse.dropWhile isSpace).reverse = v ↔ ¬ endsWithSpace v := by
  rw [endsWithSpace, Bool.not_eq_true, ← head?_reverse, ← dropWhile_space_eq_iff,
    ← String.toList_inj, String.toList_ofList, reverse_eq_iff]

theorem lookup_fillTagsMap (tags : List String) (k : String) : (fillTagsMap tags).lookup k
      = tags.reverse.findSome? fun tag => (splitTag (trimSpace tag)).bind fun p =>
        if p.1 = k then some p.2 else none := by
  rw [fillTagsMap, GoMap.lookup_foldl_insert (f := fun tag => splitTag (trimSpace tag))]
  · simp
  · intro m tag
    cases splitTag (trimSpace tag) <;> rfl

/-- **The map is read back from its tags** exactly if trimming changes no name and no value. -/
theorem fillTagsMap_eq_iff {m : GoMap String String} {o : MapOrder String}
    (hm : ∀ k ∈ m, '=' ∉ k.toList) : fillTagsMap (labelMapToArr o m) = m ↔
      ∀ k v, m.lookup k = some v → ¬ startsWithSpace k ∧ ¬ endsWithSpace v := by
  have hread : ∀ k v, m.lookup k = some v → splitTag (trimSpace (pair k v))
      = some (String.ofList (k.toList.dropWhile isSpace),
        String.ofList (v.toList.reverse.dropWhile isSpace).reverse) := fun k v hv =>
    splitTag_of_toList (trimSpace_pair k v) fun h =>
      hm k (mem_of_lookup_eq_some hv) ((dropWhile_suffix _).subset h)
  constructor
  · intro h k v hv
    -- what was read was trimmed, and trimming again changes nothing
    rw [← h, lookup_fillTagsMap] at hv
    obtain ⟨tag, htag, hfound⟩ := exists_of_findSome?_eq_some hv
    obtain ⟨k₀, v₀, hv₀, rfl⟩ := (mem_labelMapToArr o).mp (mem_reverse.mp htag)
    rw [hread k₀ v₀ hv₀, bind_some] at hfound
    split_ifs at hfound with hk
    rw [← trimmed_name_iff, ← trimmed_value_iff, ← hk, ← some.inj hfound]
    simp [dropWhile_idempotent]
  · intro h
    have hsame : ∀ k v, m.lookup k = some v → splitTag (trimSpace (pair k v)) = some (k, v) := by
      intro k v hv
      obtain ⟨hname, hvalue⟩ := h k v hv
      rw [hread k v hv, (trimmed_name_iff k).mpr hname, (trimmed_value_iff v).mpr hvalue]
    refine ext_lookup fun k => ?_
    rw [lookup_fillTagsMap]
    cases hf : (labelMapToArr o m).reverse.findSome? fun tag =>
        (splitTag (trimSpace tag)).bind fun p => if p.1 = k then some p.2 else none with
    | some v =>
      obtain ⟨tag, htag, hfound⟩ := exists_of_findSome?_eq_some hf
      obtain ⟨k₀, v₀, hv₀, rfl⟩ := (mem_labelMapToArr o).mp (mem_reverse.mp htag)
      rw [hsame k₀ v₀ hv₀, bind_some] at hfound
      split_ifs at hfound with hk
      rw [← hk, hv₀, hfound]
    | none =>
      rw [eq_comm, eq_none_iff_forall_ne_some]
      intro v hv
      have hpair := mem_reverse.mpr ((mem_labelMapToArr o).mpr ⟨k, v, hv, rfl⟩)
      have hnone := findSome?_eq_none_iff.mp hf _ hpair
      simp [hsame k v hv] at hnone

/-! ## What each method leaves -/

/-- Joining what the column was split into gives the column. -/
@[simp] theorem intercalate_splitText (s : String) : ",,".intercalate (splitText ",," s) = s := by
  rw [← String.toList_inj, String.toList_intercalate, splitText, List.map_map]
  have hid : String.toList ∘ String.ofList = id := funext fun l => String.toList_ofList
  rw [hid, List.map_id]
  exact intercalate_split (by decide) s.toList

namespace TaggedEvent

section

variable {ca : Codec α} {cr : Codec β} {e : TaggedEvent α β}

@[simp] theorem db2FE_tags : (e.db2FE ca cr).tags = e.tags := by
  simp only [db2FE]
  split_ifs <;> rfl

@[simp] theorem db2FE_tagsJSON : (e.db2FE ca cr).tagsJSON = splitText ",," e.tags := by
  simp only [db2FE]
  split_ifs <;> rfl

variable (ca cr e) in
theorem db2FE_tagsMap : (e.db2FE ca cr).tagsMap = e.tagsMap ∨
    (e.db2FE ca cr).tagsMap = Nightingale.fillTagsMap (splitText ",," e.tags) := by
  simp only [db2FE]
  split_ifs
  · exact .inl rfl
  · exact .inl rfl
  · exact .inr rfl

@[simp] theorem fe2DB_tags : (e.fe2DB ca cr).tags = ",,".intercalate e.tagsJSON := rfl

@[simp] theorem fe2DB_tagsJSON : (e.fe2DB ca cr).tagsJSON = e.tagsJSON := rfl

@[simp] theorem db2Mem_tagsJSON : e.db2Mem.tagsJSON = splitText ",," e.tags := rfl

@[simp] theorem db2Mem_tagsMap :
    e.db2Mem.tagsMap = Nightingale.fillTagsMap (splitText ",," e.tags) := rfl

@[simp] theorem columns_tags : (e.columns ca cr).tags = e.tags := rfl

@[simp] theorem post_tagsJSON : (e.post ca cr).tagsJSON = e.tagsJSON := rfl

end

end TaggedEvent

/-! ## One hop, and any number -/

/-- The event has the tags, in all three fields. -/
structure Holds (m : GoMap String String) (tags : List String) (e : TaggedEvent α β) : Prop where
  column : e.tags = ",,".intercalate tags
  list : e.tagsJSON = tags
  map : e.tagsMap = m

section Hops

variable {m : GoMap String String} {tags : List String} {e : TaggedEvent α β}

theorem holds_withTags : Holds m tags (e.withTags (m, tags)) := ⟨rfl, rfl, rfl⟩

theorem holds_db2Mem (hsplit : splitText ",," (",,".intercalate tags) = tags)
    (hfill : fillTagsMap tags = m) (h : e.tags = ",,".intercalate tags) :
    Holds m tags e.db2Mem := by
  refine ⟨h, ?_, ?_⟩
  · rw [TaggedEvent.db2Mem_tagsJSON, h, hsplit]
  · rw [TaggedEvent.db2Mem_tagsMap, h, hsplit, hfill]

variable {ca : Codec α} {cr : Codec β}

section

variable (hsplit : splitText ",," (",,".intercalate tags) = tags) (hfill : fillTagsMap tags = m)
  (h : Holds m tags e)

include hsplit hfill h

/-- **A hop keeps the tags**, if the list is read back from the column and the map from the list. -/
theorem Holds.apply (hop : Hop) : Holds m tags (Hop.apply ca cr e hop) := by
  obtain ⟨hcolumn, hlist, hmap⟩ := h
  cases hop with
  | restart => exact holds_db2Mem hsplit hfill (by simp [hcolumn])
  | persist =>
    refine ⟨by simpa [Hop.apply], by simp [Hop.apply, hcolumn, hsplit], ?_⟩
    rcases e.db2FE_tagsMap ca cr with hm | hm
    · exact hm.trans hmap
    · rw [Hop.apply, hm, hcolumn, hsplit, hfill]
  | edgeRestart => exact holds_db2Mem hsplit hfill (by simp [hcolumn])
  | pipeline =>
    refine ⟨?_, hlist, ?_⟩
    · exact congrArg ",,".intercalate hlist
    · exact (congrArg fillTagsMap hlist).trans hfill

/-- **So does any number of hops.** -/
theorem Holds.foldl_apply (hops : List Hop) : Holds m tags (hops.foldl (Hop.apply ca cr) e) := by
  induction hops generalizing e with
  | nil => exact h
  | cons hop hops ih => exact ih (h.apply hsplit hfill hop)

end

/-- **The tags survive exactly if the list is read back from the column and the map from the
list**: one restart needs both. -/
theorem survives_withTags_iff : Survives ca cr (e.withTags (m, tags)) ↔
    splitText ",," (",,".intercalate tags) = tags ∧ fillTagsMap tags = m := by
  constructor
  · intro h
    obtain ⟨hmap, hlist⟩ := h [.restart]
    have hsplit : splitText ",," (",,".intercalate tags) = tags := by
      simpa [Hop.apply, TaggedEvent.withTags] using hlist
    refine ⟨hsplit, ?_⟩
    simpa [Hop.apply, TaggedEvent.withTags, hsplit] using hmap
  · rintro ⟨hsplit, hfill⟩ hops
    have hend : Holds m tags (hops.foldl (Hop.apply ca cr) (e.withTags (m, tags))) :=
      holds_withTags.foldl_apply hsplit hfill hops
    exact ⟨hend.map, hend.list⟩

end Hops

/-! ## The tags a rule fills in -/

section Fill

variable {tpl : Template} {rule : Rule} {m m' : GoMap String String}

theorem fillTag_eq_some {tag : String} (h : fillTag tpl rule m tag = some m') :
    ∃ k v v', splitTag tag = some (k, v) ∧ m' = m.insert k v' := by
  obtain ⟨⟨k, v⟩, hsplit, hm'⟩ := map_eq_some_iff.mp h
  dsimp only at hm'
  split at hm'
  · exact ⟨k, v, _, hsplit, hm'.symm⟩
  · exact ⟨k, v, _, hsplit, hm'.symm⟩

theorem name_of_foldlM_fillTag {tags : List String} (hm : ∀ k ∈ m, '=' ∉ k.toList)
    (h : tags.foldlM (fillTag tpl rule) m = some m') : ∀ k ∈ m', '=' ∉ k.toList := by
  induction tags generalizing m with
  | nil =>
    cases h
    exact hm
  | cons tag tags ih =>
    obtain ⟨m₁, h₁, h⟩ := bind_eq_some_iff.mp h
    refine ih (fun k hk => ?_) h
    obtain ⟨k₀, v, v', hsplit, rfl⟩ := fillTag_eq_some h₁
    rcases mem_insert.mp hk with rfl | hk
    · exact name_of_splitTag hsplit
    · exact hm k hk

/-- What `fillTags` gives has the name of the rule, no equals sign in a name, and the list of the
map. -/
theorem fillTags_eq_some {o : MapOrder String} {labels : GoMap String String} {tags : List String}
    (hlabels : ∀ k ∈ labels, '=' ∉ k.toList) (h : fillTags tpl rule o labels = some (m, tags)) :
    m ≠ ∅ ∧ (∀ k ∈ m, '=' ∉ k.toList) ∧ tags = labelMapToArr o m := by
  obtain ⟨m', hfold, hpair⟩ := map_eq_some_iff.mp h
  cases hpair
  refine ⟨?_, name_of_foldlM_fillTag hlabels hfold, rfl⟩
  rw [foldlM_append] at hfold
  obtain ⟨m₁, -, hlast⟩ := bind_eq_some_iff.mp hfold
  obtain ⟨m₂, h₂, hnil⟩ := bind_eq_some_iff.mp hlast
  cases hnil
  obtain ⟨k, v, v', -, rfl⟩ := fillTag_eq_some h₂
  intro hempty
  have hmem : k ∈ m₁.insert k v' := mem_insert.mpr (.inl rfl)
  rw [hempty] at hmem
  exact notMem_empty hmem

end Fill

/-- **The tags of an event survive storage exactly if their map is storable.** -/
theorem tags_survive_iff (ca : Codec α) (cr : Codec β) (tpl : Template) (rule : Rule)
    (o : MapOrder String) {labels m : GoMap String String} {tags : List String}
    (hlabels : ∀ k ∈ labels, k ≠ "" ∧ '=' ∉ k.toList)
    (hfill : fillTags tpl rule o labels = some (m, tags)) (e : TaggedEvent α β) :
    Survives ca cr (e.withTags (m, tags)) ↔ Storable m := by
  obtain ⟨hne, hm, rfl⟩ := fillTags_eq_some (fun k hk => (hlabels k hk).2) hfill
  rw [survives_withTags_iff, split_column_iff hne hm, fillTagsMap_eq_iff hm]
  constructor
  · rintro ⟨⟨hsep, hcomma⟩, hspace⟩
    exact ⟨hsep, hcomma, hspace⟩
  · rintro ⟨hsep, hcomma, hspace⟩
    exact ⟨⟨hsep, hcomma⟩, hspace⟩

namespace Example

/-- A template engine for texts without actions. -/
def plain : Template := fun _ text _ => .ok (String.ofList (text.toList.drop defs.toList.length))

/-- JSON of the type with one value. -/
def unit : Codec Unit where
  nil := ()
  unmarshal _ _ := ((), true)
  marshal _ := .ok "null"
  unmarshal_unmarshal _ _ := rfl

/-- A rule that appends no tags. -/
def rule : Rule := ⟨1, "r", []⟩

/-- Names in alphabetical order. -/
def byName : MapOrder String := MapOrder.sortBy (· ≤ ·)

/-- The labels of a series with one. -/
def labels (name value : String) : GoMap String String := singleton name value

/-- Its tags: the label and the name of the rule. -/
def tagsMap (name value : String) : GoMap String String := (labels name value).insert "rulename" "r"

/-- An event without tags. -/
def base : TaggedEvent Unit Unit where
  annotationsJSON := ()
  ruleConfigJson := ()

theorem entry_of_lookup {name value k v : String} (h : (tagsMap name value).lookup k = some v) :
    k = "rulename" ∧ v = "r" ∨ k = name ∧ v = value := by
  rcases GoMap.lookup_insert_eq_some.mp h with ⟨rfl, rfl⟩ | ⟨-, h⟩
  · exact .inl ⟨rfl, rfl⟩
  · have hmem : k ∈ labels name value := mem_of_lookup_eq_some h
    have hk : k = name := (mem_singleton k name value).mp hmem
    subst hk
    rw [labels, lookup_singleton_eq] at h
    exact .inr ⟨rfl, (some.inj h).symm⟩

/-- The tags of a host survive. -/
theorem tags_survive_host :
    fillTags plain rule byName (labels "host" "web")
      = some (tagsMap "host" "web", ["host=web", "rulename=r"]) ∧
    Survives unit unit (base.withTags (tagsMap "host" "web", ["host=web", "rulename=r"])) := by
  have hfill : fillTags plain rule byName (labels "host" "web")
      = some (tagsMap "host" "web", ["host=web", "rulename=r"]) := by decide +kernel
  have hlabels : ∀ k ∈ labels "host" "web", k ≠ "" ∧ '=' ∉ k.toList := by
    intro k hk
    obtain rfl := (mem_singleton k "host" "web").mp hk
    decide +kernel
  refine ⟨hfill, (tags_survive_iff unit unit plain rule byName hlabels hfill base).mpr ⟨?_, ?_, ?_⟩⟩
  · intro k v h
    rcases entry_of_lookup h with ⟨rfl, rfl⟩ | ⟨rfl, rfl⟩ <;> decide +kernel
  · intro k v h hcomma
    rcases entry_of_lookup h with ⟨rfl, rfl⟩ | ⟨rfl, rfl⟩ <;>
      exact absurd hcomma (by decide +kernel)
  · intro k v h
    rcases entry_of_lookup h with ⟨rfl, rfl⟩ | ⟨rfl, rfl⟩ <;> decide +kernel

/-- A value with the separator comes back in two tags and cut short; one that ends with white space
comes back without it. -/
theorem not_survives_path :
    fillTags plain rule byName (labels "path" "a,,b")
      = some (tagsMap "path" "a,,b", ["path=a,,b", "rulename=r"]) ∧
    (Hop.apply unit unit (base.withTags (tagsMap "path" "a,,b", ["path=a,,b", "rulename=r"]))
      .restart).tagsJSON = ["path=a", "b", "rulename=r"] ∧
    (Hop.apply unit unit (base.withTags (tagsMap "path" "a,,b", ["path=a,,b", "rulename=r"]))
      .restart).tagsMap = tagsMap "path" "a" ∧
    fillTags plain rule byName (labels "host" "web ")
      = some (tagsMap "host" "web ", ["host=web ", "rulename=r"]) ∧
    (Hop.apply unit unit (base.withTags (tagsMap "host" "web ", ["host=web ", "rulename=r"]))
      .restart).tagsMap = tagsMap "host" "web" ∧
    ¬ Survives unit unit (base.withTags (tagsMap "path" "a,,b", ["path=a,,b", "rulename=r"])) ∧
    ¬ Survives unit unit (base.withTags (tagsMap "host" "web ", ["host=web ", "rulename=r"])) := by
  refine ⟨by decide +kernel, by decide +kernel, by decide +kernel, by decide +kernel,
    by decide +kernel, fun h => ?_, fun h => ?_⟩
  · exact absurd (h [.restart]).2 (by decide +kernel)
  · exact absurd (h [.restart]).1 (by decide +kernel)

end Example

/-! ## The value of a tag -/

/-- The text of a tag, in bytes; 61 is `=`. -/
def tagBytes (p : List UInt8 × List UInt8) : List UInt8 := p.1 ++ 61 :: p.2

/-- `AlertCurEvent.GetTagValue`, on bytes: the first tag that holds the key and `=`, from behind as
many bytes. -/
def getTagValue (tagsJSON : List (List UInt8)) (tagkey : List UInt8) : List UInt8 :=
  match tagsJSON.find? fun tag => tagkey ++ [61] <:+: tag with
  | some tag => tag.drop (tagkey.length + 1)
  | none => []

/-- **The value of a tag is found exactly if the first tag that holds the key and `=` is the one of
that name**, or shows the same bytes at that place. -/
theorem getTagValue_eq_iff (tags : List (List UInt8 × List UInt8)) (key : List UInt8) :
    getTagValue (tags.map tagBytes) key = (tags.lookup key).getD [] ↔
      ∀ p, tags.find? (fun p => key ++ [61] <:+: tagBytes p) = some p → p.1 ≠ key →
        (tagBytes p).drop (key.length + 1) = (tags.lookup key).getD [] := by
  induction tags with
  | nil => simp [getTagValue]
  | cons p tags ih =>
    obtain ⟨name, value⟩ := p
    rw [getTagValue, map_cons, find?_cons, find?_cons, lookup_cons]
    by_cases hname : name = key
    · subst hname
      have hholds : name ++ [61] <:+: tagBytes (name, value) := ⟨[], value, by simp [tagBytes]⟩
      have hvalue : (tagBytes (name, value)).drop (name.length + 1) = value := by simp [tagBytes]
      simp [hholds, hvalue]
    · have hlookup : (key == name) = false := by simpa using Ne.symm hname
      rw [hlookup]
      by_cases hholds : key ++ [61] <:+: tagBytes (name, value)
      · simp [hholds, hname]
      · simpa [hholds, getTagValue] using ih

namespace Example

/-- **A name that ends in the key hides it**: of `hostname=db` and `name=x`, the value of `name` is
`ame=db`. -/
theorem name_hidden_by_hostname :
    getTagValue (["hostname=db", "name=x"].map fun s => s.toUTF8.toList) "name".toUTF8.toList
      = "ame=db".toUTF8.toList := by
  decide +kernel

end Example

end Nightingale.Tags
