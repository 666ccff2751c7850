import Nightingale.Lib.Replace
import Nightingale.Pushgw.LabelSets

/-!
# Pipeline/Escapes — the dots of a tag's name

`EventRelabel` hands the tags of an event to the label engine, whose names have no dots; it writes
`___` for each, and reads `___` as a dot in what it gets back.

    app.name=x ──▸ app___name="x" ──relabel──▸ app___name="x" ──▸ app.name=x

A configuration that changes no label should leave the tags.  It does exactly if no name holds `___`
itself, nor an underscore directly before a dot (`tags_kept_iff`).
-/

namespace Nightingale.Relabel

open Pushgw Tags Text List GoMap RelabelConfig

/-- The map that is read from a list of tags. -/
def readTags (tags : List String) : GoMap String String :=
  tags.foldl (fun m tag => (splitTag tag).elim m fun p => m.insert p.1 p.2) ∅

/-- The name that comes back for a tag's name. -/
def readBack (name : String) : String := replaceText "___" "." (replaceText "." "___" name)

/-- The name holds no three underscores in a row, and no underscore before a dot. -/
def DotSafe (name : String) : Prop :=
  containsText name "___" = false ∧ containsText name "_." = false

instance (name : String) : Decidable (DotSafe name) := inferInstanceAs (Decidable (_ ∧ _))

/-! ## Names -/

section Names

variable {name : String}

theorem toList_readBack :
    (readBack name).toList = unescapeChar '.' '_' 3 (escapeChar '.' '_' 3 name.toList) := by
  have hrun : "___".toList = replicate 3 '_' := by decide
  have hdot : ".".toList = ['.'] := by decide
  rw [readBack, toList_replaceText, toList_replaceText, hrun, hdot, unescapeChar, escapeChar]

theorem dotSafe_iff : DotSafe name ↔ Escapable '.' '_' 3 name.toList := by
  have hrun : "___".toList = replicate 3 '_' := by decide
  have hbefore : "_.".toList = ['_', '.'] := by decide
  rw [DotSafe, containsText, containsText, decide_eq_false_iff_not, decide_eq_false_iff_not, hrun,
    hbefore, Escapable]

theorem readBack_eq_iff : readBack name = name ↔ DotSafe name := by
  rw [← String.toList_inj, toList_readBack, dotSafe_iff]
  exact unescapeChar_escapeChar_iff (by decide) (by decide)

theorem dotSafe_readBack (name : String) : DotSafe (readBack name) := by
  rw [dotSafe_iff, toList_readBack]
  exact escapable_unescapeChar (by decide) (by decide) (notMem_escapeChar (by decide))

end Names

/-! ## Tags -/

section Tags

variable {pairs : List (String × String)}

theorem splitTag_pair {k : String} (hk : '=' ∉ k.toList) (v : String) :
    splitTag (pair k v) = some (k, v) := by
  have h := splitTag_of_toList (toList_pair k v) hk
  simpa using h

/-- The label of a tag, by its name and its value. -/
def escape (p : String × String) : Label := ⟨replaceText "." "___" p.1, p.2⟩

theorem map_labelOf (hnames : ∀ p ∈ pairs, '=' ∉ p.1.toList) :
    (pairs.map fun p => pair p.1 p.2).map labelOf = pairs.map escape := by
  rw [map_map]
  refine map_congr_left fun p hp => ?_
  rw [Function.comp_apply, labelOf, splitTag_pair (hnames p hp)]
  rfl

theorem unescape_escape (p : String × String) : unescape (escape p) = ⟨readBack p.1, p.2⟩ := rfl

/-- No two safe names are written alike. -/
theorem nodup_escape (hnodup : (pairs.map Prod.fst).Nodup) (hsafe : ∀ p ∈ pairs, DotSafe p.1) :
    ((pairs.map escape).map Label.name).Nodup := by
  have hback : ((pairs.map escape).map Label.name).map (replaceText "___" ".")
      = pairs.map Prod.fst := by
    rw [map_map, map_map]
    exact map_congr_left fun p hp => readBack_eq_iff.mpr (hsafe p hp)
  exact Nodup.of_map _ (hback ▸ hnodup)

variable (hnames : ∀ p ∈ pairs, '=' ∉ p.1.toList)
  (hnodup : (pairs.map Prod.fst).Nodup)

include hnames hnodup

/-- A map that is read from tags with different names has these tags. -/
theorem lookup_readTags (k v : String) :
    (readTags (pairs.map fun p => pair p.1 p.2)).lookup k = some v ↔ (k, v) ∈ pairs := by
  have hread : readTags (pairs.map fun p => pair p.1 p.2)
      = pairs.foldl (fun m p => m.insert p.1 p.2) ∅ := by
    rw [readTags, foldl_map]
    refine foldl_ext _ _ _ fun m p hp => ?_
    rw [splitTag_pair (hnames p hp)]
    rfl
  rw [hread]
  constructor
  · intro h
    rcases exists_of_lookup_foldl_insert Prod.fst Prod.snd h with h | ⟨p, hp, rfl, rfl⟩
    · simp at h
    · exact hp
  · intro h
    exact lookup_foldl_insert_of_mem Prod.fst Prod.snd hnodup h ∅

/-- The tags are read back only if every name is safe. -/
theorem dotSafe_of_newBuilder_eq {r : List Label}
    (hr : newBuilder r = newBuilder (pairs.map escape))
    (h : (newBuilder (r.map unescape)).labelSet = readTags (pairs.map fun p => pair p.1 p.2)) :
    ∀ p ∈ pairs, DotSafe p.1 := by
  rintro ⟨k, v⟩ hp
  have hlook : (newBuilder (r.map unescape)).labelSet.lookup k = some v := by
    rw [h]
    exact (lookup_readTags hnames hnodup k v).mpr hp
  rcases exists_of_lookup_foldl_insert Label.name Label.value hlook with h | ⟨_, hl, rfl, -⟩
  · simp at h
  · -- a name that comes back is safe
    obtain ⟨l, hmem, rfl⟩ := mem_map.mp hl
    obtain ⟨l', hl', hname⟩ := LabelBuilder.exists_name_of_newBuilder_eq hr hmem
    obtain ⟨q, -, rfl⟩ := mem_map.mp hl'
    rw [unescape, ← hname]
    exact dotSafe_readBack q.1

/-- If it is, the labels are read back as the tags. -/
theorem newBuilder_unescape (hsafe : ∀ p ∈ pairs, DotSafe p.1) {r : List Label}
    (hr : ∀ l, l ∈ r ↔ l ∈ pairs.map escape) :
    (newBuilder (r.map unescape)).labelSet = readTags (pairs.map fun p => pair p.1 p.2) := by
  have hlabel : ∀ p ∈ pairs, unescape (escape p) = ⟨p.1, p.2⟩ := by
    intro p hp
    rw [unescape_escape, readBack_eq_iff.mpr (hsafe p hp)]
  have hsame : ∀ l : Label, l ∈ r.map unescape ↔ (l.name, l.value) ∈ pairs := by
    intro l
    constructor
    · intro hl
      obtain ⟨l', hl', rfl⟩ := mem_map.mp hl
      obtain ⟨p, hp, rfl⟩ := mem_map.mp ((hr l').mp hl')
      rwa [hlabel p hp]
    · intro hl
      have hr' := (hr _).mpr (mem_map_of_mem hl)
      exact mem_map.mpr ⟨_, hr', hlabel _ hl⟩
  have hconsistent : Consistent (r.map unescape) := by
    intro l hl l' hl' hname
    have hinj := inj_on_of_nodup_map hnodup ((hsame l).mp hl) ((hsame l').mp hl') hname
    obtain ⟨name, value⟩ := l
    obtain ⟨name', value'⟩ := l'
    cases hinj
    rfl
  refine Finmap.ext_lookup fun k => Option.ext fun v => ?_
  have hhas := LabelBuilder.has_newBuilder_iff.mpr hconsistent ⟨k, v⟩
  exact (hhas.trans (hsame ⟨k, v⟩)).trans (lookup_readTags hnames hnodup k v).symm

end Tags

/-- The result, in the builder, is what the labels are there. -/
def KeepsBuilt (result : Option (Option (List Label))) (ls : List Label) : Prop :=
  ∃ r, result = some (some r) ∧ newBuilder r = newBuilder ls

/-- **Relabelling without effect keeps the tags** exactly if it reads every name back.  The tags are
names and values with different names, and the configurations leave what the builder has of them:
of names that are written alike, the last one. -/
theorem tags_kept_iff {α β : Type*} (lib : Library) (o : MapOrder String)
    (cfgs : List RelabelConfig) (pairs : List (String × String))
    (hnames : ∀ p ∈ pairs, '=' ∉ p.1.toList) (hnodup : (pairs.map Prod.fst).Nodup) {e : Event α β}
    (he : e.tagsJSON = pairs.map fun p => pair p.1 p.2)
    (hkeeps : KeepsBuilt (process lib o (cfgs.map withDefaults) (e.tagsJSON.map labelOf))
      (e.tagsJSON.map labelOf)) : ∃ e', eventRelabel lib o cfgs e = some e' ∧
      (e'.tagsMap = readTags e.tagsJSON ↔ ∀ p ∈ pairs, DotSafe p.1) := by
  obtain ⟨r, hprocess, hr⟩ := hkeeps
  refine ⟨e.relabelled (r.map unescape), ?_, ?_⟩
  · rw [eventRelabel, gotLabels, hprocess]
    rfl
  · rw [he, map_labelOf hnames] at hprocess hr
    rw [he]
    refine ⟨dotSafe_of_newBuilder_eq hnames hnodup hr, fun hsafe => ?_⟩
    have hlabels := nodup_escape hnodup hsafe
    have hgot := nodup_process hlabels hprocess
    exact newBuilder_unescape hnames hnodup hsafe
      (LabelBuilder.mem_iff_of_newBuilder_eq (consistent_of_nodup hgot)
        (consistent_of_nodup hlabels) hr)

namespace Example

open Tags.Example

/-- An event with these tags. -/
def eventOf (tags : List String) : Event Unit Unit :=
  { toTaggedEvent := { base with tagsJSON := tags } }

theorem keeps_host :
    KeepsBuilt (process literal byName ([dropLabel "host"].map withDefaults)
      ((eventOf ["app.name=x", "env=prod"]).tagsJSON.map labelOf))
    ((eventOf ["app.name=x", "env=prod"]).tagsJSON.map labelOf) := by
  have hlabels : (eventOf ["app.name=x", "env=prod"]).tagsJSON.map labelOf
      = [⟨"app___name", "x"⟩, ⟨"env", "prod"⟩] := by decide +kernel
  rw [hlabels]
  exact ⟨[⟨"env", "prod"⟩, ⟨"app___name", "x"⟩], by decide +kernel,
    LabelBuilder.newBuilder_perm (consistent_of_nodup (by decide)) (Perm.swap _ _ [])⟩

/-- It leaves a name with a dot. -/
theorem dotted_tags_kept :
    ∃ e', eventRelabel literal byName [dropLabel "host"] (eventOf ["app.name=x", "env=prod"])
        = some e' ∧
      e'.tagsMap = readTags ["app.name=x", "env=prod"] := by
  obtain ⟨e', he', hkept⟩ := tags_kept_iff literal byName [dropLabel "host"]
    [("app.name", "x"), ("env", "prod")] (by decide) (by decide) (by decide) keeps_host
  exact ⟨e', he', hkept.mpr (by decide)⟩

/-- It leaves neither a name with `___` nor one with an underscore before a dot. -/
theorem underscored_tags_lost :
    KeepsBuilt (process literal byName ([dropLabel "host"].map withDefaults)
        ((eventOf ["a___b=x", "c_.d=y"]).tagsJSON.map labelOf))
      ((eventOf ["a___b=x", "c_.d=y"]).tagsJSON.map labelOf) ∧
    ∃ e', eventRelabel literal byName [dropLabel "host"] (eventOf ["a___b=x", "c_.d=y"]) = some e' ∧
      e'.tagsJSON = ["c._d=y", "a.b=x"] ∧ e'.tagsMap ≠ readTags ["a___b=x", "c_.d=y"] := by
  have hlabels : (eventOf ["a___b=x", "c_.d=y"]).tagsJSON.map labelOf
      = [⟨"a___b", "x"⟩, ⟨"c____d", "y"⟩] := by decide +kernel
  have hprocess : process literal byName ([dropLabel "host"].map withDefaults)
      ((eventOf ["a___b=x", "c_.d=y"]).tagsJSON.map labelOf)
      = some (some [⟨"c____d", "y"⟩, ⟨"a___b", "x"⟩]) := by decide +kernel
  refine ⟨⟨_, hprocess, ?_⟩, (eventOf ["a___b=x", "c_.d=y"]).relabelled
    ([⟨"c____d", "y"⟩, ⟨"a___b", "x"⟩].map unescape), ?_, by decide +kernel, fun h => ?_⟩
  · rw [hlabels]
    exact LabelBuilder.newBuilder_perm (consistent_of_nodup (by decide)) (Perm.swap _ _ [])
  · rw [eventRelabel, gotLabels, hprocess]
    rfl
  · exact absurd (congrArg (Finmap.lookup "a___b") h) (by decide +kernel)

end Example

end Nightingale.Relabel
