import Nightingale.Pipeline.Relabel

/-!
# Pushgw/LabelSets — relabelling as a function of a set of labels

A series has a set of labels, and a list is how it is written down.  `relabel` reads the list into a
map, changes the map, and writes it down again, by name:

    labels ──newBuilder──▸ map ──action──▸ map ──labels()──▸ labels, or nil

So a list is what its map has (`LabelBuilder.Has`).

* When does a configuration leave the set alone?  `keeps_iff` says so for every action.  The
  condition `If` plays no part in it, so a configuration whose condition is not met does as much as
  any other (`condition_heeded_iff`).
* Does the order of the list matter?  Only to `labelmap`, where of several labels that get one name
  the last one wins; and only to the first configuration that does anything, since the next one is
  given the labels by name (`label_sets_iff`).
-/

namespace Nightingale.Relabel

open Pushgw Text List Option GoMap LabelBuilder Label Finmap RelabelConfig

/-! ## The builder -/

/-- No name has two values. -/
def Consistent (ls : List Label) : Prop := ∀ l ∈ ls, ∀ l' ∈ ls, l.name = l'.name → l = l'

/-- The builder has the labels of the list and no others. -/
def LabelBuilder.Has (lb : LabelBuilder) (ls : List Label) : Prop :=
  ∀ l : Label, lb.labelSet.lookup l.name = some l.value ↔ l ∈ ls

theorem consistent_of_nodup {ls : List Label} (h : (ls.map Label.name).Nodup) : Consistent ls :=
  fun _ hl _ hl' => inj_on_of_nodup_map h hl hl'

theorem Consistent.perm {ls ls' : List Label} (h : Consistent ls) (hp : ls'.Perm ls) :
    Consistent ls' := fun l hl l' hl' => h l (hp.mem_iff.mp hl) l' (hp.mem_iff.mp hl')

namespace LabelBuilder

variable {lb lb' : LabelBuilder} {ls ls' : List Label} {k v : String} {o : MapOrder String}

theorem ext_lookup (h : ∀ k, lb.labelSet.lookup k = lb'.labelSet.lookup k) : lb = lb' := by
  obtain ⟨m⟩ := lb
  obtain ⟨m'⟩ := lb'
  exact congrArg mk (ext_lookup h)

theorem Has.eq (h : lb.Has ls) (h' : lb'.Has ls) : lb = lb' := by
  refine ext_lookup fun k => ext fun v => ?_
  exact (h ⟨k, v⟩).trans (h' ⟨k, v⟩).symm

theorem Has.consistent (h : lb.Has ls) : Consistent ls := by
  intro l hl l' hl' hname
  have hvalue := (h l).mpr hl
  rw [hname, (h l').mpr hl'] at hvalue
  obtain ⟨name, value⟩ := l
  obtain ⟨name', value'⟩ := l'
  cases hvalue
  obtain rfl : name = name' := hname
  rfl

theorem has_labels (lb : LabelBuilder) (o : MapOrder String) : lb.Has (lb.labels o) := by
  intro l
  rw [labels, mem_insertionSort, mem_filterMap]
  constructor
  · intro h
    refine ⟨l.name, (o.mem_list_keys _ _).mpr (mem_iff.mpr ⟨_, h⟩), ?_⟩
    rw [h]
    rfl
  · rintro ⟨k, -, hk⟩
    obtain ⟨v, hv, rfl⟩ := map_eq_some_iff.mp hk
    exact hv

theorem nodup_labels (lb : LabelBuilder) (o : MapOrder String) :
    ((lb.labels o).map Label.name).Nodup := by
  refine Nodup.map_on (fun l hl l' hl' => (lb.has_labels o).consistent l hl l' hl') ?_
  refine (perm_insertionSort _ _).nodup_iff.mpr ((o.nodup _).filterMap ?_)
  intro k k' l hl hl'
  obtain ⟨v, -, rfl⟩ := map_eq_some_iff.mp hl
  obtain ⟨v', -, hv'⟩ := map_eq_some_iff.mp hl'
  exact (congrArg name hv').symm

theorem mem_newBuilder_iff {k : String} :
    k ∈ (newBuilder ls).labelSet ↔ ∃ l ∈ ls, l.name = k := by
  refine (mem_foldl_insert name (fun _ l => l.value) ls ∅ k).trans (or_iff_right ?_)
  exact Finmap.notMem_empty

/-- **Reading a list gives its labels**, if no name has two values. -/
theorem has_newBuilder_iff : (newBuilder ls).Has ls ↔ Consistent ls := by
  refine ⟨Has.consistent, fun hc l => ⟨fun h => ?_, fun h => ?_⟩⟩
  · rcases exists_of_lookup_foldl_insert name value h with h | ⟨l', hl', hn, hv⟩
    · simp at h
    · obtain ⟨name, value⟩ := l
      obtain ⟨name', value'⟩ := l'
      obtain rfl : name' = name := hn
      obtain rfl : value' = value := hv
      exact hl'
  · obtain ⟨v, hv⟩ := mem_iff.mp (mem_newBuilder_iff.mpr ⟨l, h, rfl⟩)
    rcases exists_of_lookup_foldl_insert name value hv with
      h' | ⟨l', hl', hn, hv'⟩
    · simp at h'
    · rw [hv, ← hv', hc l' hl' l h hn]

theorem mem_iff_of_newBuilder_eq (hc : Consistent ls) (hc' : Consistent ls')
    (h : newBuilder ls = newBuilder ls') (l : Label) : l ∈ ls ↔ l ∈ ls' := by
  have hhas := has_newBuilder_iff.mpr hc l
  rw [h] at hhas
  exact hhas.symm.trans (has_newBuilder_iff.mpr hc' l)

theorem exists_name_of_newBuilder_eq (h : newBuilder ls = newBuilder ls') {l : Label}
    (hl : l ∈ ls) : ∃ l' ∈ ls', l'.name = l.name := by
  have hmem := mem_newBuilder_iff.mpr ⟨l, hl, rfl⟩
  rw [h] at hmem
  exact mem_newBuilder_iff.mp hmem

theorem newBuilder_labels (lb : LabelBuilder) (o : MapOrder String) :
    newBuilder (lb.labels o) = lb :=
  (has_newBuilder_iff.mpr (lb.has_labels o).consistent).eq (lb.has_labels o)

theorem newBuilder_perm (hc : Consistent ls) (hp : ls'.Perm ls) :
    newBuilder ls' = newBuilder ls := by
  have h : (newBuilder ls').Has ls := by
    intro l
    rw [← hp.mem_iff]
    exact has_newBuilder_iff.mpr (hc.perm hp) l
  exact h.eq (has_newBuilder_iff.mpr hc)

theorem lookup_set (lb : LabelBuilder) (k v k' : String) : (lb.set k v).labelSet.lookup k'
    = if k' = k then some v else lb.labelSet.lookup k' := lookup_insert_ite _ _ _ _

theorem lookup_del (lb : LabelBuilder) (k k' : String) : (lb.del k).labelSet.lookup k'
    = if k' = k then none else lb.labelSet.lookup k' := lookup_erase_ite _ _ _

theorem has_set_iff (h : lb.Has ls) : (lb.set k v).Has ls ↔ ⟨k, v⟩ ∈ ls := by
  constructor
  · intro h'
    rw [← h' ⟨k, v⟩, lookup_set, if_pos rfl]
  · intro hmem
    have hsame : lb.set k v = lb := by
      refine ext_lookup fun k' => ?_
      rw [lookup_set]
      split_ifs with hk
      · rw [hk, (h ⟨k, v⟩).mpr hmem]
      · rfl
    rwa [hsame]

theorem has_del_iff (h : lb.Has ls) : (lb.del k).Has ls ↔ ∀ l ∈ ls, l.name ≠ k := by
  constructor
  · intro h' l hl hk
    have hlook := (h' l).mpr hl
    rw [lookup_del, if_pos hk] at hlook
    cases hlook
  · intro hno l
    rw [lookup_del]
    split_ifs with hk
    · exact iff_of_false (by simp) fun hl => hno l hl hk
    · exact h l

end LabelBuilder

/-! ## What an action does -/

/-- The regular expression `relabel` works with, if there is one. -/
def RelabelConfig.compiled (lib : Library) (cfg : RelabelConfig) : Option Regexp :=
  cfg.regexCompiled <|> lib.compile cfg.regex

/-- The values of the source labels, as `relabel` joins them. -/
def joined (cfg : RelabelConfig) (ls : List Label) : String :=
  cfg.separator.intercalate (cfg.sourceLabels.map (getValue ls))

/-- The name `labelmap` gives to a label, if any. -/
def renamed (regx : Regexp) (cfg : RelabelConfig) (l : Label) : Option String :=
  if regx.matchString l.name then some (regx.replaceAllString l.name cfg.replacement) else none

/-- Whether the action drops the labels. -/
def drops (regx : Regexp) (cfg : RelabelConfig) (ls : List Label) : Bool :=
  match cfg.action with
  | .drop => regx.matchString (joined cfg ls)
  | .keep => !regx.matchString (joined cfg ls)
  | .dropIfEqual => handleDropIfEqual cfg ls
  | _ => false

/-- What `replace` does to the target label: it leaves it, deletes it or sets it. -/
def replaceEdit (lib : Library) (regx : Regexp) (cfg : RelabelConfig) (val : String) :
    Option (Option String) :=
  if cfg.targetLabel = "" then none
  else if cfg.sourceLabels = [] then some (some cfg.replacement)
  else if cfg.replacement = "" ∧ cfg.sourceLabels.length > 1 then some (some val)
  else (regx.expand cfg.replacement val).map fun res =>
    if !lib.isValidName cfg.targetLabel ∨ res = "" then none else some res

/-- What an action does to the target label. -/
def edit (lib : Library) (regx : Regexp) (cfg : RelabelConfig) (ls : List Label) :
    Option (Option String) :=
  match cfg.action with
  | .replace => replaceEdit lib regx cfg (joined cfg ls)
  | .lowercase => some (some (lib.toLower (joined cfg ls)))
  | .uppercase => some (some (lib.toUpper (joined cfg ls)))
  | .hashMod => some (some (toString (sum64 (lib.md5 (joined cfg ls)) % cfg.modulus)))
  | _ => none

/-- A label is left, deleted or set. -/
def LabelBuilder.edit (lb : LabelBuilder) (k : String) : Option (Option String) → LabelBuilder
  | none => lb
  | some none => lb.del k
  | some (some v) => lb.set k v

/-- The builder `labelmap` leaves. -/
def mapped (regx : Regexp) (cfg : RelabelConfig) (ls : List Label) : LabelBuilder :=
  ls.foldl (fun lb l => (renamed regx cfg l).elim lb fun k => lb.set k l.value) (newBuilder ls)

/-- The builder that is left when the names of a kind are deleted. -/
def dropped (p : String → Bool) (ls : List Label) : LabelBuilder :=
  ls.foldl (fun lb l => if p l.name then lb.del l.name else lb) (newBuilder ls)

/-- The builder an action leaves. -/
def written (lib : Library) (regx : Regexp) (cfg : RelabelConfig) (ls : List Label) :
    LabelBuilder :=
  match cfg.action with
  | .labelMap => mapped regx cfg ls
  | .labelDrop => dropped regx.matchString ls
  | .labelKeep => dropped (fun name => !regx.matchString name) ls
  | _ => (newBuilder ls).edit cfg.targetLabel (edit lib regx cfg ls)

section Actions

variable {lib : Library} {o : MapOrder String} {regx : Regexp} {cfg : RelabelConfig}
variable {ls ls' : List Label}

theorem handleReplace_eq (lb : LabelBuilder) (val : String) : handleReplace lib lb regx cfg val
      = lb.edit cfg.targetLabel (replaceEdit lib regx cfg val) := by
  unfold handleReplace replaceEdit
  by_cases htarget : cfg.targetLabel = ""
  · simp [htarget, LabelBuilder.edit]
  by_cases hsource : cfg.sourceLabels = []
  · simp [htarget, hsource, LabelBuilder.edit]
  by_cases hreplacement : cfg.replacement = "" ∧ cfg.sourceLabels.length > 1
  · simp [htarget, hsource, hreplacement, LabelBuilder.edit]
  rw [if_neg htarget, if_neg htarget, if_neg hsource, if_neg hsource, if_neg hreplacement,
    if_neg hreplacement]
  cases regx.expand cfg.replacement val with
  | none => rfl
  | some res =>
    cases hvalid : lib.isValidName cfg.targetLabel with
    | false => simp [LabelBuilder.edit]
    | true =>
      by_cases hres : res = ""
      · simp [hres, LabelBuilder.edit]
      · simp [hres, LabelBuilder.edit]

/-- **`relabel` by its action**: it panics, drops the labels or writes down what it has changed. -/
theorem relabel_eq (h : cfg.compiled lib = some regx) : relabel lib o ls cfg =
    if cfg.action = .hashMod ∧ cfg.modulus = 0 then none
    else some (if drops regx cfg ls then none
      else some ((written lib regx cfg ls).labels o)) := by
  rw [compiled] at h
  unfold relabel drops written edit
  rw [h]
  cases haction : cfg.action with
  | drop | keep =>
    cases hm : regx.matchString (joined cfg ls) <;> simp_all [joined, LabelBuilder.edit]
  | dropIfEqual => simp [LabelBuilder.edit]
  | replace => simp [joined, handleReplace_eq]
  | lowercase | uppercase | hashMod => simp [joined, LabelBuilder.edit]
  | labelMap =>
    have hstep : ∀ (lb : LabelBuilder) (l : Label), (if regx.matchString l.name then
        lb.set (regx.replaceAllString l.name cfg.replacement) l.value else lb)
          = (renamed regx cfg l).elim lb fun k => lb.set k l.value := by
      intro lb l
      rw [renamed]
      split_ifs <;> rfl
    simp [hstep, mapped]
  | labelDrop => simp [dropped]
  | labelKeep =>
    have hstep : ∀ (lb : LabelBuilder) (l : Label),
        (if regx.matchString l.name then lb else lb.del l.name)
          = if !regx.matchString l.name then lb.del l.name else lb := by
      intro lb l
      cases regx.matchString l.name <;> rfl
    simp [hstep, dropped]
  | other text => simp [LabelBuilder.edit]

theorem relabel_of_not_compiled (h : cfg.compiled lib = none) :
    relabel lib o ls cfg = some (some ls) := by
  rw [compiled] at h
  rw [relabel, h]

/-- Of the labels that get one name, the last one wins. -/
theorem lookup_mapped (k : String) : (mapped regx cfg ls).labelSet.lookup k
    = ((ls.reverse.find? fun l => renamed regx cfg l = some k).map Label.value).or
      ((newBuilder ls).labelSet.lookup k) := by
  have hfold : ∀ (l : List Label) (lb : LabelBuilder),
      (l.foldl (fun lb l => (renamed regx cfg l).elim lb fun k => lb.set k l.value)
        lb).labelSet.lookup k
      = ((l.reverse.find? fun l => renamed regx cfg l = some k).map value).or
        (lb.labelSet.lookup k) := by
    intro l
    induction l with
    | nil => exact fun lb => rfl
    | cons a l ih =>
      intro lb
      rw [foldl_cons, ih, reverse_cons, find?_append, Option.map_or, Option.or_assoc]
      refine congrArg _ ?_
      cases hname : renamed regx cfg a with
      | none => simp [hname]
      | some k' =>
        rw [elim_some, lookup_set]
        by_cases hk : k = k'
        · simp [hname, hk]
        · simp [hname, hk, Ne.symm hk]
  exact hfold ls _

theorem lookup_dropped (p : String → Bool) (k : String) : (dropped p ls).labelSet.lookup k
    = if p k then none else (newBuilder ls).labelSet.lookup k := by
  have hfold : ∀ (l : List Label) (lb : LabelBuilder),
      (l.foldl (fun lb l => if p l.name then lb.del l.name else lb) lb).labelSet.lookup k
        = if p k ∧ k ∈ l.map name then none else lb.labelSet.lookup k := by
    intro l
    induction l with
    | nil => simp
    | cons a l ih =>
      intro lb
      rw [foldl_cons, ih, map_cons]
      by_cases hp : p a.name = true
      · rw [if_pos hp, lookup_del]
        by_cases hk : k = a.name
        · simp [hk, hp]
        · simp [hk]
      · rw [if_neg hp]
        by_cases hk : k = a.name
        · simp [hk, hp]
        · simp [hk]
  rw [dropped, hfold]
  by_cases hmem : k ∈ ls.map name
  · simp [hmem]
  · rw [if_neg fun h => hmem h.2, newBuilder, lookup_foldl_insert_of_notMem name value hmem]
    simp

/-! ## When the labels stay -/

/-- The labels are kept, and are the same set. -/
def Keeps (result : Option (Option (List Label))) (ls : List Label) : Prop :=
  ∃ r, result = some (some r) ∧ ∀ l, l ∈ r ↔ l ∈ ls

/-- The target label is already as an action leaves it. -/
def Stands (ls : List Label) (k : String) : Option (Option String) → Prop
  | none => True
  | some none => ∀ l ∈ ls, l.name ≠ k
  | some (some v) => ⟨k, v⟩ ∈ ls

/-- **The action has nothing to do** with these labels. -/
def Idle (lib : Library) (regx : Regexp) (cfg : RelabelConfig) (ls : List Label) : Prop :=
  match cfg.action with
  | .drop => regx.matchString (joined cfg ls) = false
  | .keep => regx.matchString (joined cfg ls) = true
  | .dropIfEqual => handleDropIfEqual cfg ls = false
  | .labelMap => ∀ k l, ls.reverse.find? (fun l => renamed regx cfg l = some k) = some l →
      ⟨k, l.value⟩ ∈ ls
  | .labelDrop => ∀ l ∈ ls, regx.matchString l.name = false
  | .labelKeep => ∀ l ∈ ls, regx.matchString l.name = true
  | .hashMod => cfg.modulus ≠ 0 ∧ Stands ls cfg.targetLabel (edit lib regx cfg ls)
  | .replace | .lowercase | .uppercase | .other _ =>
    Stands ls cfg.targetLabel (edit lib regx cfg ls)

/-- What a builder has is consistent, so of any list only the consistent ones are to be asked. -/
theorem has_iff_and {lb : LabelBuilder} {P : Prop}
    (h : (newBuilder ls).Has ls → (lb.Has ls ↔ P)) : lb.Has ls ↔ Consistent ls ∧ P := by
  rw [← has_newBuilder_iff] at *
  refine ⟨fun hlb => ?_, fun ⟨hnew, hp⟩ => (h hnew).mpr hp⟩
  have hnew := has_newBuilder_iff.mpr hlb.consistent
  exact ⟨hnew, (h hnew).mp hlb⟩

theorem has_edit_iff {k : String} (e : Option (Option String)) :
    ((newBuilder ls).edit k e).Has ls ↔ Consistent ls ∧ Stands ls k e := by
  refine has_iff_and fun hnew => ?_
  match e with
  | none => exact iff_true_intro hnew
  | some none => exact has_del_iff hnew
  | some (some v) => exact has_set_iff hnew

theorem has_dropped_iff (p : String → Bool) :
    (dropped p ls).Has ls ↔ Consistent ls ∧ ∀ l ∈ ls, p l.name = false := by
  refine has_iff_and fun hnew => ⟨fun h l hl => ?_, fun hp l => ?_⟩
  · have hlook := (h l).mpr hl
    rw [lookup_dropped] at hlook
    cases hp : p l.name with
    | false => rfl
    | true => simp [hp] at hlook
  · rw [lookup_dropped, ← hnew l]
    split_ifs with hl
    · exact iff_of_false (by simp) fun hlook => by simp [hp l ((hnew l).mp hlook)] at hl
    · rfl

theorem has_mapped_iff : (mapped regx cfg ls).Has ls ↔ Consistent ls ∧
    ∀ k l, ls.reverse.find? (fun l => renamed regx cfg l = some k) = some l →
      ⟨k, l.value⟩ ∈ ls := by
  refine has_iff_and fun hnew => ⟨fun h k l hl => ?_, fun hlast l => ?_⟩
  · rw [← h ⟨k, l.value⟩, lookup_mapped, hl]
    rfl
  · rw [lookup_mapped, ← hnew l]
    cases hfind : ls.reverse.find? fun l' => renamed regx cfg l' = some l.name with
    | none => rfl
    | some l' =>
      rw [(hnew ⟨l.name, l'.value⟩).mpr (hlast l.name l' hfind)]
      rfl

theorem keeps_labels_iff (lb : LabelBuilder) :
    Keeps (some (some (lb.labels o))) ls ↔ lb.Has ls := by
  constructor
  · rintro ⟨r, hr, hsame⟩ l
    obtain rfl := some.inj (some.inj hr)
    exact (lb.has_labels o l).trans (hsame l)
  · exact fun h => ⟨_, rfl, fun l => (lb.has_labels o l).symm.trans (h l)⟩

theorem keeps_relabel_iff (h : cfg.compiled lib = some regx) : Keeps (relabel lib o ls cfg) ls ↔
    ¬ (cfg.action = .hashMod ∧ cfg.modulus = 0) ∧ drops regx cfg ls = false ∧
      (written lib regx cfg ls).Has ls := by
  rw [relabel_eq h]
  split_ifs with hpanic hdrops
  · exact iff_of_false (fun ⟨r, hr, _⟩ => by cases hr) fun h => h.1 hpanic
  · refine iff_of_false (fun ⟨r, hr, _⟩ => by cases hr) fun h => ?_
    rw [hdrops] at h
    cases h.2.1
  · rw [keeps_labels_iff]
    exact ⟨fun hhas => ⟨hpanic, by simpa using hdrops, hhas⟩, fun h => h.2.2⟩

/-- **The labels stay** exactly if the regular expression does not compile, or no name has two
values and the action has nothing to do. -/
theorem keeps_iff : Keeps (relabel lib o ls cfg) ls ↔
    ∀ regx, cfg.compiled lib = some regx → Consistent ls ∧ Idle lib regx cfg ls := by
  cases hcompiled : cfg.compiled lib with
  | none =>
    refine iff_of_true ?_ fun regx h => by cases h
    rw [relabel_of_not_compiled hcompiled]
    exact ⟨ls, rfl, fun l => Iff.rfl⟩
  | some regx =>
    simp only [some.injEq, forall_eq']
    rw [keeps_relabel_iff hcompiled]
    unfold drops written Idle edit
    cases haction : cfg.action with
    | drop | keep | dropIfEqual => simp [has_edit_iff, Stands, and_comm]
    | replace | lowercase | uppercase => simp [has_edit_iff]
    | hashMod => simp [has_edit_iff, and_left_comm]
    | labelMap => simp [has_mapped_iff]
    | labelDrop | labelKeep => simp [has_dropped_iff]
    | other text => simp [has_edit_iff]

end Actions

/-- A label as the condition reads it. -/
def conditionText (l : Label) : String := l.name ++ "=\"" ++ l.value ++ "\""

/-- The configuration has a condition, and no label satisfies it. -/
def Unmet (cfg : RelabelConfig) (ls : List Label) : Prop :=
  ∃ cond, cfg.ifRegex = some cond ∧ ∀ l ∈ ls, cond.matchString (conditionText l) = false

/-- **The condition is not read.**  A configuration does the same with any condition; so if its own
is not met, the labels stay exactly if the configuration has nothing to do with them. -/
theorem condition_heeded_iff (lib : Library) (o : MapOrder String) (cfg : RelabelConfig)
    (ls : List Label) : (∀ text cond, relabel lib o ls { cfg with ifText := text, ifRegex := cond }
      = relabel lib o ls cfg) ∧ ((Unmet cfg ls → Keeps (relabel lib o ls cfg) ls) ↔
      (Unmet cfg ls → ∀ regx, cfg.compiled lib = some regx →
        Consistent ls ∧ Idle lib regx cfg ls)) :=
  ⟨fun _ _ => rfl, imp_congr_right fun _ => keeps_iff⟩

namespace Example

open Tags.Example

/-- A configuration that drops series of an environment, for one job. -/
def dropForJob : RelabelConfig :=
  { action := .drop, sourceLabels := ["env"], regex := "prod"
    ifText := "job=\"api\"", ifRegex := literal.compile "job=\"api\"" }

/-- A series of another job is dropped. -/
theorem unmet_condition_drops :
    Unmet dropForJob [⟨"env", "prod"⟩, ⟨"job", "db"⟩] ∧
      relabel literal byName [⟨"env", "prod"⟩, ⟨"job", "db"⟩] dropForJob = some none ∧
      ¬ Keeps (relabel literal byName [⟨"env", "prod"⟩, ⟨"job", "db"⟩] dropForJob)
        [⟨"env", "prod"⟩, ⟨"job", "db"⟩] := by
  have hdrop : relabel literal byName [⟨"env", "prod"⟩, ⟨"job", "db"⟩] dropForJob = some none := by
    decide +kernel
  refine ⟨⟨_, rfl, by decide +kernel⟩, hdrop, ?_⟩
  rintro ⟨r, hr, -⟩
  rw [hdrop] at hr
  cases hr

end Example

/-! ## The order of the labels -/

/-- Two results are the same: a panic, a nil, or the same set of labels. -/
def Same : Option (Option (List Label)) → Option (Option (List Label)) → Prop
  | none, none => True
  | some none, some none => True
  | some (some r), some (some r') => ∀ l, l ∈ r ↔ l ∈ r'
  | _, _ => False

/-- The order in which the labels are given does not matter. -/
def OrderFree (lib : Library) (o : MapOrder String) (cfgs : List RelabelConfig) (ls : List Label) :
    Prop :=
  ∀ ls', ls'.Perm ls → Same (process lib o cfgs ls') (process lib o cfgs ls)

/-- Two labels with different values get one name. -/
def Clash (regx : Regexp) (cfg : RelabelConfig) (ls : List Label) : Prop :=
  cfg.action = .labelMap ∧ ∃ l ∈ ls, ∃ l' ∈ ls, l.value ≠ l'.value ∧
    ∃ k, renamed regx cfg l = some k ∧ renamed regx cfg l' = some k

/-- **The first configuration with a regular expression is a `labelmap` with a clash.** -/
def Clashes (lib : Library) (ls : List Label) : List RelabelConfig → Prop
  | [] => False
  | cfg :: cfgs =>
    match cfg.compiled lib with
    | none => Clashes lib ls cfgs
    | some regx => Clash regx cfg ls

section Order

variable {lib : Library} {o : MapOrder String} {regx : Regexp} {cfg : RelabelConfig}
variable {cfgs : List RelabelConfig} {ls ls' : List Label}

theorem Same.refl (r : Option (Option (List Label))) : Same r r := by
  match r with
  | none | some none => trivial
  | some (some r) => exact fun l => Iff.rfl

theorem getValue_eq (hc : Consistent ls) (name : String) :
    getValue ls name = ((newBuilder ls).labelSet.lookup name).getD "" := by
  have hhas := has_newBuilder_iff.mpr hc
  rw [getValue]
  cases hfind : ls.find? fun l => l.name = name with
  | some l =>
    have hname : l.name = name := by simpa using find?_some hfind
    rw [← hname, (hhas l).mpr (mem_of_find?_eq_some hfind)]
    rfl
  | none =>
    cases hlook : (newBuilder ls).labelSet.lookup name with
    | none => rfl
    | some v =>
      have hno := find?_eq_none.mp hfind ⟨name, v⟩ ((hhas ⟨name, v⟩).mp hlook)
      simp at hno

theorem getValue_congr (hc : Consistent ls) (hc' : Consistent ls')
    (h : newBuilder ls' = newBuilder ls) : getValue ls' = getValue ls := by
  funext name
  rw [getValue_eq hc, getValue_eq hc', h]

theorem joined_congr (hc : Consistent ls) (hc' : Consistent ls')
    (h : newBuilder ls' = newBuilder ls) : joined cfg ls' = joined cfg ls := by
  rw [joined, joined, getValue_congr hc hc' h]

/-- Of elements of a kind that are read alike, it does not matter which one is found. -/
theorem map_find?_congr {α β : Type*} {f : α → β} {p : α → Bool} {l l' : List α}
    (hmem : ∀ a, a ∈ l ↔ a ∈ l')
    (hsame : ∀ a ∈ l, ∀ b ∈ l, p a = true → p b = true → f a = f b) :
    (l.find? p).map f = (l'.find? p).map f := by
  cases h : l.find? p with
  | none =>
    have hnone : l'.find? p = none := by
      rw [find?_eq_none] at h ⊢
      exact fun a ha => h a ((hmem a).mpr ha)
    rw [hnone]
  | some a =>
    have ha := mem_of_find?_eq_some h
    have hpa := find?_some h
    obtain ⟨b, hb⟩ : ∃ b, l'.find? p = some b :=
      isSome_iff_exists.mp (find?_isSome.mpr ⟨a, (hmem a).mp ha, hpa⟩)
    have hmemb := (hmem b).mpr (mem_of_find?_eq_some hb)
    rw [hb, map_some, map_some, hsame a ha b hmemb hpa (find?_some hb)]

theorem mapped_perm (hc : Consistent ls) (hp : ls'.Perm ls) (haction : cfg.action = .labelMap)
    (hclash : ¬ Clash regx cfg ls) : mapped regx cfg ls' = mapped regx cfg ls := by
  refine ext_lookup fun k => ?_
  have hfind : (ls'.reverse.find? fun l => renamed regx cfg l = some k).map value
      = (ls.reverse.find? fun l => renamed regx cfg l = some k).map value := by
    refine map_find?_congr (fun a => by simp [hp.mem_iff]) fun a ha b hb hka hkb => ?_
    by_contra hne
    exact hclash ⟨haction, a, hp.mem_iff.mp (mem_reverse.mp ha), b,
      hp.mem_iff.mp (mem_reverse.mp hb), hne, k, by simpa using hka, by simpa using hkb⟩
  rw [lookup_mapped, lookup_mapped, newBuilder_perm hc hp, hfind]

/-- **Without a clash the order does not matter** to one configuration. -/
theorem relabel_perm (hc : Consistent ls) (hp : ls'.Perm ls)
    (hcompiled : cfg.compiled lib = some regx) (hclash : ¬ Clash regx cfg ls) :
    relabel lib o ls' cfg = relabel lib o ls cfg := by
  have hnew := newBuilder_perm hc hp
  have hjoined : joined cfg ls' = joined cfg ls := joined_congr hc (hc.perm hp) hnew
  have hdrops : drops regx cfg ls' = drops regx cfg ls := by
    unfold drops handleDropIfEqual
    rw [hjoined, getValue_congr hc (hc.perm hp) hnew]
  have hdropped : ∀ p, dropped p ls' = dropped p ls := fun p =>
    ext_lookup fun k => by rw [lookup_dropped, lookup_dropped, hnew]
  have hwritten : written lib regx cfg ls' = written lib regx cfg ls := by
    unfold written edit
    rw [hnew, hjoined]
    cases haction : cfg.action with
    | labelMap => exact mapped_perm hc hp haction hclash
    | labelDrop | labelKeep => exact hdropped _
    | _ => rfl
  rw [relabel_eq hcompiled, relabel_eq hcompiled, hdrops, hwritten]

/-- Of two labels that clash, the one that is given last is found under the new name. -/
theorem mem_relabel_of_clash (o : MapOrder String) (ls : List Label)
    (hcompiled : cfg.compiled lib = some regx) (haction : cfg.action = .labelMap) {l : Label}
    {k : String} (hl : renamed regx cfg l = some k) :
    ∃ r, relabel lib o (ls ++ [l]) cfg = some (some r) ∧ ∀ v, ⟨k, v⟩ ∈ r ↔ v = l.value := by
  refine ⟨(mapped regx cfg (ls ++ [l])).labels o, ?_, fun v => ?_⟩
  · rw [relabel_eq hcompiled]
    simp [drops, written, haction]
  · rw [← has_labels _ o ⟨k, v⟩, lookup_mapped]
    simp [hl, eq_comm]

theorem not_orderFree_of_clash (hcompiled : cfg.compiled lib = some regx)
    (hclash : Clash regx cfg ls) : ¬ OrderFree lib o [cfg] ls := by
  intro h
  obtain ⟨haction, l, hl, l', hl', hne, k, hk, hk'⟩ := hclash
  have hlast : ∀ {l : Label}, l ∈ ls → (ls.erase l ++ [l]).Perm ls := fun hl =>
    (perm_append_singleton _ _).trans (perm_cons_erase hl).symm
  obtain ⟨r, hr, hmem⟩ := mem_relabel_of_clash o (ls.erase l) hcompiled haction hk
  obtain ⟨r', hr', hmem'⟩ := mem_relabel_of_clash o (ls.erase l') hcompiled haction hk'
  have hsame := h _ (hlast hl)
  have hsame' := h _ (hlast hl')
  simp only [process, hr] at hsame
  simp only [process, hr'] at hsame'
  cases hresult : relabel lib o ls cfg with
  | none => simp [hresult, Same] at hsame
  | some result =>
    cases result with
    | none => simp [hresult, Same] at hsame
    | some labels =>
      simp only [hresult, Same] at hsame hsame'
      have hboth : ⟨k, l.value⟩ ∈ r' := by
        rw [hsame', ← hsame, hmem]
      exact hne ((hmem' _).mp hboth)

/-- **Every beginning of the configurations is free of the order exactly if there is no clash.** -/
theorem forall_orderFree_iff (hc : Consistent ls) :
    (∀ done, done <+: cfgs → OrderFree lib o done ls) ↔ ¬ Clashes lib ls cfgs := by
  induction cfgs with
  | nil =>
    refine iff_of_true (fun done hdone => ?_) id
    rw [prefix_nil.mp hdone]
    exact fun ls' hp l => hp.mem_iff
  | cons cfg cfgs ih =>
    rw [Clashes]
    cases hcompiled : cfg.compiled lib with
    | none =>
      -- the configuration does nothing
      have hskip : ∀ done, OrderFree lib o (cfg :: done) ls ↔ OrderFree lib o done ls := by
        intro done
        simp only [OrderFree, process, relabel_of_not_compiled hcompiled]
      rw [← ih]
      refine ⟨fun h done hdone => (hskip done).mp (h _ ?_), fun h done hdone => ?_⟩
      · exact cons_prefix_cons.mpr ⟨rfl, hdone⟩
      · rcases prefix_cons_iff.mp hdone with rfl | ⟨rest, rfl, hrest⟩
        · exact h [] nil_prefix
        · exact (hskip rest).mpr (h rest hrest)
    | some regx =>
      refine ⟨fun h hclash => not_orderFree_of_clash hcompiled hclash (h [cfg] ?_),
        fun hclash done hdone ls' hp => ?_⟩
      · exact cons_prefix_cons.mpr ⟨rfl, nil_prefix⟩
      · rcases prefix_cons_iff.mp hdone with rfl | ⟨rest, rfl, -⟩
        · exact fun l => hp.mem_iff
        · rw [process, process, relabel_perm hc hp hcompiled hclash]
          exact Same.refl _

/-! ## Names, and doing it twice -/

theorem nodup_relabel (hnodup : (ls.map Label.name).Nodup) {r : List Label}
    (h : relabel lib o ls cfg = some (some r)) : (r.map Label.name).Nodup := by
  cases hcompiled : cfg.compiled lib with
  | none =>
    rw [relabel_of_not_compiled hcompiled] at h
    obtain rfl := some.inj (some.inj h)
    exact hnodup
  | some regx =>
    rw [relabel_eq hcompiled] at h
    split_ifs at h with hpanic hdrops
    · cases h
    · obtain rfl := some.inj (some.inj h)
      exact nodup_labels _ o

theorem nodup_process (hnodup : (ls.map Label.name).Nodup) {r : List Label}
    (h : process lib o cfgs ls = some (some r)) : (r.map Label.name).Nodup := by
  induction cfgs generalizing ls with
  | nil =>
    obtain rfl := some.inj (some.inj h)
    exact hnodup
  | cons cfg cfgs ih =>
    rw [process] at h
    cases hfirst : relabel lib o ls cfg with
    | none => simp [hfirst] at h
    | some result =>
      cases result with
      | none => simp [hfirst] at h
      | some ls' =>
        simp only [hfirst] at h
        exact ih (nodup_relabel hnodup hfirst) h

theorem dropped_labels (p : String → Bool) :
    dropped p ((dropped p ls).labels o) = dropped p ls := by
  refine ext_lookup fun k => ?_
  rw [lookup_dropped, newBuilder_labels, lookup_dropped]
  split_ifs <;> rfl

section

variable (hc : Consistent ls)
  (haction : cfg.action = .labelDrop ∨ cfg.action = .labelKeep ∨ cfg.action = .drop)

include hc haction

/-- What `labeldrop`, `labelkeep` or `drop` has left, it leaves. -/
theorem relabel_relabel {r : List Label} (h : relabel lib o ls cfg = some (some r)) :
    relabel lib o r cfg = some (some r) := by
  cases hcompiled : cfg.compiled lib with
  | none => rw [relabel_of_not_compiled hcompiled]
  | some regx =>
    rw [relabel_eq hcompiled] at h ⊢
    split_ifs at h with hpanic hdrops
    · cases h
    obtain rfl := some.inj (some.inj h)
    have hagain : drops regx cfg ((written lib regx cfg ls).labels o) = false ∧
        written lib regx cfg ((written lib regx cfg ls).labels o) = written lib regx cfg ls := by
      unfold drops written edit at *
      rcases haction with haction | haction | haction
      · simp only [haction]
        exact ⟨trivial, dropped_labels _⟩
      · simp only [haction]
        exact ⟨trivial, dropped_labels _⟩
      · simp only [haction, LabelBuilder.edit] at hdrops ⊢
        rw [joined_congr hc (LabelBuilder.has_labels _ o).consistent (newBuilder_labels _ o)]
        exact ⟨by simpa using hdrops, newBuilder_labels _ o⟩
    rw [if_neg hpanic, hagain.1, hagain.2]
    rfl

/-- **Doing it twice is doing it once.** -/
theorem process_twice : process lib o [cfg, cfg] ls = process lib o [cfg] ls := by
  simp only [process]
  cases h : relabel lib o ls cfg with
  | none => rfl
  | some result =>
    cases result with
    | none => rfl
    | some r => simp only [relabel_relabel hc haction h]

end

end Order

/-- **Relabelling a set of labels.**  Let no name be given twice.  The result is the same set for
every order of the labels, after any number of the configurations, exactly if the first one with a
regular expression is not a `labelmap` that gives one name to two labels of different values.  A
kept result has no name twice, and `labeldrop`, `labelkeep` and `drop` may as well be applied
twice. -/
theorem label_sets_iff (lib : Library) (o : MapOrder String) (cfgs : List RelabelConfig)
    {ls : List Label} (hnodup : (ls.map Label.name).Nodup) :
    ((∀ done, done <+: cfgs → OrderFree lib o done ls) ↔ ¬ Clashes lib ls cfgs) ∧
    (∀ r, process lib o cfgs ls = some (some r) → (r.map Label.name).Nodup) ∧ ∀ cfg : RelabelConfig,
      cfg.action = .labelDrop ∨ cfg.action = .labelKeep ∨ cfg.action = .drop →
        Same (process lib o [cfg, cfg] ls) (process lib o [cfg] ls) := by
  have hc := consistent_of_nodup hnodup
  refine ⟨forall_orderFree_iff hc, fun r => nodup_process hnodup, fun cfg haction => ?_⟩
  rw [process_twice hc haction]
  exact Same.refl _

namespace Example

open Tags.Example

/-- A configuration that calls every label that has a text in its name by one name. -/
def mapLabel (regex replacement : String) : RelabelConfig :=
  { regex, replacement, action := .labelMap }

/-- After a `labeldrop` the order does not matter, whatever follows. -/
theorem orderFree_after_drop :
    OrderFree literal byName [dropLabel "env", mapLabel "(.*)" "host"]
      [⟨"env", "prod"⟩, ⟨"ident", "a"⟩, ⟨"instance", "b"⟩] := by
  refine (label_sets_iff literal byName _ (by decide)).1.mpr (fun hclash => ?_) _ prefix_rfl
  exact absurd hclash.1 (by decide)

/-- Two labels get the name `host`, and the one that is given last keeps it. -/
theorem order_decides_host :
    process literal byName [mapLabel "(.*)" "host"] [⟨"ident", "a"⟩, ⟨"instance", "b"⟩]
      = some (some [⟨"instance", "b"⟩, ⟨"ident", "a"⟩, ⟨"host", "b"⟩]) ∧
    process literal byName [mapLabel "(.*)" "host"] [⟨"instance", "b"⟩, ⟨"ident", "a"⟩]
      = some (some [⟨"instance", "b"⟩, ⟨"ident", "a"⟩, ⟨"host", "a"⟩]) ∧
    ¬ OrderFree literal byName [mapLabel "(.*)" "host"] [⟨"ident", "a"⟩, ⟨"instance", "b"⟩] := by
  have hfirst : process literal byName [mapLabel "(.*)" "host"] [⟨"ident", "a"⟩, ⟨"instance", "b"⟩]
      = some (some [⟨"instance", "b"⟩, ⟨"ident", "a"⟩, ⟨"host", "b"⟩]) := by
    decide +kernel
  have hsecond : process literal byName [mapLabel "(.*)" "host"]
      [⟨"instance", "b"⟩, ⟨"ident", "a"⟩]
      = some (some [⟨"instance", "b"⟩, ⟨"ident", "a"⟩, ⟨"host", "a"⟩]) := by
    decide +kernel
  refine ⟨hfirst, hsecond, fun h => ?_⟩
  have hsame := h [⟨"instance", "b"⟩, ⟨"ident", "a"⟩] (Perm.swap _ _ [])
  rw [hfirst, hsecond] at hsame
  exact absurd ((hsame ⟨"host", "a"⟩).mp (by decide)) (by decide)

end Example

/-! ## Division by zero -/

/-- The configuration takes a remainder modulo zero, if it is applied. -/
def RelabelConfig.Divides (lib : Library) (cfg : RelabelConfig) : Prop :=
  (cfg.compiled lib).isSome ∧ cfg.action = .hashMod ∧ cfg.modulus = 0

/-- No configuration the labels come to divides by zero. -/
def Harmless (lib : Library) (o : MapOrder String) : List RelabelConfig → List Label → Prop
  | [], _ => True
  | cfg :: cfgs, ls =>
    ¬ cfg.Divides lib ∧ ∀ ls', relabel lib o ls cfg = some (some ls') → Harmless lib o cfgs ls'

section Returns

variable {lib : Library} {o : MapOrder String} {cfg : RelabelConfig} {cfgs : List RelabelConfig}
variable {ls : List Label}

theorem relabel_eq_none_iff : relabel lib o ls cfg = none ↔ cfg.Divides lib := by
  rw [RelabelConfig.Divides]
  cases hcompiled : cfg.compiled lib with
  | none => simp [relabel_of_not_compiled hcompiled]
  | some regx => simp [relabel_eq hcompiled]

/-- **`Process` returns exactly if no configuration it comes to divides by zero.** -/
theorem isSome_process_iff : (process lib o cfgs ls).isSome ↔ Harmless lib o cfgs ls := by
  induction cfgs generalizing ls with
  | nil => simp [process, Harmless]
  | cons cfg cfgs ih =>
    rw [process, Harmless, ← relabel_eq_none_iff]
    cases hfirst : relabel lib o ls cfg with
    | none => simp
    | some result => cases result <;> simp [ih]

end Returns

/-- **Relabelling returns** exactly if no configuration that it comes to is a `hashmod` with the
modulus 0 and a regular expression that compiles: a list of labels, an event, and an event in the
node of a pipeline. -/
theorem relabelling_returns_iff {α β : Type*} (lib : Library) (o : MapOrder String)
    (cfgs : List RelabelConfig) (ls : List Label) (r : RelabelConfig) (e : Event α β) :
    ((process lib o cfgs ls).isSome ↔ Harmless lib o cfgs ls) ∧
    ((eventRelabel lib o cfgs e).isSome ↔
      Harmless lib o (cfgs.map withDefaults) (e.tagsJSON.map labelOf)) ∧
    ((r.process lib o e).isSome ↔ ¬ r.withDefaults.Divides lib) := by
  have hevent : ∀ cfgs, (eventRelabel lib o cfgs e).isSome ↔
      Harmless lib o (cfgs.map withDefaults) (e.tagsJSON.map labelOf) := fun cfgs => by
    rw [eventRelabel, gotLabels, isSome_map, isSome_map, isSome_process_iff]
  refine ⟨isSome_process_iff, hevent cfgs, (hevent [r.escaped]).trans ?_⟩
  rw [map_singleton, Harmless]
  exact and_iff_left fun _ _ => trivial

namespace Example

open Tags.Example

/-- A `hashmod` whose modulus was left out panics. -/
theorem hashmod_zero_panics :
    process literal byName [{ action := .hashMod }] [⟨"ident", "a"⟩] = none ∧
      (RelabelConfig.process literal byName { action := .hashMod } event).isNone := by
  decide +kernel

end Example

end Nightingale.Relabel
