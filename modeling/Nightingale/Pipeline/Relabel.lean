import Nightingale.Models.Tags
import Nightingale.Pushgw.Convert

/-!
# Pipeline/Relabel — relabelling an event, and its original tags

An event keeps the tags it was built with beside those it has.  Its rule may relabel it as soon as
it is built (`Relabel`), and pipelines may do so again; all of them call `EventRelabel`, which
enters the tags it finds as the original ones:

    fillTags ──▸ tags ──Relabel──▸ originals := tags ──EventRelabel──▸ originals := tags, new tags
                                                            │
    FE2DB: the text of the originals := their list   ◂──────┴──▸ EventRelabel: originals := new tags

`originals_kept_iff` says when they are still those the event was built with.
-/

namespace Nightingale.Relabel

open Pushgw Tags Text List Option

/-! ## Relabelling a list of labels -/

/-- A compiled regular expression: `expand` finds the first match in a text and fills in a template
from its groups. -/
structure Regexp where
  matchString : String → Bool
  replaceAllString : String → String → String
  expand : String → String → Option String

/-- What relabelling needs of the libraries; `md5` gives sixteen bytes. -/
structure Library where
  compile : String → Option Regexp
  isValidName : String → Bool
  toLower : String → String
  toUpper : String → String
  md5 : String → List ℕ

/-- The actions. -/
inductive Action where
  | replace
  | keep
  | drop
  | hashMod
  | labelMap
  | labelDrop
  | labelKeep
  | lowercase
  | uppercase
  | dropIfEqual
  | other (text : String)
  deriving DecidableEq

/-- `RelabelConfig`. -/
structure RelabelConfig where
  sourceLabels : List String := []
  separator : String := ""
  regex : String := ""
  regexCompiled : Option Regexp := none
  ifText : String := ""
  ifRegex : Option Regexp := none
  modulus : ℕ := 0
  targetLabel : String := ""
  replacement : String := ""
  action : Action

/-- `getValue`. -/
def getValue (ls : List Label) (name : String) : String :=
  ((ls.find? fun l => l.name = name).map Label.value).getD ""

/-- `LabelBuilder`. -/
structure LabelBuilder where
  labelSet : GoMap String String

/-- `newBuilder`. -/
def newBuilder (ls : List Label) : LabelBuilder :=
  ⟨ls.foldl (fun lset l => lset.insert l.name l.value) ∅⟩

namespace LabelBuilder

/-- `LabelBuilder.set`. -/
def set (lb : LabelBuilder) (k v : String) : LabelBuilder := ⟨lb.labelSet.insert k v⟩

/-- `LabelBuilder.del`, of one name. -/
def del (lb : LabelBuilder) (n : String) : LabelBuilder := ⟨lb.labelSet.erase n⟩

/-- `LabelBuilder.labels`: the labels by name, the greatest first. -/
def labels (o : MapOrder String) (lb : LabelBuilder) : List Label :=
  ((o.list lb.labelSet.keys).filterMap fun k =>
    (lb.labelSet.lookup k).map (Label.mk k)).insertionSort fun a b => a.name ≥ b.name

end LabelBuilder

/-- `sum64`: of the sixteen bytes the shifts leave the last eight. -/
def sum64 (hash : List ℕ) : ℕ :=
  hash.zipIdx.foldl (fun s b => s ||| (b.1 <<< ((16 - b.2 - 1) * 8)) % 2 ^ 64) 0

section Process

variable (lib : Library) (o : MapOrder String)

/-- `handleReplace`. -/
def handleReplace (lb : LabelBuilder) (regx : Regexp) (cfg : RelabelConfig) (val : String) :
    LabelBuilder :=
  if cfg.targetLabel = "" then lb
  else if cfg.sourceLabels = [] then lb.set cfg.targetLabel cfg.replacement
  else if cfg.replacement = "" ∧ cfg.sourceLabels.length > 1 then lb.set cfg.targetLabel val
  else
    match regx.expand cfg.replacement val with
    | none => lb
    | some res =>
      if !lib.isValidName cfg.targetLabel then lb.del cfg.targetLabel
      else if res = "" then lb.del cfg.targetLabel
      else lb.set cfg.targetLabel res

/-- `handleDropIfEqual`: whether the labels are dropped. -/
def handleDropIfEqual (cfg : RelabelConfig) (lset : List Label) : Bool :=
  match cfg.sourceLabels with
  | first :: second :: rest =>
    (second :: rest).all fun label => getValue lset label == getValue lset first
  | _ => false

/-- `relabel`: `none` is a panic, and `some none` the nil that drops the labels. -/
def relabel (lset : List Label) (cfg : RelabelConfig) : Option (Option (List Label)) :=
  match cfg.regexCompiled <|> lib.compile cfg.regex with
  | none => some (some lset)
  | some regx =>
    let val := cfg.separator.intercalate (cfg.sourceLabels.map (getValue lset))
    let lb := newBuilder lset
    match cfg.action with
    | .drop => some (if regx.matchString val then none else some (lb.labels o))
    | .keep => some (if regx.matchString val then some (lb.labels o) else none)
    | .replace => some (some ((handleReplace lib lb regx cfg val).labels o))
    | .lowercase => some (some ((lb.set cfg.targetLabel (lib.toLower val)).labels o))
    | .uppercase => some (some ((lb.set cfg.targetLabel (lib.toUpper val)).labels o))
    | .hashMod =>
      if cfg.modulus = 0 then none
      else
        some (some ((lb.set cfg.targetLabel
          (toString (sum64 (lib.md5 val) % cfg.modulus))).labels o))
    | .labelMap =>
      some (some ((lset.foldl (fun lb l =>
        if regx.matchString l.name then
          lb.set (regx.replaceAllString l.name cfg.replacement) l.value
        else lb) lb).labels o))
    | .labelDrop =>
      some (some ((lset.foldl (fun lb l =>
        if regx.matchString l.name then lb.del l.name else lb) lb).labels o))
    | .labelKeep =>
      some (some ((lset.foldl (fun lb l =>
        if regx.matchString l.name then lb else lb.del l.name) lb).labels o))
    | .dropIfEqual => some (if handleDropIfEqual cfg lset then none else some (lb.labels o))
    | .other _ => some (some (lb.labels o))

/-- `writer.Process`; the nil of one configuration ends it. -/
def process : List RelabelConfig → List Label → Option (Option (List Label))
  | [], labels => some (some labels)
  | cfg :: cfgs, labels =>
    match relabel lib o labels cfg with
    | none => none
    | some none => some none
    | some (some labels) => process cfgs labels

end Process

/-! ## Relabelling an event -/

/-- The tag fields of `models.AlertCurEvent`, with the original tags. -/
structure Event (α β : Type*) extends TaggedEvent α β where
  originalTags : String := ""
  originalTagsJSON : List String := []

/-- The defaults `EventRelabel` writes into a configuration. -/
def RelabelConfig.withDefaults (cfg : RelabelConfig) : RelabelConfig :=
  { cfg with
    replacement := if cfg.replacement = "" then "$1" else cfg.replacement
    separator := if cfg.separator = "" then ";" else cfg.separator
    regex := if cfg.regex = "" then "(.*)" else cfg.regex }

/-- The label of a tag, in the place of whose dots `___` stands; a tag without `=` leaves an empty
one. -/
def labelOf (tag : String) : Label :=
  match splitTag tag with
  | none => ⟨"", ""⟩
  | some (k, v) => ⟨replaceText "." "___" k, v⟩

/-- The tag as it is entered among the original ones. -/
def originalOf (tag : String) : String := if (splitTag tag).isSome then tag else ""

/-- A label of the result, with its dots. -/
def unescape (l : Label) : Label := { l with name := replaceText "___" "." l.name }

/-- The text of a label. -/
def tagOf (l : Label) : String := pair l.name l.value

variable {α β : Type*}

/-- The event with the labels it was given, and those it had as the original ones. -/
def Event.relabelled (e : Event α β) (got : List Label) : Event α β :=
  { e with
    originalTagsJSON := e.tagsJSON.map originalOf
    tagsJSON := got.map tagOf
    tagsMap := got.foldl (fun m label => m.insert label.name label.value) ∅
    tags := ",,".intercalate (got.map tagOf) }

section Event

variable (lib : Library) (o : MapOrder String)

/-- The labels `EventRelabel` gives for a list of tags; `none` is a panic. -/
def gotLabels (cfgs : List RelabelConfig) (tags : List String) : Option (List Label) :=
  (process lib o (cfgs.map RelabelConfig.withDefaults) (tags.map labelOf)).map fun got =>
    (got.getD []).map unescape

/-- `EventRelabel`. -/
def eventRelabel (cfgs : List RelabelConfig) (e : Event α β) : Option (Event α β) :=
  (gotLabels lib o cfgs e.tagsJSON).map e.relabelled

/-- `Relabel`, which `BuildEvent` calls with the configurations of the rule. -/
def relabelByRule (cfgs : List RelabelConfig) (e : Event α β) : Option (Event α β) :=
  -- need to keep the original label
  let e := { e with originalTags := e.tags, originalTagsJSON := e.tagsJSON }
  if cfgs.isEmpty then some e else eventRelabel lib o cfgs e

/-- The configuration a relabel node works with. -/
def RelabelConfig.escaped (r : RelabelConfig) : RelabelConfig :=
  { r with sourceLabels := r.sourceLabels.map (replaceText "." "___") }

/-- `RelabelConfig.Process`, the relabel node of a pipeline. -/
def RelabelConfig.process (r : RelabelConfig) (e : Event α β) : Option (Event α β) :=
  eventRelabel lib o [r.escaped] e

/-- `AlertCurEvent.FE2DB`. -/
def Event.fe2DB (ca : Codec α) (cr : Codec β) (e : Event α β) : Event α β :=
  { e with
    toTaggedEvent := e.toTaggedEvent.fe2DB ca cr
    originalTags := ",,".intercalate e.originalTagsJSON }

/-- What happens to an event on its way. -/
inductive Op where
  /-- It goes through a relabel node. -/
  | node (r : RelabelConfig)
  /-- `FE2DB` writes its texts. -/
  | write

/-- The event after it. -/
def Op.apply (ca : Codec α) (cr : Codec β) (e : Event α β) : Op → Option (Event α β)
  | .node r => r.process lib o e
  | .write => some (e.fe2DB ca cr)

end Event

/-! ## The original tags -/

/-- The original tags of the event are the ones given, in both fields. -/
structure Original (built : List String) (e : Event α β) : Prop where
  list : e.originalTagsJSON = built
  column : e.originalTags = ",,".intercalate built

section Kept

variable (lib : Library) (o : MapOrder String)

/-- **They are at every point of the way**, as far as no node panics. -/
def KeepsOriginals (ca : Codec α) (cr : Codec β) (built : List String) (e : Event α β)
    (ops : List Op) : Prop :=
  ∀ done, done <+: ops → ∀ e', done.foldlM (Op.apply lib o ca cr) e = some e' → Original built e'

/-- **Every relabel node that returns finds the tags the event was built with**: no relabelling
before it has changed them. -/
def FindsBuilt (built : List String) : List String → List Op → Prop
  | _, [] => True
  | tags, .write :: ops => FindsBuilt built tags ops
  | tags, .node r :: ops => ∀ got, gotLabels lib o [r.escaped] tags = some got →
      tags = built ∧ FindsBuilt built (got.map tagOf) ops

end Kept

/-! ## One relabelling -/

/-- The text is a tag: it has an equals sign. -/
def IsTag (tag : String) : Prop := (splitTag tag).isSome

theorem isTag_pair (k v : String) : IsTag (pair k v) := by
  rw [IsTag, splitTag, splitN]
  split
  · next heq =>
    -- nothing is left behind the first `=` only if there is none
    rw [span_eq_takeWhile_dropWhile] at heq
    have hall := dropWhile_eq_nil_iff.mp (Prod.mk.inj heq).2 '=' (by simp [toList_pair])
    simp at hall
  · rfl

theorem map_originalOf {tags : List String} (h : ∀ tag ∈ tags, IsTag tag) :
    tags.map originalOf = tags := by
  have hsame : ∀ tag ∈ tags, originalOf tag = id tag := fun tag htag => if_pos (h tag htag)
  rw [List.map_congr_left hsame, List.map_id]

/-- Every tag of an event has an equals sign. -/
def Event.IsTagged (e : Event α β) : Prop := ∀ tag ∈ e.tagsJSON, IsTag tag

section Step

variable {e : Event α β} {built : List String} {got : List Label}

theorem isTagged_relabelled : (e.relabelled got).IsTagged := by
  intro tag htag
  obtain ⟨l, -, rfl⟩ := mem_map.mp htag
  exact isTag_pair l.name l.value

/-- **A relabelling makes the tags it finds the original ones**, and leaves the column. -/
theorem original_relabelled_iff (he : e.IsTagged) : Original built (e.relabelled got) ↔
      e.tagsJSON = built ∧ e.originalTags = ",,".intercalate built := by
  have hlist : (e.relabelled got).originalTagsJSON = e.tagsJSON := map_originalOf he
  constructor
  · rintro ⟨hbuilt, hcolumn⟩
    exact ⟨hlist.symm.trans hbuilt, hcolumn⟩
  · rintro ⟨hbuilt, hcolumn⟩
    exact ⟨hlist.trans hbuilt, hcolumn⟩

/-- **Writing keeps the original tags.** -/
theorem Original.fe2DB (ca : Codec α) (cr : Codec β) (h : Original built e) :
    Original built (e.fe2DB ca cr) :=
  ⟨h.list, congrArg ",,".intercalate h.list⟩

end Step

/-! ## The whole way -/

section Run

variable {lib : Library} {o : MapOrder String} {ca : Codec α} {cr : Codec β}
variable {e : Event α β} {built : List String} {op : Op} {ops : List Op}

theorem KeepsOriginals.original (h : KeepsOriginals lib o ca cr built e ops) : Original built e :=
  h [] nil_prefix e rfl

theorem keepsOriginals_cons : KeepsOriginals lib o ca cr built e (op :: ops) ↔ Original built e ∧
      ∀ e', op.apply lib o ca cr e = some e' → KeepsOriginals lib o ca cr built e' ops := by
  constructor
  · intro h
    refine ⟨h.original, fun e' he' done hdone e'' he'' => ?_⟩
    refine h (op :: done) (cons_prefix_cons.mpr ⟨rfl, hdone⟩) e'' ?_
    rw [foldlM_cons, he']
    exact he''
  · rintro ⟨he, h⟩ done hdone e'' he''
    cases done with
    | nil =>
      cases he''
      exact he
    | cons op' done =>
      obtain ⟨rfl, hrest⟩ := cons_prefix_cons.mp hdone
      obtain ⟨e', he', he''⟩ := bind_eq_some_iff.mp he''
      exact h e' he' done hrest e'' he''

/-- **From an event with the original tags on, they are kept exactly if every node finds them.** -/
theorem keepsOriginals_iff (htagged : e.IsTagged) (he : Original built e) :
    KeepsOriginals lib o ca cr built e ops ↔ FindsBuilt lib o built e.tagsJSON ops := by
  induction ops generalizing e with
  | nil =>
    refine iff_of_true (fun done hdone e' he' => ?_) trivial
    obtain rfl := prefix_nil.mp hdone
    cases he'
    exact he
  | cons op ops ih =>
    rw [keepsOriginals_cons]
    cases op with
    | write =>
      have hwrite : (e.fe2DB ca cr).IsTagged := htagged
      have hnext := ih hwrite (he.fe2DB ca cr)
      constructor
      · rintro ⟨-, h⟩
        exact hnext.mp (h (e.fe2DB ca cr) rfl)
      · intro h
        refine ⟨he, fun e' he' => ?_⟩
        cases he'
        exact hnext.mpr h
    | node r =>
      constructor
      · rintro ⟨-, h⟩ got hgot
        have hnext := h (e.relabelled got) (congrArg (Option.map e.relabelled) hgot)
        have hfound := (original_relabelled_iff htagged).mp hnext.original
        exact ⟨hfound.1, (ih isTagged_relabelled hnext.original).mp hnext⟩
      · intro h
        refine ⟨he, fun e' he' => ?_⟩
        obtain ⟨got, hgot, rfl⟩ := map_eq_some_iff.mp he'
        obtain ⟨hfound, hrest⟩ := h got hgot
        have hnext : Original built (e.relabelled got) :=
          (original_relabelled_iff htagged).mpr ⟨hfound, he.column⟩
        exact (ih isTagged_relabelled hnext).mpr hrest

/-- One relabel node alone finds the tags, wherever the texts are written. -/
theorem findsBuilt_of_single (before after : List Op) {r : RelabelConfig}
    (hbefore : ∀ op ∈ before, op = .write) (hafter : ∀ op ∈ after, op = .write) :
    FindsBuilt lib o built built (before ++ .node r :: after) := by
  have hwrites : ∀ {tags : List String}, FindsBuilt lib o built tags after := by
    intro tags
    induction after with
    | nil => trivial
    | cons op after ih =>
      obtain rfl := hafter op mem_cons_self
      exact ih fun op hop => hafter op (mem_cons_of_mem _ hop)
  induction before with
  | nil => exact fun got _ => ⟨rfl, hwrites⟩
  | cons op before ih =>
    obtain rfl := hbefore op mem_cons_self
    exact ih fun op hop => hbefore op (mem_cons_of_mem _ hop)

end Run

/-! ## From the event as it is built -/

section Built

variable {lib : Library} {o : MapOrder String} {tpl : Template} {rule : Rule} {om : MapOrder String}
variable {labels : GoMap String String} {built : GoMap String String × List String}

theorem isTag_of_fillTags (h : fillTags tpl rule om labels = some built) :
    ∀ tag ∈ built.2, IsTag tag := by
  obtain ⟨m, -, rfl⟩ := map_eq_some_iff.mp h
  intro tag htag
  obtain ⟨k, v, -, rfl⟩ := (mem_labelMapToArr om).mp htag
  exact isTag_pair k v

/-- The relabelling by the rule keeps the tags it finds as the original ones. -/
theorem original_relabelByRule {cfgs : List RelabelConfig} {e e' : Event α β}
    (hbuilt : ∀ tag ∈ built.2, IsTag tag)
    (h : relabelByRule lib o cfgs { e with toTaggedEvent := e.withTags built } = some e') :
    e'.IsTagged ∧ Original built.2 e' := by
  rw [relabelByRule] at h
  split_ifs at h
  · cases h
    exact ⟨hbuilt, rfl, rfl⟩
  · obtain ⟨got, -, rfl⟩ := map_eq_some_iff.mp h
    refine ⟨isTagged_relabelled, (original_relabelled_iff ?_).mpr ⟨rfl, rfl⟩⟩
    exact hbuilt

/-- **The original tags stay those the event was built with** exactly if every relabel node of its
way that returns finds those very tags: a second relabelling enters what the first one left. -/
theorem originals_kept_iff (ca : Codec α) (cr : Codec β) (cfgs : List RelabelConfig) (ops : List Op)
    {e e' : Event α β} (hbuilt : fillTags tpl rule om labels = some built)
    (he' : relabelByRule lib o cfgs { e with toTaggedEvent := e.withTags built } = some e') :
    KeepsOriginals lib o ca cr built.2 e' ops ↔ FindsBuilt lib o built.2 e'.tagsJSON ops := by
  obtain ⟨htagged, horiginal⟩ := original_relabelByRule (isTag_of_fillTags hbuilt) he'
  exact keepsOriginals_iff htagged horiginal

end Built

namespace Example

open Tags.Example

/-- Regular expressions that are the texts they match, and `(.*)`. -/
def literal : Library where
  compile expr := some
    { matchString := fun s => expr = "(.*)" || containsText s expr
      replaceAllString := fun s repl => if expr = "(.*)" then repl else replaceText expr repl s
      expand := fun template s =>
        if expr = "(.*)" then some (replaceText "$1" s template)
        else if containsText s expr then some template
        else none }
  isValidName name := name ≠ ""
  toLower := String.toLower
  toUpper := String.toUpper
  md5 _ := replicate 16 0

/-- A configuration that drops the labels of a name. -/
def dropLabel (regex : String) : RelabelConfig := { regex, action := .labelDrop }

/-- The tags of a series of the environment `prod`. -/
def built : GoMap String String × List String :=
  (tagsMap "env" "prod", ["env=prod", "rulename=r"])

/-- Its event, before the rule relabels it. -/
def event : Event Unit Unit := { base.withTags built with }

theorem fillTags_built : fillTags plain rule byName (labels "env" "prod") = some built := by
  decide +kernel

theorem gotLabels_env : gotLabels literal byName [dropLabel "env"] built.2
    = some [⟨"rulename", "r"⟩] := by
  decide +kernel

theorem gotLabels_host : gotLabels literal byName [(dropLabel "host").escaped] ["rulename=r"]
    = some [⟨"rulename", "r"⟩] := by
  decide +kernel

/-- With no configuration at the rule, one node that drops the label keeps the original tags. -/
theorem originals_kept_node :
    fillTags plain rule byName (labels "env" "prod") = some built ∧
    ∃ e', relabelByRule literal byName [] { event with toTaggedEvent := event.withTags built }
        = some e' ∧
      KeepsOriginals literal byName unit unit built.2 e' [.node (dropLabel "env"), .write] := by
  refine ⟨fillTags_built, _, rfl, ?_⟩
  refine (originals_kept_iff unit unit [] _ fillTags_built rfl).mpr ?_
  exact findsBuilt_of_single [] [.write] (by simp) (by simp)

/-- The rule drops the label of the environment, and the original tags have it.  Then the event goes
through a node that changes nothing, and they are lost, in the list and then in the column. -/
theorem originals_lost :
    fillTags plain rule byName (labels "env" "prod") = some built ∧
    ∃ e', relabelByRule literal byName [dropLabel "env"]
        { event with toTaggedEvent := event.withTags built } = some e' ∧
      e'.tagsJSON = ["rulename=r"] ∧ e'.originalTagsJSON = ["env=prod", "rulename=r"] ∧
      (∃ e'', [Op.node (dropLabel "host"), .write].foldlM (Op.apply literal byName unit unit) e'
          = some e'' ∧
        e''.originalTagsJSON = ["rulename=r"] ∧ e''.originalTags = "rulename=r") ∧
      ¬ KeepsOriginals literal byName unit unit built.2 e' [.node (dropLabel "host"), .write] := by
  let e₀ : Event Unit Unit :=
    { event with originalTags := ",,".intercalate built.2, originalTagsJSON := built.2 }
  let e₁ := e₀.relabelled [⟨"rulename", "r"⟩]
  let e₂ := e₁.relabelled [⟨"rulename", "r"⟩]
  have hrule : eventRelabel literal byName [dropLabel "env"] e₀ = some e₁ :=
    congrArg (Option.map e₀.relabelled) gotLabels_env
  have hnode : Op.apply literal byName unit unit e₁ (.node (dropLabel "host")) = some e₂ :=
    congrArg (Option.map e₁.relabelled) gotLabels_host
  have hlost : e₂.originalTagsJSON = ["rulename=r"] := by decide +kernel
  refine ⟨fillTags_built, e₁, hrule, by decide +kernel, by decide +kernel,
    ⟨e₂.fe2DB unit unit, ?_, hlost, ?_⟩, fun h => ?_⟩
  · rw [foldlM_cons, hnode]
    rfl
  · exact congrArg ",,".intercalate hlost
  · have hkept := h [.node (dropLabel "host")] ⟨[.write], rfl⟩ e₂ (by
      rw [foldlM_cons, hnode]
      rfl)
    exact absurd (hlost.symm.trans hkept.list) (by decide)

end Example

end Nightingale.Relabel
