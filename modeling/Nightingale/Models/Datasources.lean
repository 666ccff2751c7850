import Nightingale.Models.RuleColumns

/-!
# Models/Datasources — the datasources a rule is evaluated on

A rule names its datasources by queries, and `GetDatasourceIDsByDatasourceQueries` starts from all
of them and takes from each query what it leaves.

    idMap ──q₁──▸ cur ──q₂──▸ cur ──▸ ⋯        in       a new set, filled from the current one
                                               not in   the current set, with deletions

So each query is a filter, and the filters commute (`datasources_selected`).  The id 0 stands for
all datasources in `in` and only there.
-/

namespace Nightingale.Datasources

open RuleColumns List

/-- A value of a query: a number of one of the integer or float types, a text, or anything else. -/
inductive Value
  | int (n : ℤ)
  | float (x : ℚ)
  | text (s : String)
  | other

/-- The number a value is converted to. -/
def Value.id? : Value → Option ℤ
  | int n => some n
  | float x => some (x.num.tdiv x.den)
  | _ => none

/-- The text a value is. -/
def Value.text? : Value → Option String
  | text s => some s
  | _ => none

/-- `models.DatasourceIdAll`. -/
def datasourceIdAll : ℤ := 0

/-- `idValues` of a query. -/
def idValues (q : DatasourceQuery Value) : List ℤ := q.values.filterMap Value.id?

/-- The patterns of a query. -/
def patterns (q : DatasourceQuery Value) : List String := q.values.filterMap Value.text?

section Select

variable (wild : String → String → Bool) (o : MapOrder String) (nameMap : GoMap String ℤ)

/-- One turn of the loop, from `curIDs` to `dsIDs`; `wild` is `match.Match`. -/
def select (q : DatasourceQuery Value) (cur : Finset ℤ) : Finset ℤ :=
  let names := (o.list nameMap.keys).filterMap fun name => (nameMap.lookup name).map (name, ·)
  if q.matchType = 0 then
    if q.op = "in" then
      if idValues q = [datasourceIdAll] then cur
      else (idValues q).foldl (fun ds id => if id ∈ cur then insert id ds else ds) ∅
    else if q.op = "not in" then (idValues q).foldl (fun cur id => cur.erase id) cur
    else ∅
  else if q.matchType = 1 then
    if q.op = "in" then
      names.foldl (fun ds p => if p.2 ∈ cur then
        (patterns q).foldl (fun ds pat => if wild p.1 pat then insert p.2 ds else ds) ds
        else ds) ∅
    else if q.op = "not in" then
      names.foldl (fun cur p =>
        (patterns q).foldl (fun cur pat => if wild p.1 pat then cur.erase p.2 else cur) cur) cur
    else ∅
  else if q.matchType = 2 then cur
  else ∅

/-- The loop over the queries; it breaks where nothing is left. -/
def selectLoop : List (DatasourceQuery Value) → Finset ℤ → Finset ℤ
  | [], cur => cur
  | q :: queries, cur =>
    let dsIDs := select wild o nameMap q cur
    if dsIDs = ∅ then dsIDs else selectLoop queries dsIDs

/-- `GetDatasourceIDsByDatasourceQueries`, the ids in the order `oi`. -/
def getDatasourceIDsByDatasourceQueries {T : Type*} (oi : MapOrder ℤ)
    (queries : List (DatasourceQuery Value)) (idMap : GoMap ℤ T) : List ℤ :=
  if queries = [] then [] else oi.list (selectLoop wild o nameMap queries idMap.keys)

/-- A query with a match type and an operator that are known. -/
def Known (q : DatasourceQuery Value) : Prop :=
  (q.matchType = 0 ∨ q.matchType = 1) ∧ (q.op = "in" ∨ q.op = "not in") ∨ q.matchType = 2

/-- The query admits the id. -/
def Admits (q : DatasourceQuery Value) (id : ℤ) : Prop :=
  if q.matchType = 0 then
    if q.op = "in" then idValues q = [datasourceIdAll] ∨ id ∈ idValues q else id ∉ idValues q
  else if q.matchType = 1 then
    if q.op = "in" then ∃ name, nameMap.lookup name = some id ∧ ∃ pat ∈ patterns q, wild name pat
    else ∀ name, nameMap.lookup name = some id → ∀ pat ∈ patterns q, ¬ wild name pat
  else True

end Select

/-! ## Each query is a filter -/

section Folds

variable {β : Type*} {step : Finset ℤ → β → Finset ℤ} {P : β → Prop} {id : ℤ}

theorem mem_foldl_or (h : ∀ s x, id ∈ step s x ↔ id ∈ s ∨ P x) (l : List β) (s : Finset ℤ) :
    id ∈ l.foldl step s ↔ id ∈ s ∨ ∃ x ∈ l, P x := by
  induction l generalizing s with
  | nil => simp
  | cons x l ih => rw [foldl_cons, ih, h, exists_mem_cons_iff, or_assoc]

theorem mem_foldl_and (h : ∀ s x, id ∈ step s x ↔ id ∈ s ∧ P x) (l : List β) (s : Finset ℤ) :
    id ∈ l.foldl step s ↔ id ∈ s ∧ ∀ x ∈ l, P x := by
  induction l generalizing s with
  | nil => simp
  | cons x l ih => rw [foldl_cons, ih, h, forall_mem_cons, and_assoc]

end Folds

section Filter

variable {wild : String → String → Bool} {o : MapOrder String} {nameMap : GoMap String ℤ}
  {q : DatasourceQuery Value} {cur : Finset ℤ} {id : ℤ}

theorem mem_names {p : String × ℤ} :
    p ∈ (o.list nameMap.keys).filterMap (fun name => (nameMap.lookup name).map (name, ·)) ↔
      nameMap.lookup p.1 = some p.2 := by
  obtain ⟨name, id⟩ := p
  simp only [mem_filterMap, Option.map_eq_some_iff, Prod.mk.injEq]
  constructor
  · rintro ⟨name', -, id', h, rfl, rfl⟩
    exact h
  · intro h
    refine ⟨name, ?_, id, h, rfl, rfl⟩
    rw [MapOrder.mem_list_keys]
    exact Finmap.mem_of_lookup_eq_some h

/-- **A query leaves of the current set what it admits.** -/
theorem mem_select (hq : Known q) :
    id ∈ select wild o nameMap q cur ↔ id ∈ cur ∧ Admits wild nameMap q id := by
  have h10 : (1 : ℤ) ≠ 0 := by decide
  have hop' : "not in" ≠ "in" := by decide
  obtain ⟨ht | ht, hop | hop⟩ | ht := hq
  · -- ids, `in`
    simp only [select, Admits, ht, hop, if_true]
    split_ifs with hall
    · simp [hall]
    · rw [mem_foldl_or (P := fun x => id ∈ cur ∧ x = id) fun s x => by
        split_ifs with hx <;> grind]
      simp only [Finset.notMem_empty, hall, false_or]
      grind
  · -- ids, `not in`
    simp only [select, Admits, ht, hop, if_true, if_neg hop']
    rw [mem_foldl_and (P := (· ≠ id)) fun s x => by rw [Finset.mem_erase]; tauto]
    grind
  · -- names, `in`
    simp only [select, Admits, ht, hop, if_neg h10, if_true]
    rw [mem_foldl_or (P := fun p => id ∈ cur ∧ p.2 = id ∧ ∃ pat ∈ patterns q, wild p.1 pat)
      fun s p => ?_]
    · simp only [mem_names, Prod.exists, Finset.notMem_empty, false_or]
      constructor
      · rintro ⟨name, _, hname, hcur, rfl, hpat⟩
        exact ⟨hcur, name, hname, hpat⟩
      · rintro ⟨hcur, name, hname, hpat⟩
        exact ⟨name, id, hname, hcur, rfl, hpat⟩
    · split_ifs with hp
      · rw [mem_foldl_or (P := fun pat => p.2 = id ∧ wild p.1 pat) fun s pat => by
          split_ifs with hw <;> grind]
        grind
      · grind
  · -- names, `not in`
    simp only [select, Admits, ht, hop, if_neg h10, if_true, if_neg hop']
    rw [mem_foldl_and (P := fun p => ∀ pat ∈ patterns q, wild p.1 pat → p.2 ≠ id) fun s p =>
      mem_foldl_and (P := fun pat => wild p.1 pat → p.2 ≠ id) (fun s pat => by
        split_ifs with hw <;> grind) _ s]
    simp only [mem_names, Prod.forall]
    refine and_congr_right fun _ => ⟨fun h name hname pat hpat hw => ?_, fun h name id' => ?_⟩
    · exact h name id hname pat hpat hw rfl
    · rintro hname pat hpat hw rfl
      exact h name hname pat hpat hw
  · -- all
    simp [select, Admits, ht]

theorem mem_selectLoop {queries : List (DatasourceQuery Value)} (hq : ∀ q ∈ queries, Known q) :
    id ∈ selectLoop wild o nameMap queries cur ↔
      id ∈ cur ∧ ∀ q ∈ queries, Admits wild nameMap q id := by
  induction queries generalizing cur with
  | nil => simp [selectLoop]
  | cons q queries ih =>
    rw [forall_mem_cons] at hq
    have hstep : id ∈ select wild o nameMap q cur ↔ _ := mem_select hq.1
    rw [selectLoop, forall_mem_cons, ← and_assoc, ← hstep]
    split_ifs with hempty
    · simp [hempty]
    · exact ih hq.2

end Filter

section Selected

variable {T : Type*} (wild : String → String → Bool) (o o' : MapOrder String)
  (nameMap : GoMap String ℤ) (oi oi' : MapOrder ℤ) (idMap : GoMap ℤ T)

/-- **The datasources of a rule are those that every query admits**, each once, whatever the order
of the queries. -/
theorem datasources_selected {queries : List (DatasourceQuery Value)} (hne : queries ≠ [])
    (hq : ∀ q ∈ queries, Known q) :
    (getDatasourceIDsByDatasourceQueries wild o nameMap oi queries idMap).Nodup ∧
    (∀ id, id ∈ getDatasourceIDsByDatasourceQueries wild o nameMap oi queries idMap ↔
      id ∈ idMap ∧ ∀ q ∈ queries, Admits wild nameMap q id) ∧ ∀ queries', queries'.Perm queries →
      (getDatasourceIDsByDatasourceQueries wild o' nameMap oi' queries' idMap).Perm
        (getDatasourceIDsByDatasourceQueries wild o nameMap oi queries idMap) := by
  have hmem : ∀ (o : MapOrder String) (oi : MapOrder ℤ) {l : List (DatasourceQuery Value)},
      l.Perm queries → ∀ id, id ∈ getDatasourceIDsByDatasourceQueries wild o nameMap oi l idMap ↔
        id ∈ idMap ∧ ∀ q ∈ queries, Admits wild nameMap q id := by
    intro o oi l hl id
    rw [getDatasourceIDsByDatasourceQueries, if_neg fun hnil => hne (hnil ▸ hl).symm.eq_nil,
      MapOrder.mem_list, mem_selectLoop fun q hmem => hq q (hl.mem_iff.mp hmem), Finmap.mem_keys]
    simp only [hl.mem_iff]
  have hnodup : ∀ (o : MapOrder String) (oi : MapOrder ℤ) l,
      (getDatasourceIDsByDatasourceQueries wild o nameMap oi l idMap).Nodup := by
    intro o oi l
    rw [getDatasourceIDsByDatasourceQueries]
    split_ifs
    · exact nodup_nil
    · exact oi.nodup _
  refine ⟨hnodup o oi queries, hmem o oi (Perm.refl queries), fun l hl => ?_⟩
  rw [perm_ext_iff_of_nodup (hnodup o' oi' l) (hnodup o oi queries)]
  intro id
  rw [hmem o' oi' hl, hmem o oi (Perm.refl queries)]

end Selected

namespace Example

/-- A pattern is `*` or a name. -/
def wild (name pattern : String) : Bool := pattern = "*" || pattern = name

/-- Names and ids in their order. -/
def byName : MapOrder String := MapOrder.sortBy (· ≤ ·)

def byId : MapOrder ℤ := MapOrder.sortBy (· ≤ ·)

/-- Two datasources. -/
def idMap : GoMap ℤ Unit := (Finmap.singleton 1 ()).insert 2 ()

def nameMap : GoMap String ℤ := (Finmap.singleton "prom" 1).insert "vm" 2

/-- Every name, but not the id 1. -/
def allButFirst : List (DatasourceQuery Value) :=
  [⟨1, "in", [.text "*"]⟩, ⟨0, "not in", [.float 1]⟩]

/-- What is left is the other one. -/
theorem second_selected :
    2 ∈ getDatasourceIDsByDatasourceQueries wild byName nameMap byId allButFirst idMap := by
  have hne : allButFirst ≠ [] := cons_ne_nil _ _
  have hknown : ∀ q ∈ allButFirst, Known q := by simp [allButFirst, Known]
  refine ((datasources_selected wild byName byName nameMap byId byId idMap hne hknown).2.1 2).mpr
    ⟨by decide, ?_⟩
  simp only [allButFirst, forall_mem_cons, Admits]
  exact ⟨⟨"vm", by decide, "*", by decide, rfl⟩, by simp [idValues, Value.id?], by simp⟩

/-- `in [0]` and `not in [0]` both select every datasource. -/
theorem notIn_zero_selects_all :
    getDatasourceIDsByDatasourceQueries wild byName nameMap byId [⟨0, "in", [.int 0]⟩] idMap
      = [1, 2] ∧
    getDatasourceIDsByDatasourceQueries wild byName nameMap byId [⟨0, "not in", [.int 0]⟩] idMap
      = [1, 2] := by
  decide +kernel

end Example

end Nightingale.Datasources
