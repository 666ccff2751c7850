import Nightingale.Lib.History
import Nightingale.Lib.MapOrder
import Nightingale.Lib.Run

/-!
# Eval/Scheduler — the workers of the alert rules

`Scheduler.syncAlertRules` compares the workers the rule cache and the hash ring ask for with the
ones it has started, both under a hash of rule id, schedule, rule text and datasource:

    wanted ∖ started ──▸ Prepare (loads the fires), Start       first loop
    started ∖ wanted ──▸ Stop (waits for the evaluation)        second loop

An edited rule is wanted under a new hash and started under the old one, so its new worker loads and
starts in the first loop while the old one runs on until the second.  `workers_in_turn_iff` says
that this is the only way two workers of one rule and datasource can meet.
-/

namespace Nightingale.Eval

open List Option Finmap MapOrder GoMap

/-- `models.AlertRule`, with the fields the scheduler reads. -/
structure Rule where
  id : ℤ
  prod : String := "metric"
  cate : String := "prometheus"
  cronPattern : String := ""
  promEvalInterval : ℤ := 0
  ruleConfig : String := ""
  deriving DecidableEq

namespace Rule

/-- `AlertRule.IsPrometheusRule`. -/
def isPrometheusRule (r : Rule) : Bool := r.prod == "metric" && r.cate == "prometheus"

/-- `AlertRule.IsInnerRule`. -/
def isInnerRule (r : Rule) : Bool :=
  r.cate == "tdengine" || r.cate == "ck" || r.cate == "elasticsearch" ||
    r.prod == "loki" || r.cate == "loki" || r.cate == "mysql" || r.cate == "pgsql" ||
    r.cate == "doris" || r.cate == "opensearch" || r.cate == "victorialogs"

/-- `AlertRule.IsHostRule`. -/
def isHostRule (r : Rule) : Bool := r.prod == "host"

/-- `AlertRule.GetRuleType`. -/
def getRuleType (r : Rule) : String :=
  if r.prod = "metric" ∨ r.prod = "logging" then r.cate else r.prod

end Rule

/-- `models.Datasource`, with the fields the scheduler reads. -/
structure Datasource where
  pluginType : String
  status : String := "enabled"

/-- An `AlertRuleWorker`, or the `Processor` of an external rule: its rule and its datasource. -/
structure Worker where
  rule : Rule
  datasourceId : ℤ
  deriving DecidableEq

namespace Worker

/-- What a worker evaluates: rule id and datasource id. -/
def subject (w : Worker) : ℤ × ℤ := (w.rule.id, w.datasourceId)

/-- `AlertRuleWorker.Hash` and `Processor.Hash`, for whatever digest `str.MD5` is. -/
def hash (md5 : String → String) (w : Worker) : String :=
  md5 (toString w.rule.id ++ "_" ++ w.rule.cronPattern ++ "_" ++ w.rule.ruleConfig ++ "_" ++
    toString w.datasourceId)

/-- `Processor.Key`, the `common.RuleKey` of datasource and rule. -/
def key (w : Worker) : String :=
  "alert-" ++ toString w.datasourceId ++ "-" ++ toString w.rule.id

end Worker

/-- `NewAlertRuleWorker`, which fills in the schedule of a rule without one. -/
def newAlertRuleWorker (rule : Rule) (datasourceId : ℤ) : Worker :=
  let interval := if rule.promEvalInterval ≤ 0 then 10 else rule.promEvalInterval
  { rule := if rule.cronPattern = ""
      then { rule with cronPattern := "@every " ++ toString interval ++ "s" } else rule
    datasourceId := datasourceId }

@[simp] theorem subject_newAlertRuleWorker (rule : Rule) (dsId : ℤ) :
    (newAlertRuleWorker rule dsId).subject = (rule.id, dsId) := by
  unfold newAlertRuleWorker Worker.subject
  split_ifs <;> rfl

/-- What one call of `syncAlertRules` reads: the rules of the cache under their ids, the datasources
a rule selects, the datasource cache, `IsHit` on this engine's endpoint, and the orders its loops
over maps happen to take. -/
structure Seen where
  ruleIds : List ℤ
  get : ℤ → Option Rule
  get_id : ∀ id r, get id = some r → r.id = id
  datasourceIds : Rule → List ℤ
  getById : ℤ → Option Datasource
  isHit : String → String → Bool
  starting : MapOrder String
  stopping : MapOrder String
  updating : MapOrder String

namespace Seen

variable (md5 : String → String) (engineName : String) (seen : Seen)

/-- The datasource is in the cache, enabled, and of the kind asked for. -/
def usable (kind : Option String) (dsId : ℤ) : Bool :=
  (seen.getById dsId).any fun ds =>
    kind.all (ds.pluginType == ·) && ds.status == "enabled"

/-- The workers one rule asks for on this engine. -/
def workersOf (rule : Rule) : List Worker :=
  if rule.isPrometheusRule || rule.isInnerRule then
    ((seen.datasourceIds rule).filter fun dsId =>
      seen.isHit (toString dsId) (toString rule.id) &&
        seen.usable (some rule.getRuleType) dsId).map (newAlertRuleWorker rule)
  else if rule.isHostRule then
    if seen.isHit engineName (toString rule.id) then [newAlertRuleWorker rule 0] else []
  else []

/-- The processors one external rule asks for. -/
def processorsOf (rule : Rule) : List Worker :=
  if rule.isPrometheusRule || rule.isInnerRule || rule.isHostRule then []
  else ((seen.datasourceIds rule).filter (seen.usable none)).map (Worker.mk rule)

/-- The rules that are still in the cache when they are asked for. -/
def rules : List Rule := seen.ruleIds.filterMap seen.get

/-- The map `alertRuleWorkers` of the call. -/
def alertRuleWorkers : GoMap String Worker :=
  (seen.rules.flatMap (seen.workersOf engineName)).foldl (fun m w => m.insert (w.hash md5) w) ∅

/-- The map `externalRuleWorkers` of the call. -/
def externalRuleWorkers : GoMap String Worker :=
  (seen.rules.flatMap seen.processorsOf).foldl (fun m p => m.insert p.key p) ∅

end Seen

/-- What the scheduler does to a worker, in the order it does it: `Prepare` loads its fires from the
database, `Start` lets it evaluate, `Stop` returns when it can evaluate no more.  The processor of
an external rule is only loaded. -/
inductive Effect
  | load (w : Worker)
  | start (w : Worker)
  | stop (w : Worker)
  | loadExternal (p : Worker)
  deriving DecidableEq

/-- `Scheduler`: the started workers under their hashes, the external processors under their keys,
and what has been done so far. -/
structure Scheduler where
  alertRules : GoMap String Worker := ∅
  processors : GoMap String Worker := ∅
  trace : List Effect := []

open Scheduler

namespace Scheduler

/-- The body of the first loop. -/
def startWorker (workers : GoMap String Worker) (s : Scheduler) (hash : String) : Scheduler :=
  if hash ∈ s.alertRules then s
  else (workers.lookup hash).elim s fun w =>
    { s with alertRules := s.alertRules.insert hash w, trace := s.trace ++ [.load w, .start w] }

/-- The body of the second loop. -/
def stopWorker (workers : GoMap String Worker) (s : Scheduler) (hash : String) : Scheduler :=
  if hash ∈ workers then s
  else (s.alertRules.lookup hash).elim s fun w =>
    { s with alertRules := s.alertRules.erase hash, trace := s.trace ++ [.stop w] }

/-- The body of the loop over the external processors. -/
def updateProcessor (md5 : String → String) (processors : GoMap String Worker) (s : Scheduler)
    (key : String) : Scheduler :=
  (processors.lookup key).elim s fun p =>
    if (s.processors.lookup key).any fun cur => p.hash md5 == cur.hash md5 then s
    else { s with processors := s.processors.insert key p, trace := s.trace ++ [.loadExternal p] }

/-- `Scheduler.syncAlertRules`. -/
def syncAlertRules (md5 : String → String) (engineName : String) (s : Scheduler) (seen : Seen) :
    Scheduler :=
  let workers := seen.alertRuleWorkers md5 engineName
  let externals := seen.externalRuleWorkers
  let s := (seen.starting.list workers.keys).foldl (startWorker workers) s
  let s := (seen.stopping.list s.alertRules.keys).foldl (stopWorker workers) s
  let s := (seen.updating.list externals.keys).foldl (updateProcessor md5 externals) s
  { s with processors := seen.stopping.deleteWhere (fun key _ => key ∉ externals) s.processors }

end Scheduler

/-! ## What a history says

A worker is live from its `Start` to the end of its `Stop`. -/

/-- The workers that are live after one more effect. -/
def Effect.apply (live : List Worker) : Effect → List Worker
  | start w => live ++ [w]
  | stop w => live.erase w
  | load _ | loadExternal _ => live

/-- The live workers after a history. -/
def live (trace : List Effect) : List Worker := trace.foldl Effect.apply []

@[simp] theorem live_concat (trace : List Effect) (e : Effect) :
    live (trace ++ [e]) = e.apply (live trace) := by
  rw [live, foldl_append]
  rfl

/-- At most one live worker for a rule and a datasource. -/
def OneEach (ws : List Worker) : Prop := ws.Pairwise fun v w => v.subject ≠ w.subject

/-- No live worker has the subject of one whose fires are loaded. -/
def Effect.Alone (past : List Effect) : Effect → Prop
  | load w => ∀ v ∈ live past, v.subject ≠ w.subject
  | start _ | stop _ | loadExternal _ => True

/-- A worker takes its turn: it is loaded alone, and after every effect there is at most one live
worker for each rule and datasource. -/
def InTurn (past : List Effect) (e : Effect) : Prop := OneEach (live (past ++ [e])) ∧ e.Alone past

theorem oneEach_of_inTurn {trace : List Effect} (h : Historic InTurn trace) :
    OneEach (live trace) := by
  rcases eq_nil_or_concat trace with rfl | ⟨past, e, rfl⟩
  · exact Pairwise.nil
  · rw [concat_eq_append] at h ⊢
    exact (historic_concat.mp h).2.1

/-! ## The workers a call wants -/

section Wanted

variable {md5 : String → String} {engineName : String} {seen : Seen}

theorem Seen.subject_of_mem_workersOf {rule : Rule} {w : Worker}
    (h : w ∈ seen.workersOf engineName rule) :
    w = newAlertRuleWorker rule w.subject.2 ∧ w.subject.1 = rule.id := by
  have key : ∃ dsId, w = newAlertRuleWorker rule dsId := by
    unfold workersOf at h
    split_ifs at h
    · obtain ⟨dsId, -, rfl⟩ := mem_map.mp h
      exact ⟨dsId, rfl⟩
    · exact ⟨0, mem_singleton.mp h⟩
    · simp at h
    · simp at h
  obtain ⟨dsId, rfl⟩ := key
  simp

/-- A wanted worker stands under its hash and is one of a cached rule's. -/
theorem Seen.of_lookup_alertRuleWorkers {h : String} {w : Worker}
    (hw : (seen.alertRuleWorkers md5 engineName).lookup h = some w) :
    w.hash md5 = h ∧ ∃ rule, seen.get w.subject.1 = some rule ∧
      w = newAlertRuleWorker rule w.subject.2 := by
  rcases exists_of_lookup_foldl_insert _ _ hw with h | ⟨w, hmem, hh, rfl⟩
  · simp at h
  · obtain ⟨rule, hrule, hmem⟩ := mem_flatMap.mp hmem
    obtain ⟨id, -, hget⟩ := mem_filterMap.mp hrule
    obtain ⟨heq, hid⟩ := subject_of_mem_workersOf hmem
    refine ⟨hh, rule, ?_, heq⟩
    rw [hid, seen.get_id id rule hget, hget]

/-- **A call wants one worker** for a rule and a datasource. -/
theorem Seen.hash_eq_of_subject_eq {h h' : String} {w w' : Worker}
    (hw : (seen.alertRuleWorkers md5 engineName).lookup h = some w)
    (hw' : (seen.alertRuleWorkers md5 engineName).lookup h' = some w')
    (heq : w.subject = w'.subject) : h = h' := by
  obtain ⟨hh, rule, hget, hnew⟩ := of_lookup_alertRuleWorkers hw
  obtain ⟨hh', rule', hget', hnew'⟩ := of_lookup_alertRuleWorkers hw'
  rw [heq, hget'] at hget
  cases hget
  rw [← hh, ← hh', hnew, hnew', heq]

end Wanted

/-! ## The table and the history -/

/-- The table of started workers is right about the history: the live workers are the ones it
holds, each under its own hash, and each live once. -/
structure Scheduler.Reflects (md5 : String → String) (s : Scheduler) : Prop where
  mem_live : ∀ w, w ∈ live s.trace ↔ s.alertRules.lookup (w.hash md5) = some w
  hash_eq : ∀ h w, s.alertRules.lookup h = some w → w.hash md5 = h
  nodup : (live s.trace).Nodup

namespace Scheduler

section Loops

variable {md5 : String → String} {workers : GoMap String Worker} {s : Scheduler}

theorem reflects_empty : Reflects md5 {} :=
  ⟨fun w => by simp [live], fun h w hw => by simp at hw, nodup_nil⟩

/-- **A started worker** is one of those wanted, under a hash the table did not have. -/
theorem startWorker_cases (workers : GoMap String Worker) (s : Scheduler) (hash : String) :
    startWorker workers s hash = s ∧ (hash ∈ s.alertRules ∨ hash ∉ workers) ∨
      ∃ w, hash ∉ s.alertRules ∧ workers.lookup hash = some w ∧ startWorker workers s hash =
        { s with
          alertRules := s.alertRules.insert hash w
          trace := s.trace ++ [.load w, .start w] } := by
  unfold startWorker
  split_ifs with hs
  · exact .inl ⟨rfl, .inl hs⟩
  · cases hw : workers.lookup hash with
    | none => exact .inl ⟨rfl, .inr (lookup_eq_none.mp hw)⟩
    | some w => exact .inr ⟨w, hs, rfl, rfl⟩

/-- **A stopped worker** is one of the table's, under a hash that is not wanted. -/
theorem stopWorker_cases (workers : GoMap String Worker) (s : Scheduler) (hash : String) :
    stopWorker workers s hash = s ∧ (hash ∈ workers ∨ hash ∉ s.alertRules) ∨
      ∃ w, hash ∉ workers ∧ s.alertRules.lookup hash = some w ∧ stopWorker workers s hash =
        { s with alertRules := s.alertRules.erase hash, trace := s.trace ++ [.stop w] } := by
  unfold stopWorker
  split_ifs with hs
  · exact .inl ⟨rfl, .inl hs⟩
  · cases hw : s.alertRules.lookup hash with
    | none => exact .inl ⟨rfl, .inr (lookup_eq_none.mp hw)⟩
    | some w => exact .inr ⟨w, hs, rfl, rfl⟩

/-- An external processor is loaded or not; the workers see nothing of it. -/
theorem updateProcessor_cases (md5 : String → String) (processors : GoMap String Worker)
    (s : Scheduler) (key : String) :
    (updateProcessor md5 processors s key).alertRules = s.alertRules ∧
      ((updateProcessor md5 processors s key).trace = s.trace ∨
        ∃ p, (updateProcessor md5 processors s key).trace = s.trace ++ [.loadExternal p]) := by
  unfold updateProcessor
  cases processors.lookup key with
  | none => exact ⟨rfl, .inl rfl⟩
  | some p =>
    simp only [elim_some]
    split_ifs
    · exact ⟨rfl, .inl rfl⟩
    · exact ⟨rfl, .inr ⟨p, rfl⟩⟩

theorem live_started (trace : List Effect) (w : Worker) :
    live (trace ++ [.load w, .start w]) = live trace ++ [w] := by
  rw [append_cons, live_concat, live_concat]
  rfl

section

variable {trace : List Effect} {w : Worker} (h : Historic InTurn trace)

include h

/-- **A worker may start** in a history of turns when no live worker has its subject. -/
theorem inTurn_started :
    Historic InTurn (trace ++ [.load w, .start w]) ↔ ∀ v ∈ live trace, v.subject ≠ w.subject := by
  rw [append_cons, historic_concat, historic_concat]
  have hone := oneEach_of_inTurn h
  constructor
  · rintro ⟨⟨-, -, halone⟩, -⟩
    exact halone
  · intro hne
    refine ⟨⟨h, ?_, hne⟩, ?_, trivial⟩
    · rw [live_concat]
      exact hone
    · rw [live_concat, live_concat]
      exact pairwise_append.mpr ⟨hone, pairwise_singleton _ _,
        fun v hv w' hw' => mem_singleton.mp hw' ▸ hne v hv⟩

theorem inTurn_stopped : Historic InTurn (trace ++ [.stop w]) := by
  refine historic_concat.mpr ⟨h, ?_, trivial⟩
  rw [live_concat]
  exact (oneEach_of_inTurn h).sublist erase_sublist

end

/-! ### The first loop -/

theorem Reflects.startWorker (hr : s.Reflects md5)
    (hown : ∀ h w, workers.lookup h = some w → w.hash md5 = h) (hash : String) :
    (startWorker workers s hash).Reflects md5 := by
  rcases startWorker_cases workers s hash with ⟨heq, -⟩ | ⟨w, hs, hw, heq⟩
  · rw [heq]
    exact hr
  · rw [heq]
    have hnone : s.alertRules.lookup hash = none := lookup_eq_none.mpr hs
    have hw := hown hash w hw
    have hnew : w ∉ live s.trace := fun h => by
      have := (hr.mem_live w).mp h
      rw [hw, hnone] at this
      cases this
    refine ⟨fun v => ?_, forall_lookup_insert hw hr.hash_eq, ?_⟩
    · rw [live_started, List.mem_append, List.mem_singleton, hr.mem_live v]
      by_cases hv : v.hash md5 = hash
      · rw [hv, hnone, lookup_insert]
        simp only [reduceCtorEq, false_or, some.injEq, eq_comm]
      · rw [lookup_insert_of_ne _ hv]
        exact or_iff_left fun h => hv (h ▸ hw)
    · rw [live_started]
      exact nodup_append.mpr ⟨hr.nodup, nodup_singleton w,
        fun v hv w' hw' h => hnew (mem_singleton.mp hw' ▸ h ▸ hv)⟩

theorem mem_startWorker {hash h : String} (hmem : hash ∈ workers) :
    h ∈ (startWorker workers s hash).alertRules ↔ h = hash ∨ h ∈ s.alertRules := by
  rcases startWorker_cases workers s hash with ⟨heq, hs⟩ | ⟨w, -, -, heq⟩
  · rw [heq]
    have hs := hs.resolve_right fun hn => hn hmem
    exact ⟨.inr, fun h => h.elim (· ▸ hs) id⟩
  · rw [heq]
    exact mem_insert

theorem live_subset_startWorker (hash : String) :
    live s.trace ⊆ live (startWorker workers s hash).trace := by
  rcases startWorker_cases workers s hash with ⟨heq, -⟩ | ⟨w, -, -, heq⟩
  · rw [heq]
    exact fun v hv => hv
  · rw [heq, live_started]
    exact subset_append_left _ _

theorem trace_prefix_foldl {f : Scheduler → String → Scheduler}
    (hf : ∀ s a, s.trace <+: (f s a).trace) (l : List String) (s : Scheduler) :
    s.trace <+: (l.foldl f s).trace :=
  foldlRecOn (motive := fun s' => s.trace <+: s'.trace) l f (prefix_refl _)
    fun s' ih a _ => ih.trans (hf s' a)

theorem trace_prefix_startWorker (s : Scheduler) (hash : String) :
    s.trace <+: (startWorker workers s hash).trace := by
  rcases startWorker_cases workers s hash with ⟨heq, -⟩ | ⟨w, -, -, heq⟩
  · rw [heq]
  · rw [heq]
    exact prefix_append _ _

theorem mem_startWorkers :
    ∀ (hashes : List String) (s : Scheduler), (∀ h ∈ hashes, h ∈ workers) → ∀ h,
      h ∈ (hashes.foldl (startWorker workers) s).alertRules ↔ h ∈ hashes ∨ h ∈ s.alertRules
  | [], s, _, h => by simp
  | hash :: hashes, s, hall, h => by
    rw [foldl_cons, mem_startWorkers hashes _ fun h hh => hall h (mem_cons_of_mem _ hh),
      mem_startWorker (hall hash mem_cons_self), mem_cons]
    tauto

/-- **The first loop in turn**: it keeps a history of turns exactly when none of the workers it
starts has the subject of a live one. -/
theorem inTurn_startWorkers (workers : GoMap String Worker)
    (hsub : ∀ h h' w w', workers.lookup h = some w → workers.lookup h' = some w' →
      w.subject = w'.subject → h = h') :
    ∀ (hashes : List String) (s : Scheduler), hashes.Nodup → (∀ h ∈ hashes, h ∈ workers) →
      Historic InTurn s.trace → (Historic InTurn (hashes.foldl (startWorker workers) s).trace ↔
        ∀ h ∈ hashes, h ∉ s.alertRules → ∀ w, workers.lookup h = some w →
          ∀ v ∈ live s.trace, v.subject ≠ w.subject)
  | [], s, _, _, ht => by simpa using ht
  | hash :: hashes, s, hnd, hall, ht => by
    obtain ⟨hnotin, hnd⟩ := nodup_cons.mp hnd
    have hrest : ∀ h ∈ hashes, h ∈ workers := fun h hh => hall h (mem_cons_of_mem _ hh)
    have hhash := hall hash mem_cons_self
    have ih := inTurn_startWorkers workers hsub hashes (startWorker workers s hash) hnd
      hrest
    rw [foldl_cons, forall_mem_cons]
    rcases startWorker_cases workers s hash with
      ⟨heq, hs⟩ | ⟨w, hs, hw, heq⟩
    · rw [heq] at ih ⊢
      have hs := hs.resolve_right fun hn => hn hhash
      rw [ih ht]
      exact ⟨fun h => ⟨fun hn => absurd hs hn, h⟩, fun h => h.2⟩
    · have hlive : live (startWorker workers s hash).trace = live s.trace ++ [w] := by
        rw [heq, live_started]
      have hstart : Historic InTurn (startWorker workers s hash).trace ↔
          ∀ v ∈ live s.trace, v.subject ≠ w.subject := by
        rw [heq, inTurn_started ht]
      constructor
      · intro hfin
        have hmid := hfin.of_prefix (trace_prefix_foldl trace_prefix_startWorker hashes _)
        refine ⟨fun _ w' hw' => ?_, fun h hh hhs w' hw' v hv => ?_⟩
        · obtain rfl := some.inj (hw.symm.trans hw')
          exact hstart.mp hmid
        · refine (ih hmid).mp hfin h hh (fun hin => ?_) w' hw' v (live_subset_startWorker hash hv)
          rcases (mem_startWorker hhash).mp hin with rfl | hin
          · exact hnotin hh
          · exact hhs hin
      · rintro ⟨hhead, htail⟩
        have hmid := hstart.mpr (hhead hs w hw)
        refine (ih hmid).mpr fun h hh hhs w' hw' v hv => ?_
        rw [hlive, List.mem_append, List.mem_singleton] at hv
        rcases hv with hv | rfl
        · exact htail h hh (fun hin => hhs ((mem_startWorker hhash).mpr (.inr hin))) w' hw' v hv
        · intro hsame
          obtain rfl := hsub _ _ _ _ hw hw' hsame
          exact hnotin hh

/-! ### The second loop -/

theorem Reflects.stopWorker (hr : s.Reflects md5) (hash : String) :
    (stopWorker workers s hash).Reflects md5 := by
  rcases stopWorker_cases workers s hash with ⟨heq, -⟩ | ⟨w, -, hw, heq⟩
  · rw [heq]
    exact hr
  · rw [heq]
    have hhash : w.hash md5 = hash := hr.hash_eq hash w hw
    refine ⟨fun v => ?_, fun h v hv => ?_, ?_⟩
    · rw [live_concat, Effect.apply, hr.nodup.mem_erase_iff, hr.mem_live v]
      by_cases hv : v.hash md5 = hash
      · rw [hv, hw, lookup_erase]
        simp only [some.injEq, reduceCtorEq, iff_false, not_and]
        exact fun hne heq => hne heq.symm
      · rw [lookup_erase_ne hv]
        exact and_iff_right fun h => hv (h ▸ hhash)
    · exact hr.hash_eq h v (lookup_erase_eq_some.mp hv).2
    · rw [live_concat]
      exact hr.nodup.erase w

theorem mem_stopWorker {hash h : String} : h ∈ (stopWorker workers s hash).alertRules ↔
      h ∈ s.alertRules ∧ (h = hash → h ∈ workers) := by
  rcases stopWorker_cases workers s hash with ⟨heq, hs⟩ | ⟨w, hnot, -, heq⟩
  · rw [heq]
    refine ⟨fun h => ⟨h, ?_⟩, And.left⟩
    rintro rfl
    exact hs.resolve_right fun hn => hn h
  · rw [heq, mem_erase]
    refine ⟨fun h => ⟨h.2, fun heq => absurd heq h.1⟩, fun h => ⟨?_, h.1⟩⟩
    rintro rfl
    exact hnot (h.2 rfl)

theorem inTurn_stopWorker (hash : String) (h : Historic InTurn s.trace) :
    Historic InTurn (stopWorker workers s hash).trace := by
  rcases stopWorker_cases workers s hash with ⟨heq, -⟩ | ⟨w, -, -, heq⟩
  · rw [heq]
    exact h
  · rw [heq]
    exact inTurn_stopped h

theorem trace_prefix_stopWorker (s : Scheduler) (hash : String) :
    s.trace <+: (stopWorker workers s hash).trace := by
  rcases stopWorker_cases workers s hash with ⟨heq, -⟩ | ⟨w, -, -, heq⟩
  · rw [heq]
  · rw [heq]
    exact prefix_append _ _

theorem mem_stopWorkers : ∀ (hashes : List String) (s : Scheduler) (h : String),
      h ∈ (hashes.foldl (stopWorker workers) s).alertRules ↔
        h ∈ s.alertRules ∧ (h ∈ hashes → h ∈ workers)
  | [], s, h => by simp
  | hash :: hashes, s, h => by
    rw [foldl_cons, mem_stopWorkers hashes, mem_stopWorker, mem_cons]
    tauto

/-! ### The external processors -/

theorem Reflects.updateProcessor (hr : s.Reflects md5) (processors : GoMap String Worker)
    (key : String) : (updateProcessor md5 processors s key).Reflects md5 := by
  obtain ⟨htable, htrace⟩ := updateProcessor_cases md5 processors s key
  have hlive : live (Scheduler.updateProcessor md5 processors s key).trace = live s.trace := by
    rcases htrace with h | ⟨p, h⟩
    · rw [h]
    · rw [h, live_concat]
      rfl
  refine ⟨fun w => ?_, fun h w hw => ?_, ?_⟩
  · rw [hlive, htable]
    exact hr.mem_live w
  · rw [htable] at hw
    exact hr.hash_eq h w hw
  · rw [hlive]
    exact hr.nodup

theorem inTurn_updateProcessor (processors : GoMap String Worker) (key : String)
    (h : Historic InTurn s.trace) :
    Historic InTurn (updateProcessor md5 processors s key).trace := by
  rcases (updateProcessor_cases md5 processors s key).2 with heq | ⟨p, heq⟩
  · rw [heq]
    exact h
  · rw [heq]
    refine historic_concat.mpr ⟨h, ?_, trivial⟩
    rw [live_concat]
    exact oneEach_of_inTurn h

theorem trace_prefix_updateProcessor (processors : GoMap String Worker) (s : Scheduler)
    (key : String) : s.trace <+: (updateProcessor md5 processors s key).trace := by
  rcases (updateProcessor_cases md5 processors s key).2 with heq | ⟨p, heq⟩
  · rw [heq]
  · rw [heq]
    exact prefix_append _ _

theorem alertRules_updateProcessors (processors : GoMap String Worker) (keys : List String)
    (s : Scheduler) : (keys.foldl (updateProcessor md5 processors) s).alertRules = s.alertRules :=
  foldlRecOn (motive := fun s' : Scheduler => s'.alertRules = s.alertRules) keys _ rfl
    fun _ ih key _ => (updateProcessor_cases md5 processors _ key).1.trans ih

end Loops

/-! ## One call, and a run of calls -/

section Calls

variable {md5 : String → String} {engineName : String} {s : Scheduler} {seen : Seen}

/-- The call starts no worker for a rule and a datasource that have one: no rule was given another
schedule or another text since. -/
def Unedited (md5 : String → String) (engineName : String) (s : Scheduler) (seen : Seen) : Prop :=
  ∀ hash w, (seen.alertRuleWorkers md5 engineName).lookup hash = some w → hash ∉ s.alertRules →
    ∀ hash' v, s.alertRules.lookup hash' = some v → v.subject ≠ w.subject

/-- What a call should come to: in every state up to its end the workers took turns, and the live
ones are then those with a wanted hash. -/
def InOrder (md5 : String → String) (engineName : String) (s : Scheduler) (seen : Seen) : Prop :=
  let s' := s.syncAlertRules md5 engineName seen
  Historic InTurn s'.trace ∧ ∀ hash, (∃ w ∈ live s'.trace, w.hash md5 = hash) ↔
    hash ∈ seen.alertRuleWorkers md5 engineName

/-- **Every loop of a call** keeps what each of its bodies keeps. -/
theorem syncAlertRules_induction {I : Scheduler → Prop}
    (hstart : ∀ s hash, I s → I (s.startWorker (seen.alertRuleWorkers md5 engineName) hash))
    (hstop : ∀ s hash, I s → I (s.stopWorker (seen.alertRuleWorkers md5 engineName) hash))
    (hupdate : ∀ s key, I s → I (s.updateProcessor md5 seen.externalRuleWorkers key))
    (hprocessors : ∀ s m, I s → I { s with processors := m }) (hs : I s) :
    I (s.syncAlertRules md5 engineName seen) :=
  hprocessors _ _ (foldlRecOn _ _ (foldlRecOn _ _ (foldlRecOn _ _ hs
    fun s h hash _ => hstart s hash h) fun s h hash _ => hstop s hash h)
    fun s h key _ => hupdate s key h)

theorem Reflects.syncAlertRules (hr : s.Reflects md5) :
    (s.syncAlertRules md5 engineName seen).Reflects md5 := syncAlertRules_induction
    (fun _ hash h => h.startWorker (fun _ _ hw => (Seen.of_lookup_alertRuleWorkers hw).1) hash)
    (fun _ hash h => h.stopWorker hash) (fun _ key h => h.updateProcessor _ key)
    (fun _ _ h => ⟨h.mem_live, h.hash_eq, h.nodup⟩) hr

/-- **After a call** the table has the wanted hashes. -/
theorem mem_syncAlertRules (hash : String) :
    hash ∈ (s.syncAlertRules md5 engineName seen).alertRules ↔
      hash ∈ seen.alertRuleWorkers md5 engineName := by
  simp only [syncAlertRules]
  rw [alertRules_updateProcessors, mem_stopWorkers, mem_list_keys,
    mem_startWorkers _ _ fun h hh => (seen.starting.mem_list_keys _ h).mp hh, mem_list_keys]
  tauto

theorem trace_prefix_syncAlertRules (s : Scheduler) :
    ((seen.starting.list (seen.alertRuleWorkers md5 engineName).keys).foldl
      (startWorker (seen.alertRuleWorkers md5 engineName)) s).trace <+:
        (s.syncAlertRules md5 engineName seen).trace := by
  unfold syncAlertRules
  exact (trace_prefix_foldl trace_prefix_stopWorker _ _).trans
    (trace_prefix_foldl (trace_prefix_updateProcessor _) _ _)

/-- **A call keeps the turns** exactly when it meets no edited rule. -/
theorem inTurn_syncAlertRules_iff (hr : s.Reflects md5) (ht : Historic InTurn s.trace) :
    Historic InTurn (s.syncAlertRules md5 engineName seen).trace ↔
      s.Unedited md5 engineName seen := by
  have hfirst := inTurn_startWorkers (seen.alertRuleWorkers md5 engineName)
    (fun _ _ _ _ hw hw' => Seen.hash_eq_of_subject_eq hw hw') _ s (seen.starting.nodup _)
    (fun h hh => (seen.starting.mem_list_keys _ h).mp hh) ht
  have hunedited : s.Unedited md5 engineName seen ↔
      ∀ h ∈ seen.starting.list (seen.alertRuleWorkers md5 engineName).keys, h ∉ s.alertRules →
        ∀ w, (seen.alertRuleWorkers md5 engineName).lookup h = some w →
          ∀ v ∈ live s.trace, v.subject ≠ w.subject := by
    constructor
    · intro hu h _ hs w hw v hv
      exact hu h w hw hs _ v ((hr.mem_live v).mp hv)
    · intro hu h w hw hs h' v hv
      have hmem : h ∈ seen.alertRuleWorkers md5 engineName := mem_iff.mpr ⟨w, hw⟩
      refine hu h ((seen.starting.mem_list_keys _ h).mpr hmem) hs w hw v ((hr.mem_live v).mpr ?_)
      rw [hr.hash_eq h' v hv]
      exact hv
  rw [hunedited, ← hfirst]
  constructor
  · intro hfin
    exact hfin.of_prefix (trace_prefix_syncAlertRules s)
  · intro hmid
    unfold syncAlertRules
    refine foldlRecOn (motive := fun s' : Scheduler => Historic InTurn s'.trace) _ _
      (foldlRecOn (motive := fun s' : Scheduler => Historic InTurn s'.trace) _ _ hmid ?_) ?_
    · exact fun s' h hash _ => inTurn_stopWorker hash h
    · exact fun s' h key _ => inTurn_updateProcessor _ key h

theorem inOrder_iff (hr : s.Reflects md5) (ht : Historic InTurn s.trace) :
    s.InOrder md5 engineName seen ↔ s.Unedited md5 engineName seen := by
  rw [← inTurn_syncAlertRules_iff hr ht]
  refine and_iff_left fun hash => ?_
  have hr' : (s.syncAlertRules md5 engineName seen).Reflects md5 := hr.syncAlertRules
  rw [← mem_syncAlertRules (s := s), mem_iff]
  constructor
  · rintro ⟨w, hw, rfl⟩
    exact ⟨w, (hr'.mem_live w).mp hw⟩
  · rintro ⟨w, hw⟩
    have hhash := hr'.hash_eq hash w hw
    exact ⟨w, (hr'.mem_live w).mpr (by rw [hhash]; exact hw), hhash⟩

/-- **Two workers of one rule and datasource meet only over an edit.**  For every digest, every
sequence of cache and ring contents and every order of the loops: the workers take turns in every
state of the run, and after each call the live ones are those with a wanted hash, exactly when no
call wants a worker under a new hash for a rule and a datasource that have one started. -/
theorem workers_in_turn_iff (md5 : String → String) (engineName : String) (seens : List Seen) :
    Along (syncAlertRules md5 engineName) (InOrder md5 engineName) {} seens ↔
      Along (syncAlertRules md5 engineName) (Unedited md5 engineName) {} seens := by
  have hempty : Reflects md5 {} ∧ Historic InTurn ({} : Scheduler).trace :=
    ⟨reflects_empty, historic_nil⟩
  constructor
  · intro h
    exact h.imp (I := fun s => s.Reflects md5 ∧ Historic InTurn s.trace)
      (fun s seen hin hs => ⟨hs.1.syncAlertRules, hin.1⟩)
      (fun s seen hin hs => (inOrder_iff hs.1 hs.2).mp hin) hempty
  · intro h
    exact h.imp (I := fun s => s.Reflects md5 ∧ Historic InTurn s.trace)
      (fun s seen hu hs => ⟨hs.1.syncAlertRules, (inTurn_syncAlertRules_iff hs.1 hs.2).mpr hu⟩)
      (fun s seen hu hs => (inOrder_iff hs.1 hs.2).mpr hu) hempty

/-- **A call leaves nothing behind**: whatever was seen before and whichever rules were edited, the
live workers are those of the table, each live once, and the table has the wanted hashes. -/
theorem reflects_run (md5 : String → String) (engineName : String) (seens : List Seen)
    (seen : Seen) : let s := (seens ++ [seen]).foldl (syncAlertRules md5 engineName) {}
    s.Reflects md5 ∧ ∀ hash, hash ∈ s.alertRules ↔
      hash ∈ seen.alertRuleWorkers md5 engineName := by
  refine ⟨foldlRecOn _ _ reflects_empty fun _ h _ _ => h.syncAlertRules, fun hash => ?_⟩
  rw [foldl_append]
  exact mem_syncAlertRules hash

end Calls

/-! ### An edited rule -/

namespace Example

/-- Rule 1 on datasource 5 with the rule text. -/
def seen (ruleConfig : String) : Seen where
  ruleIds := [1]
  get id := if id = 1 then some { id := 1, promEvalInterval := 15, ruleConfig } else none
  get_id id r h := by
    split_ifs at h with hid
    rw [← some.inj h, hid]
  datasourceIds _ := [5]
  getById _ := some { pluginType := "prometheus" }
  isHit _ _ := true
  starting := .sortBy (· ≤ ·)
  stopping := .sortBy (· ≤ ·)
  updating := .sortBy (· ≤ ·)

/-- The worker of the rule with the rule text. -/
def worker (ruleConfig : String) : Worker :=
  { rule := { id := 1, cronPattern := "@every 15s", promEvalInterval := 15, ruleConfig }
    datasourceId := 5 }

theorem alertRuleWorkers_seen (md5 : String → String) (engineName text : String) :
    (seen text).alertRuleWorkers md5 engineName =
      singleton ((worker text).hash md5) (worker text) := rfl

theorem syncAlertRules_seen (md5 : String → String) (engineName text : String) :
    ({} : Scheduler).syncAlertRules md5 engineName (seen text) =
      { alertRules := Finmap.singleton ((worker text).hash md5) (worker text)
        trace := [.load (worker text), .start (worker text)] } := by
  have hexternal : (seen text).externalRuleWorkers = ∅ := rfl
  have hstart : startWorker (Finmap.singleton ((worker text).hash md5) (worker text)) {}
      ((worker text).hash md5) = {
        alertRules := Finmap.singleton ((worker text).hash md5) (worker text)
        trace := [.load (worker text), .start (worker text)] } := by
    rw [startWorker, if_neg Finmap.notMem_empty, Finmap.lookup_singleton_eq]
    rfl
  simp only [syncAlertRules, alertRuleWorkers_seen, hexternal, Finmap.keys_singleton,
    MapOrder.list_singleton, foldl_cons, foldl_nil, hstart, stopWorker,
    Finmap.mem_singleton, if_true, Finmap.keys_empty, MapOrder.list_empty]
  rfl

end Example

open Example

/-- **An edited rule runs twice.**  With any digest that tells the two texts apart, the worker of
the new text is loaded and started while that of the old text is live. -/
theorem edited_rule_meets_itself (md5 : String → String) (engineName old new : String)
    (hne : (worker old).hash md5 ≠ (worker new).hash md5) :
    [.load (worker old), .start (worker old), .load (worker new), .start (worker new)] <+:
      ([seen old, seen new].foldl (syncAlertRules md5 engineName) {}).trace ∧
    ¬ Along (syncAlertRules md5 engineName) (InOrder md5 engineName) {}
      [seen old, seen new] := by
  have hnew : (worker new).hash md5 ∉ (singleton
      ((worker old).hash md5) (worker old) : GoMap String Worker) := by
    rw [Finmap.mem_singleton]
    exact fun h => hne h.symm
  constructor
  · refine IsPrefix.trans ?_ (trace_prefix_syncAlertRules _)
    rw [syncAlertRules_seen, alertRuleWorkers_seen, keys_singleton, list_singleton]
    simp [startWorker, hnew]
  · rintro ⟨hfirst, hsecond, -⟩
    have hr : (({} : Scheduler).syncAlertRules md5 engineName (seen old)).Reflects md5 :=
      reflects_empty.syncAlertRules
    have hu := (inOrder_iff hr hfirst.1).mp hsecond
    rw [syncAlertRules_seen] at hu
    exact hu _ (worker new) (lookup_singleton_eq) hnew _ (worker old)
      lookup_singleton_eq rfl

/-- A threshold edited between two calls. -/
theorem edited_threshold_runs_twice :
    ¬ Along (syncAlertRules id "default") (InOrder id "default") {}
      [seen "cpu_usage_idle < 10", seen "cpu_usage_idle < 20"] :=
  (edited_rule_meets_itself id "default" _ _ (by decide)).2

end Scheduler

end Nightingale.Eval
