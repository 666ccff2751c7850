import Nightingale.Lib.Heap
import Nightingale.Lib.MapOrder
import Nightingale.Lib.Run

/-!
# Pushgw/Writer — samples on the way to a backend

A producer looks its queue up under a lock, and then goes on without: it makes a queue if there was
none, stamps it with the time, compares the length of its list with the limit, and inserts.  The
cleaner closes a queue whose stamp is an hour old, under the lock the lookup took:

    producer   lookup │ make │ register │ start consumer │ stamp │ Len < max │ insert
    cleaner    lock, per queue:  stamp too old │ close, delete      unlock
    consumer   closed? │ PopBack

Between any two of these steps any other may come.  `samples_not_stranded` asks that a queue is
empty and in nobody's hands when it is closed, and that a list has room when the insertion comes.
-/

namespace Nightingale.Writer

open List Heap GoMap Keeps

/-- `pconf.WriterOpt`, with the two sizes that are read here. -/
structure Config where
  queueMaxSize : ℕ
  queuePopSize : ℕ

/-- Where a `StartConsumer` is: not yet begun, at its `select`, about to pop, returned. -/
inductive Stage
  | absent
  | select
  | pop
  | done
  deriving DecidableEq

/-- `IdentQueue`, with its consumer; samples are numbered by the call that brought them. -/
structure IdentQueue where
  list : List ℕ := []
  closed : Bool := false
  ts : ℤ
  consumer : Stage := .absent

/-- Where a `PushSample` is. -/
inductive Pc
  | idle
  | missed (id : String) (v : ℕ)
  | made (id : String) (v : ℕ) (ts : ℤ)
  | registered (v : ℕ) (r : Ref)
  | holding (v : ℕ) (r : Ref)
  | stamped (v : ℕ) (r : Ref)
  | checked (v : ℕ) (r : Ref)
  deriving DecidableEq

/-- The producer has the queue in hand. -/
def Pc.Holds (r : Ref) : Pc → Prop
  | idle | missed _ _ | made _ _ _ => False
  | registered _ r' | holding _ r' | stamped _ r' | checked _ r' => r' = r

/-- Where `CleanExpQueue` is; but for `resting` it has the lock. -/
inductive Cleaner
  | resting
  | scanning (todo : List String)
  | closing (id : String) (r : Ref) (todo : List String)
  deriving DecidableEq

/-- `WritersType` with all that moves in it: queues, table, producers, cleaner and clock; with the
samples whose `PushFront` succeeded, and those a consumer has popped. -/
structure World where
  heap : Heap IdentQueue := ⟨0, fun _ => { ts := 0 }⟩
  queues : GoMap String Ref := ∅
  producers : ℕ → Pc := fun _ => .idle
  cleaner : Cleaner := .resting
  now : ℤ := 0
  calls : ℕ := 0
  accepted : List ℕ := []
  popped : List ℕ := []

/-- What may come next: time passes, a producer begins a `PushSample` and looks its queue up, goes
on, a consumer goes on, the cleaner begins a pass and goes on. -/
inductive Move
  | tick (seconds : ℕ)
  | lookup (p : ℕ) (id : String)
  | produce (p : ℕ)
  | consume (r : Ref)
  | beginClean (order : MapOrder String)
  | clean

namespace World

variable (cfg : Config) (s : World)

/-- Producer `p` is at `pc` next. -/
def setPc (p : ℕ) (pc : Pc) : World := { s with producers := Function.update s.producers p pc }

/-- `PushSample` up to its lookup. -/
def lookup (p : ℕ) (id : String) : World :=
  if s.producers p = .idle ∧ s.cleaner = .resting then
    { s.setPc p ((s.queues.lookup id).elim (.missed id s.calls) (.holding s.calls)) with
      calls := s.calls + 1 }
  else s

/-- The rest of `PushSample`, one step. -/
def produce (p : ℕ) : World :=
  match s.producers p with
  | .idle => s
  | .missed id v => s.setPc p (.made id v s.now)
  | .made id v ts =>
    if s.cleaner = .resting then
      { s.setPc p (.registered v s.heap.next) with
        heap := s.heap.alloc { ts }
        queues := s.queues.insert id s.heap.next }
    else s
  | .registered v r =>
    { s.setPc p (.holding v r) with
      heap := s.heap.modify r fun q => { q with consumer := .select } }
  | .holding v r =>
    { s.setPc p (.stamped v r) with heap := s.heap.modify r fun q => { q with ts := s.now } }
  | .stamped v r =>
    s.setPc p (if (s.heap.get r).list.length ≥ cfg.queueMaxSize then .idle else .checked v r)
  | .checked v r =>
    { s.setPc p .idle with
      heap := s.heap.modify r fun q => { q with list := v :: q.list }
      accepted := s.accepted ++ [v] }

/-- `StartConsumer`, one step. -/
def consume (r : Ref) : World :=
  match (s.heap.get r).consumer with
  | .absent | .done => s
  | .select =>
    { s with
      heap := s.heap.modify r fun q => { q with consumer := if q.closed then .done else .pop } }
  | .pop =>
    let left := (s.heap.get r).list.length - cfg.queuePopSize
    { s with
      heap := s.heap.modify r fun q => { q with list := q.list.take left, consumer := .select }
      popped := s.popped ++ ((s.heap.get r).list.drop left).reverse }

/-- `CleanExpQueue`, one step of a pass. -/
def clean : World :=
  match s.cleaner with
  | .resting => s
  | .scanning [] => { s with cleaner := .resting }
  | .scanning (id :: todo) =>
    { s with cleaner := (s.queues.lookup id).elim (.scanning todo) fun r =>
        if s.now - (s.heap.get r).ts > 3600 then .closing id r todo else .scanning todo }
  | .closing id r todo =>
    { s with
      heap := s.heap.modify r fun q => { q with closed := true }
      queues := s.queues.erase id
      cleaner := .scanning todo }

/-- One step of the whole. -/
def step : Move → World
  | .tick seconds => { s with now := s.now + seconds }
  | .lookup p id => s.lookup p id
  | .produce p => s.produce cfg p
  | .consume r => s.consume cfg r
  | .beginClean order =>
    if s.cleaner = .resting then { s with cleaner := .scanning (order.list s.queues.keys) } else s
  | .clean => s.clean

/-! ## What is asked, and when it can be had -/

/-- Every sample that was accepted has been popped, or is in a list whose consumer has not been told
to stop; and no list is too long. -/
def Safe : Prop :=
  (∀ v ∈ s.accepted, v ∈ s.popped ∨
    ∃ r < s.heap.next, v ∈ (s.heap.get r).list ∧ (s.heap.get r).closed = false) ∧
  ∀ r < s.heap.next, (s.heap.get r).list.length ≤ cfg.queueMaxSize

instance : Decidable (s.Safe cfg) := inferInstanceAs (Decidable (_ ∧ _))

/-- The next step closes only a queue that is empty and in nobody's hands, and inserts only where
there is still room. -/
def Calm : Move → Prop
  | .clean => ∀ id r todo, s.cleaner = .closing id r todo →
    (s.heap.get r).list = [] ∧ ∀ p, ¬ (s.producers p).Holds r
  | .produce p => ∀ v r, s.producers p = .checked v r →
    (s.heap.get r).list.length < cfg.queueMaxSize
  | _ => True

/-! ## The invariant -/

/-- Beside the property itself: what is in a producer's hands or in the table is open, a queue
is in the table once, and the cleaner closes what it found there. -/
structure Sound : Prop where
  kept : ∀ v ∈ s.accepted, v ∈ s.popped ∨
    ∃ r < s.heap.next, v ∈ (s.heap.get r).list ∧ (s.heap.get r).closed = false
  short : ∀ r < s.heap.next, (s.heap.get r).list.length ≤ cfg.queueMaxSize
  held : ∀ p r, (s.producers p).Holds r → r < s.heap.next ∧ (s.heap.get r).closed = false
  listed : ∀ id r, s.queues.lookup id = some r → r < s.heap.next ∧ (s.heap.get r).closed = false
  once : ∀ id id' r, s.queues.lookup id = some r → s.queues.lookup id' = some r → id = id'
  closing : ∀ id r todo, s.cleaner = .closing id r todo → s.queues.lookup id = some r

section Steps

variable {cfg : Config} {s s' : World}

theorem sound_init : Sound cfg {} where
  kept v hv := by cases hv
  short r hr := by cases hr
  held p r h := h.elim
  listed id r h := by simp at h
  once id id' r h := by simp at h
  closing id r todo h := by cases h

/-- What a list holds and whether it is open. -/
def contents (q : IdentQueue) : List ℕ × Bool := (q.list, q.closed)

/-- **A step that leaves lists and table** need only answer for what a producer takes in hand and
for what the cleaner is about to close. -/
theorem Sound.frame (h : s.Sound cfg) (hheap : Heap.Keeps contents s.heap s'.heap)
    (hqueues : s'.queues = s.queues) (haccepted : s'.accepted = s.accepted)
    (hpopped : s'.popped = s.popped)
    (hheld : ∀ p r, (s'.producers p).Holds r →
      (s.producers p).Holds r ∨ ∃ id, s.queues.lookup id = some r)
    (hclosing : ∀ id r todo, s'.cleaner = .closing id r todo → s.queues.lookup id = some r) :
    s'.Sound cfg := by
  have hlist : ∀ r, (s'.heap.get r).list = (s.heap.get r).list := fun r =>
    congrArg Prod.fst (hheap.get r)
  have hclosed : ∀ r, (s'.heap.get r).closed = (s.heap.get r).closed := fun r =>
    congrArg Prod.snd (hheap.get r)
  refine ⟨?_, ?_, ?_, ?_, ?_, ?_⟩
  · simpa only [haccepted, hpopped, hheap.next, hlist, hclosed] using h.kept
  · simpa only [hheap.next, hlist] using h.short
  · intro p r hr
    rw [hheap.next, hclosed]
    rcases hheld p r hr with hr | ⟨id, hid⟩
    · exact h.held p r hr
    · exact h.listed id r hid
  · simpa only [hqueues, hheap.next, hclosed] using h.listed
  · simpa only [hqueues] using h.once
  · simpa only [hqueues] using hclosing

theorem holds_setPc {p p' : ℕ} {pc : Pc} {r : Ref} (h : ((s.setPc p pc).producers p').Holds r) :
    p' = p ∧ pc.Holds r ∨ (s.producers p').Holds r := by
  simp only [setPc] at h
  by_cases hp : p' = p
  · subst hp
    rw [Function.update_self] at h
    exact .inl ⟨rfl, h⟩
  · rw [Function.update_of_ne hp] at h
    exact .inr h

section

variable {v : ℕ} (h : s.Sound cfg)

include h

/-- A producer that goes on with a queue it has in hand, or found in the table, or with none. -/
theorem Sound.setPc {p : ℕ} {pc : Pc} {heap : Heap IdentQueue} {calls : ℕ}
    (hheap : Heap.Keeps contents s.heap heap)
    (hpc : ∀ r, pc.Holds r → (s.producers p).Holds r ∨ ∃ id, s.queues.lookup id = some r) :
    Sound cfg { s.setPc p pc with heap, calls } := by
  refine h.frame hheap rfl rfl rfl (fun p' r hr => ?_) h.closing
  rcases holds_setPc (s := s) hr with ⟨rfl, hnew⟩ | hold
  · exact hpc r hnew
  · exact .inl hold

theorem Sound.lookup (p : ℕ) (id : String) : (s.lookup p id).Sound cfg := by
  unfold World.lookup
  split_ifs
  · refine h.setPc (refl _ _) fun r hr => ?_
    cases hid : s.queues.lookup id with
    | none =>
      rw [hid] at hr
      exact hr.elim
    | some r' =>
      rw [hid] at hr
      obtain rfl : r' = r := hr
      exact .inr ⟨id, hid⟩
  · exact h

/-- **A queue is registered.** -/
theorem Sound.register {p : ℕ} {id : String} {ts : ℤ} (hresting : s.cleaner = .resting) :
    Sound cfg { s.setPc p (.registered v s.heap.next) with
      heap := s.heap.alloc { ts }
      queues := s.queues.insert id s.heap.next } := by
  have hold : ∀ r < s.heap.next, (s.heap.alloc { ts }).get r = s.heap.get r := fun r hr =>
    get_alloc_of_lt _ _ hr
  have hnew : (s.heap.alloc { ts }).get s.heap.next = { ts } := get_alloc_self _ _
  have hopen : ∀ r, r < s.heap.next ∧ (s.heap.get r).closed = false →
      r < s.heap.next + 1 ∧ ((s.heap.alloc { ts }).get r).closed = false := fun r hr =>
    ⟨Nat.lt_succ_of_lt hr.1, by rw [hold r hr.1]; exact hr.2⟩
  have hnext : s.heap.next < s.heap.next + 1 ∧
      ((s.heap.alloc { ts }).get s.heap.next).closed = false := ⟨Nat.lt_succ_self _, by rw [hnew]⟩
  refine ⟨fun v' hv' => ?_, fun r hr => ?_, fun p' r hr => ?_,
    forall_lookup_insert hnext fun id' r hr => hopen r (h.listed id' r hr), ?_, ?_⟩
  · refine (h.kept v' hv').imp_right ?_
    rintro ⟨r, hr, hmem, hclosed⟩
    exact ⟨r, Nat.lt_succ_of_lt hr, by rw [hold r hr]; exact ⟨hmem, hclosed⟩⟩
  · rcases Nat.lt_succ_iff_lt_or_eq.mp hr with hr | rfl
    · exact (congrArg (fun q => q.list.length) (hold r hr)).trans_le (h.short r hr)
    · exact (congrArg (fun q => q.list.length) hnew).trans_le (Nat.zero_le _)
  · rcases holds_setPc (s := s) hr with ⟨-, rfl⟩ | hr
    · exact hnext
    · exact hopen r (h.held p' r hr)
  · -- the new reference is above all that the table has
    have hfresh : ∀ id' r, (s.queues.insert id s.heap.next).lookup id' = some r →
        id' = id ∧ r = s.heap.next ∨ id' ≠ id ∧ r < s.heap.next ∧ s.queues.lookup id' = some r := by
      intro id' r hr
      rcases lookup_insert_eq_some.mp hr with ⟨hid, heq⟩ | ⟨hid, hr⟩
      · exact .inl ⟨hid, heq.symm⟩
      · exact .inr ⟨hid, (h.listed id' r hr).1, hr⟩
    intro id₁ id₂ r h₁ h₂
    rcases hfresh id₁ r h₁ with ⟨rfl, rfl⟩ | ⟨-, hlt, h₁⟩ <;>
      rcases hfresh id₂ _ h₂ with ⟨rfl, heq⟩ | ⟨-, hlt', h₂⟩
    · rfl
    · exact absurd hlt' (lt_irrefl _)
    · exact absurd hlt (heq ▸ lt_irrefl _)
    · exact h.once id₁ id₂ r h₁ h₂
  · intro id' r todo hclosing
    exact absurd (hresting.symm.trans hclosing) (by simp)

/-- **A sample is inserted** into a list with room. -/
theorem Sound.insert {p : ℕ} {r : Ref} (hpc : s.producers p = .checked v r)
    (hroom : (s.heap.get r).list.length < cfg.queueMaxSize) : Sound cfg { s.setPc p .idle with
      heap := s.heap.modify r fun q => { q with list := v :: q.list }
      accepted := s.accepted ++ [v] } := by
  have hclosed : ∀ r', ((s.heap.modify r fun q => { q with list := v :: q.list }).get r').closed =
      (s.heap.get r').closed := fun r' =>
    proj_get_modify IdentQueue.closed _ _ _ _ rfl
  have hlist : ∀ r', ((s.heap.modify r fun q => { q with list := v :: q.list }).get r').list =
      if r' = r then v :: (s.heap.get r).list else (s.heap.get r').list := by
    intro r'
    rw [get_modify]
    split_ifs <;> rfl
  have hheld : r < s.heap.next ∧ (s.heap.get r).closed = false := h.held p r (by rw [hpc]; rfl)
  refine ⟨fun v' hv' => ?_, fun r' hr' => ?_, fun p' r' hr' => ?_, fun id r' hr' => ?_, h.once,
    h.closing⟩
  · rcases mem_append.mp hv' with hv' | hv'
    · refine (h.kept v' hv').imp_right ?_
      rintro ⟨r', hr', hmem, hopen⟩
      refine ⟨r', hr', ?_, (hclosed r').trans hopen⟩
      rw [hlist]
      split_ifs with heq
      · exact mem_cons_of_mem v (heq ▸ hmem)
      · exact hmem
    · obtain rfl := mem_singleton.mp hv'
      refine .inr ⟨r, hheld.1, ?_, (hclosed r).trans hheld.2⟩
      rw [hlist, if_pos rfl]
      exact mem_cons_self
  · rw [hlist]
    split_ifs with heq
    · exact hroom
    · exact h.short r' hr'
  · rcases holds_setPc (s := s) hr' with ⟨-, hr'⟩ | hr'
    · exact hr'.elim
    · exact ⟨(h.held p' r' hr').1, (hclosed r').trans (h.held p' r' hr').2⟩
  · exact ⟨(h.listed id r' hr').1, (hclosed r').trans (h.listed id r' hr').2⟩

/-- **A producer goes on.** -/
theorem Sound.produce (p : ℕ) (hcalm : s.Calm cfg (.produce p)) : (s.produce cfg p).Sound cfg := by
  unfold World.produce
  cases hpc : s.producers p with
  | idle => exact h
  | missed id v => exact h.setPc (refl _ _) fun r hr => hr.elim
  | made id v ts =>
    split_ifs with hresting
    · exact h.register hresting
    · exact h
  | registered v r | holding v r =>
    exact h.setPc (modify _ _ fun _ => rfl) fun r' hr' => .inl (by rw [hpc]; exact hr')
  | stamped v r =>
    refine h.setPc (refl _ _) fun r' hr' => .inl ?_
    rw [hpc]
    split_ifs at hr'
    · exact hr'.elim
    · exact hr'
  | checked v r => exact h.insert hpc (hcalm v r hpc)

/-- **A consumer pops**: what leaves a list has been popped. -/
theorem Sound.pop (r : Ref) (left : ℕ) : Sound cfg { s with
      heap := s.heap.modify r fun q => { q with list := q.list.take left, consumer := .select }
      popped := s.popped ++ ((s.heap.get r).list.drop left).reverse } := by
  have hclosed : ∀ r', ((s.heap.modify r fun q =>
      { q with list := q.list.take left, consumer := .select }).get r').closed =
        (s.heap.get r').closed := fun r' =>
    proj_get_modify IdentQueue.closed _ _ _ _ rfl
  have hlist : ∀ r', ((s.heap.modify r fun q =>
      { q with list := q.list.take left, consumer := .select }).get r').list =
        if r' = r then (s.heap.get r).list.take left else (s.heap.get r').list := by
    intro r'
    rw [get_modify]
    split_ifs <;> rfl
  refine ⟨fun v hv => ?_, fun r' hr' => ?_, fun p r' hr' => ?_, fun id r' hr' => ?_, h.once,
    h.closing⟩
  · rcases h.kept v hv with hpopped | ⟨r', hr', hmem, hopen⟩
    · exact .inl (mem_append_left _ hpopped)
    · by_cases heq : r' = r
      · subst heq
        rw [← take_append_drop left (s.heap.get r').list] at hmem
        rcases mem_append.mp hmem with hmem | hmem
        · refine .inr ⟨r', hr', ?_, (hclosed r').trans hopen⟩
          rw [hlist, if_pos rfl]
          exact hmem
        · exact .inl (mem_append_right _ (mem_reverse.mpr hmem))
      · refine .inr ⟨r', hr', ?_, (hclosed r').trans hopen⟩
        rw [hlist, if_neg heq]
        exact hmem
  · rw [hlist]
    split_ifs with heq
    · subst heq
      exact (length_take_le' _ _).trans (h.short r' hr')
    · exact h.short r' hr'
  · exact ⟨(h.held p r' hr').1, (hclosed r').trans (h.held p r' hr').2⟩
  · exact ⟨(h.listed id r' hr').1, (hclosed r').trans (h.listed id r' hr').2⟩

/-- **A consumer goes on.** -/
theorem Sound.consume (r : Ref) : (s.consume cfg r).Sound cfg := by
  unfold World.consume
  cases (s.heap.get r).consumer with
  | absent | done => exact h
  | select =>
    have hheap : Keeps contents s.heap (s.heap.modify r fun q =>
        { q with consumer := if q.closed then .done else .pop }) := modify _ _ fun _ => rfl
    exact h.frame hheap rfl rfl rfl (fun _ _ => .inl) h.closing
  | pop => exact h.pop r _

/-- **A queue is closed** that is empty and in nobody's hands. -/
theorem Sound.close {id : String} {r : Ref} {todo : List String}
    (hclosing : s.cleaner = .closing id r todo) (hempty : (s.heap.get r).list = [])
    (hfree : ∀ p, ¬ (s.producers p).Holds r) : Sound cfg { s with
      heap := s.heap.modify r fun q => { q with closed := true }
      queues := s.queues.erase id
      cleaner := .scanning todo } := by
  have hlist : ∀ r', ((s.heap.modify r fun q => { q with closed := true }).get r').list =
      (s.heap.get r').list := fun r' => proj_get_modify IdentQueue.list _ _ _ _ rfl
  have hother : ∀ r' ≠ r, ((s.heap.modify r fun q => { q with closed := true }).get r').closed =
      (s.heap.get r').closed := fun r' hne => by rw [get_modify_of_ne _ _ hne]
  have herase : ∀ id' r', (s.queues.erase id).lookup id' = some r' →
      r' ≠ r ∧ s.queues.lookup id' = some r' := by
    intro id' r' hr'
    obtain ⟨hid, hr'⟩ := lookup_erase_eq_some.mp hr'
    refine ⟨?_, hr'⟩
    rintro rfl
    exact hid (h.once id' id r' hr' (h.closing id r' todo hclosing))
  refine ⟨fun v hv => ?_, fun r' hr' => ?_, fun p r' hr' => ?_, fun id' r' hr' => ?_,
    fun id₁ id₂ r' h₁ h₂ => h.once id₁ id₂ r' (herase id₁ r' h₁).2 (herase id₂ r' h₂).2,
    fun id' r' todo' hcl => by cases hcl⟩
  · refine (h.kept v hv).imp_right ?_
    rintro ⟨r', hr', hmem, hopen⟩
    have hne : r' ≠ r := by
      rintro rfl
      rw [hempty] at hmem
      cases hmem
    exact ⟨r', hr', by rw [hlist]; exact hmem, (hother r' hne).trans hopen⟩
  · rw [hlist]
    exact h.short r' hr'
  · have hne : r' ≠ r := fun heq => hfree p (heq ▸ hr')
    exact ⟨(h.held p r' hr').1, (hother r' hne).trans (h.held p r' hr').2⟩
  · obtain ⟨hne, hlookup⟩ := herase id' r' hr'
    exact ⟨(h.listed id' r' hlookup).1, (hother r' hne).trans (h.listed id' r' hlookup).2⟩

/-- **The cleaner goes on.** -/
theorem Sound.clean (hcalm : s.Calm cfg .clean) : s.clean.Sound cfg := by
  unfold World.clean
  cases hcleaner : s.cleaner with
  | resting => exact h
  | scanning todo =>
    cases todo with
    | nil =>
      exact h.frame (refl _ _) rfl rfl rfl (fun _ _ => .inl)
        fun _ _ _ hcl => by cases hcl
    | cons id todo =>
      refine h.frame (refl _ _) rfl rfl rfl (fun _ _ => .inl) fun id' r todo' hcl => ?_
      dsimp only at hcl
      cases hid : s.queues.lookup id with
      | none =>
        rw [hid] at hcl
        cases hcl
      | some r' =>
        rw [hid, Option.elim_some] at hcl
        split_ifs at hcl
        obtain ⟨rfl, rfl, -⟩ := Cleaner.closing.inj hcl
        exact hid
  | closing id r todo =>
    obtain ⟨hempty, hfree⟩ := hcalm id r todo hcleaner
    exact h.close hcleaner hempty hfree

/-- **One step.** -/
theorem Sound.step (m : Move) (hcalm : s.Calm cfg m) : (s.step cfg m).Sound cfg := by
  cases m with
  | tick seconds =>
    exact h.frame (refl _ _) rfl rfl rfl (fun _ _ => .inl) h.closing
  | lookup p id => exact h.lookup p id
  | produce p => exact h.produce p hcalm
  | consume r => exact h.consume r
  | beginClean order =>
    unfold World.step
    split_ifs
    · exact h.frame (refl _ _) rfl rfl rfl (fun _ _ => .inl)
        fun _ _ _ hcl => by cases hcl
    · exact h
  | clean => exact h.clean hcalm

end

end Steps

/-- **No sample is stranded and no list too long**, at the end of every run, and so at every point
of it, whose steps close only queues that are empty and in nobody's hands and insert only where
there is still room. -/
theorem samples_not_stranded (cfg : Config) (moves : List Move)
    (hcalm : Along (step cfg) (Calm cfg) {} moves) : (moves.foldl (step cfg) {}).Safe cfg := by
  have hsound : (moves.foldl (step cfg) {}).Sound cfg :=
    hcalm.invariant (fun s m hm hs => hs.step m hm) sound_init
  exact ⟨hsound.kept, hsound.short⟩

end World

namespace Example

/-- Lists of one sample. -/
def cfg : Config := ⟨1, 1000⟩

/-- Producer `p` brings the first sample to a queue, up to its insertion. -/
def first (p : ℕ) : List Move :=
  [.lookup p "7", .produce p, .produce p, .produce p, .produce p, .produce p]

/-- A pass of the cleaner over one queue, an hour later. -/
def pass : List Move := [.tick 3601, .beginClean (MapOrder.sortBy (· ≤ ·)), .clean, .clean, .clean]

/-- One sample from the push to the pop, and the queue closed after it. -/
def quiet : List Move := first 0 ++ [.produce 0, .consume 0, .consume 0] ++ pass

/-- A producer that has looked its queue up, and goes on when the cleaner has closed it. -/
def stranding : List Move :=
  first 0 ++ [.produce 0, .consume 0, .consume 0, .lookup 1 "7"] ++ pass ++
    [.produce 1, .produce 1, .produce 1]

/-- Two producers that find the same list with room for one. -/
def crowding : List Move :=
  first 0 ++ [.lookup 1 "7", .produce 1, .produce 1, .produce 0, .produce 1]

end Example

open Writer.Example

/-- One sample in a quiet hour. -/
theorem one_sample_kept : (quiet.foldl (World.step cfg) {}).Safe cfg := by
  refine World.samples_not_stranded cfg _ ?_
  refine ⟨trivial, fun v r h => ?_, fun v r h => ?_, fun v r h => ?_, fun v r h => ?_,
    fun v r h => ?_, fun v r h => ?_, trivial, trivial, trivial, trivial, fun id r todo h => ?_,
    fun id r todo h => ?_, fun id r todo h => ?_, trivial⟩
  · exact Pc.noConfusion h
  · exact Pc.noConfusion h
  · exact Pc.noConfusion h
  · exact Pc.noConfusion h
  · exact Pc.noConfusion h
  · obtain rfl : 0 = r := (Pc.checked.inj h).2
    decide
  · exact Cleaner.noConfusion h
  · obtain rfl : 0 = r := (Cleaner.closing.inj h).2.1
    refine ⟨by decide +kernel, fun p => ?_⟩
    cases p with
    | zero | succ n => exact fun h => h
  · exact Cleaner.noConfusion h

/-- **A sample can be stranded, and a list too long.** -/
theorem sample_stranded_list_overfull : ¬ (stranding.foldl (World.step cfg) {}).Safe cfg ∧
      ¬ (crowding.foldl (World.step cfg) {}).Safe cfg := by
  decide +kernel

end Nightingale.Writer
