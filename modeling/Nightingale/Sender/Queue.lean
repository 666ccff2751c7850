import Nightingale.Lib.Run
import Nightingale.Sender.Webhook

/-!
# Sender/Queue — the queue of a webhook, over whole runs

`SafeEventQueue` keeps an event in one of three lists, by its severity.  What a caller sees of it is
one queue: the events that were accepted and not returned yet, in the order of acceptance
(`Log.waiting`).

    Push ──▸ waiting:  e₃  e₁  e₂  e₁' ──Pop──▸  e₁, the first of the smallest severity
               lists:  [e₁, e₁']  [e₂]  [e₃]

`queue_isStable` says that it is a stable priority queue.  Its capacity is another matter: `Push`
refuses only when there are *more* than `maxSize` events, so there is room for one too many
(`within_capacity_iff`).
-/

namespace Nightingale.Sender

open List SafeEventQueue

/-- A call of the queue. -/
inductive Call (ε : Type) where
  | push (event : ε)
  | pop
  | popN (n : ℕ)
  deriving DecidableEq

/-- The queue, with the events for which `Push` returned true and those the pops returned. -/
structure Log (ε : Type) where
  queue : SafeEventQueue ε
  accepted : List ε := []
  returned : List ε := []

open Log

namespace Log

variable {ε : Type}

/-- One call. -/
def call (severity : ε → ℤ) (s : Log ε) : Call ε → Log ε
  | .push event =>
    match s.queue.push (severity event) event with
    | none => s
    | some q => { s with queue := q, accepted := s.accepted ++ [event] }
  | .pop =>
    match s.queue.pop with
    | none => s
    | some (event, q) => { s with queue := q, returned := s.returned ++ [event] }
  | .popN n => { s with queue := (s.queue.popN n).2, returned := s.returned ++ (s.queue.popN n).1 }

/-- `NewSafeEventQueue`, before any call. -/
def start (maxSize : ℕ) : Log ε := { queue := { maxSize } }

/-- A sequence of calls of a new queue. -/
def run (severity : ε → ℤ) (maxSize : ℕ) (calls : List (Call ε)) : Log ε :=
  calls.foldl (call severity) (start maxSize)

/-- **The events that wait**: those accepted and not returned, in the order of acceptance. -/
def waiting [DecidableEq ε] (s : Log ε) : List ε := s.accepted.diff s.returned

end Log

/-- The event is one of the smallest severity among those that wait, and the earliest of these. -/
structure IsNext {ε : Type} (severity : ε → ℤ) (waiting : List ε) (event : ε) : Prop where
  mem : event ∈ waiting
  least : ∀ e ∈ waiting, severity event ≤ severity e
  first : waiting.find? (fun e => severity e = severity event) = some event

namespace SafeEventQueue

variable {ε : Type}

/-- All the events in the queue. -/
def events (q : SafeEventQueue ε) : List ε := q.queueHigh ++ q.queueMiddle ++ q.queueLow

theorem len_eq (q : SafeEventQueue ε) : q.len = q.events.length := by
  rw [events, length_append, length_append, len]

/-- What a number of `Pop`s return, one after the other, and the queue they leave. -/
def pops : ℕ → SafeEventQueue ε → List (Option ε) × SafeEventQueue ε
  | 0, q => ([], q)
  | n + 1, q =>
    match q.pop with
    | none => (none :: (pops n q).1, (pops n q).2)
    | some (event, q) => (some event :: (pops n q).1, (pops n q).2)

/-! ## One call -/

section Calls

variable {q q' : SafeEventQueue ε} {e : ε}

/-- **What `Pop` takes**: the head of the first list that is not empty. -/
theorem pop_eq_some_iff : q.pop = some (e, q') ↔
    (∃ rest, q.queueHigh = e :: rest ∧ q' = { q with queueHigh := rest }) ∨
    (q.queueHigh = [] ∧ ∃ rest, q.queueMiddle = e :: rest ∧ q' = { q with queueMiddle := rest }) ∨
    (q.queueHigh = [] ∧ q.queueMiddle = [] ∧ ∃ rest, q.queueLow = e :: rest ∧
      q' = { q with queueLow := rest }) := by
  obtain ⟨maxSize, high, middle, low⟩ := q
  rcases high with _ | ⟨a, high⟩
  · rcases middle with _ | ⟨a, middle⟩
    · rcases low with _ | ⟨a, low⟩
      · simp [pop]
      · simp [pop, eq_comm]
    · simp [pop, eq_comm]
  · simp [pop, eq_comm]

theorem pop_eq_none_iff : q.pop = none ↔ q.len = 0 := by
  obtain ⟨maxSize, high, middle, low⟩ := q
  rcases high with _ | ⟨a, high⟩
  · rcases middle with _ | ⟨a, middle⟩
    · rcases low with _ | ⟨a, low⟩
      · simp [pop, len]
      · simp [pop, len]
    · simp [pop, len]
  · simp [pop, len]

theorem len_pop (h : q.pop = some (e, q')) : q.len = q'.len + 1 := by
  rcases pop_eq_some_iff.mp h with ⟨rest, hlist, rfl⟩ | ⟨-, rest, hlist, rfl⟩ |
    ⟨-, -, rest, hlist, rfl⟩ <;>
  · simp only [len, hlist, length_cons]
    omega

theorem maxSize_pop (h : q.pop = some (e, q')) : q'.maxSize = q.maxSize := by
  rcases pop_eq_some_iff.mp h with ⟨rest, -, rfl⟩ | ⟨-, rest, -, rfl⟩ | ⟨-, -, rest, -, rfl⟩ <;> rfl

/-- **`PopN(n)` is min(n, Len) `Pop`s**, and each of them returns an event. -/
theorem pops_min_len (n : ℕ) (q : SafeEventQueue ε) :
    pops (min n q.len) q = ((q.popN n).1.map some, (q.popN n).2) := by
  induction n generalizing q with
  | zero => simp [pops, popN]
  | succ n ih =>
    cases hpop : q.pop with
    | none => simp [pop_eq_none_iff.mp hpop, pops, popN, hpop]
    | some p =>
      obtain ⟨e, q'⟩ := p
      rw [len_pop hpop, Nat.add_min_add_right, pops, popN, hpop]
      simp [ih q']

/-- **What `Push` does**: it accepts an event of one of the three severities at the end of its list,
unless there are more events than `maxSize`. -/
theorem push_eq_some_iff {severity : ℤ} : q.push severity e = some q' ↔ q.len ≤ q.maxSize ∧
    (severity = 1 ∧ q' = { q with queueHigh := q.queueHigh ++ [e] } ∨
      severity = 2 ∧ q' = { q with queueMiddle := q.queueMiddle ++ [e] } ∨
      severity = 3 ∧ q' = { q with queueLow := q.queueLow ++ [e] }) := by
  unfold push
  by_cases hfull : q.len > q.maxSize
  · simp [hfull]
  · have hroom : q.len ≤ q.maxSize := not_lt.mp hfull
    rw [if_neg hfull]
    split_ifs with h1 h2 h3
    · simp [hroom, h1, eq_comm]
    · simp [hroom, h2, eq_comm]
    · simp [hroom, h3, eq_comm]
    · simp [h1, h2, h3]

theorem len_push {severity : ℤ} (h : q.push severity e = some q') : q'.len = q.len + 1 := by
  obtain ⟨-, ⟨-, rfl⟩ | ⟨-, rfl⟩ | ⟨-, rfl⟩⟩ := push_eq_some_iff.mp h <;>
  · simp only [len, length_append, length_singleton]
    omega

end Calls

end SafeEventQueue

/-! ## Three lists for one -/

section Lists

variable {ε : Type} [DecidableEq ε] {l : List ε} {e : ε} {p : ε → Bool}

theorem filter_erase_of_neg (h : p e = false) : (l.erase e).filter p = l.filter p := by
  induction l with
  | nil => rfl
  | cons a l ih =>
    by_cases ha : a = e
    · subst ha
      rw [erase_cons_head, filter_cons_of_neg (by simp [h])]
    · rw [erase_cons_tail (by simpa using ha), filter_cons, filter_cons, ih]

/-- It is the first of its list, and the list is left without it. -/
theorem filter_erase_of_head {rest : List ε} (h : l.filter p = e :: rest) :
    (l.erase e).filter p = rest := by
  induction l with
  | nil => cases h
  | cons a l ih =>
    by_cases hp : p a = true
    · rw [filter_cons_of_pos hp, cons.injEq] at h
      obtain ⟨rfl, rfl⟩ := h
      rw [erase_cons_head]
    · rw [filter_cons_of_neg hp] at h
      have he : p e = true := (mem_filter.mp (h ▸ mem_cons_self)).2
      have hne : a ≠ e := by
        rintro rfl
        exact hp he
      rw [erase_cons_tail (by simpa using hne), filter_cons_of_neg hp, ih h]

/-- An event at the head of the list of its severity is taken out of that list alone. -/
theorem filter_erase_severity {severity : ε → ℤ} {k : ℤ} {rest : List ε}
    (h : l.filter (fun e => severity e = k) = e :: rest) :
    (l.erase e).filter (fun e => severity e = k) = rest ∧
      ∀ j, j ≠ k → (l.erase e).filter (fun e => severity e = j)
        = l.filter fun e => severity e = j := by
  have hmem : e ∈ l.filter fun e => severity e = k := by
    rw [h]
    exact mem_cons_self
  have hk : severity e = k := by simpa using (mem_filter.mp hmem).2
  refine ⟨filter_erase_of_head h, fun j hj => filter_erase_of_neg ?_⟩
  simpa [hk] using hj.symm

omit [DecidableEq ε] in
theorem find?_of_filter {rest : List ε} (h : l.filter p = e :: rest) : l.find? p = some e := by
  rw [← head?_filter, h]
  rfl

omit [DecidableEq ε] in
/-- The lists together hold every event that has one of the three severities. -/
theorem perm_severities {severity : ε → ℤ} (h : ∀ e ∈ l, Ranked (severity e)) :
    ((l.filter fun e => severity e = 1) ++ (l.filter fun e => severity e = 2) ++
      l.filter fun e => severity e = 3).Perm l := by
  induction l with
  | nil => exact Perm.refl []
  | cons a l ih =>
    obtain ⟨ha, hl⟩ := forall_mem_cons.mp h
    rcases ha with ha | ha | ha
    · simpa [ha] using ih hl
    · have hperm : ((l.filter fun e => severity e = 1) ++
          a :: ((l.filter fun e => severity e = 2) ++ l.filter fun e => severity e = 3)).Perm
            (a :: l) := perm_middle.trans ((append_assoc _ _ _ ▸ ih hl).cons a)
      simpa [ha] using hperm
    · have hperm : ((l.filter fun e => severity e = 1) ++ (l.filter fun e => severity e = 2) ++
          a :: l.filter fun e => severity e = 3).Perm (a :: l) := perm_middle.trans ((ih hl).cons a)
      simpa [ha] using hperm

theorem diff_concat {l₁ l₂ : List ε} (h : l₂.Subperm l₁) (e : ε) :
    (l₁ ++ [e]).diff l₂ = l₁.diff l₂ ++ [e] := by
  induction l₂ generalizing l₁ with
  | nil => rfl
  | cons a l₂ ih =>
    have ha : a ∈ l₁ := h.subset mem_cons_self
    have hrest : l₂.Subperm (l₁.erase a) := by
      simpa using h.erase a
    rw [diff_cons, diff_cons, erase_append_left _ ha, ih hrest]

end Lists

namespace Log

variable {ε : Type} [DecidableEq ε] {severity : ε → ℤ} {s : Log ε}

/-- **The lists hold what waits**, each the events of its severity, and every event that was
returned had been accepted. -/
structure Sound (severity : ε → ℤ) (s : Log ε) : Prop where
  returned : s.returned.Subperm s.accepted
  ranked : ∀ e ∈ s.waiting, Ranked (severity e)
  high : s.queue.queueHigh = s.waiting.filter fun e => severity e = 1
  middle : s.queue.queueMiddle = s.waiting.filter fun e => severity e = 2
  low : s.queue.queueLow = s.waiting.filter fun e => severity e = 3

theorem sound_start (severity : ε → ℤ) (maxSize : ℕ) : Sound severity (start maxSize) :=
  ⟨Subperm.refl [], fun _ h => absurd h not_mem_nil, rfl, rfl, rfl⟩

namespace Sound

theorem push (h : Sound severity s) (event : ε) :
    Sound severity (s.call severity (.push event)) := by
  rw [call]
  cases hpush : s.queue.push (severity event) event with
  | none => exact h
  | some q =>
    obtain ⟨-, hlist⟩ := push_eq_some_iff.mp hpush
    have hwaiting : (s.accepted ++ [event]).diff s.returned = s.waiting ++ [event] :=
      diff_concat h.returned event
    refine ⟨h.returned.trans (sublist_append_left _ _).subperm, ?_, ?_, ?_, ?_⟩
    · intro e he
      rw [waiting, hwaiting, mem_append, mem_singleton] at he
      rcases he with he | rfl
      · exact h.ranked e he
      · exact hlist.imp And.left (Or.imp And.left And.left)
    all_goals
      rw [waiting, hwaiting, filter_append, filter_singleton]
      obtain ⟨hsev, rfl⟩ | ⟨hsev, rfl⟩ | ⟨hsev, rfl⟩ := hlist <;>
      simp [hsev, h.high, h.middle, h.low]

/-- The head of the first list that is not empty is the next event. -/
theorem isNext (h : Sound severity s) {event : ε} {q : SafeEventQueue ε}
    (hpop : s.queue.pop = some (event, q)) : IsNext severity s.waiting event := by
  have hnone : ∀ {k : ℤ}, s.waiting.filter (fun e => severity e = k) = [] →
      ∀ e ∈ s.waiting, severity e ≠ k := fun hnil e he hk =>
    absurd (mem_filter.mpr ⟨he, by simpa using hk⟩) (hnil ▸ not_mem_nil)
  have hnext : ∀ {k : ℤ} {rest : List ε},
      s.waiting.filter (fun e => severity e = k) = event :: rest →
      (∀ e ∈ s.waiting, k ≤ severity e) → IsNext severity s.waiting event := by
    intro k rest hlist hleast
    obtain ⟨hmem, hk⟩ := mem_filter.mp (hlist ▸ mem_cons_self (a := event))
    rw [decide_eq_true_eq] at hk
    subst hk
    exact ⟨hmem, hleast, find?_of_filter hlist⟩
  have hranked := h.ranked
  unfold Ranked at hranked
  rcases pop_eq_some_iff.mp hpop with ⟨rest, hhigh, -⟩ | ⟨hhigh, rest, hmiddle, -⟩ |
    ⟨hhigh, hmiddle, rest, hlow, -⟩
  · refine hnext (h.high ▸ hhigh) fun e he => ?_
    have := hranked e he
    omega
  · refine hnext (h.middle ▸ hmiddle) fun e he => ?_
    have := hranked e he
    have := hnone (h.high ▸ hhigh) e he
    omega
  · refine hnext (h.low ▸ hlow) fun e he => ?_
    have := hranked e he
    have := hnone (h.high ▸ hhigh) e he
    have := hnone (h.middle ▸ hmiddle) e he
    omega

theorem pop (h : Sound severity s) : Sound severity (s.call severity .pop) := by
  rw [call]
  cases hpop : s.queue.pop with
  | none => exact h
  | some p =>
    obtain ⟨event, q⟩ := p
    have hmem : event ∈ s.waiting := (h.isNext hpop).mem
    have hreturned : (s.returned ++ [event]).Subperm s.accepted := by
      refine Subperm.trans ?_ (subperm_append_diff_self_of_count_le
        (subperm_ext_iff.mp h.returned)).subperm
      exact (subperm_append_left s.returned).mpr (singleton_sublist.mpr hmem).subperm
    have hwaiting : s.accepted.diff (s.returned ++ [event]) = s.waiting.erase event := by
      rw [diff_append, diff_cons, diff_nil]
      rfl
    have hranked : ∀ e ∈ s.waiting.erase event, Ranked (severity e) := fun e he =>
      h.ranked e (mem_of_mem_erase he)
    rcases pop_eq_some_iff.mp hpop with ⟨rest, hlist, rfl⟩ | ⟨-, rest, hlist, rfl⟩ |
      ⟨-, -, rest, hlist, rfl⟩
    · obtain ⟨hown, hother⟩ := filter_erase_severity (h.high ▸ hlist)
      refine ⟨hreturned, ?_, ?_, ?_, ?_⟩ <;> rw [waiting, hwaiting]
      · exact hranked
      · exact hown.symm
      · rw [hother 2 (by decide), h.middle]
      · rw [hother 3 (by decide), h.low]
    · obtain ⟨hown, hother⟩ := filter_erase_severity (h.middle ▸ hlist)
      refine ⟨hreturned, ?_, ?_, ?_, ?_⟩ <;> rw [waiting, hwaiting]
      · exact hranked
      · rw [hother 1 (by decide), h.high]
      · exact hown.symm
      · rw [hother 3 (by decide), h.low]
    · obtain ⟨hown, hother⟩ := filter_erase_severity (h.low ▸ hlist)
      refine ⟨hreturned, ?_, ?_, ?_, ?_⟩ <;> rw [waiting, hwaiting]
      · exact hranked
      · rw [hother 1 (by decide), h.high]
      · rw [hother 2 (by decide), h.middle]
      · exact hown.symm

end Sound

omit [DecidableEq ε] in
/-- `PopN(n)` is `n` calls of `Pop`, of which those of an empty queue change nothing. -/
theorem call_popN (n : ℕ) (s : Log ε) :
    s.call severity (.popN n) = (fun s => call severity s .pop)^[n] s := by
  induction n generalizing s with
  | zero => simp [call, popN]
  | succ n ih =>
    rw [Function.iterate_succ_apply, ← ih]
    cases hpop : s.queue.pop with
    | none =>
      have hnone : ∀ m, s.queue.popN m = ([], s.queue) := fun m => by
        cases m with
        | zero => rfl
        | succ m => rw [popN, hpop]
      simp [call, hpop, hnone]
    | some p => simp [call, hpop, popN]

theorem Sound.call (h : Sound severity s) (c : Call ε) : Sound severity (s.call severity c) := by
  cases c with
  | push event => exact h.push event
  | pop => exact h.pop
  | popN n =>
    rw [call_popN]
    exact Function.Iterate.rec (Sound severity) h (fun _ hs => hs.pop) n

/-- **Every run is sound.** -/
theorem sound_run (severity : ε → ℤ) (maxSize : ℕ) (calls : List (Call ε)) :
    Sound severity (run severity maxSize calls) := by
  exact foldlRecOn calls _ (sound_start severity maxSize) fun s hs c _ => hs.call c

theorem Sound.events_perm (h : Sound severity s) : s.queue.events.Perm s.waiting := by
  rw [events, h.high, h.middle, h.low]
  exact perm_severities h.ranked

theorem Sound.account (h : Sound severity s) : (s.returned ++ s.queue.events).Perm s.accepted :=
  (h.events_perm.append_left _).trans
    (subperm_append_diff_self_of_count_le (subperm_ext_iff.mp h.returned))

end Log

/-- A stable priority queue: the events that were accepted are those that were returned and those
still in the queue, each once; the queue holds the events that wait; a `Pop` returns nothing if none
waits, and else the next one; and `PopN(n)` returns what min(n, Len) `Pop`s return. -/
structure IsStable {ε : Type} [DecidableEq ε] (severity : ε → ℤ) (s : Log ε) : Prop where
  account : (s.returned ++ s.queue.events).Perm s.accepted
  events : s.queue.events.Perm s.waiting
  empty : s.queue.pop = none ↔ s.waiting = []
  next : ∀ event q, s.queue.pop = some (event, q) → IsNext severity s.waiting event
  popN : ∀ n, SafeEventQueue.pops (min n s.queue.len) s.queue
    = ((s.queue.popN n).1.map some, (s.queue.popN n).2)

/-- **The queue is a stable priority queue** after every sequence of calls. -/
theorem queue_isStable {ε : Type} [DecidableEq ε] (severity : ε → ℤ) (maxSize : ℕ)
    (calls : List (Call ε)) : IsStable severity (run severity maxSize calls) := by
  have h := sound_run severity maxSize calls
  refine ⟨h.account, h.events_perm, ?_, fun event q => h.isNext, fun n => ?_⟩
  · rw [pop_eq_none_iff, len_eq, h.events_perm.length_eq, length_eq_zero_iff]
  · exact pops_min_len n _

/-! ## The capacity -/

section Capacity

variable {ε : Type} {severity : ε → ℤ}

/-- **The capacity is kept by a call**: there are not more than `maxSize` events after it, and an
event of one of the three severities is refused only when there are `maxSize`. -/
def WithinCapacity (severity : ε → ℤ) (s : Log ε) (c : Call ε) : Prop :=
  (s.call severity c).queue.len ≤ s.queue.maxSize ∧
    ∀ event, c = .push event → Ranked (severity event) →
      s.queue.push (severity event) event = none → s.queue.len = s.queue.maxSize

/-- No event of one of the three severities is pushed onto a queue with `maxSize` events. -/
def NotFull (severity : ε → ℤ) (s : Log ε) (c : Call ε) : Prop :=
  ∀ event, c = .push event → Ranked (severity event) → s.queue.len ≠ s.queue.maxSize

namespace SafeEventQueue

/-- An event of one of the three severities is refused when there are more than `maxSize`. -/
theorem push_eq_none_iff {q : SafeEventQueue ε} {severity : ℤ} (h : Ranked severity) (event : ε) :
    q.push severity event = none ↔ q.maxSize < q.len := by
  constructor
  · intro hnone
    by_contra hroom
    have hsome := (push_isSome_iff (not_lt.mp hroom) severity event).mpr h
    rw [hnone] at hsome
    cases hsome
  · intro hfull
    rw [push, if_pos hfull]

theorem len_popN_le (n : ℕ) (q : SafeEventQueue ε) :
    (q.popN n).2.len ≤ q.len ∧ (q.popN n).2.maxSize = q.maxSize := by
  induction n generalizing q with
  | zero => exact ⟨le_rfl, rfl⟩
  | succ n ih =>
    cases hpop : q.pop with
    | none =>
      simp only [popN, hpop]
      exact ⟨le_rfl, trivial⟩
    | some p =>
      obtain ⟨hlen, hmax⟩ := ih p.2
      simp only [popN, hpop]
      have hshorter := len_pop hpop
      exact ⟨by omega, hmax.trans (maxSize_pop hpop)⟩

end SafeEventQueue

/-- **What a call does to the number of events**: a push of one of the three severities that finds
no more than `maxSize` makes them one more, and every other call no more. -/
theorem len_call (severity : ε → ℤ) (s : Log ε) (c : Call ε) :
    (s.call severity c).queue.maxSize = s.queue.maxSize ∧
      ((∃ event, c = .push event ∧ Ranked (severity event) ∧ s.queue.len ≤ s.queue.maxSize ∧
          (s.call severity c).queue.len = s.queue.len + 1) ∨
        (∀ event, c = .push event → Ranked (severity event) → s.queue.maxSize < s.queue.len) ∧
          (s.call severity c).queue.len ≤ s.queue.len) := by
  cases c with
  | push event =>
    rw [call]
    cases hpush : s.queue.push (severity event) event with
    | none =>
      refine ⟨rfl, .inr ⟨fun event' heq hranked => ?_, le_rfl⟩⟩
      obtain rfl := Call.push.inj heq
      exact (push_eq_none_iff hranked event).mp hpush
    | some q =>
      obtain ⟨hroom, hlist⟩ := push_eq_some_iff.mp hpush
      have hranked : Ranked (severity event) := hlist.imp And.left (Or.imp And.left And.left)
      refine ⟨?_, .inl ⟨event, rfl, hranked, hroom, len_push hpush⟩⟩
      obtain ⟨-, rfl⟩ | ⟨-, rfl⟩ | ⟨-, rfl⟩ := hlist <;> rfl
  | pop =>
    rw [call]
    cases hpop : s.queue.pop with
    | none => exact ⟨rfl, .inr ⟨fun _ h => (by cases h), le_rfl⟩⟩
    | some p =>
      have hshorter : p.2.len ≤ s.queue.len := (len_pop hpop).symm ▸ Nat.le_succ _
      exact ⟨maxSize_pop hpop, .inr ⟨fun _ h => (by cases h), hshorter⟩⟩
  | popN n =>
    obtain ⟨hlen, hmax⟩ := len_popN_le n s.queue
    exact ⟨hmax, .inr ⟨fun _ h => (by cases h), hlen⟩⟩

/-- Below the capacity, a call keeps it exactly if it pushes nothing onto a full queue. -/
theorem withinCapacity_iff_notFull {s : Log ε} (h : s.queue.len ≤ s.queue.maxSize) (c : Call ε) :
    WithinCapacity severity s c ↔ NotFull severity s c := by
  obtain ⟨-, ⟨event, rfl, hranked, -, hlen⟩ | ⟨hpush, hlen⟩⟩ := len_call severity s c
  · constructor
    · rintro ⟨hmax, -⟩ event' - - hfull
      omega
    · intro hnot
      have hne := hnot event rfl hranked
      refine ⟨by omega, fun event' heq _ hnone => ?_⟩
      obtain rfl := Call.push.inj heq
      have := (push_eq_none_iff hranked event).mp hnone
      omega
  · constructor
    · rintro - event heq hranked
      have := hpush event heq hranked
      omega
    · intro hnot
      refine ⟨hlen.trans h, fun event heq hranked => ?_⟩
      have := hpush event heq hranked
      omega

/-- There is room for one more than `maxSize`, and not for two. -/
theorem len_run_le (severity : ε → ℤ) (maxSize : ℕ) (calls : List (Call ε)) :
    (run severity maxSize calls).queue.maxSize = maxSize ∧
      (run severity maxSize calls).queue.len ≤ maxSize + 1 := by
  refine foldlRecOn (motive := fun s : Log ε => s.queue.maxSize = maxSize ∧
    s.queue.len ≤ maxSize + 1) calls (call severity) (b := start maxSize) ?_ ?_
  · exact ⟨rfl, Nat.zero_le _⟩
  · rintro s ⟨hmax, hle⟩ c -
    obtain ⟨hmax', ⟨event, -, -, hroom, hlen⟩ | ⟨-, hlen⟩⟩ := len_call severity s c
    · exact ⟨hmax'.trans hmax, by omega⟩
    · exact ⟨hmax'.trans hmax, by omega⟩

/-- **The capacity is kept along a sequence of calls** exactly if no event of one of the three
severities is pushed when there are `maxSize` already.  Always there are at most `maxSize + 1`, and
such an event is refused exactly when there are that many. -/
theorem within_capacity_iff (severity : ε → ℤ) (maxSize : ℕ) (calls : List (Call ε)) :
    (Along (call severity) (WithinCapacity severity) (start maxSize) calls ↔
      Along (call severity) (NotFull severity) (start maxSize) calls) ∧
    (run severity maxSize calls).queue.len ≤ maxSize + 1 ∧ ∀ event, Ranked (severity event) →
      ((run severity maxSize calls).queue.push (severity event) event = none ↔
        (run severity maxSize calls).queue.len = maxSize + 1) := by
  obtain ⟨hmax, hle⟩ := len_run_le severity maxSize calls
  let I : Log ε → Prop := fun s => s.queue.len ≤ s.queue.maxSize
  have hstart : I (start maxSize) := Nat.zero_le _
  have hkeep : ∀ s c, WithinCapacity severity s c → I (s.call severity c) := by
    intro s c hwithin
    exact hwithin.1.trans_eq (len_call severity s c).1.symm
  refine ⟨⟨fun h => ?_, fun h => ?_⟩, hle, fun event hranked => ?_⟩
  · exact h.imp (I := I) (fun s c hwithin _ => hkeep s c hwithin)
      (fun s c hwithin hs => (withinCapacity_iff_notFull hs c).mp hwithin) hstart
  · exact h.imp (I := I)
      (fun s c hnot hs => hkeep s c ((withinCapacity_iff_notFull hs c).mpr hnot))
      (fun s c hnot hs => (withinCapacity_iff_notFull hs c).mpr hnot) hstart
  · rw [push_eq_none_iff hranked, hmax]
    omega

/-- Two events in a queue for one. -/
theorem beyond_capacity : (run (fun _ : ℕ => 1) 1 [.push 1, .push 2]).queue.len = 2 ∧
      (run (fun _ : ℕ => 1) 1 [.push 1, .push 2]).accepted = [1, 2] ∧
      (run (fun _ : ℕ => 1) 1 [.push 1, .push 2]).queue.push 1 3 = none ∧
      ¬ Along (call fun _ : ℕ => 1) (WithinCapacity fun _ => 1) (start 1)
        [.push 1, .push 2] := by
  refine ⟨rfl, rfl, rfl, ?_⟩
  rintro ⟨-, ⟨hlen, -⟩, -⟩
  exact absurd hlen (by decide)

end Capacity

end Nightingale.Sender
