import Nightingale.Lib.Run
import Nightingale.Memsto.Channels

/-!
# Memsto/Tasks — no task is lost in the calm runs, and only there

A task is counted wherever it can be: in a queue, in a consumer's hands, among those processed.

    EnqueueNotifyTask ──▶ queue ──▶ a consumer ──▶ processed        the total never exceeds one
                            ╎
                            ╎ update of the channel: nobody reads the queue any more

Giving up a queue (`Dropped`) loses what stood in it.  `tasks_served_iff` says exactly which runs
lose nothing: those where a channel's queue is empty at each update of the
channel, and where every insertion goes to the queue the channel has at that moment, and somebody
reads it.
-/

namespace Nightingale.Channels

open List Option World GoMap Heap Finmap Finset Nat Subset

namespace Line

/-! ## What one step of a consumer keeps -/

/-- **A consumer's step**: no list grows, nobody returns unless told, and a task that leaves the
list is in a consumer's hands until it is among those finished. -/
structure Onward (l l' : Line) (out : List ℕ) : Prop where
  channel : l'.channel = l.channel
  quit : l'.quit = l.quit
  items : l'.items ⊆ l.items
  alive : l.quit = false → .done ∉ l.consumers → .done ∉ l'.consumers
  length : l'.consumers.length = l.consumers.length
  count : ∀ t, l'.items.count t + l'.consumers.count (.busy t) + out.count t =
    l.items.count t + l.consumers.count (.busy t)

theorem Onward.refl (l : Line) : Onward l l [] where
  channel := rfl
  quit := rfl
  items := Subset.refl _
  alive _ h := h
  length := rfl
  count _ := rfl

theorem count_set {cs : List Stage} {i : ℕ} {st : Stage} (h : cs[i]? = some st) (st' x : Stage) :
    (cs.set i st').count x + [st].count x = cs.count x + [st'].count x := by
  obtain ⟨hi, rfl⟩ := List.getElem?_eq_some_iff.mp h
  have hpos : cs[i] = x → 0 < cs.count x := fun heq =>
    List.count_pos_iff.mpr (heq ▸ List.getElem_mem hi)
  rw [List.count_set hi, List.count_singleton, List.count_singleton]
  simp only [beq_iff_eq]
  split_ifs with h₁ h₂ h₂
  · have := hpos h₁
    omega
  · have := hpos h₁
    omega
  · omega
  · omega

/-- Consumer `i` goes from one stage to another, perhaps with a task off the list. -/
theorem Onward.stage {l : Line} {i : ℕ} {st st' : Stage} {items out : List ℕ}
    (hst : l.consumers[i]? = some st) (hitems : items ⊆ l.items)
    (hdone : l.quit = false → st' ≠ .done)
    (hcount : ∀ t, items.count t + [st'].count (.busy t) + out.count t =
      l.items.count t + [st].count (.busy t)) :
    Onward l { l with items, consumers := l.consumers.set i st' } out where
  channel := rfl
  quit := rfl
  items := hitems
  alive hquit hold hnew := by
    rcases mem_or_eq_of_mem_set hnew with hmem | heq
    · exact hold hmem
    · exact hdone hquit heq.symm
  length := length_set
  count t := by
    have hset := count_set hst st' (.busy t)
    have := hcount t
    dsimp only
    omega

/-- **What `consume` does.** -/
theorem consume_onward (l : Line) (i : ℕ) : Onward l (l.consume i).1 (l.consume i).2 := by
  unfold consume
  cases hst : l.consumers[i]? with
  | none => exact .refl l
  | some st =>
    cases st with
    | done => exact .refl l
    | select =>
      refine .stage hst (refl _) (fun hquit => ?_) fun t => ?_
      · simp [hquit]
      · cases l.quit <;> rfl
    | pop =>
      cases hlast : l.items.getLast? with
      | none => exact .stage hst (refl _) (fun _ => by simp) fun t => rfl
      | some t =>
        refine .stage hst (dropLast_subset _) (fun _ => by simp) fun t' => ?_
        have hitems := dropLast_append_getLast? t hlast
        conv_rhs => rw [← hitems, count_append]
        simp [count_singleton]
    | busy t =>
      refine .stage hst (refl _) (fun _ => by simp) fun t' => ?_
      simp [count_singleton]

/-- While nobody has returned, a line runs as soon as it is open and has a consumer. -/
theorem running_iff {l : Line} (halive : l.quit = false → .done ∉ l.consumers) :
    l.Running ↔ l.quit = false ∧ l.consumers ≠ [] := by
  refine and_congr_right fun hquit => ?_
  constructor
  · rintro ⟨st, hst, -⟩
    exact ne_nil_of_mem hst
  · intro hne
    obtain ⟨st, hst⟩ := exists_mem_of_ne_nil _ hne
    exact ⟨st, hst, fun heq => halive hquit (heq ▸ hst)⟩

end Line

namespace World

variable (s : World)

/-! ## Where a task can be -/

/-- How often a task is in a queue. -/
def queued (t : ℕ) : ℕ := ∑ r ∈ range s.lines.next, (s.lines.get r).items.count t

/-- How often a task is in a consumer's hands. -/
def inHand (t : ℕ) : ℕ := ∑ r ∈ range s.lines.next, (s.lines.get r).consumers.count (.busy t)

/-- How often a task is anywhere. -/
def total (t : ℕ) : ℕ := s.queued t + s.inHand t + s.processed.count t

theorem queued_pos_iff {t : ℕ} :
    0 < s.queued t ↔ ∃ r < s.lines.next, t ∈ (s.lines.get r).items := by
  simp [queued, sum_pos_iff, count_pos_iff]

theorem inHand_pos_iff {t : ℕ} :
    0 < s.inHand t ↔ ∃ r < s.lines.next, .busy t ∈ (s.lines.get r).consumers := by
  simp [inHand, sum_pos_iff, count_pos_iff]

/-- **No task is there twice**: not the ones that arrived, and the ones on their way are nowhere
yet. -/
structure Counted : Prop where
  single : ∀ t, s.total t ≤ 1
  carried : ∀ p t c r, (s.producers p).cargo = some (t, c, r) → s.total t = 0 ∧ t < s.calls
  apart : ∀ p p' t c r c' r', (s.producers p).cargo = some (t, c, r) →
    (s.producers p').cargo = some (t, c', r') → p = p'
  fresh : ∀ t, s.calls ≤ t → s.total t = 0

/-- **The tables are sound**: a channel that has a queue has the quit channel of the same line, the
line is its own and open; what is in the queue is watched. -/
structure Sound : Prop where
  paired : ∀ c, s.queueQuitCh.lookup c = s.channelsQueue.lookup c
  listed : ∀ c r, s.channelsQueue.lookup c = some r →
    r < s.lines.next ∧ (s.lines.get r).quit = false ∧ (s.lines.get r).channel = c ∧ c ∈ s.channels
  alive : ∀ r < s.lines.next, (s.lines.get r).quit = false → .done ∉ (s.lines.get r).consumers
  watching : ∀ c r t, s.channelsQueue.lookup c = some r → t ∈ (s.lines.get r).items →
    (t, c) ∈ s.watched
  held : ∀ p t c r, (s.producers p).cargo = some (t, c, r) →
    r < s.lines.next ∧ (s.lines.get r).channel = c
  starting : ∀ id ch todo new, s.setter = .starting id ch todo new →
    s.channelsQueue.lookup id = none

/-- Where a task of the channel is, when nothing is lost. -/
def Kept (t : ℕ) (c : ℤ) : Prop :=
  (∃ r, s.channelsQueue.lookup c = some r ∧ t ∈ (s.lines.get r).items ∧
    (s.lines.get r).consumers ≠ []) ∨
  (∃ r < s.lines.next, .busy t ∈ (s.lines.get r).consumers) ∨ t ∈ s.processed

section Steps

variable {s s' : World} {t : ℕ} {c id : ℤ} {p : ℕ} {r : Ref}

theorem sound_init : Sound {} where
  paired c := rfl
  listed c r h := by simp at h
  alive r hr := by cases hr
  watching c r t h := by simp at h
  held p t c r h := by cases h
  starting id ch todo new h := by cases h

theorem counted_init : Counted {} where
  single t := zero_le 1
  carried p t c r h := by cases h
  apart p p' t c r c' r' h := by cases h
  fresh t ht := rfl

theorem served_iff (h : s.Sound) (hc : s.Counted) : s.Served t c ↔ s.Kept t c := by
  refine or_congr (exists_congr fun r => ?_) (or_congr_right ?_)
  · refine and_congr_right fun hr => and_congr_right fun _ => ?_
    obtain ⟨hlt, hquit, -⟩ := h.listed c r hr
    rw [Line.running_iff (h.alive r hlt)]
    exact and_iff_right hquit
  · have hle : s.processed.count t ≤ 1 := (le_add_left _ _).trans (hc.single t)
    rw [← count_pos_iff]
    omega

theorem safe_iff (h : s.Sound) (hc : s.Counted) : s.Safe ↔ ∀ x ∈ s.watched, s.Kept x.1 x.2 :=
  forall₂_congr fun _ _ => served_iff h hc

theorem Counted.of_queued (hc : s.Counted) (hr : r < s.lines.next)
    (ht : t ∈ (s.lines.get r).items) : s.inHand t = 0 ∧ s.processed.count t = 0 := by
  have hpos : 0 < s.queued t := s.queued_pos_iff.mpr ⟨r, hr, ht⟩
  have hle : s.queued t + s.inHand t + s.processed.count t ≤ 1 := hc.single t
  omega

/-! ### Steps that leave lists, hands and tables -/

theorem of_cargo_setPc {pc : Pc} {p' : ℕ} {x : ℕ × ℤ × Ref}
    (hx : ((s.setPc p pc).producers p').cargo = some x) :
    p' = p ∧ pc.cargo = some x ∨ p' ≠ p ∧ (s.producers p').cargo = some x := by
  simp only [setPc] at hx
  by_cases hp : p' = p
  · subst hp
    rw [Function.update_self] at hx
    exact .inl ⟨rfl, hx⟩
  · rw [Function.update_of_ne hp] at hx
    exact .inr ⟨hp, hx⟩

theorem total_congr (hlines : s'.lines = s.lines) (hprocessed : s'.processed = s.processed) :
    s'.total t = s.total t := by
  unfold total queued inHand
  rw [hlines, hprocessed]

theorem Counted.frame (hc : s.Counted) (htotal : ∀ t, s'.total t = s.total t)
    (hcalls : s.calls ≤ s'.calls)
    (hcargo : ∀ p x, (s'.producers p).cargo = some x → (s.producers p).cargo = some x) :
    s'.Counted where
  single t := (htotal t).trans_le (hc.single t)
  carried p t c r hx := by
    obtain ⟨hzero, hlt⟩ := hc.carried p t c r (hcargo p _ hx)
    exact ⟨(htotal t).trans hzero, hlt.trans_le hcalls⟩
  apart p p' t c r c' r' hx hx' := hc.apart p p' t c r c' r' (hcargo p _ hx) (hcargo p' _ hx')
  fresh t ht := (htotal t).trans (hc.fresh t (hcalls.trans ht))

theorem Sound.frame (h : s.Sound) {out : Ref → List ℕ} (hnext : s'.lines.next = s.lines.next)
    (hlines : ∀ r, Line.Onward (s.lines.get r) (s'.lines.get r) (out r))
    (hqueue : s'.channelsQueue = s.channelsQueue) (hquit : s'.queueQuitCh = s.queueQuitCh)
    (hchannels : ∀ c ∈ s.channels, c ∈ s'.channels) (hwatched : s'.watched = s.watched)
    (hcargo : ∀ p t c r, (s'.producers p).cargo = some (t, c, r) →
      (s.producers p).cargo = some (t, c, r) ∨ s.channelsQueue.lookup c = some r)
    (hstarting : ∀ id ch todo new, s'.setter = .starting id ch todo new →
      s.channelsQueue.lookup id = none) : s'.Sound where
  paired c := by rw [hquit, hqueue, h.paired]
  listed c r hr := by
    rw [hqueue] at hr
    obtain ⟨hlt, hopen, hown, hmem⟩ := h.listed c r hr
    rw [hnext, (hlines r).quit, (hlines r).channel]
    exact ⟨hlt, hopen, hown, hchannels c hmem⟩
  alive r hr hopen := by
    rw [hnext] at hr
    rw [(hlines r).quit] at hopen
    exact (hlines r).alive hopen (h.alive r hr hopen)
  watching c r t hr ht := by
    rw [hqueue] at hr
    rw [hwatched]
    exact h.watching c r t hr ((hlines r).items ht)
  held p t c r hx := by
    rw [hnext, (hlines r).channel]
    rcases hcargo p t c r hx with hx | hr
    · exact h.held p t c r hx
    · obtain ⟨hlt, -, hown, -⟩ := h.listed c r hr
      exact ⟨hlt, hown⟩
  starting id ch todo new hs := by
    rw [hqueue]
    exact hstarting id ch todo new hs

theorem Kept.mono (h : s.Sound) (hkept : s.Kept t c) (hnext : s.lines.next ≤ s'.lines.next)
    (hitems : ∀ r < s.lines.next, (s.lines.get r).items ⊆ (s'.lines.get r).items)
    (hconsumers : ∀ r < s.lines.next, (s'.lines.get r).consumers = (s.lines.get r).consumers)
    (hprocessed : s'.processed = s.processed)
    (hqueue : ∀ r, s.channelsQueue.lookup c = some r → t ∈ (s.lines.get r).items →
      s'.channelsQueue.lookup c = some r) : s'.Kept t c := by
  rcases hkept with ⟨r, hr, ht, hne⟩ | ⟨r, hr, hbusy⟩ | ht
  · have hlt := (h.listed c r hr).1
    exact .inl ⟨r, hqueue r hr ht, hitems r hlt ht, by rw [hconsumers r hlt]; exact hne⟩
  · exact .inr (.inl ⟨r, hr.trans_le hnext, by rw [hconsumers r hr]; exact hbusy⟩)
  · exact .inr (.inr (by rw [hprocessed]; exact ht))

theorem Kept.of_eq (h : s.Sound) (hkept : s.Kept t c) (hlines : s'.lines = s.lines)
    (hprocessed : s'.processed = s.processed) (hqueue : s'.channelsQueue = s.channelsQueue) :
    s'.Kept t c := by
  refine hkept.mono h (hlines ▸ le_refl _) (fun r _ => ?_) (fun r _ => ?_) hprocessed
    fun r hr _ => ?_
  · rw [hlines]
    exact refl _
  · rw [hlines]
  · rw [hqueue, hr]

/-! ### A producer goes on -/

theorem Sound.setPc (h : s.Sound) {pc : Pc} {calls : ℕ}
    (hpc : ∀ t c r, pc.cargo = some (t, c, r) →
      (s.producers p).cargo = some (t, c, r) ∨ s.channelsQueue.lookup c = some r) :
    Sound { s.setPc p pc with calls } := by
  refine h.frame rfl (fun r => .refl _) rfl rfl (fun _ hm => hm) rfl (fun p' t c r hx => ?_)
    h.starting
  rcases of_cargo_setPc (s := s) hx with ⟨rfl, hnew⟩ | ⟨-, hold⟩
  · exact hpc t c r hnew
  · exact .inl hold

theorem Counted.setPc (hc : s.Counted) {pc : Pc} {calls : ℕ} (hcalls : s.calls ≤ calls)
    (hpc : ∀ x, pc.cargo = some x → (s.producers p).cargo = some x) :
    Counted { s.setPc p pc with calls } := by
  refine hc.frame (fun t => total_congr rfl rfl) hcalls fun p' x hx => ?_
  rcases of_cargo_setPc (s := s) hx with ⟨rfl, hnew⟩ | ⟨-, hold⟩
  · exact hpc x hnew
  · exact hold

/-- A new task is carried by one producer and is nowhere else. -/
theorem Counted.take (hc : s.Counted) :
    Counted { s.setPc p (.looked s.calls c r) with calls := s.calls + 1 } := by
  have htotal : ∀ t, total { s.setPc p (.looked s.calls c r) with calls := s.calls + 1 } t =
      s.total t := fun t => total_congr rfl rfl
  have hnew : ∀ {p' : ℕ} {t : ℕ} {c' : ℤ} {r' : Ref},
      ((s.setPc p (.looked s.calls c r)).producers p').cargo = some (t, c', r') →
        p' = p ∧ t = s.calls ∨ t < s.calls ∧ (s.producers p').cargo = some (t, c', r') := by
    intro p' t c' r' hx
    rcases of_cargo_setPc hx with ⟨rfl, hnew⟩ | ⟨-, hold⟩
    · exact .inl ⟨rfl, (congrArg Prod.fst (some.inj hnew)).symm⟩
    · exact .inr ⟨(hc.carried p' t c' r' hold).2, hold⟩
  refine ⟨fun t => (htotal t).trans_le (hc.single t), fun p' t c' r' hx => ?_,
    fun p₁ p₂ t c₁ r₁ c₂ r₂ h₁ h₂ => ?_,
    fun t ht => (htotal t).trans (hc.fresh t ((le_succ _).trans ht))⟩
  · rw [htotal]
    rcases hnew hx with ⟨-, rfl⟩ | ⟨hlt, hx⟩
    · exact ⟨hc.fresh _ le_rfl, lt_succ_self _⟩
    · exact ⟨(hc.carried p' t c' r' hx).1, lt_succ_of_lt hlt⟩
  · rcases hnew h₁ with ⟨rfl, rfl⟩ | ⟨hlt, h₁⟩
    · rcases hnew h₂ with ⟨rfl, -⟩ | ⟨hlt, -⟩
      · rfl
      · exact absurd hlt (lt_irrefl _)
    · rcases hnew h₂ with ⟨-, rfl⟩ | ⟨-, h₂⟩
      · exact absurd hlt (lt_irrefl _)
      · exact hc.apart p₁ p₂ t c₁ r₁ c₂ r₂ h₁ h₂

theorem Sound.lookup (h : s.Sound) : (s.lookup p c).Sound := by
  unfold World.lookup
  split_ifs
  · refine h.setPc fun t c' r hx => ?_
    cases hr : s.channelsQueue.lookup c with
    | none =>
      rw [hr] at hx
      cases hx
    | some r' =>
      rw [hr] at hx
      cases hx
      exact .inr hr
  · exact h

theorem Counted.lookup (hc : s.Counted) : (s.lookup p c).Counted := by
  unfold World.lookup
  split_ifs
  · cases s.channelsQueue.lookup c with
    | none => exact hc.setPc (le_succ _) fun x hx => by cases hx
    | some r => exact hc.take
  · exact hc

/-- The next program counter of a producer that has compared the length carries what it carried. -/
theorem cargo_checked {b : Prop} [Decidable b] {x : ℕ × ℤ × Ref}
    (hpc : s.producers p = .looked t c r)
    (hx : (if b then Pc.idle else Pc.checked t c r).cargo = some x) :
    (s.producers p).cargo = some x := by
  rw [hpc]
  split_ifs at hx
  · cases hx
  · exact hx

/-! ### A task is inserted -/

theorem items_pushFront (s : World) (p t : ℕ) (c : ℤ) (r r' : Ref) :
    ((s.pushFront p t c r).lines.get r').items =
      if r' = r then t :: (s.lines.get r).items else (s.lines.get r').items := by
  unfold pushFront
  rw [get_modify]
  split_ifs <;> rfl

theorem consumers_pushFront (s : World) (p t : ℕ) (c : ℤ) (r r' : Ref) :
    ((s.pushFront p t c r).lines.get r').consumers = (s.lines.get r').consumers :=
  proj_get_modify Line.consumers s.lines r r' (fun l => { l with items := t :: l.items }) rfl

theorem mem_watched_pushFront {x : ℕ × ℤ} :
    x ∈ (s.pushFront p t c r).watched ↔ x ∈ s.watched ∨ c ∈ s.channels ∧ x = (t, c) := by
  unfold pushFront
  split_ifs with hmem <;> simp [hmem]

section

variable (h : s.Sound) (hpc : s.producers p = .checked t c r)

include h hpc

theorem Sound.insert : (s.pushFront p t c r).Sound := by
  obtain ⟨hlt, hown⟩ := h.held p t c r (by rw [hpc]; rfl)
  have hquit : ∀ r', ((s.pushFront p t c r).lines.get r').quit = (s.lines.get r').quit := fun r' =>
    proj_get_modify Line.quit s.lines r r' (fun l => { l with items := t :: l.items }) rfl
  have hchannel : ∀ r', ((s.pushFront p t c r).lines.get r').channel = (s.lines.get r').channel :=
    fun r' =>
      proj_get_modify Line.channel s.lines r r' (fun l => { l with items := t :: l.items }) rfl
  refine ⟨h.paired, fun c' r' hr' => ?_, fun r' hr' => ?_, fun c' r' t' hr' ht' => ?_,
    fun p' t' c' r' hx => ?_, h.starting⟩
  · rw [hquit, hchannel]
    exact h.listed c' r' hr'
  · rw [hquit, consumers_pushFront]
    exact h.alive r' hr'
  · rw [mem_watched_pushFront]
    rw [items_pushFront] at ht'
    split_ifs at ht' with heq
    · subst heq
      -- the queue is the one the channel has, so the channel is there
      obtain ⟨-, -, hown', hmem⟩ := h.listed c' r' hr'
      obtain rfl : c' = c := hown'.symm.trans hown
      rcases mem_cons.mp ht' with rfl | ht'
      · exact .inr ⟨hmem, rfl⟩
      · exact .inl (h.watching c' r' t' hr' ht')
    · exact .inl (h.watching c' r' t' hr' ht')
  · rw [hchannel]
    rcases of_cargo_setPc (s := s) hx with ⟨-, hx⟩ | ⟨-, hx⟩
    · cases hx
    · exact h.held p' t' c' r' hx

/-- **An insertion counts its task once more.** -/
theorem total_pushFront (t' : ℕ) :
    (s.pushFront p t c r).total t' = s.total t' + if t = t' then 1 else 0 := by
  have hlt := (h.held p t c r (by rw [hpc]; rfl)).1
  have hqueued : (s.pushFront p t c r).queued t' = s.queued t' + if t = t' then 1 else 0 := by
    have hsum := s.lines.sum_modify (fun l => l.items.count t') hlt
      fun l => { l with items := t :: l.items }
    simp only [count_cons, beq_iff_eq] at hsum
    have hcount : (s.pushFront p t c r).queued t' = ∑ i ∈ range s.lines.next,
      ((s.lines.modify r fun l => { l with items := t :: l.items }).get i).items.count t' := rfl
    rw [← add_assoc, add_right_comm] at hsum
    exact hcount.trans (add_right_cancel hsum)
  have hinHand : (s.pushFront p t c r).inHand t' = s.inHand t' :=
    sum_congr rfl fun r' _ => by rw [consumers_pushFront]
  unfold total
  rw [hqueued, hinHand, add_right_comm _ _ (s.inHand t'), add_right_comm]
  rfl

theorem Counted.insert (hc : s.Counted) : (s.pushFront p t c r).Counted := by
  have hcargo : (s.producers p).cargo = some (t, c, r) := by rw [hpc]; rfl
  obtain ⟨hzero, hlt⟩ := hc.carried p t c r hcargo
  have hother : ∀ t', t ≠ t' → (s.pushFront p t c r).total t' = s.total t' := fun t' hne => by
    rw [total_pushFront h hpc, if_neg hne, add_zero]
  have hback : ∀ {p' : ℕ} {x : ℕ × ℤ × Ref}, ((s.pushFront p t c r).producers p').cargo = some x →
      p' ≠ p ∧ (s.producers p').cargo = some x := by
    intro p' x hx
    rcases of_cargo_setPc (s := s) hx with ⟨-, hx⟩ | hx
    · cases hx
    · exact hx
  refine ⟨fun t' => ?_, fun p' t' c' r' hx => ?_, fun p₁ p₂ t' c₁ r₁ c₂ r₂ h₁ h₂ =>
    hc.apart p₁ p₂ t' c₁ r₁ c₂ r₂ (hback h₁).2 (hback h₂).2, fun t' ht' => ?_⟩
  · by_cases heq : t = t'
    · subst heq
      rw [total_pushFront h hpc, if_pos rfl, hzero]
    · rw [hother t' heq]
      exact hc.single t'
  · obtain ⟨hne, hx⟩ := hback hx
    rw [hother t']
    · exact hc.carried p' t' c' r' hx
    · rintro rfl
      exact hne (hc.apart p' p t c' r' c r hx hcargo)
  · rw [hother t' (hlt.trans_le ht').ne]
    exact hc.fresh t' ht'

/-- **An insertion is served exactly if** it is into the queue the channel has, with somebody to
read it; nothing else is lost by it. -/
theorem kept_pushFront_iff (hc : s.Counted) : (s.pushFront p t c r).Kept t c ↔
      s.channelsQueue.lookup c = some r ∧ (s.lines.get r).consumers ≠ [] := by
  have hzero : s.queued t + s.inHand t + s.processed.count t = 0 :=
    (hc.carried p t c r (by rw [hpc]; rfl)).1
  constructor
  · rintro (⟨r', hr', ht, hne⟩ | ⟨r', hr', hbusy⟩ | ht)
    · rw [items_pushFront] at ht
      split_ifs at ht with heq
      · subst heq
        rw [consumers_pushFront] at hne
        exact ⟨hr', hne⟩
      · have := s.queued_pos_iff.mpr ⟨r', (h.listed c r' hr').1, ht⟩
        omega
    · rw [consumers_pushFront] at hbusy
      have := s.inHand_pos_iff.mpr ⟨r', hr', hbusy⟩
      omega
    · have : 0 < s.processed.count t := count_pos_iff.mpr ht
      omega
  · rintro ⟨hr, hne⟩
    refine .inl ⟨r, hr, ?_, ?_⟩
    · rw [items_pushFront, if_pos rfl]
      exact mem_cons_self
    · rw [consumers_pushFront]
      exact hne

end

theorem Kept.insert (h : s.Sound) {t' : ℕ} {c' : ℤ} (hkept : s.Kept t' c') :
    (s.pushFront p t c r).Kept t' c' := by
  refine hkept.mono h le_rfl (fun r' _ => ?_) (fun r' _ => consumers_pushFront s p t c r r') rfl
    fun r' hr' _ => hr'
  rw [items_pushFront]
  split_ifs with heq
  · subst heq
    exact subset_cons_self _ _
  · exact refl _

/-! ### A consumer goes on -/

theorem consume_of_lt (hr : r < s.lines.next) (i : ℕ) : s.consume r i = { s with
      lines := s.lines.modify r fun l => (l.consume i).1
      processed := s.processed ++ ((s.lines.get r).consume i).2 } := if_pos hr

theorem consume_of_not_lt (hr : ¬ r < s.lines.next) (i : ℕ) : s.consume r i = s := if_neg hr

theorem get_consume (s : World) {r : Ref} (hr : r < s.lines.next) (i : ℕ) (r' : Ref) :
    Line.Onward (s.lines.get r') ((s.consume r i).lines.get r')
      (if r' = r then ((s.lines.get r).consume i).2 else []) := by
  rw [consume_of_lt hr]
  rw [get_modify]
  split_ifs with heq
  · subst heq
    exact Line.consume_onward _ i
  · exact .refl _

/-- **A step of a consumer loses nothing and repeats nothing.** -/
theorem total_consume (hr : r < s.lines.next) (i t : ℕ) : (s.consume r i).total t = s.total t := by
  have hitems := s.lines.sum_modify (fun l => l.items.count t) hr fun l => (l.consume i).1
  have hhands := s.lines.sum_modify (fun l => l.consumers.count (.busy t)) hr
    fun l => (l.consume i).1
  have hcount := ((s.lines.get r).consume_onward i).count t
  rw [consume_of_lt hr]
  simp only [total, queued, inHand, next_modify, count_append]
  omega

theorem Sound.consume (h : s.Sound) (i : ℕ) : (s.consume r i).Sound := by
  by_cases hr : r < s.lines.next
  · have hget := s.get_consume hr i
    rw [consume_of_lt hr] at hget ⊢
    exact h.frame rfl hget rfl rfl (fun _ hm => hm) rfl (fun _ _ _ _ => .inl) h.starting
  · rw [consume_of_not_lt hr]
    exact h

theorem Counted.consume (hc : s.Counted) (i : ℕ) : (s.consume r i).Counted := by
  by_cases hr : r < s.lines.next
  · have htotal := total_consume hr i
    rw [consume_of_lt hr] at htotal ⊢
    exact hc.frame htotal le_rfl fun _ _ hx => hx
  · rw [consume_of_not_lt hr]
    exact hc

/-- A task of a line is after the step still on its list, or in a consumer's hands, or done. -/
theorem mem_or_kept_consume (hr : r < s.lines.next) (i : ℕ) {r' : Ref} (hr' : r' < s.lines.next)
    (hpos : 0 < (s.lines.get r').items.count t + (s.lines.get r').consumers.count (.busy t)) :
    t ∈ ((s.consume r i).lines.get r').items ∨ (s.consume r i).Kept t c := by
  rw [← (s.get_consume hr i r').count t] at hpos
  by_cases hitems : t ∈ ((s.consume r i).lines.get r').items
  · exact .inl hitems
  rw [count_eq_zero.mpr hitems, zero_add] at hpos
  refine .inr (.inr ?_)
  by_cases hbusy : .busy t ∈ ((s.consume r i).lines.get r').consumers
  · refine .inl ⟨r', ?_, hbusy⟩
    rw [consume_of_lt hr]
    exact hr'
  · rw [count_eq_zero.mpr hbusy, zero_add, count_pos_iff] at hpos
    rw [consume_of_lt hr]
    split_ifs at hpos
    · exact .inr (mem_append_right _ hpos)
    · cases hpos

/-- **A task is kept past a consumer's step**: off the list it is in hand, out of hand it is
done. -/
theorem Kept.consume (h : s.Sound) (hc : s.Counted) (hkept : s.Kept t c) (i : ℕ) :
    (s.consume r i).Kept t c := by
  by_cases hr : r < s.lines.next
  swap
  · rw [consume_of_not_lt hr]
    exact hkept
  have hget := s.get_consume hr i
  rcases hkept with ⟨r', hr', ht, hne⟩ | ⟨r', hr', hbusy⟩ | ht
  · have hpos : 0 < (s.lines.get r').items.count t := count_pos_iff.mpr ht
    rcases mem_or_kept_consume hr i (h.listed c r' hr').1 (Nat.add_pos_left hpos _) with
      hitems | hkept
    · refine .inl ⟨r', ?_, hitems, fun hnil => hne ?_⟩
      · rw [consume_of_lt hr]
        exact hr'
      · rw [← length_eq_zero_iff, ← (hget r').length, hnil, length_nil]
    · exact hkept
  · have hpos : 0 < (s.lines.get r').consumers.count (.busy t) := count_pos_iff.mpr hbusy
    rcases mem_or_kept_consume hr i hr' (Nat.add_pos_right _ hpos) with hitems | hkept
    · -- a task in hand is in no list
      have hzero := (hc.of_queued hr' ((hget r').items hitems)).1
      have := s.inHand_pos_iff.mpr ⟨r', hr', hbusy⟩
      omega
    · exact hkept
  · rw [consume_of_lt hr]
    exact .inr (.inr (mem_append_left _ ht))

/-! ### A channel gives up its queue -/

/-- **The queue of a channel is given up**: out of both tables, its consumers told to stop. -/
structure Dropped (id : ℤ) (s s' : World) : Prop where
  next : s'.lines.next = s.lines.next
  get : ∀ r, s'.lines.get r = if s.channelsQueue.lookup id = some r
    then { s.lines.get r with quit := true } else s.lines.get r
  queue : ∀ c, s'.channelsQueue.lookup c = if c = id then none else s.channelsQueue.lookup c
  quitCh : ∀ c, s'.queueQuitCh.lookup c = if c = id then none else s.queueQuitCh.lookup c
  producers : s'.producers = s.producers
  calls : s'.calls = s.calls
  processed : s'.processed = s.processed
  channels : ∀ c ≠ id, c ∈ s.channels → c ∈ s'.channels

theorem dropped_self (h : s.Sound) (hid : s.queueQuitCh.lookup id = none) : Dropped id s s where
  next := rfl
  get r := by rw [← h.paired, hid, if_neg (by simp)]
  queue c := by
    split_ifs with hc
    · rw [hc, ← h.paired, hid]
    · rfl
  quitCh c := by
    split_ifs with hc
    · rw [hc, hid]
    · rfl
  producers := rfl
  calls := rfl
  processed := rfl
  channels _ _ hm := hm

theorem dropped_quit (h : s.Sound) (id : ℤ) :
    Dropped id s { s.quit id with channelsQueue := s.channelsQueue.erase id } := by
  unfold quit
  cases hid : s.queueQuitCh.lookup id with
  | none =>
    have hself := dropped_self h hid
    exact ⟨rfl, hself.get, lookup_erase_ite _ id, hself.quitCh, rfl, rfl, rfl, fun _ _ hm => hm⟩
  | some r =>
    refine ⟨rfl, fun r' => ?_, lookup_erase_ite _ id, lookup_erase_ite _ id, rfl, rfl,
      rfl, fun _ _ hm => hm⟩
    rw [← h.paired, hid, elim_some, get_modify]
    by_cases heq : r' = r
    · rw [if_pos heq, if_pos (congrArg some heq.symm), heq]
    · rw [if_neg heq, if_neg fun hsome => heq (some.inj hsome).symm]

theorem dropped_removeChannel (h : s.Sound) (id : ℤ) : Dropped id s (s.removeChannel id) := by
  have hd := dropped_quit h id
  refine ⟨hd.next, hd.get, hd.queue, hd.quitCh, hd.producers, hd.calls, hd.processed, ?_⟩
  intro c hc hm
  exact mem_erase.mpr ⟨hc, hm⟩

theorem dropped_stopChannelResources (h : s.Sound) (id : ℤ) :
    Dropped id s (s.stopChannelResources id) := by
  unfold stopChannelResources
  cases hid : s.queueQuitCh.lookup id with
  | none => exact dropped_self h hid
  | some r => exact dropped_quit h id

namespace Dropped

variable (hd : Dropped id s s')

include hd

theorem items (r : Ref) : (s'.lines.get r).items = (s.lines.get r).items := by
  rw [hd.get]
  split_ifs <;> rfl

theorem consumers (r : Ref) : (s'.lines.get r).consumers = (s.lines.get r).consumers := by
  rw [hd.get]
  split_ifs <;> rfl

theorem channel (r : Ref) : (s'.lines.get r).channel = (s.lines.get r).channel := by
  rw [hd.get]
  split_ifs <;> rfl

theorem of_queue {c : ℤ} (hr : s'.channelsQueue.lookup c = some r) :
    c ≠ id ∧ s.channelsQueue.lookup c = some r := by
  rw [hd.queue] at hr
  split_ifs at hr with hc
  exact ⟨hc, hr⟩

theorem setter (setter : Setter) : Dropped id s { s' with setter } :=
  ⟨hd.next, hd.get, hd.queue, hd.quitCh, hd.producers, hd.calls, hd.processed, hd.channels⟩

theorem total (t : ℕ) : s'.total t = s.total t := by
  unfold World.total queued inHand
  rw [hd.next, hd.processed]
  simp only [hd.items, hd.consumers]

theorem sound (h : s.Sound) (hwatched : ∀ x ∈ s.watched, x.2 ≠ id → x ∈ s'.watched)
    (hstarting : ∀ id' ch todo new, s'.setter = .starting id' ch todo new → id' = id) :
    s'.Sound where
  paired c := by rw [hd.quitCh, hd.queue, h.paired]
  listed c r hr := by
    obtain ⟨hc, hr⟩ := hd.of_queue hr
    obtain ⟨hlt, hopen, hown, hmem⟩ := h.listed c r hr
    -- a line belongs to one channel, so it is not the line that is closed
    have hother : s.channelsQueue.lookup id ≠ some r := fun hid =>
      hc (hown.symm.trans (h.listed id r hid).2.2.1)
    rw [hd.next, hd.get, if_neg hother]
    exact ⟨hlt, hopen, hown, hd.channels c hc hmem⟩
  alive r hr hopen := by
    rw [hd.next] at hr
    rw [hd.consumers]
    rw [hd.get] at hopen
    split_ifs at hopen
    exact h.alive r hr hopen
  watching c r t hr ht := by
    obtain ⟨hc, hr⟩ := hd.of_queue hr
    rw [hd.items] at ht
    exact hwatched _ (h.watching c r t hr ht) hc
  held p t c r hx := by
    rw [hd.producers] at hx
    rw [hd.next, hd.channel]
    exact h.held p t c r hx
  starting id' ch todo new hs := by
    rw [hd.queue, if_pos (hstarting id' ch todo new hs)]

theorem counted (hc : s.Counted) : s'.Counted :=
  hc.frame hd.total hd.calls.ge fun p x hx => by rwa [hd.producers] at hx

theorem mono (h : s.Sound) (hkept : s.Kept t c)
    (hqueue : ∀ r, s.channelsQueue.lookup c = some r → t ∈ (s.lines.get r).items →
      s'.channelsQueue.lookup c = some r) : s'.Kept t c := by
  refine hkept.mono h hd.next.ge (fun r _ => ?_) (fun r _ => hd.consumers r) hd.processed hqueue
  rw [hd.items]
  exact refl _

/-- **A task of the channel is kept exactly if** it was not in the queue. -/
theorem kept_iff (h : s.Sound) (hc : s.Counted) (hkept : s.Kept t id) :
    s'.Kept t id ↔ ∀ r, s.channelsQueue.lookup id = some r → t ∉ (s.lines.get r).items := by
  constructor
  · intro hkept' r hr ht
    obtain ⟨hhand, hdone⟩ := hc.of_queued (h.listed id r hr).1 ht
    rcases hkept' with ⟨r', hr', -⟩ | ⟨r', hr', hbusy⟩ | ht'
    · exact (hd.of_queue hr').1 rfl
    · rw [hd.next] at hr'
      rw [hd.consumers] at hbusy
      have := s.inHand_pos_iff.mpr ⟨r', hr', hbusy⟩
      omega
    · rw [hd.processed] at ht'
      exact count_eq_zero.mp hdone ht'
  · intro hnot
    exact hd.mono h hkept fun r hr ht => absurd ht (hnot r hr)

theorem kept_of_ne (h : s.Sound) (hne : c ≠ id) (hkept : s.Kept t c) : s'.Kept t c :=
  hd.mono h hkept fun r hr _ => by rw [hd.queue, if_neg hne, hr]

end Dropped

/-! ### A channel gets a queue -/

theorem Sound.startHttpChannel (h : s.Sound) (hmem : id ∈ s.channels)
    (hset : ∀ id' ch todo new, s.setter ≠ .starting id' ch todo new) (ch : Channel) :
    (s.startHttpChannel id ch).Sound := by
  unfold World.startHttpChannel
  cases ch.concurrency with
  | none => exact h
  | some n =>
    rw [elim_some]
    have hold : ∀ r < s.lines.next, (s.lines.alloc
        { channel := id, consumers := replicate n.toNat .select }).get r = s.lines.get r :=
      fun r hr => get_alloc_of_lt _ _ hr
    have hnew := get_alloc_self s.lines
      { channel := id, consumers := replicate n.toNat .select }
    refine ⟨fun c => ?_, fun c r hr => ?_, fun r hr hopen => ?_, fun c r t hr ht => ?_,
      fun p t c r hx => ?_, fun id' ch' todo new hs => absurd hs (hset id' ch' todo new)⟩
    · rw [lookup_insert_ite, lookup_insert_ite, h.paired]
    · rcases lookup_insert_eq_some.mp hr with ⟨hc, rfl⟩ | ⟨-, hr⟩
      · rw [hnew]
        exact ⟨lt_succ_self _, rfl, hc.symm, hc ▸ hmem⟩
      · obtain ⟨hlt, hrest⟩ := h.listed c r hr
        rw [hold r hlt]
        exact ⟨lt_succ_of_lt hlt, hrest⟩
    · rcases Nat.lt_succ_iff_lt_or_eq.mp hr with hlt | rfl
      · rw [hold r hlt] at hopen ⊢
        exact h.alive r hlt hopen
      · rw [hnew]
        exact fun hdone => by cases eq_of_mem_replicate hdone
    · rcases lookup_insert_eq_some.mp hr with ⟨-, rfl⟩ | ⟨-, hr⟩
      · rw [hnew] at ht
        cases ht
      · rw [hold r (h.listed c r hr).1] at ht
        exact h.watching c r t hr ht
    · obtain ⟨hlt, hown⟩ := h.held p t c r hx
      rw [hold r hlt]
      exact ⟨lt_succ_of_lt hlt, hown⟩

theorem Counted.startHttpChannel (hc : s.Counted) (id : ℤ) (ch : Channel) :
    (s.startHttpChannel id ch).Counted := by
  unfold World.startHttpChannel
  cases ch.concurrency with
  | none => exact hc
  | some n =>
    refine hc.frame (fun t => ?_) le_rfl fun _ _ hx => hx
    have hitems := s.lines.sum_alloc (fun l => l.items.count t)
      { channel := id, consumers := replicate n.toNat .select }
    have hhands := s.lines.sum_alloc (fun l => l.consumers.count (.busy t))
      { channel := id, consumers := replicate n.toNat .select }
    have hidle : (replicate n.toNat Stage.select).count (.busy t) = 0 :=
      count_eq_zero.mpr fun hmem => by cases eq_of_mem_replicate hmem
    simp only [total, queued, inHand, elim_some, next_alloc]
    rw [hitems, hhands, hidle, count_nil]
    rfl

theorem Kept.startHttpChannel (h : s.Sound) (hnone : s.channelsQueue.lookup id = none)
    (hkept : s.Kept t c) (ch : Channel) : (s.startHttpChannel id ch).Kept t c := by
  unfold World.startHttpChannel
  cases ch.concurrency with
  | none => exact hkept
  | some n =>
    refine hkept.mono h (le_succ _) (fun r hr => ?_) (fun r hr => ?_) rfl fun r hr _ => ?_
    · rw [elim_some, get_alloc_of_lt _ _ hr]
      exact refl _
    · rw [elim_some, get_alloc_of_lt _ _ hr]
    · rw [elim_some, lookup_insert_ite, if_neg]
      · exact hr
      · rintro rfl
        rw [hnone] at hr
        cases hr

/-- `startChannel` in two moves: the configuration, and then the line. -/
theorem startChannel_eq (s : World) (id : ℤ) (ch : Channel) (setter : Setter) :
    { s.startChannel id ch with setter } =
      if ch.requestType = "http"
      then startHttpChannel { s with channels := s.channels.insert id ch, setter } id ch
      else { s with channels := s.channels.insert id ch, setter } := by
  unfold startChannel
  split_ifs
  · unfold startHttpChannel
    cases ch.concurrency <;> rfl
  · rfl

/-- **A channel is started**, with whatever resources it gets. -/
theorem start (h : s.Sound) (hc : s.Counted) (hnone : s.channelsQueue.lookup id = none)
    (ch : Channel) (todo : List ℤ) (new : GoMap ℤ Channel) :
    let s' := { s.startChannel id ch with setter := .adding todo new }
    s'.Sound ∧ s'.Counted ∧ ∀ t c, s.Kept t c → s'.Kept t c := by
  intro s'
  have hs' : s' = { s.startChannel id ch with setter := .adding todo new } := rfl
  rw [startChannel_eq] at hs'
  have hsound : Sound { s with
      channels := s.channels.insert id ch
      setter := .adding todo new } :=
    h.frame rfl (fun r => .refl _) rfl rfl (fun c hm => mem_insert.mpr (.inr hm)) rfl
      (fun _ _ _ _ => .inl) fun _ _ _ _ hs => by cases hs
  have hcounted : Counted { s with
      channels := s.channels.insert id ch
      setter := .adding todo new } :=
    hc.frame (fun t => total_congr rfl rfl) le_rfl fun _ _ hx => hx
  have hkept : ∀ t c, s.Kept t c → Kept { s with
      channels := s.channels.insert id ch
      setter := .adding todo new } t c := fun t c hk => hk.of_eq h rfl rfl rfl
  rw [hs']
  split_ifs
  · refine ⟨hsound.startHttpChannel (mem_insert.mpr (.inl rfl)) ?_ ch,
      hcounted.startHttpChannel id ch,
      fun t c hk => (hkept t c hk).startHttpChannel hsound hnone ch⟩
    intro id' ch' todo' new' hs
    cases hs
  · exact ⟨hsound, hcounted, hkept⟩

/-! ### All steps -/

/-- **What a step of `Set` can do**: nothing to any channel, remove one, stop one that has changed,
start one that was stopped or is new. -/
inductive Sets (s : World) : World → Prop
  | rests (setter : Setter) (hno : ∀ id ch, ¬ s.Updates id ch)
      (hset : ∀ id ch todo new, setter = .starting id ch todo new →
        s.channelsQueue.lookup id = none) : Sets s { s with setter }
  | removes (id : ℤ) (setter : Setter) (hno : ∀ id ch, ¬ s.Updates id ch)
      (hset : ∀ id ch todo new, setter ≠ .starting id ch todo new) :
      Sets s { s.removeChannel id with setter }
  | stops (id : ℤ) (ch : Channel) (todo : List ℤ) (new : GoMap ℤ Channel)
      (hupdates : ∀ id' ch', s.Updates id' ch' ↔ id' = id ∧ ch' = ch) :
      Sets s { s.stopChannelResources id with setter := .starting id ch todo new }
  | starts (id : ℤ) (ch : Channel) (todo : List ℤ) (new : GoMap ℤ Channel)
      (hno : ∀ id ch, ¬ s.Updates id ch) (hnone : s.channelsQueue.lookup id = none) :
      Sets s { s.startChannel id ch with setter := .adding todo new }

theorem not_updates (hne : ∀ id todo new, s.setter ≠ .adding (id :: todo) new) (id : ℤ)
    (ch : Channel) : ¬ s.Updates id ch := by
  rintro ⟨todo, new, hs, -⟩
  exact hne id todo new hs

theorem updates_iff {todo : List ℤ} {new : GoMap ℤ Channel}
    (hs : s.setter = .adding (id :: todo) new) {id' : ℤ} {ch : Channel} :
    s.Updates id' ch ↔ id' = id ∧ new.lookup id = some ch ∧ s.Changed id ch := by
  constructor
  · rintro ⟨todo', new', hs', hlookup, hchanged⟩
    rw [hs] at hs'
    cases hs'
    exact ⟨rfl, hlookup, hchanged⟩
  · rintro ⟨rfl, hlookup, hchanged⟩
    exact ⟨todo, new, hs, hlookup, hchanged⟩

theorem sets_adding (h : s.Sound) {todo : List ℤ} {new : GoMap ℤ Channel}
    (hs : s.setter = .adding (id :: todo) new) : Sets s s.set := by
  unfold set
  rw [hs]
  dsimp only
  cases hch : new.lookup id with
  | none =>
    refine .rests _ (fun id' ch' hu => ?_) (by simp)
    obtain ⟨-, hlookup, -⟩ := (updates_iff hs).mp hu
    rw [hch] at hlookup
    cases hlookup
  | some ch =>
    rw [elim_some]
    have hupdates : ∀ id' ch', s.Updates id' ch' → id' = id ∧ ch' = ch ∧ s.Changed id ch := by
      intro id' ch' hu
      obtain ⟨hid, hlookup, hchanged⟩ := (updates_iff hs).mp hu
      obtain rfl := some.inj (hch.symm.trans hlookup)
      exact ⟨hid, rfl, hchanged⟩
    split_ifs with hchanged hmem
    · refine .stops id ch todo new fun id' ch' => ⟨fun hu => ?_, ?_⟩
      · exact ⟨(hupdates id' ch' hu).1, (hupdates id' ch' hu).2.1⟩
      · rintro ⟨rfl, rfl⟩
        exact (updates_iff hs).mpr ⟨rfl, hch, hchanged⟩
    · exact .rests _ (fun id' ch' hu => hchanged (hupdates id' ch' hu).2.2) (by simp)
    · refine .rests _ (fun id' ch' hu => hchanged (hupdates id' ch' hu).2.2)
        fun id' ch' todo' new' heq => ?_
      cases heq
      exact eq_none_iff_forall_ne_some.mpr fun r hr => hmem (h.listed id r hr).2.2.2

theorem sets_set (h : s.Sound) : Sets s s.set := by
  unfold set
  cases hs : s.setter with
  | idle => exact .rests s.setter (not_updates (by simp [hs])) h.starting
  | removing todo new order =>
    have hno : ∀ id ch, ¬ s.Updates id ch := not_updates (by simp [hs])
    cases todo with
    | nil => exact .rests _ hno (by simp)
    | cons id todo =>
      dsimp only
      split_ifs
      · exact .rests _ hno (by simp)
      · exact .removes id _ hno (by simp)
  | adding todo new =>
    cases todo with
    | nil => exact .rests _ (not_updates (by simp [hs])) (by simp)
    | cons id todo => simpa only [set, hs] using sets_adding h hs
  | starting id ch todo new =>
    exact .starts id ch todo new (not_updates (by simp [hs])) (h.starting id ch todo new hs)

theorem removeChannel_watched (s : World) (id : ℤ) {x : ℕ × ℤ} :
    x ∈ (s.removeChannel id).watched ↔ x ∈ s.watched ∧ x.2 ≠ id := by
  unfold removeChannel
  rw [mem_filter, decide_eq_true_iff]

theorem watched_stopChannelResources (s : World) (id : ℤ) :
    (s.stopChannelResources id).watched = s.watched := by
  unfold stopChannelResources quit
  cases s.queueQuitCh.lookup id <;> rfl

theorem watched_startChannel (s : World) (id : ℤ) (ch : Channel) :
    (s.startChannel id ch).watched = s.watched := by
  unfold startChannel startHttpChannel
  split_ifs
  · cases ch.concurrency <;> rfl
  · rfl

theorem Sound.set (h : s.Sound) (hc : s.Counted) : s.set.Sound := by
  have hsets := sets_set h
  generalize s.set = s' at hsets ⊢
  cases hsets with
  | rests setter hno hset =>
    exact h.frame rfl (fun r => .refl _) rfl rfl (fun _ hm => hm) rfl (fun _ _ _ _ => .inl) hset
  | removes id setter hno hset =>
    have hd := (dropped_removeChannel h id).setter setter
    refine hd.sound h (fun x hx hne => ?_) fun id' ch todo new hs => ?_
    · exact (s.removeChannel_watched id).mpr ⟨hx, hne⟩
    · exact absurd hs (hset id' ch todo new)
  | stops id ch todo new hupdates =>
    have hd := (dropped_stopChannelResources h id).setter (.starting id ch todo new)
    refine hd.sound h (fun x hx hne => ?_) fun id' ch' todo' new' hs => ?_
    · dsimp only
      rw [watched_stopChannelResources]
      exact hx
    · cases hs
      rfl
  | starts id ch todo new hno hnone => exact (start h hc hnone ch todo new).1

theorem Counted.set (h : s.Sound) (hc : s.Counted) : s.set.Counted := by
  have hsets := sets_set h
  generalize s.set = s' at hsets ⊢
  cases hsets with
  | rests setter hno hset => exact hc.frame (fun t => total_congr rfl rfl) le_rfl fun _ _ hx => hx
  | removes id setter hno hset => exact ((dropped_removeChannel h id).setter setter).counted hc
  | stops id ch todo new hupdates =>
    exact ((dropped_stopChannelResources h id).setter _).counted hc
  | starts id ch todo new hno hnone => exact (start h hc hnone ch todo new).2.1

theorem Sound.produce (h : s.Sound) (p : ℕ) : (s.produce p).Sound := by
  unfold World.produce
  cases hpc : s.producers p with
  | idle => exact h
  | looked t c r => exact h.setPc fun t' c' r' hx => .inl (cargo_checked hpc hx)
  | checked t c r => exact h.insert hpc

theorem Counted.produce (h : s.Sound) (hc : s.Counted) (p : ℕ) : (s.produce p).Counted := by
  unfold World.produce
  cases hpc : s.producers p with
  | idle => exact hc
  | looked t c r => exact hc.setPc le_rfl fun x hx => cargo_checked hpc hx
  | checked t c r => exact hc.insert h hpc

/-- **The tables stay sound.** -/
theorem Sound.step (h : s.Sound) (hc : s.Counted) (m : Move) : (s.step m).Sound := by
  cases m with
  | lookup p c => exact h.lookup
  | produce p => exact h.produce p
  | consume r i => exact h.consume i
  | beginSet new removing adding =>
    unfold World.step
    split_ifs
    · exact h.frame rfl (fun r => .refl _) rfl rfl (fun _ hm => hm) rfl (fun _ _ _ _ => .inl)
        fun _ _ _ _ hs => by cases hs
    · exact h
  | set => exact h.set hc

/-- **No step doubles a task.** -/
theorem Counted.step (h : s.Sound) (hc : s.Counted) (m : Move) : (s.step m).Counted := by
  cases m with
  | lookup p c => exact hc.lookup
  | produce p => exact hc.produce h p
  | consume r i => exact hc.consume i
  | beginSet new removing adding =>
    unfold World.step
    split_ifs
    · exact hc.frame (fun t => total_congr rfl rfl) le_rfl fun _ _ hx => hx
    · exact hc
  | set => exact hc.set h

/-- **No task is doubled and every queue is its channel's own**, in every interleaving, whatever
`Set` stops on the way. -/
theorem sound_counted_run (moves : List Move) :
    (moves.foldl step {}).Sound ∧ (moves.foldl step {}).Counted :=
  foldlRecOn (motive := fun s => Sound s ∧ Counted s) moves _ ⟨sound_init, counted_init⟩
    fun _ h m _ => ⟨h.1.step h.2 m, h.2.step h.1 m⟩

/-- Nothing is asked of a step that leaves everything where it is. -/
theorem forall_kept_of_eq (h : s.Sound) (hkept : ∀ x ∈ s.watched, s.Kept x.1 x.2)
    (hlines : s'.lines = s.lines) (hprocessed : s'.processed = s.processed)
    (hqueue : s'.channelsQueue = s.channelsQueue) (hwatched : s'.watched = s.watched) :
    ∀ x ∈ s'.watched, s'.Kept x.1 x.2 := fun x hx =>
  (hkept x (hwatched ▸ hx)).of_eq h hlines hprocessed hqueue

theorem calm_produce_iff (hpc : s.producers p = .checked t c r) : s.Calm (.produce p) ↔
    (c ∈ s.channels → s.channelsQueue.lookup c = some r ∧ (s.lines.get r).consumers ≠ []) := by
  constructor
  · intro hall
    exact hall t c r hpc
  · intro hone t' c' r' heq
    rw [hpc] at heq
    cases heq
    exact hone

theorem kept_produce_iff (h : s.Sound) (hc : s.Counted)
    (hkept : ∀ x ∈ s.watched, s.Kept x.1 x.2) (p : ℕ) :
    (∀ x ∈ (s.produce p).watched, (s.produce p).Kept x.1 x.2) ↔ s.Calm (.produce p) := by
  unfold produce
  cases hpc : s.producers p with
  | idle =>
    refine iff_of_true hkept fun t c r heq => ?_
    rw [hpc] at heq
    cases heq
  | looked t c r =>
    refine iff_of_true (forall_kept_of_eq h hkept rfl rfl rfl rfl) fun t' c' r' heq => ?_
    rw [hpc] at heq
    cases heq
  | checked t c r =>
    rw [calm_produce_iff hpc, ← kept_pushFront_iff h hpc hc]
    constructor
    · intro hall hmem
      exact hall (t, c) (mem_watched_pushFront.mpr (.inr ⟨hmem, rfl⟩))
    · intro hone x hx
      rcases mem_watched_pushFront.mp hx with hx | ⟨hmem, rfl⟩
      · exact (hkept x hx).insert h
      · exact hone hmem

theorem kept_set_iff (h : s.Sound) (hc : s.Counted) (hkept : ∀ x ∈ s.watched, s.Kept x.1 x.2) :
    (∀ x ∈ s.set.watched, s.set.Kept x.1 x.2) ↔ s.Calm .set := by
  have hcalm : (∀ id ch, ¬ s.Updates id ch) → s.Calm .set := fun hno id ch r hu =>
    absurd hu (hno id ch)
  have hsets := sets_set h
  generalize s.set = s' at hsets ⊢
  cases hsets with
  | rests setter hno hset =>
    exact iff_of_true (forall_kept_of_eq h hkept rfl rfl rfl rfl) (hcalm hno)
  | removes id setter hno hset =>
    refine iff_of_true (fun x hx => ?_) (hcalm hno)
    obtain ⟨hx, hne⟩ := (s.removeChannel_watched id).mp hx
    exact ((dropped_removeChannel h id).setter setter).kept_of_ne h hne (hkept x hx)
  | stops id ch todo new hupdates =>
    have hd := (dropped_stopChannelResources h id).setter (.starting id ch todo new)
    have hwatched := s.watched_stopChannelResources id
    constructor
    · intro hall id' ch' r hu hr
      obtain ⟨rfl, rfl⟩ := (hupdates id' ch').mp hu
      rw [h.paired] at hr
      refine eq_nil_iff_forall_not_mem.mpr fun t ht => ?_
      have hx : (t, id') ∈ s.watched := h.watching id' r t hr ht
      exact (hd.kept_iff h hc (hkept _ hx)).mp (hall _ (hwatched.symm ▸ hx)) r hr ht
    · intro hcalm x hx
      have hx : x ∈ s.watched := hwatched ▸ hx
      by_cases hid : x.2 = id
      · have hk := hkept x hx
        rw [hid] at hk ⊢
        refine (hd.kept_iff h hc hk).mpr fun r hr => ?_
        rw [← h.paired] at hr
        rw [hcalm id ch r ((hupdates id ch).mpr ⟨rfl, rfl⟩) hr]
        exact not_mem_nil
      · exact hd.kept_of_ne h hid (hkept x hx)
  | starts id ch todo new hno hnone =>
    refine iff_of_true (fun x hx => ?_) (hcalm hno)
    refine (start h hc hnone ch todo new).2.2 x.1 x.2 (hkept x ?_)
    rw [← s.watched_startChannel id ch]
    exact hx

/-- **A step is safe exactly if it is calm**, as long as nothing has been lost before. -/
theorem safe_step_iff (h : s.Sound) (hc : s.Counted) (hsafe : s.Safe) (m : Move) :
    (s.step m).Safe ↔ s.Calm m := by
  have hkept := (safe_iff h hc).mp hsafe
  rw [safe_iff (h.step hc m) (hc.step h m)]
  cases m with
  | lookup p c =>
    refine iff_of_true ?_ trivial
    unfold step lookup
    dsimp only
    split_ifs
    · exact forall_kept_of_eq h hkept rfl rfl rfl rfl
    · exact hkept
  | produce p => exact kept_produce_iff h hc hkept p
  | consume r i =>
    have hwatched : (s.consume r i).watched = s.watched := by
      unfold consume
      split_ifs <;> rfl
    exact iff_of_true (fun x hx => (hkept x (hwatched ▸ hx)).consume h hc i) trivial
  | beginSet new removing adding =>
    refine iff_of_true ?_ trivial
    unfold step
    split_ifs
    · exact forall_kept_of_eq h hkept rfl rfl rfl rfl
    · exact hkept
  | set => exact kept_set_iff h hc hkept

end Steps

/-- **No accepted task is lost or doubled exactly in the calm runs**: nothing is missing after any
step if and only if no step updates a channel whose queue is not empty, or inserts into a queue its
channel no longer has or nobody reads. -/
theorem tasks_served_iff (moves : List Move) :
    Along step (fun s m => (s.step m).Safe) {} moves ↔ Along step Calm {} moves := by
  have hempty : Sound {} ∧ Counted {} ∧ Safe {} :=
    ⟨sound_init, counted_init, fun x hx => by cases hx⟩
  constructor
  · intro hsafe
    exact hsafe.imp (I := fun s => s.Sound ∧ s.Counted ∧ s.Safe)
      (fun s m hm hs => ⟨hs.1.step hs.2.1 m, hs.2.1.step hs.1 m, hm⟩)
      (fun s m hm hs => (safe_step_iff hs.1 hs.2.1 hs.2.2 m).mp hm) hempty
  · intro hcalm
    exact hcalm.imp (I := fun s => s.Sound ∧ s.Counted ∧ s.Safe)
      (fun s m hm hs => ⟨hs.1.step hs.2.1 m, hs.2.1.step hs.1 m,
        (safe_step_iff hs.1 hs.2.1 hs.2.2 m).mpr hm⟩)
      (fun s m hm hs => (safe_step_iff hs.1 hs.2.1 hs.2.2 m).mpr hm) hempty

end World

namespace Example

/-- One `http` channel with one consumer, saved at the given time. -/
def channel (updateAt : ℤ) : GoMap ℤ Channel := singleton 1 ⟨updateAt, "http", some 1⟩

/-- The channel is made. -/
def made : List Move :=
  .beginSet (channel 1) (MapOrder.sortBy (· ≤ ·)) (MapOrder.sortBy (· ≤ ·)) :: replicate 4 .set

/-- The channel is saved again, and the old consumer takes notice. -/
def updated : List Move :=
  .beginSet (channel 2) (MapOrder.sortBy (· ≤ ·)) (MapOrder.sortBy (· ≤ ·)) ::
    replicate 5 .set ++ [.consume 0 0]

/-- A task that is queued when the channel is updated. -/
def queued : List Move := made ++ [.lookup 0 1, .produce 0, .produce 0] ++ updated

/-- A task whose queue was looked up before the update, and is inserted after it. -/
def stale : List Move := made ++ [.lookup 0 1, .produce 0] ++ updated ++ [.produce 0]

/-- Task 0 was accepted for channel 1, which is there; it is not served, and every consumer of a
queue that has it has returned. -/
def Abandoned (s : World) : Prop :=
  (0, 1) ∈ s.watched ∧ 1 ∈ s.channels ∧ ¬ s.Served 0 1 ∧
    ∀ r < s.lines.next, 0 ∈ (s.lines.get r).items → ∀ st ∈ (s.lines.get r).consumers, st = .done

instance (s : World) : Decidable (Abandoned s) := inferInstanceAs (Decidable (_ ∧ _))

end Example

/-- **Two ways to lose a task.** -/
theorem updated_channel_abandons_task : Example.Abandoned (Example.queued.foldl step {}) ∧
      Example.Abandoned (Example.stale.foldl step {}) := by
  decide +kernel

end Nightingale.Channels
