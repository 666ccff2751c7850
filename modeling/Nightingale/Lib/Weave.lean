import Nightingale.Lib.MapOrder

/-!
# Lib/Weave — writers to one map, interleaved

Several writers share a map with atomic stores and deletions, as a `sync.Map` is shared.  `weave`
is one interleaving of their writes, chosen by a schedule; every writer keeps its own order.

The last write to a key is the last of *its own* writer (`lastOn_weave`), so of each writer only the
last write to each key counts.  What the writers leave behind is the same under every interleaving
exactly if writers that share a key leave the same there (`same_iff_agree`).
-/

namespace Nightingale.Weave

open List Option

variable {κ β ι : Type*} [DecidableEq κ]

/-- A store, or a deletion. -/
structure Write (κ β : Type*) where
  key : κ
  value : Option β

/-- One write. -/
def Write.apply (m : GoMap κ β) (w : Write κ β) : GoMap κ β :=
  match w.value with
  | some b => m.insert w.key b
  | none => m.erase w.key

/-- Writes one after another. -/
def run (m : GoMap κ β) (ws : List (Write κ β)) : GoMap κ β := ws.foldl Write.apply m

/-- The last write to a key, if there is one. -/
def lastOn (k : κ) : List (Write κ β) → Option (Option β)
  | [] => none
  | w :: ws => (lastOn k ws).or (if w.key = k then some w.value else none)

theorem lastOn_append (k : κ) (ws ws' : List (Write κ β)) :
    lastOn k (ws ++ ws') = (lastOn k ws').or (lastOn k ws) := by
  induction ws with
  | nil => simp [lastOn]
  | cons w ws ih => simp [lastOn, ih, Option.or_assoc]

theorem lookup_apply (m : GoMap κ β) (w : Write κ β) (k : κ) :
    (w.apply m).lookup k = if w.key = k then w.value else m.lookup k := by
  rw [Write.apply]
  cases hw : w.value with
  | none => simp only [GoMap.lookup_erase_ite, eq_comm]
  | some b => simp only [GoMap.lookup_insert_ite, eq_comm]

/-- **A key holds what was last written to it.** -/
theorem lookup_run (m : GoMap κ β) (ws : List (Write κ β)) (k : κ) :
    (run m ws).lookup k = (lastOn k ws).getD (m.lookup k) := by
  induction ws generalizing m with
  | nil => rfl
  | cons w ws ih =>
    rw [run, foldl_cons, ← run, ih, lookup_apply, lastOn]
    cases lastOn k ws with
    | some e => simp
    | none => split <;> simp

/-! ## Interleavings -/

/-- The writers' lists, interleaved: the schedule names the writer of each next write, and what it
leaves is done in order. -/
def weave {α : Type*} : List ℕ → List (List α) → List α
  | [], ls => ls.flatten
  | n :: sched, ls =>
    match ls[n]? with
    | some (a :: l) => a :: weave sched (ls.set n l)
    | _ => weave sched ls

@[simp] theorem weave_nil {α : Type*} (sched : List ℕ) : weave sched ([] : List (List α)) = [] := by
  induction sched with
  | nil => rfl
  | cons n sched ih => simpa [weave] using ih

theorem lastOn_flatten (k : κ) (ls : List (List (Write κ β))) :
    (∀ l ∈ ls, lastOn k l = none) ∧ lastOn k ls.flatten = none ∨
      ∃ l ∈ ls, lastOn k l ≠ none ∧ lastOn k ls.flatten = lastOn k l := by
  induction ls with
  | nil => simp [lastOn]
  | cons l ls ih =>
    rw [flatten_cons, lastOn_append]
    rcases ih with ⟨hall, hnone⟩ | ⟨l', hl', hne, heq⟩
    · rw [hnone, none_or]
      by_cases hl : lastOn k l = none
      · exact .inl ⟨forall_mem_cons.mpr ⟨hl, hall⟩, hl⟩
      · exact .inr ⟨l, mem_cons_self, hl, rfl⟩
    · refine .inr ⟨l', mem_cons_of_mem l hl', hne, ?_⟩
      rw [heq, or_of_isSome (isSome_iff_ne_none.mpr hne)]

/-- **The last write to a key is the last of its own writer**, in every interleaving. -/
theorem lastOn_weave (k : κ) (sched : List ℕ) (ls : List (List (Write κ β))) :
    (∀ l ∈ ls, lastOn k l = none) ∧ lastOn k (weave sched ls) = none ∨
      ∃ l ∈ ls, lastOn k l ≠ none ∧ lastOn k (weave sched ls) = lastOn k l := by
  induction sched generalizing ls with
  | nil => exact lastOn_flatten k ls
  | cons n sched ih =>
    rw [weave]
    split
    · next w l hn =>
      have hmem : w :: l ∈ ls := mem_of_getElem? hn
      have hlt : n < ls.length := (List.getElem?_eq_some_iff.mp hn).1
      -- the writer whose write came first still has that write before all its others
      rw [lastOn]
      rcases ih (ls.set n l) with ⟨hall, hnone⟩ | ⟨l', hl', hne, heq⟩
      · have hl : lastOn k l = none := hall l (mem_set hlt l)
        rw [hnone, none_or]
        by_cases hw : w.key = k
        · refine .inr ⟨w :: l, hmem, ?_, ?_⟩ <;> simp [lastOn, hl, hw]
        · refine .inl ⟨fun l₀ hl₀ => ?_, if_neg hw⟩
          obtain ⟨i, hi, rfl⟩ := mem_iff_getElem.mp hl₀
          by_cases hin : n = i
          · subst hin
            have h := (List.getElem?_eq_some_iff.mp hn).2
            rw [h, lastOn, hl, if_neg hw, none_or]
          · have hset : (ls.set n l)[i]? = ls[i]? := getElem?_set_ne hin
            rw [getElem?_eq_getElem hi] at hset
            exact hall _ (mem_of_getElem? hset)
      · rw [heq, or_of_isSome (isSome_iff_ne_none.mpr hne)]
        rcases mem_or_eq_of_mem_set hl' with hl' | rfl
        · exact .inr ⟨l', hl', hne, rfl⟩
        · have h : lastOn k (w :: l') = lastOn k l' := by
            rw [lastOn, or_of_isSome (isSome_iff_ne_none.mpr hne)]
          exact .inr ⟨w :: l', hmem, h ▸ hne, h.symm⟩
    · exact ih ls

/-! ## When the interleaving does not matter -/

/-- Writers that share a key leave the same there. -/
def Agree (s : Finset ι) (ops : ι → List (Write κ β)) : Prop :=
  ∀ a ∈ s, ∀ b ∈ s, ∀ k, lastOn k (ops a) ≠ none → lastOn k (ops b) ≠ none →
    lastOn k (ops a) = lastOn k (ops b)

section Agree

variable {s : Finset ι} {ops : ι → List (Write κ β)}

/-- **Writers that agree leave what each of them leaves.** -/
theorem lookup_weave_of_agree (h : Agree s ops) (m : GoMap κ β) (o : MapOrder ι)
    (sched : List ℕ) {a : ι} (ha : a ∈ s) {k : κ} {v : Option β}
    (hv : lastOn k (ops a) = some v) : (run m (weave sched ((o.list s).map ops))).lookup k = v := by
  have hne : lastOn k (ops a) ≠ none := by simp [hv]
  have hmem : ops a ∈ (o.list s).map ops := mem_map_of_mem ((o.mem_list s a).mpr ha)
  rcases lastOn_weave k sched ((o.list s).map ops) with ⟨hall, -⟩ | ⟨l, hl, hlne, heq⟩
  · exact absurd (hall _ hmem) hne
  · obtain ⟨b, hb, rfl⟩ := mem_map.mp hl
    rw [lookup_run, heq, h b ((o.mem_list s b).mp hb) a ha k hlne hne, hv, getD_some]

theorem lookup_weave_of_untouched (m : GoMap κ β) (o : MapOrder ι) (sched : List ℕ) {k : κ}
    (hk : ∀ a ∈ s, lastOn k (ops a) = none) :
    (run m (weave sched ((o.list s).map ops))).lookup k = m.lookup k := by
  rcases lastOn_weave k sched ((o.list s).map ops) with ⟨-, hnone⟩ | ⟨l, hl, hlne, -⟩
  · rw [lookup_run, hnone, getD_none]
  · obtain ⟨b, hb, rfl⟩ := mem_map.mp hl
    exact absurd (hk b ((o.mem_list s b).mp hb)) hlne

theorem exists_order_last [DecidableEq ι] (m : GoMap κ β) {a : ι} (ha : a ∈ s) {k : κ}
    {v : Option β} (hv : lastOn k (ops a) = some v) (o : MapOrder ι) :
    (run m (weave [] (((o.prefer (· ≠ a)).list s).map ops))).lookup k = v := by
  have hlast : (o.list s).filter (fun b => !decide (b ≠ a)) = [a] := by
    have hnd := (o.nodup s).filter fun b => !decide (b ≠ a)
    refine perm_singleton.mp ((perm_ext_iff_of_nodup hnd (nodup_singleton a)).mpr
      fun b => ?_)
    rw [mem_filter, o.mem_list, mem_singleton]
    constructor
    · rintro ⟨-, hb⟩
      simpa using hb
    · rintro rfl
      exact ⟨ha, by simp⟩
  have hlist : (o.prefer (· ≠ a)).list s = (o.list s).filter (· ≠ a) ++ [a] := by
    rw [← hlast]
    rfl
  rw [lookup_run, hlist, weave, map_append, flatten_append, lastOn_append]
  simp [hv]

/-- **The interleaving does not matter exactly if writers that share a key agree on it.** -/
theorem same_iff_agree [DecidableEq ι] (m : GoMap κ β) :
    (∀ (o o' : MapOrder ι) (sched sched' : List ℕ),
      run m (weave sched ((o.list s).map ops)) = run m (weave sched' ((o'.list s).map ops)))
      ↔ Agree s ops := by
  constructor
  · intro h a ha b hb k hka hkb
    obtain ⟨v, hv⟩ := ne_none_iff_exists'.mp hka
    obtain ⟨v', hv'⟩ := ne_none_iff_exists'.mp hkb
    have hsame := h ((default : MapOrder ι).prefer (· ≠ a)) ((default : MapOrder ι).prefer (· ≠ b))
      [] []
    have hlook := congrArg (Finmap.lookup k) hsame
    rw [exists_order_last m ha hv, exists_order_last m hb hv'] at hlook
    rw [hv, hv', hlook]
  · intro h o o' sched sched'
    refine Finmap.ext_lookup fun k => ?_
    by_cases hk : ∃ a ∈ s, lastOn k (ops a) ≠ none
    · obtain ⟨a, ha, hne⟩ := hk
      obtain ⟨v, hv⟩ := ne_none_iff_exists'.mp hne
      rw [lookup_weave_of_agree h m o sched ha hv, lookup_weave_of_agree h m o' sched' ha hv]
    · have hno : ∀ a ∈ s, lastOn k (ops a) = none := fun a ha => by
        by_contra hne
        exact hk ⟨a, ha, hne⟩
      rw [lookup_weave_of_untouched m o sched hno, lookup_weave_of_untouched m o' sched' hno]

end Agree

end Nightingale.Weave
