import Nightingale.Lib.MapOrder
import Nightingale.Lib.Text

/-!
# Eslike/Flatten — the nested fields of a log line

`IterGetMap` (`datasource/commons/eslike/eslike.go`) writes the leaves of a nested map into a flat
one, each under its path.  It puts a dot before every leaf, but before an inner key only if there is
a prefix already:

    {"a": {"b": 1}}  ▸  "a.b"        {"b": 1}  ▸  ".b"        {"": {"a": {"b": 1}}}  ▸  "a.b"

A leaf is found under its path exactly if the prefix it is given is its path so far (`place`).
-/

namespace Nightingale.Eslike

open Text List String GoMap

/-- A `map[string]interface{}`, in the order a loop visits it: a value is a map again, or a leaf. -/
inductive Fields (α : Type*) where
  | nil
  | leaf (key : String) (v : α) (rest : Fields α)
  | node (key : String) (m rest : Fields α)

/-- A leaf, with the keys above it. -/
structure Leaf (α : Type*) where
  above : List String
  key : String
  v : α

variable {α : Type*}

/-- The path of a leaf. -/
def Leaf.path (l : Leaf α) : List String := l.above ++ [l.key]

/-- The prefix for a map under a key. -/
def extend (prefixKey k : String) : String :=
  if prefixKey ≠ "" then prefixKey ++ "." ++ k else k

/-- `IterGetMap`. -/
def iterGetMap : Fields α → GoMap String (List α) → String → GoMap String (List α)
  | .nil, ret, _ => ret
  | .leaf k v rest, ret, prefixKey =>
    iterGetMap rest (ret.insert (prefixKey ++ "." ++ k) [v]) prefixKey
  | .node k m rest, ret, prefixKey =>
    iterGetMap rest (iterGetMap m ret (extend prefixKey k)) prefixKey

/-- The leaves. -/
def Fields.leaves : Fields α → List (Leaf α)
  | nil => []
  | leaf k v rest => ⟨[], k, v⟩ :: rest.leaves
  | node k m rest => m.leaves.map (fun l => { l with above := k :: l.above }) ++ rest.leaves

/-- **Each leaf is written under its path**, in a list of its own, and nothing else is. -/
def Flat (m : Fields α) (ret : GoMap String (List α)) : Prop :=
  ∀ key x, ret.lookup key = some x ↔ ∃ l ∈ m.leaves, ".".intercalate l.path = key ∧ [l.v] = x

/-- The keys above a leaf, as its prefix has them: empty ones in front are lost, and where there is
none left, one is put. -/
def place (above : List String) : List String :=
  if above.dropWhile (· = "") = [] then [""] else above.dropWhile (· = "")

/-- **The loop, leaf by leaf.** -/
theorem iterGetMap_eq (m : Fields α) (ret : GoMap String (List α)) (prefixKey : String) :
    iterGetMap m ret prefixKey = m.leaves.foldl
      (fun ret l => ret.insert (l.above.foldl extend prefixKey ++ "." ++ l.key) [l.v]) ret := by
  induction m generalizing ret prefixKey with
  | nil => rfl
  | leaf k v rest ih => rw [iterGetMap, ih, Fields.leaves, foldl_cons, foldl_nil]
  | node k m rest ihm ih =>
    rw [iterGetMap, ih, ihm, Fields.leaves, foldl_append, foldl_map]
    rfl

theorem foldl_extend_of_ne {k : String} (hk : k ≠ "") (above : List String) :
    above.foldl extend k = ".".intercalate (k :: above) := by
  induction above generalizing k with
  | nil => simp
  | cons k' above ih =>
    have hne : k ++ "." ++ k' ≠ "" := by simp
    rw [foldl_cons, extend, if_pos hk, ih hne, String.intercalate_cons_cons,
      ← intercalate_cons_append]

theorem foldl_extend_empty (above : List String) :
    above.foldl extend "" = ".".intercalate (place above) := by
  induction above with
  | nil => simp [place]
  | cons k above ih =>
    by_cases hk : k = ""
    · rw [hk, foldl_cons, extend, if_neg (not_not.mpr rfl), ih]
      simp [place]
    · rw [foldl_cons, extend, if_neg (not_not.mpr rfl), foldl_extend_of_ne hk]
      simp [place, hk]

theorem place_ne_nil (above : List String) : place above ≠ [] := by
  rw [place]
  split_ifs with h
  · simp
  · exact h

theorem place_place (above : List String) : place (place above) = place above := by
  by_cases h : above.dropWhile (· = "") = []
  · have hplace : place above = [""] := if_pos h
    rw [hplace]
    simp [place]
  · have hplace : place above = above.dropWhile (· = "") := if_neg h
    rw [hplace, place, dropWhile_idempotent, if_neg h]

theorem written_eq (l : Leaf α) : l.above.foldl extend "" ++ "." ++ l.key
    = ".".intercalate (place l.above ++ [l.key]) := by
  rw [foldl_extend_empty, String.intercalate_append_of_ne_nil (place_ne_nil _) (by simp),
    String.intercalate_singleton]

theorem intercalate_injOn {p q : List String} (hp : p ≠ []) (hq : q ≠ [])
    (hpd : ∀ k ∈ p, '.' ∉ k.toList) (hqd : ∀ k ∈ q, '.' ∉ k.toList)
    (h : ".".intercalate p = ".".intercalate q) : p = q := by
  have hsplit : ∀ {p : List String}, p ≠ [] → (∀ k ∈ p, '.' ∉ k.toList) →
      splitText "." (".".intercalate p) = p := fun hp hpd =>
    (splitText_intercalate_iff (by decide)).mpr (clean_singleton_iff.mpr ⟨by simpa, by simpa⟩)
  rw [← hsplit hp hpd, h, hsplit hq hqd]

theorem dotless_place {above : List String} (h : ∀ k ∈ above, '.' ∉ k.toList) :
    ∀ k ∈ place above, '.' ∉ k.toList := by
  rw [place]
  split_ifs
  · simp
  · exact fun k hk => h k ((dropWhile_suffix _).subset hk)

theorem place_eq_iff {above : List String} :
    place above = above ↔ above ≠ [] ∧ (above.head? = some "" → above = [""]) := by
  cases above with
  | nil => simp [place]
  | cons k ks =>
    by_cases hk : k = ""
    · subst hk
      have hdrop : ("" :: ks).dropWhile (· = "") = ks.dropWhile (· = "") := by simp
      rw [place, hdrop]
      split_ifs with h
      · simp [eq_comm]
      · -- the rest is shorter than the list, and there is one
        have hshort := (dropWhile_suffix (l := ks) (· = "")).length_le
        refine iff_of_false (fun heq => ?_) (fun hks => h ?_)
        · rw [heq, length_cons] at hshort
          omega
        · obtain ⟨-, rfl⟩ := cons.inj (hks.2 rfl)
          rfl
    · simp [place, hk]

/-- **The leaves are written under their paths exactly if each has a prefix that is kept**: there is
a key above it, and the first one is not empty unless it is the only one.  A map has a key once, so
no two leaves have one path. -/
theorem iterGetMap_flat_iff {m : Fields α} (hpaths : (m.leaves.map Leaf.path).Nodup)
    (hdots : ∀ l ∈ m.leaves, ∀ k ∈ l.path, '.' ∉ k.toList) : Flat m (iterGetMap m ∅ "") ↔
      ∀ l ∈ m.leaves, l.above ≠ [] ∧ (l.above.head? = some "" → l.above = [""]) := by
  simp only [Flat, iterGetMap_eq, written_eq, ← place_eq_iff]
  constructor
  · intro h l hl
    have hlook := (h _ _).mpr ⟨l, hl, rfl, rfl⟩
    rcases exists_of_lookup_foldl_insert _ _ hlook with hlook | ⟨l', hl', hkey, -⟩
    · simp at hlook
    · have hdots' : ∀ k ∈ place l'.above ++ [l'.key], '.' ∉ k.toList := by
        have := hdots l' hl'
        simp only [Leaf.path, forall_mem_append] at this ⊢
        exact ⟨dotless_place this.1, this.2⟩
      have hpath := intercalate_injOn (by simp) (by simp [Leaf.path]) hdots' (hdots l hl) hkey
      rw [← (append_inj' hpath rfl).1, place_place]
  · intro h key x
    have hpath : ∀ l ∈ m.leaves, place l.above ++ [l.key] = l.path :=
      fun l hl => by rw [h l hl, Leaf.path]
    constructor
    · intro hlook
      rcases exists_of_lookup_foldl_insert _ _ hlook with hlook | ⟨l, hl, hkey, hx⟩
      · simp at hlook
      · exact ⟨l, hl, by rw [← hpath l hl, hkey], hx⟩
    · rintro ⟨l, hl, rfl, rfl⟩
      rw [← hpath l hl]
      refine lookup_foldl_insert_of_mem
        (fun l : Leaf α => ".".intercalate (place l.above ++ [l.key])) _ ?_ hl ∅
      refine (hpaths.of_map _).map_on fun l hl l' hl' heq => ?_
      rw [hpath l hl, hpath l' hl'] at heq
      refine inj_on_of_nodup_map hpaths hl hl' ?_
      exact intercalate_injOn (by simp [Leaf.path]) (by simp [Leaf.path]) (hdots l hl)
        (hdots l' hl') heq

namespace Example

/-- A field two levels down. -/
theorem nested_flat : Flat (.node "a" (.leaf "b" 1 .nil) .nil)
    (iterGetMap (.node "a" (.leaf "b" 1 .nil) .nil) ∅ "") :=
  (iterGetMap_flat_iff (by decide) (by decide)).mpr (by decide)

/-- **A field of the first level gets a dot.** -/
theorem first_level_dotted : (iterGetMap (.leaf "b" 1 .nil) ∅ "").lookup ".b" = some [1] ∧
    (iterGetMap (.leaf "b" 1 .nil) ∅ "").lookup "b" = none := by
  decide +kernel

end Example

end Nightingale.Eslike
