import Nightingale.Custom.Refresh
import Nightingale.Custom.Scopes

/-!
# Custom/Columns — lists of ids as texts

The scopes of the rules are columns of text, written by `encodeJSONList` and read back by
`parseInt64CSV`, which also takes numbers set apart by commas and spaces:

    ids ──encodeJSONList──▸ "[1,2]" ──parseInt64CSV──▸ ids          `parseInt64CSV_encodeJSONList`
    "1, 2 x" ──────────────────────────────────────▸ [1, 2]         what is no number is left out
    "[1,2"   ──────────────────────────────────────▸ []             and so is a broken array

An id that is read stands in the text (`lists_of_mem_parse`).  So a rule of which something was read
takes only events of the ids in its text, apart from what 0 stands for (`scope_in_text`).
-/

namespace Nightingale.Custom

open Denoise Mute Suppress Text List Option Loaders Nat

/-! ## JSON arrays of integers -/

/-- White space of JSON. -/
def jsonSpace (c : Char) : Bool := c = ' ' || c = '\t' || c = '\n' || c = '\r'

/-- An integer literal of JSON: no leading zero and no plus sign. -/
def jsonInt (cs : List Char) : Option ℤ :=
  let digits := if cs.head? = some '-' then cs.tail else cs
  if digits = ['0'] ∨ digits.head? ≠ some '0' ∧ digits.head? ≠ some '+' then
    parseInt (String.ofList cs)
  else none

/-- An element of an array of integers, with the white space around it; `null` leaves the zero that
is there. -/
def jsonElement (cs : List Char) : Option ℤ :=
  let cs := ((cs.dropWhile jsonSpace).reverse.dropWhile jsonSpace).reverse
  if cs = ['n', 'u', 'l', 'l'] then some 0 else jsonInt cs

/-- `json.Unmarshal` of an array into integers; a text that is no JSON, an element of another type
and one out of range are errors. -/
def jsonUnmarshalInts (s : String) : Option (List ℤ) :=
  match s.toList with
  | '[' :: cs =>
    if cs.getLast? = some ']' then
      if cs.dropLast.all jsonSpace then some [] else (cs.dropLast.splitOn ',').mapM jsonElement
    else none
  | _ => none

/-- `encodeJSONList` of integers. -/
def encodeJSONList (ids : List ℤ) : String := "[" ++ ",".intercalate (ids.map toString) ++ "]"

/-! ## What is read stands in the text -/

/-- What sets the ids of a list apart. -/
def isDelimiter (c : Char) : Bool := c = ',' || c = '[' || c = ']' || isSpace c

/-- **A text lists an id**: a part of the text that is set apart reads as the id, or is a `null` and
the id 0. -/
def Lists (text : String) (id : ℤ) : Prop :=
  ∃ word, Apart isDelimiter word text.toList ∧
    (parseInt (String.ofList word) = some id ∨ word = ['n', 'u', 'l', 'l'] ∧ id = 0)

/-- The parts of a text, by where they begin and how long they are. -/
theorem lists_iff {text : String} {id : ℤ} : Lists text id ↔
    ∃ i ∈ range (text.toList.length + 1), ∃ n ∈ range (text.toList.length + 1),
      ((text.toList.take i).getLast?.all isDelimiter = true ∧
        (text.toList.drop (i + n)).head?.all isDelimiter = true) ∧
      (parseInt (String.ofList ((text.toList.drop i).take n)) = some id ∨
        (text.toList.drop i).take n = ['n', 'u', 'l', 'l'] ∧ id = 0) := by
  simp only [Option.all_eq_true]
  constructor
  · rintro ⟨word, ⟨pre, post, heq, hpre, hpost⟩, hreads⟩
    refine ⟨pre.length, mem_range.mpr ?_, word.length, mem_range.mpr ?_, ?_⟩
    · simp [heq]
    · simp [heq]
      omega
    · simpa [heq, take_append, drop_append, ← drop_drop] using
        ⟨⟨hpre, hpost⟩, hreads⟩
  · rintro ⟨i, -, n, -, ⟨hpre, hpost⟩, hreads⟩
    refine ⟨_, ⟨text.toList.take i, text.toList.drop (i + n), ?_, hpre, hpost⟩, hreads⟩
    rw [← drop_drop, append_assoc, take_append_drop, take_append_drop]

instance (text : String) (id : ℤ) : Decidable (Lists text id) := decidable_of_iff _ lists_iff.symm

theorem isDelimiter_of_isSpace (c : Char) (h : isSpace c = true) : isDelimiter c = true := by
  simp [isDelimiter, h]

theorem isSpace_of_jsonSpace (c : Char) (h : jsonSpace c = true) : isSpace c = true := by
  unfold jsonSpace at h
  simp only [Bool.or_eq_true, decide_eq_true_eq] at h
  rcases h with ((rfl | rfl) | rfl) | rfl <;> decide

theorem apart_trimSpace (text : String) :
    Apart isDelimiter (trimSpace text).toList text.toList := by
  rw [trimSpace, String.toList_ofList]
  exact (Apart.trim isSpace text.toList).mono isDelimiter_of_isSpace

theorem exists_of_jsonElement {cs : List Char} {id : ℤ} (h : jsonElement cs = some id) :
    ∃ word, Apart isDelimiter word cs ∧
      (parseInt (String.ofList word) = some id ∨ word = ['n', 'u', 'l', 'l'] ∧ id = 0) := by
  refine ⟨_, (Apart.trim jsonSpace cs).mono fun c hc =>
    isDelimiter_of_isSpace c (isSpace_of_jsonSpace c hc), ?_⟩
  unfold jsonElement at h
  dsimp only at h
  split_ifs at h with hnull
  · exact .inr ⟨hnull, (some.inj h).symm⟩
  · unfold jsonInt at h
    exact .inl (ite_none_right_eq_some.mp h).2

theorem apart_brackets {cs : List Char} (h : cs.getLast? = some ']') :
    Apart isDelimiter cs.dropLast ('[' :: cs) := by
  refine ⟨['['], [']'], ?_, by simp [isDelimiter], by simp [isDelimiter]⟩
  rw [singleton_append, cons_append, dropLast_append_getLast? _ h]

theorem lists_of_jsonUnmarshalInts {text : String} {ids : List ℤ}
    (h : jsonUnmarshalInts text = some ids) {id : ℤ} (hid : id ∈ ids) : Lists text id := by
  unfold jsonUnmarshalInts at h
  split at h
  · next cs hcs =>
    split_ifs at h with hlast hspace
    · cases h
      cases hid
    · obtain ⟨part, hpart, helement⟩ : ∃ part ∈ cs.dropLast.splitOn ',',
          jsonElement part = some id := by
        have hmem : some id ∈ ids.map some := mem_map_of_mem hid
        rw [← mapM_eq_some_iff.mp h] at hmem
        exact mem_map.mp hmem
      obtain ⟨word, hword, hreads⟩ := exists_of_jsonElement helement
      refine ⟨word, ?_, hreads⟩
      have hcomma : Apart isDelimiter part cs.dropLast :=
        (Apart.of_mem_splitOnP hpart).mono fun c hc => by simp [isDelimiter, beq_iff_eq.mp hc]
      rw [hcs]
      exact hword.trans (hcomma.trans (apart_brackets hlast))
  · cases h

/-- **An id that is read stands in the text.** -/
theorem lists_of_mem_parse {text : String} {id : ℤ}
    (h : id ∈ parseInt64CSV jsonUnmarshalInts text) : Lists text id := by
  have htrim : ∀ {id}, Lists (trimSpace text) id → Lists text id := by
    rintro id ⟨word, hword, hreads⟩
    exact ⟨word, hword.trans (apart_trimSpace text), hreads⟩
  apply htrim
  unfold parseInt64CSV at h
  dsimp only at h
  split_ifs at h with hempty harray
  · cases h
  · cases hread : jsonUnmarshalInts (trimSpace text) with
    | none =>
      rw [hread] at h
      cases h
    | some ids =>
      rw [hread, getD_some] at h
      exact lists_of_jsonUnmarshalInts hread h
  · obtain ⟨part, hpart, hreads⟩ := mem_filterMap.mp h
    refine ⟨part, (Apart.of_mem_splitOnP (mem_filter.mp hpart).1).mono fun c hc => ?_, .inl hreads⟩
    rcases of_decide_eq_true hc with rfl | rfl <;> decide

/-! ## Writing and reading back -/

section Decimal

theorem foldl_digits (cs : List Char) (n : ℕ) :
    cs.foldl (fun (n : ℤ) c => 10 * n + (c.toNat - '0'.toNat : ℕ)) n
      = (ofDigitChars 10 cs n : ℤ) := by
  unfold ofDigitChars
  induction cs generalizing n with
  | nil => rfl
  | cons c cs ih =>
    rw [foldl_cons, foldl_cons, ← ih]
    norm_cast

/-- The digits of a number: the first is no sign, and 0 only if it is the only one. -/
theorem exists_toDigits (n : ℕ) :
    ∃ c cs, toDigits 10 n = c :: cs ∧ (∀ d ∈ c :: cs, d.isDigit = true) ∧
      (c = '0' → n = 0 ∧ cs = []) := by
  induction n using Nat.strong_induction_on with
  | _ n ih =>
    have hdigits : ∀ {l}, toDigits 10 n = l → ∀ d ∈ l, d.isDigit = true := by
      rintro l rfl d hd
      exact isDigit_of_mem_toDigits (by norm_num) le_rfl hd
    by_cases hn : n < 10
    · have h := toDigits_of_lt_base hn
      refine ⟨_, _, h, hdigits h, fun hc => ⟨?_, rfl⟩⟩
      have hnat := congrArg Char.toNat hc
      rw [toNat_digitChar_of_lt_ten hn] at hnat
      simpa using hnat
    · obtain ⟨c, cs, hrest, -, hzero⟩ := ih (n / 10) (by omega)
      have h := toDigits_of_base_le (b := 10) (by norm_num) (not_lt.mp hn)
      rw [hrest, cons_append] at h
      refine ⟨_, _, h, hdigits h, fun hc => ?_⟩
      have := (hzero hc).1
      omega

section

variable {c : Char} {cs : List Char} (h : ∀ d ∈ c :: cs, d.isDigit = true)

include h

theorem parseInt_digits : parseInt (String.ofList (c :: cs))
      = (some (ofDigitChars 10 (c :: cs) 0 : ℤ)).filter fun n => -2 ^ 63 ≤ n ∧ n < 2 ^ 63 := by
  have hminus : c ≠ '-' := by
    rintro rfl
    exact absurd (h '-' mem_cons_self) (by decide)
  have hplus : c ≠ '+' := by
    rintro rfl
    exact absurd (h '+' mem_cons_self) (by decide)
  have hall : (c :: cs).all Char.isDigit = true := all_eq_true.mpr h
  unfold parseInt
  simp only [String.toList_ofList]
  split
  · next heq => exact absurd (cons.inj heq).1 hminus
  · next heq => exact absurd (cons.inj heq).1 hplus
  · rw [if_pos ⟨cons_ne_nil c cs, hall⟩, ← foldl_digits (c :: cs) 0]
    rfl

theorem parseInt_minus :
    parseInt (String.ofList ('-' :: c :: cs))
      = (some (-(ofDigitChars 10 (c :: cs) 0 : ℤ))).filter fun n =>
          -2 ^ 63 ≤ n ∧ n < 2 ^ 63 := by
  have hall : (c :: cs).all Char.isDigit = true := all_eq_true.mpr h
  unfold parseInt
  simp only [String.toList_ofList]
  rw [if_pos ⟨cons_ne_nil c cs, hall⟩, ← foldl_digits (c :: cs) 0]
  rfl

theorem literal_of_digits (hzero : c = '0' → cs = []) :
    c :: cs = ['0'] ∨ (c :: cs).head? ≠ some '0' ∧ (c :: cs).head? ≠ some '+' := by
  by_cases hc : c = '0'
  · exact .inl (by rw [hc, hzero hc])
  · refine .inr ⟨by simpa using hc, fun hplus => ?_⟩
    cases hplus
    exact absurd (h '+' mem_cons_self) (by decide)

end

variable {n : ℤ}

/-- **An integer reads back from its decimal text.** -/
theorem jsonInt_toString (h : -2 ^ 63 ≤ n ∧ n < 2 ^ 63) : jsonInt (toString n).toList = some n := by
  have hvalue : ∀ {m : ℕ} {l : List Char}, toDigits 10 m = l → ofDigitChars 10 l 0 = m := by
    rintro m l rfl
    exact ofDigitChars_toDigits (by norm_num) le_rfl
  cases n with
  | ofNat m =>
    obtain ⟨c, cs, hdigits, hall, hzero⟩ := exists_toDigits m
    have htext : (toString (Int.ofNat m)).toList = c :: cs := by
      rw [← hdigits]
      exact toList_repr
    have hminus : (c :: cs).head? ≠ some '-' := by
      intro hminus
      cases hminus
      exact absurd (hall '-' mem_cons_self) (by decide)
    rw [htext, jsonInt, if_neg hminus, if_pos (literal_of_digits hall fun hc => (hzero hc).2),
      parseInt_digits hall, hvalue hdigits]
    exact filter_some_pos (decide_eq_true h)
  | negSucc m =>
    obtain ⟨c, cs, hdigits, hall, hzero⟩ := exists_toDigits (m + 1)
    have htext : (toString (Int.negSucc m)).toList = '-' :: c :: cs := by
      have hrepr : (m + 1).repr.toList = c :: cs := by rw [toList_repr, hdigits]
      rw [← hrepr]
      exact String.toList_append
    rw [htext, jsonInt, if_pos (show ('-' :: c :: cs).head? = some '-' from rfl), tail_cons,
      if_pos (literal_of_digits hall fun hc => (hzero hc).2), parseInt_minus hall, hvalue hdigits]
    exact filter_some_pos (decide_eq_true h)

theorem mem_toString {c : Char} (hc : c ∈ (toString n).toList) : c = '-' ∨ c.isDigit = true := by
  have hrepr : ∀ {m : ℕ}, c ∈ m.repr.toList → c.isDigit = true := by
    intro m hm
    rw [toList_repr] at hm
    exact isDigit_of_mem_toDigits (by norm_num) le_rfl hm
  cases n with
  | ofNat m => exact .inr (hrepr hc)
  | negSucc m =>
    have happend : (toString (Int.negSucc m)).toList = '-' :: (m + 1).repr.toList :=
      String.toList_append
    rw [happend] at hc
    rcases mem_cons.mp hc with rfl | hc
    · exact .inl rfl
    · exact .inr (hrepr hc)

theorem toString_ne_nil : (toString n).toList ≠ [] := by
  cases n with
  | ofNat m =>
    have htext : (toString (Int.ofNat m)).toList = toDigits 10 m := toList_repr
    rw [htext]
    exact toDigits_ne_nil
  | negSucc m =>
    have happend : (toString (Int.negSucc m)).toList = '-' :: (m + 1).repr.toList :=
      String.toList_append
    rw [happend]
    exact cons_ne_nil _ _

end Decimal

theorem jsonSpace_of_mem_toString {n : ℤ} {c : Char} (hc : c ∈ (toString n).toList) :
    jsonSpace c = false := by
  by_contra hspace
  rw [Bool.not_eq_false] at hspace
  simp only [jsonSpace, Bool.or_eq_true, decide_eq_true_eq] at hspace
  rcases hspace with ((rfl | rfl) | rfl) | rfl <;> exact absurd (mem_toString hc) (by decide)

theorem trim_eq_self {p : Char → Bool} {l : List Char} (hfirst : ∀ c ∈ l.head?, p c = false)
    (hlast : ∀ c ∈ l.getLast?, p c = false) :
    ((l.dropWhile p).reverse.dropWhile p).reverse = l := by
  have hdrop : ∀ l : List Char, (∀ c ∈ l.head?, p c = false) → l.dropWhile p = l := by
    intro l hl
    cases l with
    | nil => rfl
    | cons c l => exact dropWhile_cons_of_neg (by simp [hl c rfl])
  rw [hdrop l hfirst, hdrop l.reverse (by simpa using hlast), reverse_reverse]

theorem jsonElement_toString {n : ℤ} (h : -2 ^ 63 ≤ n ∧ n < 2 ^ 63) :
    jsonElement (toString n).toList = some n := by
  unfold jsonElement
  rw [trim_eq_self (fun c hc => jsonSpace_of_mem_toString (mem_of_head? hc))
    (fun c hc => jsonSpace_of_mem_toString (mem_of_getLast? hc))]
  rw [if_neg, jsonInt_toString h]
  intro hnull
  have hn : 'n' ∈ (toString n).toList := by
    rw [hnull]
    exact mem_cons_self
  exact absurd (mem_toString hn) (by decide)

theorem toList_encodeJSONList (ids : List ℤ) : (encodeJSONList ids).toList
    = '[' :: ([','].intercalate (ids.map fun n => (toString n).toList) ++ [']']) := by
  simp [encodeJSONList, String.toList_append, String.toList_intercalate, Function.comp_def]

theorem jsonUnmarshalInts_encodeJSONList (ids : List ℤ)
    (h : ∀ n ∈ ids, -2 ^ 63 ≤ n ∧ n < 2 ^ 63) :
    jsonUnmarshalInts (encodeJSONList ids) = some ids := by
  unfold jsonUnmarshalInts
  rw [toList_encodeJSONList]
  simp only [getLast?_concat, if_true, dropLast_concat]
  cases ids with
  | nil => rfl
  | cons n ids =>
    rw [if_neg, List.splitOn_intercalate, mapM_eq_some_iff, List.map_map]
    · exact map_congr_left fun n hn => jsonElement_toString (h n hn)
    · intro l hl
      obtain ⟨n, -, rfl⟩ := mem_map.mp hl
      intro hcomma
      exact absurd (mem_toString hcomma) (by decide)
    · simp
    · obtain ⟨c, hc⟩ := exists_mem_of_ne_nil _ (toString_ne_nil (n := n))
      intro hall
      have hcomma : c ∉ [','] := by
        rintro hcomma
        obtain rfl := mem_singleton.mp hcomma
        exact absurd (mem_toString hc) (by decide)
      have hspace := all_eq_true.mp hall c
        ((mem_intercalate_iff hcomma).mpr ⟨_, mem_cons_self, hc⟩)
      exact absurd hspace (by simp [jsonSpace_of_mem_toString hc])

/-- **A list of ids is read back as it was written.** -/
theorem parseInt64CSV_encodeJSONList (ids : List ℤ) (h : ∀ n ∈ ids, -2 ^ 63 ≤ n ∧ n < 2 ^ 63) :
    parseInt64CSV jsonUnmarshalInts (encodeJSONList ids) = ids := by
  have htrim : trimSpace (encodeJSONList ids) = encodeJSONList ids := by
    rw [trimSpace, trim_eq_self, String.ofList_toList]
    · rw [toList_encodeJSONList]
      simpa using (by decide : isSpace '[' = false)
    · rw [toList_encodeJSONList, ← cons_append, getLast?_concat]
      simpa using (by decide : isSpace ']' = false)
  have hhead : (encodeJSONList ids).toList.head? = some '[' := by
    rw [toList_encodeJSONList]
    rfl
  unfold parseInt64CSV
  rw [htrim, if_neg, if_pos hhead, jsonUnmarshalInts_encodeJSONList ids h, getD_some]
  rintro (hempty | hnull)
  · rw [hempty] at hhead
    cases hhead
  · rw [hnull] at hhead
    cases hhead

/-! ## The rules built from the texts -/

/-- The loaders, with the JSON of the library. -/
def Loaders.std (ext : Externals) (cron : CronLibrary) : Loaders := ⟨ext, cron, jsonUnmarshalInts⟩

theorem Loaders.std_unmarshalInts (ext : Externals) (cron : CronLibrary) :
    (std ext cron).unmarshalInts = jsonUnmarshalInts := rfl

/-- **A column of datasources or groups confines a rule**: if anything is read from the text, the id
of an event is one the text lists, or is 0, or the list begins with 0. -/
def ScopeInText (text : String) (id : ℤ) : Prop :=
  parseInt64CSV jsonUnmarshalInts text ≠ [] →
    Lists text id ∨ id = 0 ∨ (parseInt64CSV jsonUnmarshalInts text).head? = some 0

/-- A column of severities confines a rule: if anything is read from the text, the severity is one
the text lists. -/
def SeverityInText (text : String) (severity : ℤ) : Prop :=
  parseIntCSV jsonUnmarshalInts text ≠ [] → Lists text severity

theorem scopeInText_of_inDatasources {ids : List ℤ} {text : String} {id : ℤ}
    (hids : ids = parseInt64CSV jsonUnmarshalInts text) (h : inDatasources ids id = true) :
    ScopeInText text id := by
  subst hids
  intro hne
  rcases inDatasources_iff.mp h with hnil | hzero | hid | hmem
  · exact absurd hnil hne
  · exact .inr (.inr hzero)
  · exact .inr (.inl hid)
  · exact .inl (lists_of_mem_parse hmem)

theorem severityInText_of_not {ids : List ℤ} {text : String} {severity : ℤ}
    (hids : ids = parseIntCSV jsonUnmarshalInts text) (h : ¬ (ids ≠ [] ∧ severity ∉ ids)) :
    SeverityInText text severity := by
  subst hids
  intro hne
  by_contra hnot
  exact h ⟨hne, fun hmem => hnot (lists_of_mem_parse hmem)⟩

section Rules

variable {ext : Externals} {cron : CronLibrary} {event : AlertCurEvent} {now : ℤ}

theorem matchRule_scope {rule : CustomAggregateRule} (h : matchRule ext event rule = true) :
    inDatasources rule.datasourceIdsJson event.datasourceId = true ∧
      ¬ (rule.severitiesJson ≠ [] ∧ event.severity ∉ rule.severitiesJson) := by
  unfold matchRule at h
  by_cases hscope : inDatasources rule.datasourceIdsJson event.datasourceId = true
  · refine ⟨hscope, fun hsev => ?_⟩
    simp only [if_pos hsev] at h
    split_ifs at h
  · simp [hscope] at h

theorem cron_matches_scope {c : CompiledCronRule} (h : c.matches event now = true) :
    inDatasources c.datasourceIds event.datasourceId = true ∧
      ¬ (c.severities ≠ [] ∧ event.severity ∉ c.severities) := by
  unfold CompiledCronRule.matches at h
  by_cases hscope : inDatasources c.datasourceIds event.datasourceId = true
  · refine ⟨hscope, fun hsev => ?_⟩
    simp only [if_pos hsev] at h
    split_ifs at h
  · simp [hscope] at h

theorem emergency_matches_scope {s : EmergencyState} (h : s.matches event now ≠ none) :
    inDatasources s.datasourceIds event.datasourceId = true ∧
      inDatasources s.groupIds event.groupId = true := by
  unfold EmergencyState.matches at h
  split_ifs at h <;> simp_all

theorem compileCronRule_lists {row : CustomMuteCron} {c : CompiledCronRule}
    (h : compileCronRule ext cron (some row) = .ok c) :
    c.datasourceIds = row.datasourceIdsJson ∧ c.severities = row.severitiesJson := by
  obtain ⟨compiled, -, h⟩ := ok_of_bind h
  obtain ⟨filters, -, h⟩ := ok_of_bind h
  cases h
  exact ⟨rfl, rfl⟩

theorem compileRule_list {row : InhibitRow} {c : CompiledRule}
    (h : compileRule ext (some row) = .ok c) :
    c.rule.datasourceIdsJson = row.datasourceIdsJson := by
  obtain ⟨src, -, h⟩ := ok_of_bind h
  cases hsrc : src.isEmpty with
  | true =>
    rw [hsrc] at h
    cases h
  | false =>
    simp only [hsrc, Bool.false_eq_true, if_false] at h
    obtain ⟨tgt, -, h⟩ := ok_of_bind h
    cases htgt : tgt.isEmpty with
    | true =>
      rw [htgt] at h
      cases h
    | false =>
      simp only [htgt, Bool.false_eq_true, if_false] at h
      split_ifs at h
      all_goals
        obtain ⟨equalLabels, -, h⟩ := ok_of_bind h
        cases h
        rfl

variable {l : Loaders}

theorem inhibitRules_list {row : InhibitRow} {c : CompiledRule} (h : c ∈ l.inhibitRules [row]) :
    c.rule.datasourceIdsJson = parseInt64CSV l.unmarshalInts row.datasourceIds := by
  obtain ⟨row', hrow, hcompile⟩ := mem_filterMap.mp h
  rw [mem_singleton.mp hrow] at hcompile
  rw [compileRule_list (ok_of_toOption hcompile)]

theorem muteCronRules_lists {row : CustomMuteCron} {c : CompiledCronRule}
    (h : c ∈ l.muteCronRules [row]) :
    c.datasourceIds = parseInt64CSV l.unmarshalInts row.datasourceIds ∧
      c.severities = parseIntCSV l.unmarshalInts row.severities := by
  obtain ⟨row', hrow, hcompile⟩ := mem_filterMap.mp h
  rw [mem_singleton.mp hrow] at hcompile
  simpa only using compileCronRule_lists (ok_of_toOption hcompile)

end Rules

/-- **What a scope takes stands in its text.**  For every row of an aggregation rule, an inhibit
rule, a cron mute or the emergency mute: if the rule built from it takes an event, then the
datasource, the group and the severity of the event are ids the text of the column lists, provided
that anything was read from the text at all; a datasource or a group may also be 0, and is any if
the list begins with 0.  A list of ids is read back as it was written. -/
theorem scope_in_text (ext : Externals) (cron : CronLibrary) :
    (∀ (row : AggregateRow) (rule : CustomAggregateRule) (event : AlertCurEvent),
      rule ∈ (std ext cron).aggregateRules [row] → matchRule ext event rule = true →
      ScopeInText row.datasourceIds event.datasourceId ∧
        SeverityInText row.severities event.severity) ∧
    (∀ (row : InhibitRow) (c : CompiledRule) (event : AlertCurEvent) (now : ℤ)
        (order : MapOrder (ℤ × Hash)) (s : RootCauseIndex × Suppress.Decision),
      c ∈ (std ext cron).inhibitRules [row] → visit now event order s c ≠ s →
      ScopeInText row.datasourceIds event.datasourceId) ∧
    (∀ (row : CustomMuteCron) (c : CompiledCronRule) (event : AlertCurEvent) (now : ℤ),
      c ∈ (std ext cron).muteCronRules [row] → c.matches event now = true →
      ScopeInText row.datasourceIds event.datasourceId ∧
        SeverityInText row.severities event.severity) ∧
    (∀ (row : CustomEmergencyMute) (event : AlertCurEvent) (now : ℤ),
      ((std ext cron).fromModel row).matches event now ≠ none →
      ScopeInText row.datasourceIds event.datasourceId ∧ ScopeInText row.groupIds event.groupId) ∧
    ∀ ids : List ℤ, (∀ n ∈ ids, -2 ^ 63 ≤ n ∧ n < 2 ^ 63) →
      parseInt64CSV jsonUnmarshalInts (encodeJSONList ids) = ids := by
  refine ⟨fun row rule event hrule h => ?_, fun row c event now order s hc h => ?_,
    fun row c event now hc h => ?_, fun row event now h => ?_, parseInt64CSV_encodeJSONList⟩
  · obtain rfl := mem_singleton.mp hrule
    obtain ⟨hscope, hsev⟩ := matchRule_scope h
    simp only [std_unmarshalInts] at hscope hsev
    exact ⟨scopeInText_of_inDatasources rfl hscope, severityInText_of_not rfl hsev⟩
  · have hds := inhibitRules_list hc
    rw [std_unmarshalInts] at hds
    refine scopeInText_of_inDatasources hds ?_
    by_contra hscope
    have hout : c.inScope event = false := by simp [CompiledRule.inScope, hscope]
    exact h (by simp [visit, hout])
  · obtain ⟨hds, hsevs⟩ := muteCronRules_lists hc
    rw [std_unmarshalInts] at hds hsevs
    obtain ⟨hscope, hsev⟩ := cron_matches_scope h
    exact ⟨scopeInText_of_inDatasources hds hscope, severityInText_of_not hsevs hsev⟩
  · obtain ⟨hscope, hgroup⟩ := emergency_matches_scope h
    simp only [fromModel, std_unmarshalInts] at hscope hgroup
    exact ⟨scopeInText_of_inDatasources rfl hscope, scopeInText_of_inDatasources rfl hgroup⟩

namespace Example

/-- The loaders, of a column without filters. -/
def textLoaders : Loaders :=
  .std (Example.storing []) ⟨fun tz => .ok tz, fun _ => .ok fun _ _ => none⟩

/-- A row whose datasources are a text. -/
def row (text : String) : AggregateRow := { rule with datasourceIds := text }

/-- The rule built from a text takes an event of a datasource. -/
def takes (text : String) (datasourceId : ℤ) : Bool :=
  (textLoaders.aggregateRules [row text]).any fun rule =>
    matchRule textLoaders.ext { event with datasourceId := datasourceId } rule

end Example

/-- The emergency mute for datasource 7 mutes the event, and the text lists its datasource; and a
list with a negative id is read back. -/
theorem scope_in_text_seven :
    (Example.textLoaders.fromModel { enabled := 1, datasourceIds := "[7]" }).matches Example.event 0
        ≠ none ∧
      ScopeInText "[7]" 7 ∧ parseInt64CSV jsonUnmarshalInts (encodeJSONList [7, -5]) = [7, -5] := by
  have hmuted : (Example.textLoaders.fromModel { enabled := 1, datasourceIds := "[7]" }).matches
      Example.event 0 ≠ none := by decide +kernel
  have h := scope_in_text (Example.storing []) ⟨fun tz => .ok tz, fun _ => .ok fun _ _ => none⟩
  exact ⟨hmuted, (h.2.2.2.1 { enabled := 1, datasourceIds := "[7]" } Example.event 0 hmuted).1,
    h.2.2.2.2 [7, -5] (by decide)⟩

/-- **Texts that do not confine.**  A list that begins with 0 takes an event of datasource 7, and a
list of 5 one without a datasource; and so does a broken list take any, whichever ids it holds. -/
theorem scope_not_in_text :
    (Example.takes "[0,5]" 7 = true ∧ ¬ Lists "[0,5]" 7) ∧
    (Example.takes "[5]" 0 = true ∧ ¬ Lists "[5]" 0) ∧
    Example.takes "[5,6" 7 = true ∧ ¬ Lists "[5,6" 7 := by
  decide +kernel

end Nightingale.Custom
