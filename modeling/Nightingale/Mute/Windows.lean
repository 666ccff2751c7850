import Mathlib.Data.String.Basic
import Nightingale.Models.Event

/-!
# Mute/Windows — weekly windows, checked three times

An alert rule has times in which it is in effect, a notify rule times in which it sends, and a mute
periods in which it mutes.  All three are lists of weekly windows — days, a start and an end — and
each has a check of its own.

    TimeSpanMuteStrategy    days "1 2;0 6", times "08:00 00:00"   Sunday 0 or 7   23:59 ends the day
    NotifyRuleMatchCheck    a list of ranges, days as numbers     Sunday 0        23:59 ends the day
    IsWithinPeriodicMute    a list of periods, days "1 2"         Sunday 0        half-open

The first two take no windows at all as every time, the third as none.  Apart from that they differ
where a window has Sunday as 7 only, and in the last minute of the day (`windows_agree_iff`).
-/

namespace Nightingale.Mute

open Text List

/-! ## Texts of days and times -/

/-- A number below a hundred in two digits. -/
def twoDigits (n : ℕ) : List Char := [Char.ofNat (48 + n / 10), Char.ofNat (48 + n % 10)]

/-- `HH:MM`; the end of a window may be written `24:00`. -/
structure Clock where
  hour : Fin 25
  minute : Fin 60
  deriving DecidableEq, Repr

open Clock

namespace Clock

/-- `HH:MM`. -/
def text (c : Clock) : String :=
  String.ofList (twoDigits c.hour ++ ':' :: twoDigits c.minute)

/-- The minute of the day. -/
def minutes (c : Clock) : ℕ := 60 * c.hour + c.minute

/-- `00:00`. -/
def midnight : Clock := ⟨0, 0⟩

/-- `23:59`. -/
def lastMinute : Clock := ⟨23, 59⟩

end Clock

/-- A minute of the week, in the location of the process. -/
structure Instant where
  weekday : Fin 7
  hour : Fin 24
  minute : Fin 60
  deriving DecidableEq, Repr

namespace Instant

/-- The time of day. -/
def clock (t : Instant) : Clock := ⟨t.hour.castSucc, t.minute⟩

/-- The day of the week, as a window has it. -/
def day (t : Instant) : Fin 8 := t.weekday.castSucc

/-- `tm.Format("15:04")`. -/
def triggerTime (t : Instant) : String := t.clock.text

end Instant

/-- The digit of a day. -/
def digit (d : Fin 8) : Char := Char.ofNat (48 + d)

/-- `strconv.Itoa` of a day. -/
def dayText (d : Fin 8) : String := String.ofList [digit d]

/-- Days joined by spaces. -/
def daysText (days : List (Fin 8)) : String := " ".intercalate (days.map dayText)

/-! ## The three checks -/

/-- The interval test of an alert rule and of a notify rule; an end of `23:59` is the end of the
day. -/
def inEffect (stime etime triggerTime : String) : Bool :=
  if stime < etime then
    if etime = "23:59" then !decide (triggerTime < stime)
    else !(decide (triggerTime < stime) || decide (triggerTime ≥ etime))
  else if stime > etime then !(decide (triggerTime < stime) && decide (triggerTime ≥ etime))
  else true

/-- The effective times of an alert rule. -/
structure EffectiveTime where
  enableStime : String
  enableEtime : String
  enableDaysOfWeek : String

/-- `strings.Replace` of the first occurrence of a character. -/
def replaceFirst (old new : Char) : List Char → List Char
  | [] => []
  | c :: l => if c = old then new :: l else c :: replaceFirst old new l

/-- The loop of `TimeSpanMuteStrategy`; there may be no start or end for the days. -/
def timeSpanLoop (t : Instant) : List String → List String → List String → Option Bool
  | [], _, _ => some true
  | days :: rest, stimes, etimes =>
    if !containsText (String.ofList (replaceFirst '7' '0' days.toList)) (dayText t.day) then
      timeSpanLoop t rest stimes.tail etimes.tail
    else
      match stimes, etimes with
      | stime :: stimes, etime :: etimes =>
        if inEffect stime etime t.triggerTime then some false
        else timeSpanLoop t rest stimes etimes
      | _, _ => none

@[simp]
theorem timeSpanLoop_nil (t : Instant) (stimes etimes : List String) :
    timeSpanLoop t [] stimes etimes = some true := rfl

/-- `TimeSpanMuteStrategy`: whether the rule's times mute the event. -/
def timeSpanMuteStrategy (rule : EffectiveTime) (t : Instant) : Option Bool :=
  if rule.enableDaysOfWeek = "" then some false
  else timeSpanLoop t (splitText ";" rule.enableDaysOfWeek) (fieldsText rule.enableStime)
    (fieldsText rule.enableEtime)

/-- `models.TimeRanges`. -/
structure TimeRange where
  start : String
  stop : String
  week : List ℤ

/-- The loop of `NotifyRuleMatchCheck` over the days of one range. -/
def TimeRange.accepts (r : TimeRange) (t : Instant) : Bool :=
  r.week.any fun d => d = t.weekday.val && inEffect r.start r.stop t.triggerTime

/-- The time filter of `NotifyRuleMatchCheck`. -/
def timeMatch (timeRanges : List TimeRange) (t : Instant) : Bool :=
  timeRanges.isEmpty || timeRanges.any (·.accepts t)

/-- `models.PeriodicMute`. -/
structure PeriodicMute where
  enableStime : String
  enableEtime : String
  enableDaysOfWeek : String

/-- The interval test of a mute. -/
def withinPeriod (stime etime triggerTime : String) : Bool :=
  if stime = etime ∨ stime = "00:00" ∧ etime = "23:59" then true
  else if stime < etime then decide (triggerTime ≥ stime) && decide (triggerTime < etime)
  else decide (triggerTime ≥ stime) || decide (triggerTime < etime)

/-- The turn of `IsWithinPeriodicMute` for one period. -/
def PeriodicMute.accepts (p : PeriodicMute) (t : Instant) : Bool :=
  containsText p.enableDaysOfWeek (dayText t.day) &&
    withinPeriod p.enableStime p.enableEtime t.triggerTime

/-- `AlertMute.IsWithinPeriodicMute`. -/
def isWithinPeriodicMute (periodicMutes : List PeriodicMute) (t : Instant) : Bool :=
  periodicMutes.any (·.accepts t)

/-! ## Windows -/

/-- A weekly window. -/
structure Window where
  days : List (Fin 8)
  start : Clock
  stop : Clock
  deriving DecidableEq, Repr

open Window

/-- Windows as an alert rule stores them. -/
def effectiveTime (ws : List Window) : EffectiveTime where
  enableStime := " ".intercalate (ws.map (·.start.text))
  enableEtime := " ".intercalate (ws.map (·.stop.text))
  enableDaysOfWeek := ";".intercalate (ws.map (daysText ·.days))

/-- A window as a notify rule has it. -/
def Window.timeRange (w : Window) : TimeRange :=
  ⟨w.start.text, w.stop.text, w.days.map fun d => d.val⟩

/-- A window as a mute has it. -/
def Window.periodicMute (w : Window) : PeriodicMute :=
  ⟨w.start.text, w.stop.text, daysText w.days⟩

/-- **All three checks accept, or none.** -/
def Agree (ws : List Window) (t : Instant) : Prop :=
  (timeSpanMuteStrategy (effectiveTime ws) t = some false ↔
      timeMatch (ws.map timeRange) t) ∧
    (timeMatch (ws.map timeRange) t ↔ isWithinPeriodicMute (ws.map periodicMute) t)

instance (ws : List Window) (t : Instant) : Decidable (Agree ws t) :=
  inferInstanceAs (Decidable (_ ∧ _))

namespace Window

variable (w : Window) (t : Instant)

/-- The window has the time of day, as a half-open interval that may pass midnight; equal ends, and
the ends `00:00` and `23:59`, are the whole day. -/
def Within : Prop :=
  w.start = w.stop ∨ w.start = .midnight ∧ w.stop = .lastMinute ∨
    w.start.minutes < w.stop.minutes ∧
      w.start.minutes ≤ t.clock.minutes ∧ t.clock.minutes < w.stop.minutes ∨
    w.stop.minutes < w.start.minutes ∧
      (w.start.minutes ≤ t.clock.minutes ∨ t.clock.minutes < w.stop.minutes)

/-- The window covers the instant. -/
def Covers : Prop := t.day ∈ w.days ∧ w.Within t

/-- It is the last minute of the day, and the window ends with it. -/
def Closing : Prop :=
  w.start ≠ .midnight ∧ w.start.minutes < w.stop.minutes ∧ w.stop = .lastMinute ∧
    t.clock = .lastMinute

/-- The window covers the instant once its end is taken for the end of the day. -/
def ClosesDay : Prop := t.day ∈ w.days ∧ w.Closing t

/-- The window covers the instant once its Sunday is read, which it has as 7 only. -/
def HasSundayAsSeven : Prop :=
  t.weekday = 0 ∧ 7 ∈ w.days ∧ 0 ∉ w.days ∧ (w.Within t ∨ w.Closing t)

end Window

/-- There is no window, or only one and it has no days: the text of the days is blank. -/
def Blank (ws : List Window) : Prop := ws.map (·.days) = [] ∨ ws.map (·.days) = [[]]

/-! ## The order of times is that of their texts -/

theorem digit_lt_iff : ∀ m n : Fin 10,
    Char.ofNat (48 + m) < Char.ofNat (48 + n) ↔ m < n := by decide

theorem digit_inj : ∀ m n : Fin 10, Char.ofNat (48 + m) = Char.ofNat (48 + n) ↔ m = n := by decide

/-- Numbers in two digits are compared first, what follows them after. -/
theorem twoDigits_append_lt_iff {m n : ℕ} (hm : m < 100) (hn : n < 100) (l l' : List Char) :
    twoDigits m ++ l < twoDigits n ++ l' ↔ m < n ∨ m = n ∧ l < l' := by
  have hlt := digit_lt_iff ⟨m / 10, by omega⟩ ⟨n / 10, by omega⟩
  have heq := digit_inj ⟨m / 10, by omega⟩ ⟨n / 10, by omega⟩
  have hlt' := digit_lt_iff ⟨m % 10, by omega⟩ ⟨n % 10, by omega⟩
  have heq' := digit_inj ⟨m % 10, by omega⟩ ⟨n % 10, by omega⟩
  simp only [Fin.mk_lt_mk, Fin.mk.injEq] at hlt heq hlt' heq'
  simp only [twoDigits, cons_append, nil_append, cons_lt_cons_iff, hlt, heq, hlt', heq']
  constructor
  · rintro (h | ⟨h, h' | ⟨h', hl⟩⟩)
    · exact .inl (by omega)
    · exact .inl (by omega)
    · exact .inr ⟨by omega, hl⟩
  · rintro (h | ⟨rfl, hl⟩)
    · by_cases hd : m / 10 = n / 10
      · exact .inr ⟨hd, .inl (by omega)⟩
      · exact .inl (by omega)
    · exact .inr ⟨rfl, .inr ⟨rfl, hl⟩⟩

namespace Clock

variable {c d : Clock}

theorem text_lt_text : c.text < d.text ↔ c.minutes < d.minutes := by
  have hc := c.minute.isLt
  have hd := d.minute.isLt
  have hminute := twoDigits_append_lt_iff (m := c.minute) (n := d.minute) (by omega) (by omega)
    [] []
  simp only [append_nil, lt_irrefl, and_false, or_false] at hminute
  rw [String.lt_iff, text, text, String.toList_ofList, String.toList_ofList,
    twoDigits_append_lt_iff (by omega) (by omega), cons_lt_cons_iff, hminute, minutes, minutes]
  simp only [lt_self_iff_false, true_and, false_or]
  omega

theorem text_le_text : c.text ≤ d.text ↔ c.minutes ≤ d.minutes := by
  rw [← not_lt, text_lt_text, not_lt]

theorem minutes_inj : c.minutes = d.minutes ↔ c = d := by
  constructor
  · intro h
    have hc := c.minute.isLt
    have hd := d.minute.isLt
    unfold minutes at h
    obtain ⟨hour, minute⟩ := c
    obtain ⟨hour', minute'⟩ := d
    simp only [mk.injEq, Fin.ext_iff] at h hc hd ⊢
    omega
  · rintro rfl
    rfl

theorem text_inj : c.text = d.text ↔ c = d := by
  rw [← minutes_inj, le_antisymm_iff, text_le_text, text_le_text, ← le_antisymm_iff]

theorem midnight_text : midnight.text = "00:00" := by decide

theorem lastMinute_text : lastMinute.text = "23:59" := by decide

end Clock

theorem Instant.minutes_le (t : Instant) : t.clock.minutes ≤ lastMinute.minutes := by
  have hhour := t.hour.isLt
  have hminute := t.minute.isLt
  simp only [clock, minutes, lastMinute, Fin.val_castSucc]
  omega

/-! ## The two interval tests -/

namespace Window

variable (w : Window) (t : Instant)

/-- **The test of rules**: half-open, and closed at the last minute of the day. -/
theorem inEffect_iff :
    inEffect w.start.text w.stop.text t.triggerTime ↔ w.Within t ∨ w.Closing t := by
  have hday := t.minutes_le
  have hzero : midnight.minutes = 0 := rfl
  rw [inEffect, Within, Closing, Instant.triggerTime, ← lastMinute_text]
  simp only [gt_iff_lt, ge_iff_le, ne_eq, text_lt_text, text_le_text, text_inj, ← minutes_inj]
  split_ifs <;> simp only [Bool.not_eq_true', Bool.or_eq_false_iff, Bool.and_eq_false_imp,
    decide_eq_false_iff_not, decide_eq_true_eq, eq_self, true_iff] <;> omega

/-- **The test of mutes**: half-open. -/
theorem withinPeriod_iff : withinPeriod w.start.text w.stop.text t.triggerTime ↔ w.Within t := by
  rw [withinPeriod, Within, Instant.triggerTime, ← lastMinute_text, ← midnight_text]
  simp only [ge_iff_le, text_lt_text, text_le_text, text_inj, ← minutes_inj]
  split_ifs <;> simp only [Bool.or_eq_true, Bool.and_eq_true, decide_eq_true_eq, eq_self,
    true_iff] <;> omega

end Window

/-! ## Days in a text -/

theorem mem_daysText {c : Char} {days : List (Fin 8)} (hc : c ≠ ' ') :
    c ∈ (daysText days).toList ↔ ∃ d ∈ days, digit d = c := by
  have hsep : c ∉ " ".toList := by simpa using hc
  rw [daysText, String.toList_intercalate, mem_intercalate_iff hsep]
  simp [dayText, eq_comm]

theorem digit_injective : Function.Injective digit := by
  intro d e
  revert d e
  decide

theorem digit_ne_space (d : Fin 8) : digit d ≠ ' ' := by
  revert d
  decide

theorem digit_mem_daysText {d : Fin 8} {days : List (Fin 8)} :
    digit d ∈ (daysText days).toList ↔ d ∈ days := by
  rw [mem_daysText (digit_ne_space d)]
  simp [digit_injective.eq_iff]

theorem containsText_dayText {s : String} {d : Fin 8} :
    containsText s (dayText d) ↔ digit d ∈ s.toList := by
  simp [containsText, dayText, singleton_infix_iff]

/-- Replacing the first of a character adds the new one, if there was any. -/
theorem mem_replaceFirst {a b c : Char} (hc : c ≠ a) {l : List Char} :
    c ∈ replaceFirst a b l ↔ c ∈ l ∨ c = b ∧ a ∈ l := by
  induction l with
  | nil => simp [replaceFirst]
  | cons x l ih =>
    rw [replaceFirst]
    split_ifs with hx
    · subst hx
      simp [hc, or_comm]
    · rw [mem_cons, ih, mem_cons, mem_cons]
      have hx' : a ≠ x := fun h => hx h.symm
      simp [hx', or_assoc]

/-- **The days an alert rule reads**: 7 counts as 0. -/
theorem containsText_replaceFirst (t : Instant) (days : List (Fin 8)) :
    containsText (String.ofList (replaceFirst '7' '0' (daysText days).toList)) (dayText t.day) ↔
      t.day ∈ days ∨ t.weekday = 0 ∧ 7 ∈ days := by
  have hseven : ∀ d : Fin 7, digit d.castSucc ≠ '7' := by decide
  have hzero : ∀ d : Fin 7, digit d.castSucc = '0' ↔ d = 0 := by decide
  rw [containsText_dayText, String.toList_ofList, Instant.day, mem_replaceFirst (hseven t.weekday),
    digit_mem_daysText, hzero, show '7' = digit 7 from rfl, digit_mem_daysText]

/-! ## What each check accepts -/

section Accepts

variable {ws : List Window} {t : Instant}

theorem timeRange_accepts_iff (w : Window) :
    w.timeRange.accepts t ↔ w.Covers t ∨ w.ClosesDay t := by
  have hday : ∀ d : Fin 8, (d.val : ℤ) = t.weekday.val ↔ d = t.day := by
    intro d
    rw [Nat.cast_inj, Fin.ext_iff, Instant.day, Fin.val_castSucc]
  rw [Window.Covers, Window.ClosesDay, ← and_or_left, ← w.inEffect_iff]
  simp [TimeRange.accepts, timeRange, hday]

/-- **A notify rule** takes no windows as every time, and closes the day. -/
theorem timeMatch_iff :
    timeMatch (ws.map timeRange) t ↔ ws = [] ∨ ∃ w ∈ ws, w.Covers t ∨ w.ClosesDay t := by
  simp [timeMatch, timeRange_accepts_iff]

/-- **A mute** takes no windows as no time, and every window as half-open. -/
theorem isWithinPeriodicMute_iff :
    isWithinPeriodicMute (ws.map periodicMute) t ↔ ∃ w ∈ ws, w.Covers t := by
  simp [isWithinPeriodicMute, PeriodicMute.accepts, periodicMute, containsText_dayText,
    digit_mem_daysText, withinPeriod_iff, Window.Covers]

theorem timeSpanLoop_iff (ws : List Window) :
    timeSpanLoop t (ws.map (daysText ·.days)) (ws.map (·.start.text))
      (ws.map (·.stop.text)) = some false ↔
      ∃ w ∈ ws, (t.day ∈ w.days ∨ t.weekday = 0 ∧ 7 ∈ w.days) ∧ (w.Within t ∨ w.Closing t) := by
  induction ws with
  | nil => simp
  | cons w ws ih =>
    rw [exists_mem_cons_iff, ← ih, ← containsText_replaceFirst, ← inEffect_iff,
      map_cons, map_cons, map_cons, timeSpanLoop]
    split_ifs with hday heffect
    · simp_all
    · simp_all
    · simp_all

theorem semicolon_notMem_daysText (days : List (Fin 8)) : ';' ∉ (daysText days).toList := by
  have hdigit : ∀ d : Fin 8, digit d ≠ ';' := by decide
  rw [mem_daysText (by decide)]
  rintro ⟨d, -, hd⟩
  exact hdigit d hd

theorem splitText_days (hne : ws ≠ []) :
    splitText ";" (effectiveTime ws).enableDaysOfWeek = ws.map (daysText ·.days) := by
  refine (splitText_intercalate_iff (by decide)).mpr ?_
  show Clean [';'] _
  rw [clean_singleton_iff]
  refine ⟨by simpa using hne, fun x hx => ?_⟩
  rw [map_map] at hx
  obtain ⟨w, -, rfl⟩ := mem_map.mp hx
  exact semicolon_notMem_daysText w.days

theorem Clock.isWord_text (c : Clock) : IsWord c.text := by
  have hdigit : ∀ n : Fin 10, isSpace (Char.ofNat (48 + n)) = false := by decide
  have htwo : ∀ n < 100, ∀ x ∈ twoDigits n, isSpace x = false := by
    intro n hn x hx
    rcases mem_pair.mp hx with rfl | rfl
    · exact hdigit ⟨n / 10, by omega⟩
    · exact hdigit ⟨n % 10, by omega⟩
  have hhour := htwo c.hour (by omega)
  have hminute := htwo c.minute (by omega)
  have hcolon : isSpace ':' = false := by decide
  rw [IsWord, text, String.toList_ofList]
  refine ⟨by simp, forall_mem_append.mpr ⟨hhour, ?_⟩⟩
  exact forall_mem_cons.mpr ⟨hcolon, hminute⟩

theorem fieldsText_clocks (f : Window → Clock) :
    fieldsText (" ".intercalate (ws.map fun w => (f w).text)) = ws.map fun w => (f w).text :=
  fieldsText_intercalate (forall_mem_map.mpr fun w _ => (f w).isWord_text)

theorem enableDaysOfWeek_eq_empty_iff : (effectiveTime ws).enableDaysOfWeek = "" ↔ Blank ws := by
  have hdays : ∀ days : List (Fin 8), daysText days = "" ↔ days = [] := by
    intro days
    constructor
    · intro h
      rw [eq_nil_iff_forall_not_mem]
      intro d hd
      have hmem := digit_mem_daysText.mpr hd
      simp [h] at hmem
    · rintro rfl
      rfl
  rcases ws with _ | ⟨w, _ | ⟨w', ws⟩⟩
  · simp [effectiveTime, Blank]
  · simp [effectiveTime, Blank, hdays]
  · have : (effectiveTime (w :: w' :: ws)).enableDaysOfWeek ≠ "" := by
      intro h
      have := congrArg String.toList h
      simp [effectiveTime, String.toList_intercalate] at this
    simp [this, Blank]

/-- **An alert rule** takes blank days as every time, closes the day, and reads 7 as Sunday. -/
theorem timeSpanMuteStrategy_iff : timeSpanMuteStrategy (effectiveTime ws) t = some false ↔
      Blank ws ∨ ∃ w ∈ ws, w.Covers t ∨ w.ClosesDay t ∨ w.HasSundayAsSeven t := by
  by_cases hblank : Blank ws
  · simp [timeSpanMuteStrategy, enableDaysOfWeek_eq_empty_iff, hblank]
  · have hne : ws ≠ [] := by
      rintro rfl
      exact hblank (.inl rfl)
    rw [timeSpanMuteStrategy, if_neg (mt enableDaysOfWeek_eq_empty_iff.mp hblank),
      splitText_days hne, effectiveTime, fieldsText_clocks, fieldsText_clocks, timeSpanLoop_iff]
    simp only [hblank, false_or]
    refine exists_congr fun w => and_congr_right fun _ => ?_
    rw [Window.Covers, Window.ClosesDay, Window.HasSundayAsSeven]
    have hday : t.weekday = 0 → t.day = 0 := by
      intro h
      simp [Instant.day, h]
    by_cases h0 : t.weekday = 0
    · rw [hday h0]
      tauto
    · tauto

/-! ## Where they agree -/

/-- **The three checks agree on every list that is not blank**, except at an instant that some
window has only at the last minute of the day or only by Sunday written 7, and that no window
covers otherwise. -/
theorem windows_agree_iff (ws : List Window) (t : Instant) : Agree ws t ↔ ¬ Blank ws ∧
      ∀ w ∈ ws, w.ClosesDay t ∨ w.HasSundayAsSeven t → ∃ w' ∈ ws, w'.Covers t := by
  rw [Agree, timeSpanMuteStrategy_iff, timeMatch_iff, isWithinPeriodicMute_iff]
  by_cases hblank : Blank ws
  · have hno : ¬ ∃ w ∈ ws, w.Covers t ∨ w.ClosesDay t := by
      rintro ⟨w, hw, h⟩
      have hdays : w.days = [] := by
        have hmem := mem_map_of_mem (f := days) hw
        rcases hblank with h | h <;> simp_all
      rw [Window.Covers, Window.ClosesDay, hdays] at h
      simp at h
    have hno' : ¬ ∃ w ∈ ws, w.Covers t := fun ⟨w, hw, h⟩ => hno ⟨w, hw, .inl h⟩
    simp only [hblank, hno, hno']
    tauto
  · have hne : ws ≠ [] := by
      rintro rfl
      exact hblank (.inl rfl)
    simp only [hblank, hne, false_or, not_false_eq_true, true_and]
    constructor
    · rintro ⟨hrule, hnotify⟩ w hw h
      exact hnotify.mp (hrule.mp ⟨w, hw, .inr h⟩)
    · intro h
      have hmute : (∃ w ∈ ws, w.Covers t ∨ w.ClosesDay t ∨ w.HasSundayAsSeven t) →
          ∃ w ∈ ws, w.Covers t := by
        rintro ⟨w, hw, hcov | hslip⟩
        · exact ⟨w, hw, hcov⟩
        · exact h w hw hslip
      have hrule : (∃ w ∈ ws, w.Covers t ∨ w.ClosesDay t) →
          ∃ w ∈ ws, w.Covers t ∨ w.ClosesDay t ∨ w.HasSundayAsSeven t := by
        rintro ⟨w, hw, hcov⟩
        exact ⟨w, hw, hcov.imp_right .inl⟩
      have hnotify : (∃ w ∈ ws, w.Covers t) → ∃ w ∈ ws, w.Covers t ∨ w.ClosesDay t :=
        fun ⟨w, hw, hcov⟩ => ⟨w, hw, .inl hcov⟩
      exact ⟨⟨hnotify ∘ hmute, hrule⟩, ⟨hmute ∘ hrule, hnotify⟩⟩

end Accepts

namespace Example

/-- Sunday from 02:00 on, with Sunday as the list has it. -/
def sunday (days : List (Fin 8)) : Window := ⟨days, ⟨2, 0⟩, .lastMinute⟩

/-- The last minute of a Sunday. -/
def sundayEnds : Instant := ⟨0, 23, 59⟩

/-- Three in the morning of a Sunday. -/
def sundayNight : Instant := ⟨0, 3, 0⟩

/-- Without windows the two rules accept and the mute does not; in the last minute of the day
likewise; and with Sunday as 7 only the alert rule accepts. -/
theorem not_agree_sunday : (timeSpanMuteStrategy (effectiveTime []) sundayNight = some false ∧
      timeMatch [] sundayNight = true ∧ isWithinPeriodicMute [] sundayNight = false) ∧
    (timeSpanMuteStrategy (effectiveTime [sunday [0]]) sundayEnds = some false ∧
      timeMatch [(sunday [0]).timeRange] sundayEnds = true ∧
      isWithinPeriodicMute [(sunday [0]).periodicMute] sundayEnds = false) ∧
    (timeSpanMuteStrategy (effectiveTime [sunday [7]]) sundayNight = some false ∧
      timeMatch [(sunday [7]).timeRange] sundayNight = false ∧
      isWithinPeriodicMute [(sunday [7]).periodicMute] sundayNight = false) ∧
    ¬ Agree [] sundayNight ∧ ¬ Agree [sunday [0]] sundayEnds ∧
      ¬ Agree [sunday [7]] sundayNight := by
  decide +kernel

end Example

end Nightingale.Mute
