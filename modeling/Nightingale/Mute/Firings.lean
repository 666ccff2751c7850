import Nightingale.Lib.Run
import Nightingale.Mute.Evaluator

/-!
# Mute/Firings — the windows of a cron mute

A cron mute is open for its duration after each firing.  The library tells only the next firing, so
`IsActive` steps back by the duration and asks from there:

    now − D ────(────────────────]──── now          a firing in here: the mute is open
            ▴                                       Next(now − D) is the first candidate
            └── −D · 10⁹ as an int64

The step back is a product of two `int64`s, and from `9223372037` seconds on it wraps around
(`opens_iff`).
-/

namespace Nightingale.Mute

/-- **`Next` follows a set of firings**: it gives the least one strictly after an instant, and none
if there is none. -/
structure Follows (next : ℤ → Option ℤ) (firings : Set ℤ) : Prop where
  isLeast : ∀ t f, next t = some f → IsLeast {x | x ∈ firings ∧ t < x} f
  exhausted : ∀ t, next t = none → ∀ x ∈ firings, x ≤ t

/-- A duration opens the windows it should, whatever the schedule and the time zone: the mute is
open at an instant if and only if there was a firing in the `durationSec` seconds before it. -/
def Opens (durationSec : ℤ) : Prop :=
  ∀ (lib : CronLibrary) (expr timezone : String) (c : CompiledCron) (firings : Set ℤ),
    compileCron lib expr timezone durationSec = .ok c → Follows (c.schedule c.location) firings →
    ∀ now, c.isActive now = true ↔ ∃ f ∈ firings, now - durationSec * 10 ^ 9 < f ∧ f ≤ now

/-- Where `IsActive` looks from, before now. -/
def offset (durationSec : ℤ) : ℤ := (-durationSec * 10 ^ 9).bmod (2 ^ 64)

section Window

variable {c : CompiledCron} {firings : Set ℤ}

/-- **One call of `Next` is enough**: the mute is open exactly if there is a firing between where
`IsActive` looks from and now. -/
theorem isActive_iff_from (h : Follows (c.schedule c.location) firings) (now : ℤ) :
    c.isActive now = true ↔ ∃ f ∈ firings, now + offset c.durationSec < f ∧ f ≤ now := by
  unfold CompiledCron.isActive
  rw [← offset]
  cases hnext : c.schedule c.location (now + offset c.durationSec) with
  | none =>
    refine iff_of_false Bool.false_ne_true ?_
    rintro ⟨f, hf, hafter, -⟩
    exact absurd (h.exhausted _ hnext f hf) (not_le.mpr hafter)
  | some fire =>
    obtain ⟨⟨hfire, hafter⟩, hleast⟩ := h.isLeast _ _ hnext
    rw [decide_eq_true_eq]
    constructor
    · intro hnow
      exact ⟨fire, hfire, hafter, hnow⟩
    · rintro ⟨f, hf, hf', hnow⟩
      exact (hleast ⟨hf, hf'⟩).trans hnow

theorem durationSec_of_compileCron {lib : CronLibrary} {expr timezone : String} {durationSec : ℤ}
    (h : compileCron lib expr timezone durationSec = .ok c) : c.durationSec = durationSec := by
  unfold compileCron at h
  split_ifs at h
  all_goals
    obtain ⟨location, -, h⟩ := ok_of_bind h
    obtain ⟨schedule, -, h⟩ := ok_of_bind h
    cases h
    rfl

end Window

section Offset

variable {durationSec : ℤ}

/-- A duration of less than 2⁶³ nanoseconds is stepped back. -/
theorem offset_eq (hpos : 0 < durationSec) (hle : durationSec ≤ 9223372036) :
    offset durationSec = -(durationSec * 10 ^ 9) := by
  unfold offset
  rw [neg_mul]
  apply Int.bmod_eq_of_le
  · omega
  · omega

theorem lt_offset (hlt : 9223372036 < durationSec) :
    -(durationSec * 10 ^ 9) < offset durationSec := by
  have hle : -((2 ^ 64 : ℕ) : ℤ) / 2 ≤ offset durationSec := Int.le_bmod (by norm_num)
  omega

end Offset

/-! ## Schedules that fire once -/

/-- The library of one schedule, which fires at one instant only. -/
def once (f : ℤ) : CronLibrary where
  loadLocation tz := .ok tz
  parse _ := .ok fun _ t => if t < f then some f else none

theorem follows_once (f : ℤ) : Follows (fun t => if t < f then some f else none) {f} where
  isLeast t g h := by
    split_ifs at h with ht
    cases h
    exact ⟨⟨rfl, ht⟩, fun x hx => hx.1.ge⟩
  exhausted t h x hx := by
    split_ifs at h with ht
    obtain rfl := hx
    exact not_lt.mp ht

theorem compileCron_once {durationSec : ℤ} (hpos : 0 < durationSec) (f : ℤ) :
    ∃ c, compileCron (once f) "* * * * *" "" durationSec = .ok c ∧
      c.durationSec = durationSec ∧ Follows (c.schedule c.location) {f} := by
  refine ⟨⟨fun _ t => if t < f then some f else none, "Local", durationSec⟩, ?_, rfl,
    follows_once f⟩
  simp [compileCron, once, not_le.mpr hpos]
  rfl

/-- **When a cron mute opens its windows.**  For any duration `CompileCron` accepts, a positive
`int64`: for every schedule, time zone and instant the mute is open if and only if there was a
firing within the duration, exactly if the duration is at most `9223372036` seconds. -/
theorem opens_iff (durationSec : ℤ) (hpos : 0 < durationSec) (hint : durationSec < 2 ^ 63) :
    Opens durationSec ↔ durationSec ≤ 9223372036 := by
  constructor
  · intro h
    by_contra hlt
    have hoffset := lt_offset (not_le.mp hlt)
    -- A firing that lies in the true window and not after where `IsActive` looks from.
    obtain ⟨c, hc, hd, hfollows⟩ := compileCron_once hpos (min (offset durationSec) 0)
    have hopen := (h _ _ _ c _ hc hfollows 0).mpr ⟨_, rfl, by omega, min_le_right _ _⟩
    obtain ⟨f, rfl, hafter, -⟩ := (isActive_iff_from hfollows 0).mp hopen
    rw [hd] at hafter
    omega
  · intro hle lib expr timezone c firings hc hfollows now
    rw [isActive_iff_from hfollows, durationSec_of_compileCron hc, offset_eq hpos hle]
    rfl

namespace Example

/-- The library of the schedule that fires every minute. -/
def minutely : CronLibrary where
  loadLocation tz := .ok tz
  parse _ := .ok fun _ t => some ((t / (60 * 10 ^ 9) + 1) * (60 * 10 ^ 9))

/-- The instants it fires at. -/
def minutes : Set ℤ := {t | (60 * 10 ^ 9 : ℤ) ∣ t}

theorem follows_minutes :
    Follows (fun t => some ((t / (60 * 10 ^ 9) + 1) * (60 * 10 ^ 9))) minutes where
  isLeast t f h := by
    cases h
    refine ⟨⟨Dvd.intro_left _ rfl, ?_⟩, ?_⟩
    · show t < _
      omega
    · rintro x ⟨⟨k, rfl⟩, hx⟩
      omega
  exhausted _ h := by cases h

end Example

/-- An hour, every minute. -/
theorem opens_hour :
    ∃ c, compileCron Example.minutely "* * * * *" "" 3600 = .ok c ∧ c.isActive 0 = true := by
  refine ⟨⟨_, "Local", 3600⟩, rfl, ?_⟩
  have h := (opens_iff 3600 (by norm_num) (by norm_num)).mpr (by norm_num)
  exact (h Example.minutely "* * * * *" "" _ _ rfl Example.follows_minutes 0).mpr
    ⟨0, dvd_zero _, by norm_num, le_rfl⟩

/-- **A mute for 292 years is never open.**  The schedule fires every minute, and at this very
instant, and the duration is accepted. -/
theorem closed_wrapped :
    ∃ c, compileCron Example.minutely "* * * * *" "" 9223372037 = .ok c ∧
      Follows (c.schedule c.location) Example.minutes ∧ 0 ∈ Example.minutes ∧
      c.isActive 0 = false := ⟨_, rfl, Example.follows_minutes, dvd_zero _, by decide⟩

end Nightingale.Mute
