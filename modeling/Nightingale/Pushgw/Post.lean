import Nightingale.Lib.Text

/-!
# Pushgw/Post — one remote write over several addresses

`Post` splits the configured address at the commas and tries the parts in turn:

    request not built     next      err as it was
    transport error       next      err = the error
    400 ≤ status < 500    next      err as it was
    500 ≤ status          next      err = the status
    status < 400          done      err = nil

An answer below 400 ends the loop with `nil`.  Without one the loop ends with the last error it
noted, and for an address that no request can be built for it notes none (`post_reports_iff`).
-/

namespace Nightingale.Writer

open Text List

/-- What becomes of the request to an address. -/
inductive Outcome
  | unbuilt
  | failed (e : String)
  | status (code : ℕ) (body : String)

/-- An address, and what becomes of the request to it. -/
structure Attempt where
  url : String
  outcome : Outcome

/-- The address was reached, and answered with a status below `n`. -/
def Attempt.AnswersBelow (n : ℕ) (a : Attempt) : Prop :=
  ∃ code body, a.outcome = .status code body ∧ code < n

/-- The error of an answer of 500 or more. -/
def statusError (url : String) (code : ℕ) (body : String) : String :=
  s!"push data with remote write:{url} request got status code: {code}, response body: {body}"

/-- The loop of `Post`: the error it ends with, and the addresses it tried. -/
def postLoop : List Attempt → Option String → Option String × List Attempt
  | [], err => (err, [])
  | a :: rest, err =>
    match a.outcome with
    | .unbuilt => (postLoop rest err).map id (a :: ·)
    | .failed e => (postLoop rest (some e)).map id (a :: ·)
    | .status code body =>
      if 400 ≤ code ∧ code < 500 then (postLoop rest err).map id (a :: ·)
      else if 500 ≤ code then (postLoop rest (some (statusError a.url code body))).map id (a :: ·)
      else (none, [a])

/-- The addresses of a backend, the `i`-th with the `i`-th outcome. -/
def attempts (url : String) (outcome : ℕ → Outcome) : List Attempt :=
  (splitText "," url).zipIdx.map fun p => ⟨p.1, outcome p.2⟩

/-- `WriterType.Post`. -/
def post (url : String) (outcome : ℕ → Outcome) : Option String × List Attempt :=
  postLoop (attempts url outcome) none

section Loop

variable {a : Attempt} {rest : List Attempt} {err : Option String}

theorem postLoop_of_answersBelow (h : a.AnswersBelow 400) :
    postLoop (a :: rest) err = (none, [a]) := by
  obtain ⟨code, body, ho, hcode⟩ := h
  have h4 : ¬ (400 ≤ code ∧ code < 500) := by omega
  simp only [postLoop, ho, if_neg h4, if_neg (show ¬ 500 ≤ code by omega)]

/-- Any other address leaves the loop to the next, with no error noted exactly if there was none and
the address could not be asked or answered below 500. -/
theorem postLoop_of_not_answersBelow (rest : List Attempt) (err : Option String)
    (h : ¬ a.AnswersBelow 400) :
    ∃ err', postLoop (a :: rest) err = (postLoop rest err').map id (a :: ·) ∧
      (err' = none ↔ err = none ∧ (a.outcome = .unbuilt ∨ a.AnswersBelow 500)) := by
  cases ho : a.outcome with
  | unbuilt => exact ⟨err, by simp only [postLoop, ho], by simp⟩
  | failed e =>
    exact ⟨some e, by simp only [postLoop, ho], by simp [Attempt.AnswersBelow, ho]⟩
  | status code body =>
    have h4 : 400 ≤ code := by
      by_contra hlt
      exact h ⟨code, body, ho, by omega⟩
    by_cases h5 : code < 500
    · exact ⟨err, by simp only [postLoop, ho, if_pos (And.intro h4 h5)],
        by simp [Attempt.AnswersBelow, ho, h5]⟩
    · refine ⟨some (statusError a.url code body), ?_, by simp [Attempt.AnswersBelow, ho, h5]⟩
      simp only [postLoop, ho, h5, and_false, if_false, if_pos (not_lt.mp h5)]

/-- Where the loop ends without an error an address answered below 500, or there was no error before
and no request could be built. -/
theorem answersBelow_of_postLoop {l : List Attempt} (h : (postLoop l err).1 = none) :
    (∃ a ∈ (postLoop l err).2, a.AnswersBelow 500) ∨
      (err = none ∧ ∀ a ∈ l, a.outcome = .unbuilt) := by
  induction l generalizing err with
  | nil => exact .inr ⟨h, by simp⟩
  | cons a rest ih =>
    by_cases hlt : a.AnswersBelow 400
    · obtain ⟨code, body, ho, hcode⟩ := id hlt
      rw [postLoop_of_answersBelow hlt]
      exact .inl ⟨a, mem_singleton_self a, code, body, ho, by omega⟩
    · obtain ⟨err', heq, herr⟩ := postLoop_of_not_answersBelow rest err hlt
      rw [heq, Prod.map_fst, id] at h
      rw [heq, Prod.map_snd]
      rcases ih h with ⟨b, hb, hbelow⟩ | ⟨hnone, hrest⟩
      · exact .inl ⟨b, mem_cons_of_mem a hb, hbelow⟩
      · obtain ⟨rfl, ha | ha⟩ := herr.mp hnone
        · exact .inr ⟨rfl, forall_mem_cons.mpr ⟨ha, hrest⟩⟩
        · exact .inl ⟨a, mem_cons_self, ha⟩

theorem postLoop_of_unbuilt {l : List Attempt} (h : ∀ a ∈ l, a.outcome = .unbuilt) :
    postLoop l err = (err, l) := by
  induction l with
  | nil => rfl
  | cons a rest ih =>
    rw [postLoop, h a mem_cons_self, ih fun b hb => h b (mem_cons_of_mem a hb)]
    rfl

/-- The first address that answers below 400 is the last one tried. -/
theorem postLoop_append {pre : List Attempt} (hpre : ∀ b ∈ pre, ¬ b.AnswersBelow 400)
    (ha : a.AnswersBelow 400) : postLoop (pre ++ a :: rest) err = (none, pre ++ [a]) := by
  induction pre generalizing err with
  | nil => exact postLoop_of_answersBelow ha
  | cons b pre ih =>
    rw [forall_mem_cons] at hpre
    obtain ⟨err', heq, -⟩ := postLoop_of_not_answersBelow (pre ++ a :: rest) err hpre.1
    rw [cons_append, heq, ih hpre.2]
    rfl

end Loop

/-- What the caller takes `nil` for, and what it takes an answer below 400 for. -/
structure Reports (url : String) (outcome : ℕ → Outcome) : Prop where
  /-- `nil` says that an address that was tried answered below 500. -/
  reached : (post url outcome).1 = none → ∃ a ∈ (post url outcome).2, a.AnswersBelow 500
  /-- The first answer below 400 gives `nil`, and no address behind it is tried. -/
  stops : ∀ pre a rest, attempts url outcome = pre ++ a :: rest →
    (∀ b ∈ pre, ¬ b.AnswersBelow 400) → a.AnswersBelow 400 →
      post url outcome = (none, pre ++ [a])

/-- **`Post` reports failure exactly if a request can be built for some address.** -/
theorem post_reports_iff (url : String) (outcome : ℕ → Outcome) :
    Reports url outcome ↔ ∃ a ∈ attempts url outcome, a.outcome ≠ .unbuilt := by
  constructor
  · intro h
    by_contra hall
    push Not at hall
    have hpost : post url outcome = (none, attempts url outcome) := postLoop_of_unbuilt hall
    obtain ⟨a, ha, code, body, ho, -⟩ := h.reached (by rw [hpost])
    rw [hpost] at ha
    exact Outcome.noConfusion ((hall a ha).symm.trans ho)
  · rintro ⟨a, ha, hbuilt⟩
    refine ⟨fun hnone => ?_, fun pre b rest hl hpre hb => ?_⟩
    · exact (answersBelow_of_postLoop hnone).resolve_right fun hall => hbuilt (hall.2 a ha)
    · rw [post, hl]
      exact postLoop_append hpre hb

/-- Neither of two addresses can be asked: nothing is sent and nothing is reported. -/
theorem unbuilt_not_reported :
    (post "http://vm1:port,10.0.0.2:8428/api/v1/write" fun _ => .unbuilt).1 = none ∧
      ∀ a ∈ (post "http://vm1:port,10.0.0.2:8428/api/v1/write" fun _ => .unbuilt).2,
        a.outcome = .unbuilt := by
  have hall : ∀ a ∈ attempts "http://vm1:port,10.0.0.2:8428/api/v1/write"
      fun _ => .unbuilt, a.outcome = .unbuilt := by
    intro a ha
    obtain ⟨p, -, rfl⟩ := mem_map.mp ha
    rfl
  rw [post, postLoop_of_unbuilt hall]
  exact ⟨rfl, hall⟩

end Nightingale.Writer
