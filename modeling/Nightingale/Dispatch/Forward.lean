import Nightingale.Models.Persist

/-!
# Dispatch/Forward — an event an edge engine hands to the center

An edge engine has no database.  `Consumer.persist` posts the event instead, to the addresses of the
center in turn from a random one on, and the center runs `EventPersist` for every request it gets.

    edge      POST ─────────▸   ✗ timeout      POST ─────────▸   200, the id
    center    EventPersist                     EventPersist
    his       a row                            another row

`EventPersist` inserts into `alert_his_event` whether or not it did so before.  So the table gains a
row for every request that got as far as the insertion, answered or not (`forwarded_once_iff`).
-/

namespace Nightingale.Poster

open List

/-- What becomes of a POST: the center does not process it; or it does, with statements that may
fail, and the answer arrives unless it is lost.  An error is what the client sees in its place. -/
inductive Fate
  | undelivered (err : String)
  | processed (fails : Statement → Option String) (lost : Option String)

/-- The center inserts the row into `alert_his_event`. -/
def Fate.records : Fate → Bool
  | undelivered _ => false
  | processed fails _ => (fails .alertCurEventExists).isNone && (fails .hisAdd).isNone

/-- `PostByUrl` with the handler of `/v1/n9e/event-persist` at the other end. -/
def postByUrl (event : AlertCurEvent) (t : Tables) : Fate → Except String ℤ × Tables
  | .undelivered err => (.error err, t)
  | .processed fails lost =>
    let (t', event', err) := eventPersistFailing fails t event
    match lost, err with
    | some lost, _ => (.error lost, t')
    | none, .error err => (.error s!"error from server: {err}", t')
    | none, .ok () => (.ok event'.id, t')

/-- The loop of `PostByUrlsWithResp`; `err` is the last error. -/
def postLoop (event : AlertCurEvent) : List Fate → String → Tables → Except String ℤ × Tables
  | [], err, t => (.error err, t)
  | fate :: rest, _, t =>
    match postByUrl event t fate with
    | (.ok id, t) => (.ok id, t)
    | (.error err, t) => postLoop event rest err t

/-- What becomes of a request to each address, in the order they are tried in. -/
def inTurn (addrs : List String) (startIdx : ℕ) (fate : ℕ → Fate) : List Fate :=
  (range addrs.length).map fun i => fate ((startIdx + i) % addrs.length)

/-- `PostByUrlsWithResp` for an event: `fate` is that of the request to each address. -/
def postByUrlsWithResp (addrs : List String) (startIdx : ℕ) (fate : ℕ → Fate)
    (event : AlertCurEvent) (t : Tables) : Except String ℤ × Tables :=
  if addrs.length < 1 then
    (.error "submission of the POST request from the center has failed", t)
  else postLoop event (inTurn addrs startIdx fate) "" t

/-- The requests of `pre` fail one after the other, and the next one is answered with the id. -/
def Answered (event : AlertCurEvent) : Tables → List Fate → Fate → ℤ → Prop
  | t, [], last, id => (postByUrl event t last).1 = .ok id
  | t, fate :: pre, last, id => (∃ err, (postByUrl event t fate).1 = .error err) ∧
      Answered event (postByUrl event t fate).2 pre last id

/-! ## Rows -/

section Rows

variable (event : AlertCurEvent) (t : Tables)

/-- What is inserted stays, whatever fails behind it; and without an error it was inserted. -/
theorem eventPersistFailing_his (fails : Statement → Option String) (lost : Option String) :
    (eventPersistFailing fails t event).1.his = t.his ++
      (if (Fate.processed fails lost).records then [event.toHis t.nextHisId] else []) ∧
    ((eventPersistFailing fails t event).2.2 = .ok () → (Fate.processed fails lost).records) := by
  cases hexists : fails .alertCurEventExists with
  | some err => simp [eventPersistFailing, Fate.records, hexists]
  | none =>
    cases hadd : fails .hisAdd with
    | some err => simp [eventPersistFailing, Fate.records, hexists, hadd]
    | none =>
      have hhis : (eventPersistFailing fails t event).1.his = (t.addHis event).his := by
        simp only [eventPersistFailing, hexists, hadd]
        repeat' split
        all_goals rfl
      simp [hhis, Fate.records, hexists, hadd, Tables.addHis]

/-- One POST adds a row exactly if it is recorded, and where it succeeds it is. -/
theorem postByUrl_his (fate : Fate) : (postByUrl event t fate).2.his
      = t.his ++ (if fate.records then [event.toHis t.nextHisId] else []) ∧
    ∀ id, (postByUrl event t fate).1 = .ok id → fate.records := by
  cases fate with
  | undelivered err => simp [postByUrl, Fate.records]
  | processed fails lost =>
    obtain ⟨hhis, hok⟩ := eventPersistFailing_his event t fails lost
    rcases hp : eventPersistFailing fails t event with ⟨t', event', err⟩
    rw [hp] at hhis hok
    rcases lost with _ | lost
    · rcases err with err | _
      · exact ⟨by simpa [postByUrl, hp] using hhis, by simp [postByUrl, hp]⟩
      · exact ⟨by simpa [postByUrl, hp] using hhis, fun _ _ => hok rfl⟩
    · exact ⟨by simpa [postByUrl, hp] using hhis, by simp [postByUrl, hp]⟩

/-- A loop that succeeds adds a row of the event for every request that is recorded, the last one
among them. -/
theorem postLoop_his (fates : List Fate) (err : String) {id : ℤ}
    (h : (postLoop event fates err t).1 = .ok id) : ∃ pre last rest rows,
      fates = pre ++ last :: rest ∧ Answered event t pre last id ∧
      (postLoop event fates err t).2.his = t.his ++ rows ∧
      (∀ row ∈ rows, ∃ id, row = event.toHis id) ∧
      rows.length = pre.countP Fate.records + 1 := by
  induction fates generalizing err t with
  | nil => cases h
  | cons fate fates ih =>
    obtain ⟨hhis, hok⟩ := postByUrl_his event t fate
    rcases hp : postByUrl event t fate with ⟨err' | id', t'⟩
    · -- the next address: what it adds comes behind
      rw [hp] at hhis
      simp only [postLoop, hp] at h ⊢
      obtain ⟨pre, last, rest, rows, rfl, hans, hrest, hrows, hlen⟩ := ih t' err' h
      refine ⟨fate :: pre, last, rest, _, rfl, ⟨⟨err', by rw [hp]⟩, by rw [hp]; exact hans⟩,
        by rw [hrest, hhis, append_assoc], ?_, ?_⟩
      · intro row hrow
        rcases mem_append.mp hrow with hrow | hrow
        · split_ifs at hrow
          · exact ⟨_, mem_singleton.mp hrow⟩
          · cases hrow
        · exact hrows row hrow
      · rw [length_append, countP_cons, hlen]
        split_ifs <;> simp [Nat.add_comm, Nat.add_left_comm]
    · have hrec : fate.records := hok id' (by rw [hp])
      rw [hp, if_pos hrec] at hhis
      simp only [postLoop, hp] at h ⊢
      exact ⟨[], fate, fates, _, rfl, by rw [Answered, hp, h], hhis,
        fun row hrow => ⟨_, mem_singleton.mp hrow⟩, rfl⟩

end Rows

/-- **An event that was forwarded successfully is recorded once exactly if** no request before the
one that was answered was recorded. -/
theorem forwarded_once_iff (addrs : List String) (startIdx : ℕ) (fate : ℕ → Fate)
    (event : AlertCurEvent) (t : Tables) {id : ℤ}
    (h : (postByUrlsWithResp addrs startIdx fate event t).1 = .ok id) :
    ∃ pre last rest rows, inTurn addrs startIdx fate = pre ++ last :: rest ∧
      Answered event t pre last id ∧
      (postByUrlsWithResp addrs startIdx fate event t).2.his = t.his ++ rows ∧
      (∀ row ∈ rows, ∃ id, row = event.toHis id) ∧
      (rows.length = 1 ↔ ∀ f ∈ pre, ¬ f.records) := by
  rw [postByUrlsWithResp] at h ⊢
  split_ifs at h ⊢ with haddrs
  obtain ⟨pre, last, rest, rows, heq, hans, hhis, hrows, hlen⟩ := postLoop_his event t _ "" h
  refine ⟨pre, last, rest, rows, heq, hans, hhis, hrows, ?_⟩
  rw [hlen, Nat.add_eq_right, countP_eq_zero]

namespace Example

/-- An alert. -/
def alert : AlertCurEvent := { hash := "h", ruleId := 1 }

/-- The first address is not reached, and the second answers. -/
def unreached (i : ℕ) : Fate :=
  if i = 0 then .undelivered "connection refused" else .processed (fun _ => none) none

theorem recorded_once : ∃ rows : List AlertHisEvent, rows.length = 1 ∧
    (postByUrlsWithResp ["http://a", "http://b"] 0 unreached alert {}).2.his = rows := by
  obtain ⟨pre, last, rest, rows, heq, -, hhis, -, hone⟩ :=
    forwarded_once_iff ["http://a", "http://b"] 0 unreached alert {}
      (show _ = Except.ok 1 from rfl)
  refine ⟨rows, hone.mpr fun f hf => ?_, hhis⟩
  obtain ⟨g, hg⟩ : ∃ g, pre ++ last :: rest = [unreached 0, g] := ⟨_, heq.symm⟩
  rcases pre with _ | ⟨f', _ | ⟨g', pre⟩⟩
  · cases hf
  · rw [mem_singleton.mp hf, (cons.inj hg).1]
    decide
  · simp at hg

/-- The first address processes the request but its answer is late, and the second answers. -/
def late (i : ℕ) : Fate :=
  .processed (fun _ => none) (if i = 0 then some "context deadline exceeded" else none)

theorem recorded_twice :
    (postByUrlsWithResp ["http://a", "http://b"] 0 late alert {}).1 = .ok 2 ∧
    (postByUrlsWithResp ["http://a", "http://b"] 0 late alert {}).2.his
      = [alert.toHis 1, alert.toHis 2] := ⟨rfl, rfl⟩

end Example

end Nightingale.Poster
