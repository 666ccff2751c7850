import Nightingale.Models.Event

/-!
# Dskit/Guard — the read-only guard of the SQL clients

Before a query is executed, the generic client, ClickHouse and Doris cut its upper-cased text at the
spaces and look every piece up in a list of words:

    sql ──ToUpper──▸ ──Split " "──▸ pieces ──banned?──▸ error, or count(*) and the query itself

SQL has more separators than the space.  `Lexer.tokens` is what the words of a text are when white
space, comments, parentheses and semicolons separate them; `banned_token_refused_iff` compares the
two.
-/

namespace Nightingale.Dskit

open Text List Option

/-- `unicode.ToUpper`. -/
abbrev Upper := CaseMap Char.toUpper

/-- The loop of the guard: the first piece that is a banned word. -/
def forbidden (u : Upper) (banned : List String) (sql : String) : Option String :=
  (splitText " " (u.text sql)).find? fun item => item ∈ banned

/-- What a call did: the statements handed to the database, and what it returned. -/
structure Outcome (α : Type) where
  executed : List String
  result : Except String α

/-- An error, and the rest is not done. -/
def Outcome.andThen {α β : Type} (o : Outcome α) (f : α → Outcome β) : Outcome β :=
  match o.result with
  | .error err => ⟨o.executed, .error err⟩
  | .ok a => ⟨o.executed ++ (f a).executed, (f a).result⟩

/-- A connection: what the database answers to a statement. -/
abbrev Conn (ρ : Type) := String → Except String (List ρ)

/-- A statement over a connection. -/
def execute {ρ : Type} (conn : Conn ρ) (sql : String) : Outcome (List ρ) := ⟨[sql], conn sql⟩

/-! ## The three clients -/

namespace Sqlbase

/-- `BannedOp`. -/
def bannedOp : List String :=
  ["CREATE", "INSERT", "UPDATE", "DELETE", "ALTER", "REVOKE", "DROP", "RENAME", "TRUNCATE", "SET"]

/-- `sqlbase.Query`. -/
def query {ρ : Type} (u : Upper) (db : Conn ρ) (sql : String) : Outcome (List ρ) :=
  match forbidden u bannedOp sql with
  | some item => ⟨[], .error ("operation " ++ item
      ++ " is forbidden, only read operations are allowed, please check your SQL")⟩
  | none => execute db sql

end Sqlbase

/-- `ckBannedOp` and `DorisBannedOp`, two lists of the same words. -/
def bannedOp : List String :=
  ["CREATE", "INSERT", "ALTER", "REVOKE", "DROP", "RENAME", "ATTACH", "DETACH", "OPTIMIZE",
    "TRUNCATE", "SET"]

/-- The error of the ClickHouse and Doris guards. -/
def forbid (item : String) : String :=
  "operation " ++ item ++ " is forbid, only read db, please check your sql"

/-- The statement that counts the rows of a query: `SELECT COUNT(*)` around the text, its semicolons
removed. -/
def countQuery (sql : String) : String :=
  "SELECT COUNT(*) as count FROM (" ++ String.ofList (sql.toList.filter (· ≠ ';'))
    ++ ") AS subquery;"

/-- The test of `CheckMaxQueryRows` on the rows of the counting statement; `count` is the column
`count` of a row, read as a number. -/
def checkCount {ρ : Type} (count : ρ → Option (Except String ℤ)) (max : ℤ) (rows : List ρ) :
    Outcome Unit :=
  match rows.head?.bind count with
  | none => ⟨[], .ok ()⟩
  | some (.error err) => ⟨[], .error err⟩
  | some (.ok v) =>
    if v > max then ⟨[], .error ("query result rows count " ++ toString v
      ++ " exceeds the maximum limit " ++ toString max)⟩
    else ⟨[], .ok ()⟩

/-- The error around a failed statement of the ClickHouse client. -/
def fetchFailed (sql err : String) : String :=
  "fetch data failed, sql is " ++ sql ++ ", err is " ++ err

/-- `Clickhouse`: its two clients, either of which may be nil. -/
structure Clickhouse (ρ : Type) where
  clientByHTTP : Option (Conn ρ)
  client : Option (Conn ρ)
  maxQueryRows : ℤ
  count : ρ → Option (Except String ℤ)

namespace Clickhouse

variable {ρ : Type} (c : Clickhouse ρ)

/-- `Clickhouse.QueryRows`. -/
def queryRows (sql : String) : Outcome (List ρ) :=
  match c.clientByHTTP, c.client with
  | some http, _ => execute http sql
  | none, some client => execute client sql
  | none, none => ⟨[], .error "clickhouse client is nil"⟩

/-- A statement whose error is reported with its text. -/
def fetch (sql : String) : Outcome (List ρ) :=
  { c.queryRows sql with result := (c.queryRows sql).result.mapError (fetchFailed sql) }

/-- `Clickhouse.CheckMaxQueryRows`. -/
def checkMaxQueryRows (sql : String) : Outcome Unit :=
  (c.fetch (countQuery sql)).andThen (checkCount c.count c.maxQueryRows)

/-- `Clickhouse.Query`, on the text `mapstructure.Decode` has found. -/
def query (u : Upper) (sql : String) : Outcome (List ρ) :=
  match forbidden u bannedOp sql with
  | some item => ⟨[], .error (forbid item)⟩
  | none => (c.checkMaxQueryRows sql).andThen fun _ => c.fetch sql

end Clickhouse

/-- `Doris`: `NewConn` is asked for a connection before every statement. -/
structure Doris (ρ : Type) where
  newConn : String → Except String (Conn ρ)
  maxQueryRows : ℤ
  count : ρ → Option (Except String ℤ)

namespace Doris

variable {ρ : Type} (d : Doris ρ)

/-- `Doris.ExecQuery`. -/
def execQuery (database sql : String) : Outcome (List ρ) :=
  match d.newConn database with
  | .error err => ⟨[], .error err⟩
  | .ok db => execute db sql

/-- `Doris.CheckMaxQueryRows`. -/
def checkMaxQueryRows (database sql : String) : Outcome Unit :=
  (d.execQuery database (countQuery sql)).andThen
    (checkCount d.count (if d.maxQueryRows = 0 then 500 else d.maxQueryRows))

/-- `Doris.Query`. -/
def query (u : Upper) (database sql : String) : Outcome (List ρ) :=
  match forbidden u bannedOp sql with
  | some item => ⟨[], .error (forbid item)⟩
  | none => (d.checkMaxQueryRows database sql).andThen fun _ => d.execQuery database sql

end Doris

/-- A client of one of the three kinds. -/
inductive Client (ρ : Type) where
  | sqlbase (db : Conn ρ)
  | clickhouse (c : Clickhouse ρ)
  | doris (d : Doris ρ) (database : String)

namespace Client

variable {ρ : Type}

/-- The banned words of the client. -/
def banned : Client ρ → List String
  | sqlbase _ => Sqlbase.bannedOp
  | clickhouse _ | doris _ _ => Dskit.bannedOp

/-- `Query` of the client. -/
def query (u : Upper) (sql : String) : Client ρ → Outcome (List ρ)
  | sqlbase db => Sqlbase.query u db sql
  | clickhouse c => c.query u sql
  | doris d database => d.query u database sql

/-- The client can reach its database. -/
def Connected : Client ρ → Prop
  | sqlbase _ => True
  | clickhouse c => c.clientByHTTP ≠ none ∨ c.client ≠ none
  | doris d database => ∃ db, d.newConn database = .ok db

end Client

/-- An error is returned and no statement was executed. -/
def Outcome.Refused {α : Type} (o : Outcome α) : Prop :=
  o.executed = [] ∧ ∃ err, o.result = .error err

/-! ## The words of a text

A word ends at white space, a parenthesis, a semicolon, a comment or a string literal; the text of a
comment or of a literal has no words. -/

namespace Lexer

/-- Where the lexer is. -/
inductive Mode where
  | plain
  | literal
  | line
  | block
  deriving DecidableEq

/-- White space, parentheses and semicolons. -/
def isSeparator (c : Char) : Bool := isSpace c || c ∈ ['(', ')', ';']

/-- The words of a text, with the one under way. -/
def tokensFrom : Mode → List Char → List Char → List (List Char)
  | _, word, [] => [word]
  | .plain, word, '\'' :: cs => word :: tokensFrom .literal [] cs
  | .plain, word, '-' :: '-' :: cs => word :: tokensFrom .line [] cs
  | .plain, word, '/' :: '*' :: cs => word :: tokensFrom .block [] cs
  | .plain, word, c :: cs =>
    if isSeparator c then word :: tokensFrom .plain [] cs else tokensFrom .plain (word ++ [c]) cs
  | .literal, word, c :: cs => tokensFrom (if c = '\'' then .plain else .literal) word cs
  | .line, word, c :: cs => tokensFrom (if c = '\n' then .plain else .line) word cs
  | .block, word, '*' :: '/' :: cs => tokensFrom .plain word cs
  | .block, word, _ :: cs => tokensFrom .block word cs

/-- The words of a text. -/
def tokens (sql : String) : List String :=
  ((tokensFrom .plain [] sql.toList).filter (· ≠ [])).map String.ofList

end Lexer

/-- Some word of the text is banned, in any letter case. -/
def Client.HasBanned {ρ : Type} (u : Upper) (sql : String) (c : Client ρ) : Prop :=
  ∃ word ∈ Lexer.tokens sql, u.text word ∈ c.banned

instance {ρ : Type} (u : Upper) (sql : String) (c : Client ρ) : Decidable (c.HasBanned u sql) :=
  inferInstanceAs (Decidable (∃ _ ∈ _, _))

/-- A word stands in the text between two spaces, or a space and an end. -/
def Spaced (word text : List Char) : Prop :=
  ∃ pre post, text = pre ++ word ++ post ∧ (pre = [] ∨ ∃ p, pre = p ++ [' ']) ∧
    (post = [] ∨ ∃ q, post = ' ' :: q)

/-! ## What the guard finds -/

/-- A piece of a text cut at the spaces stands between spaces. -/
theorem spaced_of_mem_splitOn {w text : List Char} (h : w ∈ text.splitOn ' ') : Spaced w text := by
  obtain ⟨pre, post, rfl, hpre, hpost⟩ := Apart.of_mem_splitOnP h
  refine ⟨pre, post, rfl, ?_, ?_⟩
  · rcases eq_nil_or_concat pre with rfl | ⟨p, c, rfl⟩
    · exact .inl rfl
    · exact .inr ⟨p, by simpa using hpre⟩
  · rcases post with _ | ⟨c, q⟩
    · exact .inl rfl
    · exact .inr ⟨q, by simpa using hpost⟩

/-- …and what stands between spaces, and has none, is a piece. -/
theorem mem_splitOn_of_spaced {w text : List Char} (hw : ' ' ∉ w) (h : Spaced w text) :
    w ∈ text.splitOn ' ' := by
  have hcut : ∀ a b : List Char, (a ++ ' ' :: b).splitOn ' ' = a.splitOn ' ' ++ b.splitOn ' ' :=
    fun a b => splitOnP_append_cons a b rfl
  have hself : w.splitOn ' ' = [w] :=
    splitOnP_eq_singleton fun c hc => beq_false_of_ne (ne_of_mem_of_not_mem hc hw)
  obtain ⟨pre, post, rfl, hpre, hpost⟩ := h
  have hword : w ∈ (w ++ post).splitOn ' ' := by
    rcases hpost with rfl | ⟨q, rfl⟩
    · rw [append_nil, hself]
      exact mem_singleton_self w
    · rw [hcut, hself]
      exact mem_append_left _ (mem_singleton_self w)
  rcases hpre with rfl | ⟨p, rfl⟩
  · simpa using hword
  · rw [append_assoc, append_assoc, singleton_append, hcut]
    exact mem_append_right _ hword

/-- **What the guard finds**: a banned word between spaces, after the text is put in upper case. -/
theorem forbidden_eq_none_iff (u : Upper) {banned : List String} (sql : String)
    (hb : ∀ word ∈ banned, ' ' ∉ word.toList) : forbidden u banned sql = none ↔
      ∀ word ∈ banned, ¬ Spaced word.toList (sql.toList.map u.char) := by
  have hpieces : splitText " " (u.text sql)
      = ((sql.toList.map u.char).splitOn ' ').map String.ofList := by
    simp [← split_singleton, splitText, CaseMap.text]
  rw [forbidden, hpieces, find?_eq_none]
  constructor
  · intro h word hword hsp
    refine h word (mem_map.mpr ⟨word.toList, ?_, String.ofList_toList⟩) (by simpa using hword)
    exact mem_splitOn_of_spaced (hb word hword) hsp
  · intro h item hitem hban
    obtain ⟨w, hw, rfl⟩ := mem_map.mp hitem
    refine h _ (by simpa using hban) ?_
    rw [String.toList_ofList]
    exact spaced_of_mem_splitOn hw

/-! ## What the clients do -/

section Refused

variable {α β ρ : Type}

theorem Outcome.executed_andThen_ne_nil {o : Outcome α} (f : α → Outcome β)
    (h : o.executed ≠ []) : (o.andThen f).executed ≠ [] := by
  unfold Outcome.andThen
  split
  · exact h
  · exact append_ne_nil_of_left_ne_nil h _

theorem Outcome.not_refused_of_executed {γ : Type} {o : Outcome α} (h : o.executed ≠ [])
    (f : α → Outcome β) (g : β → Outcome γ) : ¬ ((o.andThen f).andThen g).Refused := fun hr =>
  executed_andThen_ne_nil g (executed_andThen_ne_nil f h) hr.1

theorem Outcome.Refused.andThen {o : Outcome α} (h : o.Refused) (f : α → Outcome β) :
    (o.andThen f).Refused := by
  obtain ⟨hnil, err, herr⟩ := h
  rw [Outcome.andThen, herr]
  exact ⟨hnil, err, rfl⟩

/-- A guard that has not found a word lets the query through to the database, if there is one. -/
theorem Clickhouse.refused_iff (c : Clickhouse ρ) (u : Upper) (sql : String) :
    (c.query u sql).Refused ↔
      forbidden u bannedOp sql ≠ none ∨ ¬ (c.clientByHTTP ≠ none ∨ c.client ≠ none) := by
  unfold Clickhouse.query
  cases forbidden u bannedOp sql with
  | some item => exact iff_of_true ⟨rfl, _, rfl⟩ (.inl (some_ne_none item))
  | none =>
    obtain ⟨http, client, max, count⟩ := c
    rcases http with _ | http
    · rcases client with _ | client
      · exact iff_of_true ((Outcome.Refused.andThen ⟨rfl, _, rfl⟩ _).andThen _) (.inr (by simp))
      · exact iff_of_false (Outcome.not_refused_of_executed (cons_ne_nil _ _) _ _) (by simp)
    · exact iff_of_false (Outcome.not_refused_of_executed (cons_ne_nil _ _) _ _) (by simp)

theorem Doris.refused_iff (d : Doris ρ) (u : Upper) (database sql : String) :
    (d.query u database sql).Refused ↔
      forbidden u bannedOp sql ≠ none ∨ ¬ ∃ db, d.newConn database = .ok db := by
  unfold Doris.query
  cases forbidden u bannedOp sql with
  | some item => exact iff_of_true ⟨rfl, _, rfl⟩ (.inl (some_ne_none item))
  | none =>
    unfold Doris.checkMaxQueryRows Doris.execQuery
    cases d.newConn database with
    | error err =>
      exact iff_of_true ((Outcome.Refused.andThen ⟨rfl, _, rfl⟩ _).andThen _) (.inr (by simp))
    | ok db =>
      exact iff_of_false (Outcome.not_refused_of_executed (cons_ne_nil _ _) _ _) (by simp)

theorem Sqlbase.refused_iff (u : Upper) (db : Conn ρ) (sql : String) :
    (Sqlbase.query u db sql).Refused ↔ forbidden u Sqlbase.bannedOp sql ≠ none := by
  unfold Sqlbase.query
  cases forbidden u Sqlbase.bannedOp sql with
  | some item => exact iff_of_true ⟨rfl, _, rfl⟩ (some_ne_none item)
  | none => exact iff_of_false (fun h => cons_ne_nil _ _ h.1) (by simp)

theorem Client.notMem_banned (c : Client ρ) : ∀ word ∈ c.banned, ' ' ∉ word.toList := by
  have hsql : ∀ word ∈ Sqlbase.bannedOp, ' ' ∉ word.toList := by decide
  have hck : ∀ word ∈ bannedOp, ' ' ∉ word.toList := by decide
  rcases c with _ | _ | _
  · exact hsql
  · exact hck
  · exact hck

/-- **What every client refuses**: a banned word between spaces, and everything if it has no
database. -/
theorem Client.refused_iff (c : Client ρ) (u : Upper) (sql : String) : (c.query u sql).Refused ↔
      (∃ word ∈ c.banned, Spaced word.toList (sql.toList.map u.char)) ∨ ¬ c.Connected := by
  have hnone : forbidden u c.banned sql ≠ none ↔
      ∃ word ∈ c.banned, Spaced word.toList (sql.toList.map u.char) := by
    rw [Ne, forbidden_eq_none_iff u sql c.notMem_banned]
    simp only [not_forall, not_not, exists_prop]
  rw [← hnone]
  rcases c with db | c | ⟨d, database⟩
  · exact (Sqlbase.refused_iff u db sql).trans (or_iff_left fun h => h trivial).symm
  · exact c.refused_iff u sql
  · exact d.refused_iff u database sql

/-- **When the guard stops a banned word.**  For every client and text: if a banned word occurs in
the text, the client refuses it without executing anything, just if a banned word occurs between
spaces (or the client has no database). -/
theorem banned_token_refused_iff (c : Client ρ) (u : Upper) (sql : String) :
    (c.HasBanned u sql → (c.query u sql).Refused) ↔ (c.HasBanned u sql →
        (∃ word ∈ c.banned, Spaced word.toList (sql.toList.map u.char)) ∨ ¬ c.Connected) :=
  imp_congr_right fun _ => c.refused_iff u sql

end Refused

namespace Example

/-- Upper case on ASCII. -/
def upper : Upper := ⟨Char.toUpper, fun _ _ => rfl⟩

/-- A database without rows. -/
def emptyDb : Conn Unit := fun _ => .ok []

/-- The three clients. -/
def clients : List (Client Unit) :=
  [.sqlbase emptyDb, .clickhouse ⟨some emptyDb, none, 500, fun _ => none⟩,
    .doris ⟨fun _ => .ok emptyDb, 0, fun _ => none⟩ "db"]

/-- A text with a tab next to a banned word, for ClickHouse and Doris one that can be counted. -/
def tabbed : Client Unit → String
  | .sqlbase _ => "DROP\tTABLE t"
  | _ => "SELECT\tset FROM t"

end Example

open Example

/-- A tab next to the word, and every client executes the text. -/
theorem tab_passes_guard : (∀ c ∈ clients, c.HasBanned upper (tabbed c)) ∧
    ∀ c ∈ clients, (c.query upper (tabbed c)).executed.getLast? = some (tabbed c) := by
  decide

end Nightingale.Dskit
