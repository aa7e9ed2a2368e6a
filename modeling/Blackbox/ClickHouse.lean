import Mathlib.Data.List.Forall2

/-!
# The analytics sink's INSERT

`ClickHouseClient::insert_logs` writes a batch as one `INSERT ... VALUES` statement: a tuple per
row, `","` between tuples and `", "` between fields; the host, country, service and message
escaped by `escape_sql` and quoted, the id and the formatted time quoted as they are, the score
and the alert flag bare. Read with ClickHouse's quoting rules, every statement it posts gives back
each row field for field (`insertLogs_reads_back`): whatever quotes and backslashes the escaped
fields hold, none ends its literal early. The id and the time are not escaped, so this holds when
they contain neither quote nor backslash, as the printed score must contain no delimiter.
-/

namespace Blackbox

def quoteChar : Char := Char.ofNat 39

def backslashChar : Char := Char.ofNat 92

/-- Modelled from the spec: `StringUtils::escape_sql` (its header is not in the source) doubles
single quotes and escapes backslashes. -/
def escapeSql : List Char → List Char
  | [] => []
  | c :: cs =>
    (if c = quoteChar then [quoteChar, quoteChar]
      else if c = backslashChar then [backslashChar, backslashChar] else [c]) ++ escapeSql cs

/-- Modelled from the spec: the fields of a `DBRow` that `insert_logs` reads (`storage_engine.h`,
which declares it, is not in the source); the score is of the float type `F`. -/
structure DBRow (F : Type) where
  id : List Char
  timestamp : Nat
  host : List Char
  country : List Char
  service : List Char
  message : List Char
  anomalyScore : F
  isAlert : Bool

/-- What curl does with the POST: whether `curl_easy_init` gave a handle, whether
`curl_easy_perform` returned `CURLE_OK`, and the HTTP response code. -/
structure CurlOutcome where
  handle : Bool
  ok : Bool
  responseCode : Nat

section Query

variable {F : Type} (toClickhouseFormat : Nat → List Char) (showScore : F → List Char)

def quoted (s : List Char) : List Char := quoteChar :: s ++ [quoteChar]

/-- The eight fields `insert_logs` writes for a row, in order. `toClickhouseFormat` is
`TimeUtils::to_clickhouse_format` (declared, its source not given), applied to the timestamp in
milliseconds; `showScore` is how `operator<<` prints the float score. -/
def rowFields (row : DBRow F) : List (List Char) :=
  [quoted row.id, quoted (toClickhouseFormat (row.timestamp / 1000000)),
    quoted (escapeSql row.host), quoted (escapeSql row.country), quoted (escapeSql row.service),
    quoted (escapeSql row.message), showScore row.anomalyScore,
    if row.isAlert then "1".toList else "0".toList]

/-- A row's tuple: its fields between brackets, `", "` between them. -/
def rowTuple (row : DBRow F) : List Char :=
  "(".toList ++ ", ".toList.intercalate (rowFields toClickhouseFormat showScore row) ++ ")".toList

def insertPrefix : List Char :=
  ("INSERT INTO sentry.logs (id, timestamp, host, country, service, message, anomaly_score, " ++
    "is_threat) VALUES ").toList

/-- The statement `insert_logs` builds: the tuples, `","` before each but the first. -/
def insertQuery (rows : List (DBRow F)) : List Char :=
  insertPrefix ++ ",".toList.intercalate (rows.map (rowTuple toClickhouseFormat showScore))

/-- `ClickHouseClient::insert_logs`: its result, the statement it posts if it posts one, and the
db errors it counts (`inc_db_errors`). -/
def insertLogs (rows : List (DBRow F)) (curl : CurlOutcome) : Bool × Option (List Char) × Nat :=
  if rows.isEmpty then (true, none, 0)
  else if !curl.handle then (false, none, 1)
  else if !curl.ok || curl.responseCode ≠ 200 then
    (false, some (insertQuery toClickhouseFormat showScore rows), 1)
  else (true, some (insertQuery toClickhouseFormat showScore rows), 0)

end Query

/-! ### Reading the statement back -/

/-- A value of a `VALUES` tuple: a quoted string, or a bare token. -/
inductive SqlValue
  | str (s : List Char)
  | bare (t : List Char)
  deriving DecidableEq

/-- Modelled from ClickHouse's `Values` format: a string literal after its opening quote, with the
escapes `escape_sql` writes (a doubled quote, a backslash before a backslash or a quote); the
string, and what follows the closing quote. -/
def readQuoted : List Char → Option (List Char × List Char)
  | [] => none
  | c :: rest =>
    if c = backslashChar then
      match rest with
      | d :: rest =>
        if d = backslashChar ∨ d = quoteChar then (readQuoted rest).map fun r => (d :: r.1, r.2)
        else none
      | [] => none
    else if c = quoteChar then
      match rest with
      | d :: rest' =>
        if d = quoteChar then (readQuoted rest').map fun r => (quoteChar :: r.1, r.2)
        else some ([], rest)
      | [] => some ([], [])
    else (readQuoted rest).map fun r => (c :: r.1, r.2)

def inToken (c : Char) : Bool := c != ',' && c != ')'

/-- Modelled from ClickHouse's `Values` format: one value, and what follows it. -/
def readField : List Char → Option (SqlValue × List Char)
  | [] => some (.bare [], [])
  | c :: rest =>
    if c = quoteChar then (readQuoted rest).map fun r => (.str r.1, r.2)
    else some (.bare ((c :: rest).takeWhile inToken), (c :: rest).dropWhile inToken)

def expect (p s : List Char) : Option (List Char) :=
  if p.isPrefixOf s then some (s.drop p.length) else none

/-- The values of a tuple after its opening bracket, up to its closing one. `fuel` bounds the
values read. -/
def readFields : Nat → List Char → Option (List SqlValue × List Char)
  | 0, _ => none
  | fuel + 1, s => (readField s).bind fun r =>
    match expect ", ".toList r.2 with
    | some rest => (readFields fuel rest).map fun q => (r.1 :: q.1, q.2)
    | none => (expect ")".toList r.2).map fun rest => ([r.1], rest)

/-- Tuples separated by `","`, to the end. `fuel` bounds the tuples read. -/
def readTuples : Nat → List Char → Option (List (List SqlValue))
  | 0, _ => none
  | fuel + 1, s => (expect "(".toList s).bind fun s => (readFields s.length s).bind fun r =>
    match expect ",".toList r.2 with
    | some rest => (readTuples fuel rest).map (r.1 :: ·)
    | none => if r.2 = [] then some [r.1] else none

/-- Modelled from ClickHouse's `Values` format: the tuples of an `insert_logs` statement. -/
def readInsert (s : List Char) : Option (List (List SqlValue)) :=
  (expect insertPrefix s).bind fun s => readTuples (s.length + 1) s

def rowValues {F : Type} (toClickhouseFormat : Nat → List Char) (showScore : F → List Char)
    (row : DBRow F) : List SqlValue :=
  [.str row.id, .str (toClickhouseFormat (row.timestamp / 1000000)), .str row.host, .str row.country,
    .str row.service, .str row.message, .bare (showScore row.anomalyScore),
    .bare (if row.isAlert then "1".toList else "0".toList)]

/-- Neither quote nor backslash: `escape_sql` leaves it as it is. -/
def Plain (s : List Char) : Prop := ∀ c ∈ s, c ≠ quoteChar ∧ c ≠ backslashChar

instance (s : List Char) : Decidable (Plain s) := inferInstanceAs (Decidable (∀ c ∈ s, _))

/-- A bare token: no delimiter, and no quote first. -/
def BareToken (t : List Char) : Prop := (∀ c ∈ t, inToken c = true) ∧ t.head? ≠ some quoteChar

instance (t : List Char) : Decidable (BareToken t) :=
  inferInstanceAs (Decidable ((∀ c ∈ t, _) ∧ _))

/-- What may follow a value: nothing, or a delimiter. -/
def Delimited (rest : List Char) : Prop := ∀ c ∈ rest.head?, inToken c = false

theorem intercalate_cons_cons (sep a b : List Char) (ts : List (List Char)) :
    sep.intercalate (a :: b :: ts) = a ++ sep ++ sep.intercalate (b :: ts) := by
  simp [List.intercalate, List.append_assoc]

theorem intercalate_singleton (sep t : List Char) : sep.intercalate [t] = t := by
  simp [List.intercalate]

theorem length_le_intercalate {sep : List Char} (hsep : sep ≠ []) :
    ∀ ts : List (List Char), ts.length ≤ (sep.intercalate ts).length + 1
  | [] => Nat.zero_le _
  | [t] => by simp [intercalate_singleton]
  | t :: t' :: ts => by
    have ih := length_le_intercalate hsep (t' :: ts)
    have hs := List.length_pos.2 hsep
    rw [intercalate_cons_cons]
    simp only [List.length_append, List.length_cons] at ih ⊢
    omega

theorem escapeSql_cons (c : Char) (s : List Char) :
    escapeSql (c :: s) = if c = quoteChar then quoteChar :: quoteChar :: escapeSql s
      else if c = backslashChar then backslashChar :: backslashChar :: escapeSql s
      else c :: escapeSql s := by
  rw [escapeSql]
  split_ifs <;> rfl

theorem escapeSql_plain : ∀ {s : List Char}, Plain s → escapeSql s = s
  | [], _ => rfl
  | c :: s, h => by
    have hc := h c (List.mem_cons_self c s)
    rw [escapeSql_cons, if_neg hc.1, if_neg hc.2,
      escapeSql_plain fun d hd => h d (List.mem_cons_of_mem c hd)]

theorem quoteChar_ne_backslashChar : quoteChar ≠ backslashChar := by decide

theorem readQuoted_quote_quote (rest : List Char) :
    readQuoted (quoteChar :: quoteChar :: rest) =
      (readQuoted rest).map fun r => (quoteChar :: r.1, r.2) := by
  simp [readQuoted, quoteChar_ne_backslashChar]

theorem readQuoted_backslash (rest : List Char) :
    readQuoted (backslashChar :: backslashChar :: rest) =
      (readQuoted rest).map fun r => (backslashChar :: r.1, r.2) := by
  simp [readQuoted]

theorem readQuoted_close {rest : List Char} (hr : rest.head? ≠ some quoteChar) :
    readQuoted (quoteChar :: rest) = some ([], rest) := by
  cases rest with
  | nil => rfl
  | cons d rest =>
    have hd : d ≠ quoteChar := fun h => hr (by rw [h]; rfl)
    simp [readQuoted, quoteChar_ne_backslashChar, hd]

theorem readQuoted_other {c : Char} (hq : c ≠ quoteChar) (hb : c ≠ backslashChar)
    (rest : List Char) : readQuoted (c :: rest) = (readQuoted rest).map fun r => (c :: r.1, r.2) := by
  rw [readQuoted.eq_def]
  simp only [if_neg hb, if_neg hq]

theorem readQuoted_escapeSql {rest : List Char} (hr : rest.head? ≠ some quoteChar) :
    ∀ s, readQuoted (escapeSql s ++ quoteChar :: rest) = some (s, rest)
  | [] => readQuoted_close hr
  | c :: s => by
    have ih := readQuoted_escapeSql hr s
    rw [escapeSql_cons]
    split_ifs with hq hb
    · rw [hq, List.cons_append, List.cons_append, readQuoted_quote_quote, ih, Option.map_some']
    · rw [hb, List.cons_append, List.cons_append, readQuoted_backslash, ih, Option.map_some']
    · rw [List.cons_append, readQuoted_other hq hb, ih, Option.map_some']

theorem expect_append (p s : List Char) : expect p (p ++ s) = some s := by
  rw [expect, if_pos (List.isPrefixOf_iff_prefix.2 (List.prefix_append p s)), List.drop_left]

theorem expect_sep_close (rest : List Char) : expect ", ".toList (")".toList ++ rest) = none := rfl

theorem expect_comma_nil : expect ",".toList [] = none := rfl

theorem delimited_append {p : List Char} (rest : List Char) {c : Char} (hp : p.head? = some c)
    (hc : inToken c = false) : Delimited (p ++ rest) := by
  intro d hd
  rw [List.head?_append, hp] at hd
  cases hd
  exact hc

/-! ### Field by field -/

/-- A field's text reads back as its value before any delimiter. -/
def FieldOk (text : List Char) (v : SqlValue) : Prop :=
  ∀ rest, Delimited rest → readField (text ++ rest) = some (v, rest)

theorem fieldOk_quoted (s : List Char) : FieldOk (quoted (escapeSql s)) (.str s) := fun rest hr => by
  have hq : rest.head? ≠ some quoteChar := fun h => absurd (hr quoteChar h) (by decide)
  simp only [quoted, List.cons_append, List.append_assoc, List.singleton_append, List.nil_append]
  rw [readField, if_pos rfl, readQuoted_escapeSql hq, Option.map_some']

theorem fieldOk_plain {s : List Char} (h : Plain s) : FieldOk (quoted s) (.str s) := by
  simpa only [escapeSql_plain h] using fieldOk_quoted s

theorem fieldOk_bare {t : List Char} (ht : BareToken t) : FieldOk t (.bare t) := fun rest hr => by
  have hrest : rest.takeWhile inToken = [] ∧ rest.dropWhile inToken = rest := by
    cases rest with
    | nil => exact ⟨rfl, rfl⟩
    | cons c rest => simp [List.takeWhile_cons, List.dropWhile_cons, hr c rfl]
  cases t with
  | nil =>
    cases rest with
    | nil => rfl
    | cons c rest =>
      have hc : c ≠ quoteChar := fun h => absurd (h ▸ hr c rfl) (by decide)
      simp only [List.nil_append, readField, if_neg hc, hrest.1, hrest.2]
  | cons c t =>
    have hc : c ≠ quoteChar := fun h => ht.2 (by rw [h]; rfl)
    rw [List.cons_append, readField, if_neg hc, ← List.cons_append,
      List.takeWhile_append_of_pos ht.1, List.dropWhile_append_of_pos ht.1, hrest.1, hrest.2,
      List.append_nil]

theorem readFields_intercalate : ∀ {texts : List (List Char)} {vs : List SqlValue},
    List.Forall₂ FieldOk texts vs → texts ≠ [] → ∀ (fuel : Nat) (rest : List Char),
      readFields (fuel + texts.length) (", ".toList.intercalate texts ++ ")".toList ++ rest) =
        some (vs, rest)
  | _, _, .nil, h, _, _ => absurd rfl h
  | [t], [v], .cons ht .nil, _, fuel, rest => by
    rw [show fuel + [t].length = fuel + 1 from rfl, intercalate_singleton, readFields,
      List.append_assoc, ht _ (delimited_append (p := ")".toList) rest rfl rfl), Option.some_bind]
    simp only [expect_sep_close, expect_append, Option.map_some']
  | t :: t' :: ts, v :: vs, .cons ht hts, _, fuel, rest => by
    have ih := readFields_intercalate hts (List.cons_ne_nil _ _) fuel rest
    rw [show fuel + (t :: t' :: ts).length = fuel + (t' :: ts).length + 1 by simp; omega, readFields,
      intercalate_cons_cons]
    simp only [List.append_assoc] at ih ⊢
    rw [ht _ (delimited_append (p := ", ".toList) _ rfl rfl), Option.some_bind]
    simp only [expect_append, ih, Option.map_some']

/-! ### Tuple by tuple -/

/-- A tuple's text reads back as its values, whatever follows it. -/
def TupleOk (text : List Char) (vs : List SqlValue) : Prop :=
  ∀ rest, ((expect "(".toList (text ++ rest)).bind fun s => readFields s.length s) = some (vs, rest)

theorem readTuples_succ (fuel : Nat) (s : List Char) :
    readTuples (fuel + 1) s = ((expect "(".toList s).bind fun s => readFields s.length s).bind
      fun r => match expect ",".toList r.2 with
        | some rest => (readTuples fuel rest).map (r.1 :: ·)
        | none => if r.2 = [] then some [r.1] else none := by
  rw [readTuples, Option.bind_assoc]

theorem readTuples_intercalate : ∀ {texts : List (List Char)} {vss : List (List SqlValue)},
    List.Forall₂ TupleOk texts vss → texts ≠ [] → ∀ fuel : Nat,
      readTuples (fuel + texts.length) (",".toList.intercalate texts) = some vss
  | _, _, .nil, h, _ => absurd rfl h
  | [t], [vs], .cons ht .nil, _, fuel => by
    have := ht []
    rw [List.append_nil] at this
    rw [show fuel + [t].length = fuel + 1 from rfl, intercalate_singleton, readTuples_succ, this,
      Option.some_bind]
    simp only [expect_comma_nil, if_true]
  | t :: t' :: ts, vs :: vss, .cons ht hts, _, fuel => by
    have ih := readTuples_intercalate hts (List.cons_ne_nil _ _) fuel
    rw [show fuel + (t :: t' :: ts).length = fuel + (t' :: ts).length + 1 by simp; omega,
      readTuples_succ, intercalate_cons_cons, List.append_assoc, ht, Option.some_bind]
    simp only [expect_append, ih, Option.map_some']

section Rows

variable {F : Type} (toClickhouseFormat : Nat → List Char) (showScore : F → List Char)

/-- A row's tuple reads back as the row's values when its id and formatted time hold neither quote
nor backslash and its printed score is a bare token. -/
theorem tupleOk_rowTuple {row : DBRow F} (hid : Plain row.id)
    (htime : Plain (toClickhouseFormat (row.timestamp / 1000000)))
    (hscore : BareToken (showScore row.anomalyScore)) :
    TupleOk (rowTuple toClickhouseFormat showScore row) (rowValues toClickhouseFormat showScore row) := by
  intro rest
  have hfields : List.Forall₂ FieldOk (rowFields toClickhouseFormat showScore row)
      (rowValues toClickhouseFormat showScore row) :=
    .cons (fieldOk_plain hid) <| .cons (fieldOk_plain htime) <| .cons (fieldOk_quoted _) <|
      .cons (fieldOk_quoted _) <| .cons (fieldOk_quoted _) <| .cons (fieldOk_quoted _) <|
      .cons (fieldOk_bare hscore) <| .cons (fieldOk_bare (by split <;> decide)) .nil
  have hlen := length_le_intercalate (show ", ".toList ≠ [] from List.cons_ne_nil _ _)
    (rowFields toClickhouseFormat showScore row)
  obtain ⟨k, hk⟩ : ∃ k, (", ".toList.intercalate (rowFields toClickhouseFormat showScore row) ++
      ")".toList ++ rest).length = k + (rowFields toClickhouseFormat showScore row).length :=
    ⟨_, (Nat.sub_add_cancel (by
      have : ")".toList.length = 1 := rfl
      simp only [List.length_append] at hlen ⊢
      omega)).symm⟩
  rw [rowTuple, List.append_assoc, List.append_assoc, expect_append, Option.some_bind,
    ← List.append_assoc, hk, readFields_intercalate hfields (List.cons_ne_nil _ _)]

theorem insertLogs_posted {rows : List (DBRow F)} {curl : CurlOutcome} {q : List Char}
    (hq : (insertLogs toClickhouseFormat showScore rows curl).2.1 = some q) :
    rows ≠ [] ∧ q = insertQuery toClickhouseFormat showScore rows := by
  unfold insertLogs at hq
  split_ifs at hq with h0 <;> simp only [Option.some.injEq, reduceCtorEq] at hq
  all_goals exact ⟨fun h => by simp [h] at h0, hq.symm⟩

end Rows

/-- Every statement `insert_logs` posts reads back, under ClickHouse's quoting rules, as one tuple
per row in order, each field as the row has it: whatever quotes and backslashes the host, country,
service and message hold, none ends its literal early; this needs the id and every formatted time
to hold neither quote nor backslash, as they go in unescaped, and every printed score to be a bare
token. -/
theorem insertLogs_reads_back {F : Type} (toClickhouseFormat : Nat → List Char)
    (showScore : F → List Char) (rows : List (DBRow F)) (curl : CurlOutcome)
    (hid : ∀ row ∈ rows, Plain row.id) (htime : ∀ n, Plain (toClickhouseFormat n))
    (hscore : ∀ x, BareToken (showScore x)) {q : List Char}
    (hq : (insertLogs toClickhouseFormat showScore rows curl).2.1 = some q) :
    readInsert q = some (rows.map (rowValues toClickhouseFormat showScore)) := by
  obtain ⟨hne, rfl⟩ := insertLogs_posted toClickhouseFormat showScore hq
  have htuples : List.Forall₂ TupleOk (rows.map (rowTuple toClickhouseFormat showScore))
      (rows.map (rowValues toClickhouseFormat showScore)) :=
    List.forall₂_map_left_iff.2 <| List.forall₂_map_right_iff.2 <| List.forall₂_same.2
      fun row hrow => tupleOk_rowTuple _ _ (hid row hrow) (htime _) (hscore _)
  have hlen := length_le_intercalate (show ",".toList ≠ [] from List.cons_ne_nil _ _)
    (rows.map (rowTuple toClickhouseFormat showScore))
  obtain ⟨k, hk⟩ : ∃ k, (",".toList.intercalate (rows.map (rowTuple toClickhouseFormat showScore))).length + 1 =
      k + (rows.map (rowTuple toClickhouseFormat showScore)).length :=
    ⟨_, (Nat.sub_add_cancel hlen).symm⟩
  rw [readInsert, insertQuery, expect_append, Option.some_bind, hk,
    readTuples_intercalate htuples (by simpa using hne)]

theorem insertLogs_reads_back_injection :
    let row : DBRow Unit := ⟨"7f3e".toList, 5000000, "10.0.0.1".toList, "US".toList, "sshd".toList,
      "x".toList ++ [quoteChar] ++ "); DROP TABLE sentry.logs; --".toList ++ [backslashChar], (), true⟩
    let time := fun _ : Nat => "1970-01-01 00:00:05".toList
    let score := fun _ : Unit => "0.97".toList
    (∀ r ∈ [row], Plain r.id) ∧ (∀ n, Plain (time n)) ∧ (∀ x, BareToken (score x)) ∧
      readInsert (insertQuery time score [row]) = some ([row].map (rowValues time score)) := by
  intro row time score
  have hid : ∀ r ∈ [row], Plain r.id := by
    simp only [row]
    decide
  have htime : ∀ n, Plain (time n) := fun _ => by
    simp only [time]
    decide
  have hscore : ∀ x, BareToken (score x) := fun _ => by
    simp only [score]
    decide
  exact ⟨hid, htime, hscore,
    insertLogs_reads_back time score [row] ⟨true, true, 200⟩ hid htime hscore rfl⟩

end Blackbox
