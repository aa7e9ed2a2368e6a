import Blackbox.Pipeline
import Blackbox.Text

/-!
# Counters, their exposition and the heartbeat

`Metrics` keeps six counters, `packets_rx_` to `db_errors_`, each a 64-bit atomic that the
`inc_*` calls add to with a relaxed `fetch_add`, which wraps. `get_prometheus_metrics` writes them,
with the CPU and memory gauges, in the Prometheus text format; `reporter_worker` logs a heartbeat
with the packets counted since its previous one.

A reader of the text format gets every family back from the exposition, its help, its type and its
sample, and each counter's sample is its value in decimal under the counter's own name
(`prometheus_reads_back`). Fed the processing worker's trace, the threat counter moves once per
critical log and the inference counter once per log no rule matches, the others not at all
(`pipeline_counters_track_logic`). Each heartbeat's delta is the number of packets counted since
the previous heartbeat, modulo `2^64`, also across a wrap of the counter; the first one counts from
zero (`reporter_delta_counts_since`).
-/

namespace Blackbox

/-- The counters of `Metrics`, `packets_rx_` to `db_errors_`. -/
inductive Counter
  | packetsRx
  | packetsDropped
  | inferences
  | threats
  | dbWritten
  | dbErrors
  deriving DecidableEq

/-- The six counters. The header is not in the source; the loads into `uint64_t` make them 64-bit
unsigned. -/
structure Metrics where
  packetsRx : UInt64
  packetsDropped : UInt64
  inferences : UInt64
  threats : UInt64
  dbWritten : UInt64
  dbErrors : UInt64
  deriving DecidableEq

namespace Metrics

def zero : Metrics := ⟨0, 0, 0, 0, 0, 0⟩

/-- `load(std::memory_order_relaxed)` of a counter. -/
def get (m : Metrics) : Counter → UInt64
  | .packetsRx => m.packetsRx
  | .packetsDropped => m.packetsDropped
  | .inferences => m.inferences
  | .threats => m.threats
  | .dbWritten => m.dbWritten
  | .dbErrors => m.dbErrors

/-- `fetch_add(count, std::memory_order_relaxed)` on a counter, modulo `2^64`. -/
def fetchAdd (m : Metrics) (c : Counter) (count : UInt64) : Metrics :=
  match c with
  | .packetsRx => { m with packetsRx := m.packetsRx + count }
  | .packetsDropped => { m with packetsDropped := m.packetsDropped + count }
  | .inferences => { m with inferences := m.inferences + count }
  | .threats => { m with threats := m.threats + count }
  | .dbWritten => { m with dbWritten := m.dbWritten + count }
  | .dbErrors => { m with dbErrors := m.dbErrors + count }

def incPacketsReceived (m : Metrics) (count : UInt64) : Metrics := m.fetchAdd .packetsRx count

def incPacketsDropped (m : Metrics) (count : UInt64) : Metrics := m.fetchAdd .packetsDropped count

def incInferencesRun (m : Metrics) (count : UInt64) : Metrics := m.fetchAdd .inferences count

def incThreatsDetected (m : Metrics) (count : UInt64) : Metrics := m.fetchAdd .threats count

def incDbRowsWritten (m : Metrics) (count : UInt64) : Metrics := m.fetchAdd .dbWritten count

def incDbErrors (m : Metrics) (count : UInt64) : Metrics := m.fetchAdd .dbErrors count

theorem toNat_add (a b : UInt64) : (a + b).toNat = (a.toNat + b.toNat) % UInt64.size :=
  BitVec.toNat_add _ _

theorem get_fetchAdd (m : Metrics) (c c' : Counter) (count : UInt64) :
    (m.fetchAdd c count).get c' = if c' = c then m.get c' + count else m.get c' := by
  cases c <;> cases c' <;> rfl

/-- `inc_*` calls one after another. Each `fetch_add` is one atomic read-modify-write, so the
calls of all threads, in any interleaving, are such a sequence. -/
def run (m : Metrics) (incs : List (Counter × UInt64)) : Metrics :=
  incs.foldl (fun m i => m.fetchAdd i.1 i.2) m

/-- What a sequence of increments adds to a counter, without wrapping. -/
def added (c : Counter) (incs : List (Counter × UInt64)) : Nat :=
  ((incs.filter fun i => i.1 = c).map fun i => i.2.toNat).sum

@[simp] theorem added_nil (c : Counter) : added c [] = 0 := rfl

theorem added_cons (c : Counter) (i : Counter × UInt64) (incs : List (Counter × UInt64)) :
    added c (i :: incs) = (if i.1 = c then i.2.toNat else 0) + added c incs := by
  unfold added
  by_cases h : i.1 = c <;> simp [List.filter_cons, h]

@[simp] theorem added_append (c : Counter) (incs incs' : List (Counter × UInt64)) :
    added c (incs ++ incs') = added c incs + added c incs' := by
  simp [added]

theorem get_run (c : Counter) : ∀ (incs : List (Counter × UInt64)) (m : Metrics),
    ((m.run incs).get c).toNat = ((m.get c).toNat + added c incs) % UInt64.size
  | [], m => (Nat.mod_eq_of_lt (m.get c).toNat_lt_size).symm
  | i :: incs, m => by
    rw [run, List.foldl_cons, ← run, get_run c incs, get_fetchAdd, added_cons]
    by_cases h : c = i.1
    · rw [if_pos h, if_pos h.symm, toNat_add, Nat.mod_add_mod, Nat.add_assoc]
    · rw [if_neg h, if_neg (Ne.symm h), Nat.zero_add]

theorem get_run_of_forall_ne {c : Counter} : ∀ {incs : List (Counter × UInt64)},
    (∀ i ∈ incs, i.1 ≠ c) → ∀ m : Metrics, (m.run incs).get c = m.get c
  | [], _, _ => rfl
  | i :: incs, h, m => by
    rw [run, List.foldl_cons, ← run, get_run_of_forall_ne (fun j hj => h j (List.mem_cons_of_mem i hj)),
      get_fetchAdd, if_neg (Ne.symm (h i (List.mem_cons_self i incs)))]

end Metrics

/-! ### The exposition -/

def lineFeed : Char := Char.ofNat 10

/-- A metric family: its name, help text, type and the text of its sample's value. -/
structure Family where
  name : List Char
  help : List Char
  kind : List Char
  value : List Char

/-- A family as `get_prometheus_metrics` writes it: its `# HELP` and `# TYPE` lines, its sample,
and a blank line. -/
def Family.text (f : Family) : List Char :=
  "# HELP ".toList ++ f.name ++ ' ' :: f.help ++ "\n".toList ++
    "# TYPE ".toList ++ f.name ++ ' ' :: f.kind ++ "\n".toList ++
    f.name ++ ' ' :: f.value ++ "\n\n".toList

def Family.lines (f : Family) : List (List Char) :=
  ["# HELP ".toList ++ f.name ++ ' ' :: f.help, "# TYPE ".toList ++ f.name ++ ' ' :: f.kind,
    f.name ++ ' ' :: f.value, []]

/-- The families `get_prometheus_metrics` writes, given the CPU percentage and the resident bytes
`SystemStats` reports, with `showDouble` what `operator<<` prints for a `double`. -/
def families {F : Type} (showDouble : F → List Char) (m : Metrics) (cpu : F) (ram : UInt64) :
    List Family :=
  [⟨"blackbox_packets_total".toList, "Total UDP packets received".toList, "counter".toList,
      (toString m.packetsRx).toList⟩,
    ⟨"blackbox_packets_dropped_total".toList,
      "Total packets dropped (buffer full/ratelimit)".toList, "counter".toList,
      (toString m.packetsDropped).toList⟩,
    ⟨"blackbox_inferences_total".toList, "Total AI inferences run".toList, "counter".toList,
      (toString m.inferences).toList⟩,
    ⟨"blackbox_threats_detected_total".toList, "Total critical threats found".toList,
      "counter".toList, (toString m.threats).toList⟩,
    ⟨"blackbox_db_written_total".toList, "Total rows flushed to ClickHouse".toList,
      "counter".toList, (toString m.dbWritten).toList⟩,
    ⟨"blackbox_db_errors_total".toList, "Total DB write failures".toList, "counter".toList,
      (toString m.dbErrors).toList⟩,
    ⟨"blackbox_process_cpu_percent".toList, "CPU usage percentage (normalized)".toList,
      "gauge".toList, showDouble cpu⟩,
    ⟨"blackbox_process_memory_bytes".toList, "Resident memory size in bytes".toList,
      "gauge".toList, (toString ram).toList⟩]

/-- `Metrics::get_prometheus_metrics`. -/
def getPrometheusMetrics {F : Type} (showDouble : F → List Char) (m : Metrics) (cpu : F)
    (ram : UInt64) : List Char :=
  (families showDouble m cpu ram).flatMap Family.text

def Counter.metricName : Counter → List Char
  | .packetsRx => "blackbox_packets_total".toList
  | .packetsDropped => "blackbox_packets_dropped_total".toList
  | .inferences => "blackbox_inferences_total".toList
  | .threats => "blackbox_threats_detected_total".toList
  | .dbWritten => "blackbox_db_written_total".toList
  | .dbErrors => "blackbox_db_errors_total".toList

/-- Modelled from the Prometheus text format: a line of an exposition, for samples without labels
or timestamps. -/
inductive PromLine
  | help (name doc : List Char)
  | type (name kind : List Char)
  | comment (text : List Char)
  | sample (name value : List Char)
  | blank
  deriving DecidableEq

def splitToken (l : List Char) : List Char × List Char :=
  (l.takeWhile (· != ' '), (l.dropWhile (· != ' ')).drop 1)

/-- Modelled from the Prometheus text format: how a reader takes a line. -/
def readPromLine (l : List Char) : PromLine :=
  if l = [] then .blank
  else if l.take 7 = "# HELP ".toList then .help (splitToken (l.drop 7)).1 (splitToken (l.drop 7)).2
  else if l.take 7 = "# TYPE ".toList then .type (splitToken (l.drop 7)).1 (splitToken (l.drop 7)).2
  else if l.head? = some '#' then .comment l
  else .sample (splitToken l).1 (splitToken l).2

/-- Modelled from the Prometheus text format: an exposition read line by line. -/
def readExposition (s : List Char) : List PromLine := (s.splitOn lineFeed).map readPromLine

def samples (ls : List PromLine) : List (List Char × List Char) :=
  ls.filterMap fun
    | .sample name value => some (name, value)
    | _ => none

def Family.read (f : Family) : List PromLine :=
  [.help f.name f.help, .type f.name f.kind, .sample f.name f.value, .blank]

/-- A family a reader can take back: a name of one token, not a comment, and no line feed in its
texts. -/
structure Family.WellFormed (f : Family) : Prop where
  name_ne_nil : f.name ≠ []
  name_token : ∀ c ∈ f.name, c ≠ ' ' ∧ c ≠ '#' ∧ c ≠ lineFeed
  help_line : lineFeed ∉ f.help
  kind_line : lineFeed ∉ f.kind
  value_line : lineFeed ∉ f.value

section Reading

theorem splitToken_token {name : List Char} (h : ∀ c ∈ name, c ≠ ' ') (rest : List Char) :
    splitToken (name ++ ' ' :: rest) = (name, rest) := by
  induction name with
  | nil => simp [splitToken]
  | cons c name ih =>
    have hc : (c != ' ') = true := bne_iff_ne.2 (h c (List.mem_cons_self c name))
    have ih := ih fun d hd => h d (List.mem_cons_of_mem c hd)
    simp only [splitToken, Prod.mk.injEq] at ih
    simp [splitToken, List.takeWhile_cons, List.dropWhile_cons, hc, ih.1, ih.2]

theorem take_ne_of_head {l p : List Char} (hp : p.head? = some '#') (hl : l.head? ≠ some '#') :
    l.take 7 ≠ p := by
  intro h
  have : (l.take 7).head? = l.head? := by cases l <;> rfl
  exact hl (this ▸ h ▸ hp)

theorem readPromLine_help {name : List Char} (h : ∀ c ∈ name, c ≠ ' ') (doc : List Char) :
    readPromLine ("# HELP ".toList ++ name ++ ' ' :: doc) = .help name doc := by
  have ht : ("# HELP ".toList ++ (name ++ ' ' :: doc)).take 7 = "# HELP ".toList := List.take_left' rfl
  have hd : ("# HELP ".toList ++ (name ++ ' ' :: doc)).drop 7 = name ++ ' ' :: doc := List.drop_left' rfl
  rw [readPromLine, if_neg (by simp), List.append_assoc, if_pos ht, hd, splitToken_token h]

theorem readPromLine_type {name : List Char} (h : ∀ c ∈ name, c ≠ ' ') (kind : List Char) :
    readPromLine ("# TYPE ".toList ++ name ++ ' ' :: kind) = .type name kind := by
  have ht : ("# TYPE ".toList ++ (name ++ ' ' :: kind)).take 7 = "# TYPE ".toList := List.take_left' rfl
  have hd : ("# TYPE ".toList ++ (name ++ ' ' :: kind)).drop 7 = name ++ ' ' :: kind := List.drop_left' rfl
  rw [readPromLine, if_neg (by simp), List.append_assoc, ht, if_neg (by decide), if_pos rfl, hd,
    splitToken_token h]

theorem readPromLine_sample {name : List Char} (hn : name.head? ≠ some '#')
    (h : ∀ c ∈ name, c ≠ ' ') (value : List Char) :
    readPromLine (name ++ ' ' :: value) = .sample name value := by
  have hl : (name ++ ' ' :: value).head? ≠ some '#' := by cases name <;> simp_all
  have hH : (name ++ ' ' :: value).take 7 ≠ "# HELP ".toList := take_ne_of_head rfl hl
  have hT : (name ++ ' ' :: value).take 7 ≠ "# TYPE ".toList := take_ne_of_head rfl hl
  rw [readPromLine, if_neg (by simp), if_neg hH, if_neg hT, if_neg hl, splitToken_token h]

theorem Family.read_lines {f : Family} (hf : f.WellFormed) : f.lines.map readPromLine = f.read := by
  have hsp := fun c hc => (hf.name_token c hc).1
  have hn : f.name.head? ≠ some '#' := by
    obtain ⟨c, name, hn⟩ := List.exists_cons_of_ne_nil hf.name_ne_nil
    rw [hn, List.head?_cons, Ne, Option.some.injEq]
    exact (hf.name_token c (hn ▸ List.mem_cons_self c name)).2.1
  simp only [Family.lines, List.map_cons, List.map_nil, readPromLine_help hsp,
    readPromLine_type hsp, readPromLine_sample hn hsp]
  rfl

theorem Family.WellFormed.lineFeed_not_mem {f : Family} (hf : f.WellFormed) :
    ∀ l ∈ f.lines, lineFeed ∉ l := by
  have hname : lineFeed ∉ f.name := fun h => (hf.name_token _ h).2.2 rfl
  have hsp : lineFeed ≠ ' ' := by decide
  simp only [Family.lines, List.mem_cons, List.mem_singleton, List.not_mem_nil, or_false]
  rintro l (rfl | rfl | rfl | rfl)
  · simp only [List.mem_append, List.mem_cons, not_or]
    exact ⟨⟨by decide, hname⟩, hsp, hf.help_line⟩
  · simp only [List.mem_append, List.mem_cons, not_or]
    exact ⟨⟨by decide, hname⟩, hsp, hf.kind_line⟩
  · simp only [List.mem_append, List.mem_cons, not_or]
    exact ⟨hname, hsp, hf.value_line⟩
  · exact List.not_mem_nil _

theorem flatten_map_append_singleton (x : Char) : ∀ ls : List (List Char),
    (ls.map (· ++ [x])).flatten = [x].intercalate (ls ++ [[]])
  | [] => rfl
  | l :: ls => by
    rw [List.map_cons, List.flatten_cons, flatten_map_append_singleton x ls, List.cons_append]
    cases ls <;> simp [List.intercalate]

theorem flatMap_text : ∀ fs : List Family,
    fs.flatMap Family.text = ((fs.flatMap Family.lines).map (· ++ [lineFeed])).flatten
  | [] => rfl
  | f :: fs => by
    rw [List.flatMap_cons, List.flatMap_cons, List.map_append, List.flatten_append, flatMap_text fs]
    simp [Family.text, Family.lines, lineFeed]

end Reading

/-- Every exposition of families a reader can take back is read as those families, in order, then
the blank line the text ends with. -/
theorem readExposition_flatMap {fs : List Family} (hfs : ∀ f ∈ fs, f.WellFormed) :
    readExposition (fs.flatMap Family.text) = fs.flatMap Family.read ++ [.blank] := by
  have hlf : ∀ l ∈ fs.flatMap Family.lines ++ [[]], lineFeed ∉ l := by
    intro l hl
    simp only [List.mem_append, List.mem_flatMap, List.mem_singleton] at hl
    rcases hl with ⟨f, hf, hl⟩ | rfl
    exacts [(hfs f hf).lineFeed_not_mem l hl, List.not_mem_nil _]
  rw [readExposition, flatMap_text, flatten_map_append_singleton,
    List.splitOn_intercalate _ lineFeed hlf (by simp), List.map_append, List.map_flatMap]
  exact congrArg (· ++ [PromLine.blank]) (List.flatMap_congr fun f hf => Family.read_lines (hfs f hf))

theorem decimalValue_toString_uint64 (x : UInt64) : decimalValue (toString x).toList = x.toNat :=
  decimalValue_toString x.toNat

theorem lineFeed_not_mem_toString (n : UInt64) : lineFeed ∉ (toString n).toList := fun h => by
  have := digit_of_mem_toString h
  simp [lineFeed] at this

theorem families_wellFormed {F : Type} (showDouble : F → List Char) (m : Metrics) {cpu : F}
    (hcpu : lineFeed ∉ showDouble cpu) (ram : UInt64) :
    ∀ f ∈ families showDouble m cpu ram, f.WellFormed := by
  simp only [families, List.mem_cons, List.mem_singleton, List.not_mem_nil, or_false]
  rintro f (rfl | rfl | rfl | rfl | rfl | rfl | rfl | rfl) <;> refine ⟨?_, ?_, ?_, ?_, ?_⟩ <;>
    dsimp only <;> first | decide | exact lineFeed_not_mem_toString _ | exact hcpu

/-- Whatever the counters, and whatever the CPU gauge prints so long as it holds no line feed: a
reader of the text format gets back from `get_prometheus_metrics` each of the eight families in
order, with its help, its type and its sample, and each counter's sample, looked up by the
counter's name, reads back in decimal as the counter; the memory gauge reads back as the resident
bytes. -/
theorem prometheus_reads_back {F : Type} (showDouble : F → List Char) (m : Metrics) (cpu : F)
    (ram : UInt64) (hcpu : lineFeed ∉ showDouble cpu) :
    readExposition (getPrometheusMetrics showDouble m cpu ram) =
        (families showDouble m cpu ram).flatMap Family.read ++ [.blank] ∧
      (∀ c : Counter, ((samples (readExposition (getPrometheusMetrics showDouble m cpu ram))).lookup
        c.metricName).map decimalValue = some (m.get c).toNat) ∧
      ((samples (readExposition (getPrometheusMetrics showDouble m cpu ram))).lookup
        "blackbox_process_memory_bytes".toList).map decimalValue = some ram.toNat := by
  have h := readExposition_flatMap (families_wellFormed showDouble m hcpu ram)
  rw [getPrometheusMetrics, h]
  refine ⟨rfl, fun c => ?_, ?_⟩
  · have hc : (samples ((families showDouble m cpu ram).flatMap Family.read ++ [.blank])).lookup
        c.metricName = some (toString (m.get c)).toList := by
      cases c <;> rfl
    rw [hc, Option.map_some', decimalValue_toString_uint64]
  · have hr : (samples ((families showDouble m cpu ram).flatMap Family.read ++ [.blank])).lookup
        "blackbox_process_memory_bytes".toList = some (toString ram).toList := rfl
    rw [hr, Option.map_some', decimalValue_toString_uint64]

theorem prometheus_reads_back_cpu :
    let cpu := fun _ : Unit => "12.5".toList
    lineFeed ∉ cpu () ∧
      readExposition (getPrometheusMetrics cpu Metrics.zero () 4096) =
        (families cpu Metrics.zero () 4096).flatMap Family.read ++ [.blank] :=
  ⟨by decide, (prometheus_reads_back (fun _ : Unit => "12.5".toList) Metrics.zero () 4096
    (by decide)).1⟩

/-! ### The counters the processing worker moves -/

/-- The counter increments of a call of the processing worker: `inc_inferences_run(1)` and
`inc_threats_detected(1)`. -/
def Call.increments {α R : Type} : Call α R → List (Counter × UInt64)
  | .incInferencesRun => [(.inferences, 1)]
  | .incThreatsDetected => [(.threats, 1)]
  | _ => []

theorem Call.increments_counter {α R : Type} {call : Call α R} {i : Counter × UInt64}
    (h : i ∈ call.increments) : i.1 = .threats ∨ i.1 = .inferences := by
  cases call <;> simp_all [Call.increments]

section Logic

variable {α R : Type} [One R] [LT R] [DecidableRel (α := R) (· < ·)]

/-- Whether the logic loop finds a parsed log critical: a rule matches its enrichment, or the
detector scores it above the threshold. -/
def Engines.isCritical (eng : Engines α R) (threshold : R) (log : ParsedLog α R) : Bool :=
  (eng.evaluateRule (eng.enrich log)).isSome || decide (threshold < eng.finalScore (eng.enrich log))

/-- Whether the logic loop runs the detector on a parsed log: no rule matches its enrichment. -/
def Engines.runsDetector (eng : Engines α R) (log : ParsedLog α R) : Bool :=
  (eng.evaluateRule (eng.enrich log)).isNone

/-- The events whose logic has run: those of the worker's finished iterations. -/
def Pipeline.processed {N : Nat} (p : Pipeline N α R) : List LogEvent :=
  (p.rounds.map Prod.fst).flatten

theorem added_expectedCalls (eng : Engines α R) (threshold : R) (log : ParsedLog α R) :
    Metrics.added .threats ((eng.expectedCalls threshold log).flatMap Call.increments) =
        (if eng.isCritical threshold log then 1 else 0) ∧
      Metrics.added .inferences ((eng.expectedCalls threshold log).flatMap Call.increments) =
        (if eng.runsDetector log then 1 else 0) := by
  unfold Engines.expectedCalls Engines.isCritical Engines.runsDetector
  cases hr : eng.evaluateRule (eng.enrich log) <;>
    by_cases h : threshold < eng.finalScore (eng.enrich log) <;>
    simp [hr, h, Call.increments, Metrics.added]

theorem added_flatMap_expectedCalls (eng : Engines α R) (threshold : R) : ∀ es : List LogEvent,
    Metrics.added .threats (((es.flatMap fun e => eng.expectedCalls threshold (eng.process e))).flatMap
        Call.increments) = es.countP (fun e => eng.isCritical threshold (eng.process e)) ∧
      Metrics.added .inferences (((es.flatMap fun e => eng.expectedCalls threshold (eng.process e))).flatMap
        Call.increments) = es.countP (fun e => eng.runsDetector (eng.process e))
  | [] => ⟨rfl, rfl⟩
  | e :: es => by
    obtain ⟨ht, hi⟩ := added_flatMap_expectedCalls eng threshold es
    obtain ⟨ht', hi'⟩ := added_expectedCalls eng threshold (eng.process e)
    simp only [List.flatMap_cons, List.flatMap_append, Metrics.added_append, List.countP_cons, ht, hi,
      ht', hi']
    omega

theorem Pipeline.Inv.calls_processed {N : Nat} {eng : Engines α R} {threshold : R} {batchSize : Int}
    {p : Pipeline N α R} (h : Pipeline.Inv eng threshold batchSize p) :
    p.calls = p.processed.flatMap fun e => eng.expectedCalls threshold (eng.process e) := by
  rw [h.calls_eq, Pipeline.processed, flatten_rounds _ fun r hr => (h.rounds r hr).2]

/-- Whatever the pushes and wherever the worker stands, for `BATCH_SIZE ≥ 0`: the worker's calls
move the threat counter once for each processed event whose log is critical and the inference
counter once for each processed event no rule matches, modulo `2^64`, and no other counter. In the
source nothing else calls `inc_threats_detected` or `inc_inferences_run`. -/
theorem pipeline_counters_track_logic (eng : Engines α R) (threshold : R) (batchSize : Int)
    (hb : 0 ≤ batchSize) {N : Nat} (ring : RingBuffer N) (rawEvent : LogEvent)
    (acts : List Pipeline.Act) (m : Metrics) :
    (m.run (((Pipeline.start ring rawEvent : Pipeline N α R).run eng threshold batchSize
        acts).calls.flatMap Call.increments)).threats.toNat =
        (m.threats.toNat + ((Pipeline.start ring rawEvent : Pipeline N α R).run eng threshold
          batchSize acts).processed.countP (fun e => eng.isCritical threshold (eng.process e))) %
          UInt64.size ∧
      (m.run (((Pipeline.start ring rawEvent : Pipeline N α R).run eng threshold batchSize
        acts).calls.flatMap Call.increments)).inferences.toNat =
        (m.inferences.toNat + ((Pipeline.start ring rawEvent : Pipeline N α R).run eng threshold
          batchSize acts).processed.countP (fun e => eng.runsDetector (eng.process e))) %
          UInt64.size ∧
      ∀ c, c ≠ .threats → c ≠ .inferences →
        (m.run (((Pipeline.start ring rawEvent : Pipeline N α R).run eng threshold batchSize
          acts).calls.flatMap Call.increments)).get c = m.get c := by
  have h := (Pipeline.Inv.run acts (Pipeline.inv_start hb ring rawEvent) :
    Pipeline.Inv eng threshold batchSize ((Pipeline.start ring rawEvent : Pipeline N α R).run eng
      threshold batchSize acts))
  obtain ⟨ht, hi⟩ := added_flatMap_expectedCalls eng threshold
    ((Pipeline.start ring rawEvent : Pipeline N α R).run eng threshold batchSize acts).processed
  rw [h.calls_processed]
  refine ⟨?_, ?_, fun c h1 h2 => Metrics.get_run_of_forall_ne (fun i hi => ?_) m⟩
  · rw [← ht]
    exact Metrics.get_run .threats _ m
  · rw [← hi]
    exact Metrics.get_run .inferences _ m
  · obtain ⟨call, -, hcall⟩ := List.mem_flatMap.1 hi
    rcases Call.increments_counter hcall with h | h <;> rw [h] <;> exact Ne.symm ‹_›

theorem pipeline_counters_track_logic_one :
    let p := (Pipeline.start RingBuffer.init LogEvent.blank : Pipeline 4 Unit Int).run
      Engines.sample 0 1 [.push 0 (fun _ => 7) 1, .worker, .worker, .worker]
    0 ≤ (1 : Int) ∧ (Metrics.zero.run (p.calls.flatMap Call.increments)).inferences.toNat = 1 ∧
      (Metrics.zero.run (p.calls.flatMap Call.increments)).threats.toNat = 0 :=
  ⟨by decide,
    (pipeline_counters_track_logic Engines.sample 0 1 (by decide) RingBuffer.init LogEvent.blank
      [.push 0 (fun _ => 7) 1, .worker, .worker, .worker] Metrics.zero).2.1.trans (by decide),
    (pipeline_counters_track_logic Engines.sample 0 1 (by decide) RingBuffer.init LogEvent.blank
      [.push 0 (fun _ => 7) 1, .worker, .worker, .worker] Metrics.zero).1.trans (by decide)⟩

end Logic

/-! ### The heartbeat -/

/-- What one iteration of `reporter_worker` loads after its sleep, one relaxed load per counter,
and `delta = rx - last_rx`. -/
structure Heartbeat where
  rx : UInt64
  drop : UInt64
  infer : UInt64
  alerts : UInt64
  db : UInt64
  delta : UInt64

/-- The counters, the reporter's `last_rx`, and the heartbeats it has made. -/
structure Reporter where
  metrics : Metrics
  lastRx : UInt64
  beats : List Heartbeat

namespace Reporter

/-- What can happen next: a thread's `inc_*` call, or an iteration of the reporter. -/
inductive Act
  | inc (c : Counter) (count : UInt64)
  | beat

/-- `reporter_worker` starting on the counters as they stand: `last_rx = 0`. -/
def start (m : Metrics) : Reporter := ⟨m, 0, []⟩

/-- One iteration of `reporter_worker` after its sleep. -/
def beat (r : Reporter) : Reporter :=
  let rx := r.metrics.packetsRx
  { r with
    lastRx := rx,
    beats := r.beats ++ [⟨rx, r.metrics.packetsDropped, r.metrics.inferences, r.metrics.threats,
      r.metrics.dbWritten, rx - r.lastRx⟩] }

def step (r : Reporter) : Act → Reporter
  | .inc c count => { r with metrics := r.metrics.fetchAdd c count }
  | .beat => r.beat

def run (r : Reporter) (acts : List Act) : Reporter := acts.foldl step r

end Reporter

/-- For each heartbeat of a sequence of steps, the packets counted since the previous heartbeat,
from `k` counted before the first step. -/
def rxSegments : List Reporter.Act → Nat → List Nat
  | [], _ => []
  | .beat :: acts, k => k :: rxSegments acts 0
  | .inc c count :: acts, k => rxSegments acts (if c = .packetsRx then k + count.toNat else k)

theorem toNat_sub_eq_of_toNat_eq {x y : UInt64} {k : Nat} (h : x.toNat = (y.toNat + k) % UInt64.size) :
    (x - y).toNat = k % UInt64.size := by
  have hy := y.toNat_lt_size
  have : (x - y).toNat = (UInt64.size - y.toNat + x.toNat) % UInt64.size := BitVec.toNat_sub _ _
  rw [this, h]
  simp only [UInt64.size] at hy ⊢
  omega

theorem Reporter.deltas_run : ∀ (acts : List Reporter.Act) (r : Reporter) (k : Nat),
    r.metrics.packetsRx.toNat = (r.lastRx.toNat + k) % UInt64.size →
      (r.run acts).beats.map (·.delta.toNat) =
        r.beats.map (·.delta.toNat) ++ (rxSegments acts k).map (· % UInt64.size)
  | [], _, _, _ => by simp [Reporter.run, rxSegments]
  | .beat :: acts, r, k, h => by
    have h' : (r.step .beat).metrics.packetsRx.toNat = ((r.step .beat).lastRx.toNat + 0) % UInt64.size :=
      (Nat.mod_eq_of_lt r.metrics.packetsRx.toNat_lt_size).symm
    rw [Reporter.run, List.foldl_cons, ← Reporter.run, Reporter.deltas_run acts _ 0 h', rxSegments]
    simp [Reporter.step, Reporter.beat, toNat_sub_eq_of_toNat_eq h]
  | .inc c count :: acts, r, k, h => by
    have h' : (r.step (.inc c count)).metrics.packetsRx.toNat =
        ((r.step (.inc c count)).lastRx.toNat + if c = .packetsRx then k + count.toNat else k) %
          UInt64.size := by
      show ((r.metrics.fetchAdd c count).get .packetsRx).toNat = _
      rw [Metrics.get_fetchAdd]
      by_cases hc : c = .packetsRx
      · rw [if_pos hc.symm, if_pos hc, Metrics.toNat_add]
        show ((r.metrics.packetsRx.toNat) + _) % _ = _
        rw [h, Nat.mod_add_mod, Nat.add_assoc]
        rfl
      · rw [if_neg (Ne.symm hc), if_neg hc]
        exact h
    rw [Reporter.run, List.foldl_cons, ← Reporter.run, Reporter.deltas_run acts _ _ h', rxSegments]
    rfl

/-- Whatever the counters when the reporter starts and however increments and heartbeats
interleave: each heartbeat's delta is the number of packets counted since the previous heartbeat,
modulo `2^64`, also when the counter wraps in between; the first heartbeat counts every packet
counted before it, those before the reporter started included. -/
theorem reporter_delta_counts_since (m : Metrics) (acts : List Reporter.Act) :
    ((Reporter.start m).run acts).beats.map (·.delta.toNat) =
      (rxSegments acts m.packetsRx.toNat).map (· % UInt64.size) :=
  Reporter.deltas_run acts (Reporter.start m) _
    (show m.packetsRx.toNat = (0 + m.packetsRx.toNat) % UInt64.size by
      rw [Nat.zero_add, Nat.mod_eq_of_lt m.packetsRx.toNat_lt_size])

end Blackbox
