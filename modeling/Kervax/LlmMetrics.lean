-- The LLM services of a node (`main.go`): what is read of the metrics of an engine, and the rates
-- and latencies over the window of the agent. Numbers are rationals, times are seconds.
import Kervax.Fields
import Kervax.SpoolChecks
import Kervax.Texts
import Mathlib.Algebra.Order.Field.Rat
import Mathlib.Data.List.Sort
import Mathlib.Order.WithBot

namespace Kervax.Llm

open Kervax.Spools (Text)

/-! ## The metrics of an engine -/

/-- `strconv.ParseFloat`: a number, or infinity. -/
structure Lib where
  parseFloat : Text → Option (WithTop ℚ)

structure PromSeries where
  labels : Text
  v : ℚ

/-- The series of the metrics by name, in order. -/
abbrev PromSet := List (Text × PromSeries)

/-- The name, the labels and the rest of a line. -/
def parts (ln : Text) : Option (Text × Text × Text) :=
  if '{' ∈ ln then
    let i := ln.idxOf '{'
    match Texts.lastOf '}' ln with
    | none => none
    | some j => if j < i then none else some (ln.take i, (ln.take j).drop (i + 1), ln.drop (j + 1))
  else
    let sp := ln.findIdx fun c => c = ' ' || c = '\t'
    if sp < ln.length then some (ln.take sp, [], ln.drop sp) else none

/-- A line of the metrics; a value that is no finite number is left out. -/
def parseLine (L : Lib) (prefixes : List String) (ln : Text) : Option (Text × PromSeries) :=
  if ln.head? = some '#' ∨ ¬ prefixes.any fun p => Spools.hasPrefix ln p then none
  else
    match parts ln with
    | none => none
    | some (name, labels, rest) =>
      match Fields.words Spools.isSpace rest with
      | [] => none
      | f :: _ =>
        match L.parseFloat f with
        | some (v : ℚ) => some (name, ⟨labels, v⟩)
        | _ => none

/-- `promParse`. -/
def promParse (L : Lib) (body : Text) (prefixes : List String) : PromSet :=
  (body.splitOn '\n').filterMap (parseLine L prefixes)

/-- The value of a label from a place on, with the character before it. A label begins the text
or stands behind a comma or a blank. -/
def labelFrom (k : Text) : Option Char → Text → Text
  | _, [] => []
  | prev, c :: cs =>
    if k.isPrefixOf (c :: cs) ∧ (prev = none ∨ prev = some ',' ∨ prev = some ' ') then
      let rest := (c :: cs).drop k.length
      if '"' ∈ rest then rest.takeWhile (· ≠ '"') else []
    else labelFrom k (some c) cs

/-- `promLabel`. -/
def promLabel (labels : Text) (key : String) : Text :=
  labelFrom (key.toList ++ ['=', '"']) none labels

/-- `m[name]`; a metric without a series is missing. -/
def PromSet.series (m : PromSet) (name : String) : List PromSeries :=
  (m.filter fun p => p.1 = name.toList).map Prod.snd

/-- `sum`: of the first of the metrics that is there. -/
def PromSet.sum (m : PromSet) (names : List String) : Option ℚ :=
  names.findSome? fun n =>
    match m.series n with
    | [] => none
    | ss => some (ss.map PromSeries.v).sum

/-- `max`. -/
def PromSet.max (m : PromSet) (names : List String) : Option ℚ :=
  names.findSome? fun n =>
    match m.series n with
    | [] => none
    | s :: ss => some (ss.foldl (fun t s => Max.max t s.v) s.v)

/-- `sumWhere`, for any condition on the label. -/
def PromSet.sumWhere (m : PromSet) (name key : String) (val : Text → Bool) : Option ℚ :=
  match m.series name with
  | [] => none
  | ss => some ((ss.filter fun s => val (promLabel s.labels key)).map PromSeries.v).sum

/-- `label`. -/
def PromSet.label (m : PromSet) (name key : String) : Text :=
  (((m.series name).map fun s => promLabel s.labels key).find? (· ≠ [])).getD []

/-! ## Histograms -/

/-- `llmHist`: the upper bounds of the buckets, which grow, and the counts. -/
structure LlmHist where
  buckets : List (WithTop ℚ × ℚ)
  two : 2 ≤ buckets.length
  grows : (buckets.map Prod.fst).Pairwise (· < ·)

/-- The buckets of some series, added up. -/
def buckets (ss : List (WithTop ℚ × ℚ)) : List (WithTop ℚ × ℚ) :=
  ((ss.map Prod.fst).dedup.insertionSort (· ≤ ·)).map fun le =>
    (le, ((ss.filter fun s => s.1 = le).map Prod.snd).sum)

theorem buckets_grow (ss : List (WithTop ℚ × ℚ)) :
    ((buckets ss).map Prod.fst).Pairwise (· < ·) := by
  have hkeys : (buckets ss).map Prod.fst = (ss.map Prod.fst).dedup.insertionSort (· ≤ ·) := by
    unfold buckets
    rw [List.map_map]
    exact List.map_id _
  rw [hkeys]
  have hsorted := List.pairwise_insertionSort (· ≤ ·) (ss.map Prod.fst).dedup
  have hnodup : ((ss.map Prod.fst).dedup.insertionSort (· ≤ ·)).Nodup :=
    (List.perm_insertionSort _ _).nodup_iff.mpr (List.nodup_dedup _)
  exact hsorted.imp₂ (fun _ _ hle hne => lt_of_le_of_ne hle hne) hnodup

/-- `hist`: of the first of the metrics that has two buckets. -/
def PromSet.hist (m : PromSet) (L : Lib) (names : List String) : Option LlmHist :=
  names.findSome? fun n =>
    let ss := (m.series (n ++ "_bucket")).filterMap fun s =>
      (L.parseFloat (promLabel s.labels "le")).map fun le => (le, s.v)
    if two : 2 ≤ (buckets ss).length then some ⟨buckets ss, two, buckets_grow ss⟩ else none

/-- `int64` of a number. -/
def trunc (x : ℚ) : Int := x.num.tdiv x.den

/-- `round1`, `round2`, `round4`. -/
def roundTo (n : ℕ) (x : ℚ) : ℚ := trunc (x * n + 1 / 2) / n
def round1 (x : ℚ) : ℚ := roundTo 10 x
def round2 (x : ℚ) : ℚ := roundTo 100 x
def round4 (x : ℚ) : ℚ := roundTo 10000 x

/-- What came to each bucket between two histograms, with the difference of the bucket below; it
is not less than that one. There is none when the bounds changed or a count went down. -/
def growth : Option ℚ → List (WithTop ℚ × ℚ) → List (WithTop ℚ × ℚ) →
    Option (List (WithTop ℚ × ℚ))
  | _, [], [] => some []
  | below, a :: as, b :: bs =>
    if a.1 ≠ b.1 ∨ b.2 - a.2 < 0 then none
    else
      let d := match below with
        | none => b.2 - a.2
        | some below => if b.2 - a.2 < below then below else b.2 - a.2
      (growth (some d) as bs).map ((b.1, d) :: ·)
  | _, _, _ => none

/-- A quotient; none when it divides by zero. -/
def quot (x y : ℚ) : Option ℚ := if y = 0 then none else some (x / y)

/-- `q`: the loop over the buckets, with the last bound and the count below; none also where it
would go on from an infinite bound. -/
def quantile (rank : ℚ) : ℚ → ℚ → List (WithTop ℚ × ℚ) → Option ℚ
  | lo, _, [] => some lo
  | lo, below, (le, d) :: ds =>
    if rank ≤ d then
      match le with
      | ⊤ => some lo
      | (le : ℚ) =>
        if d = below then some le
        else (quot ((le - lo) * (rank - below)) (d - below)).map (lo + ·)
    else
      match le with
      | ⊤ => none
      | (le : ℚ) => quantile rank le d ds

structure Quantiles where
  p50 : ℚ
  p95 : ℚ
  p99 : ℚ
deriving DecidableEq

/-- `histQuantiles`; the outer none when it divides by zero. -/
def histQuantiles (a b : Option LlmHist) : Option (Option Quantiles) :=
  match a, b with
  | some a, some b =>
    match growth none a.buckets b.buckets with
    | none => some none
    | some d =>
      let total := (d.getLast?.map Prod.snd).getD 0
      if total ≤ 0 then some none
      else
        let q := fun p : ℚ => (quantile (p * total) 0 0 d).map round4
        (q (1 / 2)).bind fun p50 => (q (95 / 100)).bind fun p95 =>
          (q (99 / 100)).map fun p99 => some ⟨p50, p95, p99⟩
  | _, _ => some none

/-! ## A look at a service -/

inductive Counter
  | prompt | gen | req | preempt | abort | err
deriving DecidableEq

def counters : List Counter := [.prompt, .gen, .req, .preempt, .abort, .err]

/-- `llmSnap`: the counters and the histograms of one look. -/
structure LlmSnap where
  at' : ℚ
  ctr : Counter → Option ℚ
  ttft : Option LlmHist := none
  tpot : Option LlmHist := none
  e2e : Option LlmHist := none

structure LlmGauge where
  running : Option ℚ := none
  waiting : Option ℚ := none
  kv : Option ℚ := none
  model : Text := []

inductive Engine
  | vllm | sglang | tei | litellm
deriving DecidableEq

/-- `llmRead`. -/
def llmRead (L : Lib) (engine : Engine) (m : PromSet) (now : ℚ) : LlmGauge × LlmSnap :=
  match engine with
  | .vllm =>
    ({ running := m.sum ["vllm:num_requests_running"]
       waiting := m.sum ["vllm:num_requests_waiting"]
       kv := (m.max ["vllm:kv_cache_usage_perc", "vllm:gpu_cache_usage_perc"]).map
         fun v => round1 (v * 100)
       model := m.label "vllm:num_requests_running" "model_name" },
     { at' := now
       ctr := fun
         | .prompt => m.sum ["vllm:prompt_tokens_total"]
         | .gen => m.sum ["vllm:generation_tokens_total"]
         | .req => m.sum ["vllm:request_success_total", "vllm:e2e_request_latency_seconds_count"]
         | .preempt => m.sum ["vllm:num_preemptions_total"]
         | .abort => m.sumWhere "vllm:request_success_total" "finished_reason"
             (· = "abort".toList)
         | .err => m.sumWhere "http_requests_total" "status" (· = "5xx".toList)
       ttft := m.hist L ["vllm:time_to_first_token_seconds"]
       tpot := m.hist L ["vllm:inter_token_latency_seconds",
         "vllm:time_per_output_token_seconds", "vllm:request_time_per_output_token_seconds"]
       e2e := m.hist L ["vllm:e2e_request_latency_seconds"] })
  | .sglang =>
    ({ running := m.sum ["sglang:num_running_reqs"]
       waiting := m.sum ["sglang:num_queue_reqs"]
       kv := (m.max ["sglang:token_usage"]).map fun v => round1 (v * 100)
       model := m.label "sglang:num_running_reqs" "model_name" },
     { at' := now
       ctr := fun
         | .prompt => m.sum ["sglang:prompt_tokens_total"]
         | .gen => m.sum ["sglang:generation_tokens_total"]
         | .req => m.sum ["sglang:e2e_request_latency_seconds_count",
             "sglang:num_requests_total"]
         | _ => none
       ttft := m.hist L ["sglang:time_to_first_token_seconds"]
       tpot := m.hist L ["sglang:inter_token_latency_seconds",
         "sglang:time_per_output_token_seconds", "sglang:request_time_per_output_token_seconds"]
       e2e := m.hist L ["sglang:e2e_request_latency_seconds"] })
  | .tei =>
    ({ waiting := m.sum ["te_queue_size"] },
     { at' := now
       ctr := fun
         | .req => m.sum ["te_request_success", "te_request_success_total"]
         | .err => m.sum ["te_request_failure", "te_request_failure_total"]
         | .prompt => m.sum ["te_request_input_length_sum"]
         | _ => none
       e2e := m.hist L ["te_request_duration", "te_embed_duration"] })
  | .litellm =>
    ({ running := (m.sum ["litellm_in_flight_requests"]).map fun v => max (v - 1) 0 },
     { at' := now
       ctr := fun
         | .req => m.sum ["litellm_proxy_total_requests_metric_total"]
         | .prompt => m.sum ["litellm_input_tokens_metric_total"]
         | .gen => m.sum ["litellm_output_tokens_metric_total"]
         | .err => m.sumWhere "litellm_proxy_total_requests_metric_total" "status_code"
             fun code => Spools.hasPrefix code "5"
         | _ => none })

/-- `llmReset`: a counter is less than it was. -/
def llmReset (prev cur : LlmSnap) : Bool :=
  counters.any fun k =>
    match cur.ctr k, prev.ctr k with
    | some v, some p => v < p
    | _, _ => false

/-- `llmWindow`, `llmMinWin`. -/
def llmWindow : ℚ := 300
def llmMinWin : ℚ := 50

/-- What is told of a service, of what the metrics give. -/
structure LlmInfo where
  engine : Engine
  model : Text := []
  ok : Bool := false
  win : Int := 0
  running : Option ℚ := none
  waiting : Option ℚ := none
  kv : Option ℚ := none
  reqS : Option ℚ := none
  promptTPS : Option ℚ := none
  genTPS : Option ℚ := none
  preempt : Option ℚ := none
  errors : Option ℚ := none
  aborted : Option ℚ := none
  ttft : Option (Option Quantiles) := some none
  tpot : Option (Option Quantiles) := some none
  e2e : Option (Option Quantiles) := some none

def truncRunes (s : Text) (n : Nat) : Text :=
  if s.length ≤ n then s else s.take n ++ "...".toList

/-- The looks that are too old go, but the newest of those. -/
def trim (now : ℚ) : List LlmSnap → List LlmSnap
  | a :: b :: hist => if llmWindow ≤ now - b.at' then trim now (b :: hist) else a :: b :: hist
  | hist => hist

/-- The metrics that are read. -/
def prefixes : List String :=
  ["vllm:", "sglang:", "te_", "http_requests_total", "litellm_in_flight_requests",
    "litellm_proxy_total_requests_metric_total", "litellm_input_tokens_metric_total",
    "litellm_output_tokens_metric_total"]

/-- A look: what `llmCompute` reads, at a time. -/
def lookAt (L : Lib) (engine : Engine) (body : Text) (now : ℚ) : LlmGauge × LlmSnap :=
  llmRead L engine (promParse L body prefixes) now

/-- The looks after one more: from the start when a counter went down, and the last of them. -/
def keep (hist : List LlmSnap) (s : LlmSnap) (now : ℚ) : List LlmSnap :=
  trim now ((if hist.getLast?.any fun prev => llmReset prev s then [] else hist) ++ [s])

/-- `llmCompute`. -/
def llmCompute (L : Lib) (inf : LlmInfo) (body : Text) (hist : List LlmSnap) (now : ℚ) :
    LlmInfo × List LlmSnap :=
  let (g, s) := lookAt L inf.engine body now
  let inf := { inf with
    ok := true
    running := g.running
    waiting := g.waiting
    kv := g.kv
    model := if g.model ≠ [] then truncRunes g.model 120 else inf.model }
  let hist := keep hist s now
  let base := hist.headD s
  let sec := now - base.at'
  if sec < llmMinWin then (inf, hist)
  else
    let diff := fun k => (base.ctr k).bind fun a => (s.ctr k).map fun b => b - a
    ({ inf with
       win := trunc sec
       reqS := (diff .req).map fun d => round2 (d / sec)
       promptTPS := (diff .prompt).map fun d => round1 (d / sec)
       genTPS := (diff .gen).map fun d => round1 (d / sec)
       preempt := diff .preempt
       errors := diff .err
       aborted := diff .abort
       ttft := histQuantiles base.ttft s.ttft
       tpot := histQuantiles base.tpot s.tpot
       e2e := histQuantiles base.e2e s.e2e }, hist)

end Kervax.Llm
