import Flowscope.Correlate.Indexed

/-!
# The analysis of flows

`FlowAnalyzer` (`src/analysis/analyzer.rs`) folds what is observed of a flow into a summary. It keeps
the summaries in a `KeyIndexed`, where a summary ages from when it was inserted, and folding into it
does not make it any younger. So a flow that is observed all the time loses its summary once it is
older than the TTL, and only then (`finalize_folds`).

The theorem holds of any fold. The fold of the code is `L7Summary.fold`, up to the rules by which
indicators and a risk are computed from the summary, which the analyzer is given.
-/

namespace Flowscope.Analysis

open List Correlate KeyIndexed

/-- What an observation does to a summary, and what is computed from a summary. -/
structure Fold (K O S I R : Type) where
  default : S
  observe : S → O → S
  computeIoc : K → S → List I
  computeRisk : K → S → List I → R

/-- What is reported of a flow. -/
structure AnalyzedFlow (K S I R T : Type) where
  key : K
  stats : T
  l7 : S
  risk : R
  ioc_hits : List I

/-- The summaries of the flows. -/
abbrev FlowAnalyzer (K S : Type) := KeyIndexed K S

/-- What is done with the analyzer. -/
inductive Op (K O : Type) where
  | observe (key : K) (o : O) (ts : Timestamp)
  | evictExpired (now : Timestamp)

variable {K O S I R T : Type} [DecidableEq K] (F : Fold K O S I R)

/-- Insert a summary of the flow if there is none that is not too old. -/
def entered (a : FlowAnalyzer K S) (key : K) (ts : Timestamp) : FlowAnalyzer K S :=
  let (a, found) := a.getMut key ts
  if found.isNone then a.insert key F.default ts else a

/-- The summary of the flow, for an observation. -/
def summaryMut (a : FlowAnalyzer K S) (key : K) (ts : Timestamp) : FlowAnalyzer K S × Option S :=
  (entered F a key ts).getMut key ts

/-- One operation. Nothing comes out where the code panics: on the `expect` of `summary_mut`. -/
def step (a : FlowAnalyzer K S) : Op K O → Option (FlowAnalyzer K S)
  | .observe key o ts =>
    let (a, found) := summaryMut F a key ts
    found.map fun summary => a.write key (F.observe summary o)
  | .evictExpired now => some (a.evictExpired now)

/-- A run of operations. -/
def run (a : FlowAnalyzer K S) (ops : List (Op K O)) : Option (FlowAnalyzer K S) := ops.foldlM (step F) a

/-- A summary with what is computed from it. -/
def analyzed (key : K) (stats : T) (l7 : S) : AnalyzedFlow K S I R T :=
  let ioc_hits := F.computeIoc key l7
  ⟨key, stats, l7, F.computeRisk key l7 ioc_hits, ioc_hits⟩

/-- The flow is over: its summary is taken out and reported. -/
def finalize (a : FlowAnalyzer K S) (key : K) (stats : T) : FlowAnalyzer K S × AnalyzedFlow K S I R T :=
  let (a, l7) := a.remove key
  (a, analyzed F key stats (l7.getD F.default))

/-- The report of a flow that goes on. -/
def snapshot (a : FlowAnalyzer K S) (key : K) (now : Timestamp) (stats : T) : AnalyzedFlow K S I R T :=
  analyzed F key stats ((a.peek key now).getD F.default)

/-! ## What is observed of one flow -/

/-- The observations of a flow. -/
def seen (key : K) (ops : List (Op K O)) : List (O × Timestamp) :=
  ops.filterMap fun
    | .observe key' o ts => if key' = key then some (o, ts) else none
    | .evictExpired _ => none

/-- The summary that folds all of them, and when the first was made. -/
def expected (key : K) (ops : List (Op K O)) : Option (S × Timestamp) :=
  (seen key ops).head?.map fun first => ((seen key ops).foldl (fun s e => F.observe s e.1) F.default, first.2)

/-- The operation looks at the age of the flow at this time. -/
def Ages (key : K) : Op K O → Timestamp → Prop
  | .observe key' _ ts, now => key' = key ∧ ts = now
  | .evictExpired ts, now => ts = now

/-- The operation comes no later than the TTL after the flow was first observed. -/
def Young (ttl : Duration) (key : K) (ops : List (Op K O)) (op : Op K O) : Prop :=
  ∀ first ∈ (seen key ops).head?, ∀ now, Ages key op now → now.saturatingSub first.2 ≤ ttl

/-- The operation does not exceed the capacity. -/
def HasRoom (a : FlowAnalyzer K S) : Op K O → Prop
  | .observe key _ _ => a.inner.contains key ∨ a.inner.len < a.inner.cap
  | .evictExpired _ => True

/-! ## One operation -/

variable {F} {a : FlowAnalyzer K S} {key : K} {o : O} {ts : Timestamp}

omit [DecidableEq K] in
/-- What is inserted now is not too old. -/
theorem expired_self : a.expired ts ts = false := by
  rw [expired, Timestamp.saturatingSub_self]
  exact decide_eq_false (Nat.not_lt_zero _)

/-- After the first half of an observation there is a summary that is not too old. Other flows are left
alone. -/
theorem entered_spec (hroom : HasRoom a (.observe key o ts)) :
    ∃ summary inserted, a.expired inserted ts = false ∧ (entered F a key ts).ttl = a.ttl ∧
      (∀ j, (entered F a key ts).inner.peek j =
        if j = key then some (summary, inserted) else a.inner.peek j) ∧
      (a.inner.peek key = none → summary = F.default ∧ inserted = ts) ∧
      ∀ e, a.inner.peek key = some e → a.expired e.2 ts = false → e = (summary, inserted) := by
  cases hpk : a.inner.peek key with
  | none =>
    have hlt : a.inner.len < a.inner.cap :=
      hroom.resolve_left (by rw [LruCache.contains_eq_false.mpr hpk]; exact Bool.false_ne_true)
    have hadds := LruCache.adds_push hpk hlt (F.default, ts)
    have heq : entered F a key ts = a.insert key F.default ts := by rw [entered, getMut, hpk]; rfl
    refine ⟨F.default, ts, expired_self, by rw [heq]; rfl, ?_, fun _ => ⟨rfl, rfl⟩, by simp⟩
    rw [heq]
    exact hadds.peek
  | some e =>
    obtain ⟨summary, inserted⟩ := e
    have heq : a.getMut key ts = _ := getMut_of_some hpk
    cases hexp : a.expired inserted ts with
    | true =>
      have hsets := sets_insert F.default ts hpk
      refine ⟨F.default, ts, expired_self, ?_, ?_, by simp, ?_⟩
      · rw [entered, heq, hexp]; rfl
      · rw [entered, heq, hexp]; exact hsets.peek
      · rintro _ ⟨⟩ hyoung
        exact absurd hexp (by rw [hyoung]; exact Bool.false_ne_true)
    | false =>
      refine ⟨summary, inserted, hexp, ?_, ?_, by simp, fun _ he _ => (Option.some.inj he).symm⟩
      · rw [entered, heq, hexp]; rfl
      · rw [entered, heq, hexp]; exact (LruCache.sets_set hpk).peek

/-- An observation is folded into the summary of its flow, and into no other one. -/
theorem step_observe (hroom : HasRoom a (.observe key o ts)) :
    ∃ b summary inserted, step F a (.observe key o ts) = some b ∧ b.ttl = a.ttl ∧
      (∀ j, b.inner.peek j =
        if j = key then some (F.observe summary o, inserted) else a.inner.peek j) ∧
      (a.inner.peek key = none → summary = F.default ∧ inserted = ts) ∧
      ∀ e, a.inner.peek key = some e → a.expired e.2 ts = false → e = (summary, inserted) := by
  obtain ⟨summary, inserted, hexp, httl, hpk, hnew, hold⟩ := entered_spec hroom
  have hkey : (entered F a key ts).inner.peek key = some (summary, inserted) := by rw [hpk, if_pos rfl]
  have hget : (entered F a key ts).getMut key ts = _ := getMut_of_some hkey
  rw [expired, httl, ← expired, hexp] at hget
  refine ⟨_, summary, inserted, by rw [step, summaryMut, hget]; rfl, ?_, fun j => ?_, hnew, hold⟩
  · rw [ttl_write]
    exact httl
  · rw [(sets_write (F.observe summary o) hkey).peek, hpk]
    split_ifs <;> rfl

/-! ## Whole runs -/

/-- One more observation of the flow. -/
theorem expected_observe {ops : List (Op K O)} : expected F key (ops ++ [.observe key o ts]) =
    match expected F key ops with
    | none => some (F.observe F.default o, ts)
    | some (summary, first) => some (F.observe summary o, first) := by
  have hseen : seen key (ops ++ [.observe key o ts]) = seen key ops ++ [(o, ts)] := by simp [seen]
  rw [expected, expected, hseen]
  cases seen key ops with
  | nil => rfl
  | cons e l => rw [foldl_append]; rfl

/-- An operation that observes nothing of the flow. -/
theorem expected_other {ops : List (Op K O)} {op : Op K O} (h : seen key [op] = []) :
    expected F key (ops ++ [op]) = expected F key ops := by
  have hseen : seen key (ops ++ [op]) = seen key ops := by
    rw [seen, filterMap_append, ← seen, ← seen, h, append_nil]
  rw [expected, hseen, ← expected]

variable {ttl : Duration} {capacity : ℕ} {ops : List (Op K O)}

/-- One more operation, which comes while the flow is young. -/
theorem step_expected {op : Op K O} (hpk : a.inner.peek key = expected F key ops)
    (hyoung : Young a.ttl key ops op) (hroom : HasRoom a op) :
    ∃ b, step F a op = some b ∧ b.ttl = a.ttl ∧ b.inner.peek key = expected F key (ops ++ [op]) := by
  have hage {e now} (he : a.inner.peek key = some e) (hnow : Ages key op now) :
      a.expired e.2 now = false := by
    rw [hpk] at he
    obtain ⟨first, hfirst, rfl⟩ := Option.map_eq_some_iff.mp he
    exact decide_eq_false (Nat.not_lt.mpr (hyoung first hfirst now hnow))
  match op with
  | .evictExpired now =>
    refine ⟨_, rfl, rfl, ?_⟩
    rw [peek_evictExpired fun e he => hage he rfl, hpk, expected_other rfl]
  | .observe key' o ts =>
    obtain ⟨b, summary, inserted, hb, httl, hpeek, hnew, hold⟩ := step_observe hroom
    refine ⟨b, hb, httl, ?_⟩
    by_cases hkey : key' = key
    · subst hkey
      rw [hpeek, if_pos rfl, expected_observe, ← hpk]
      cases he : a.inner.peek key' with
      | none =>
        obtain ⟨rfl, rfl⟩ := hnew he
        rfl
      | some e => rw [hold e he (hage he ⟨rfl, rfl⟩)]
    · have hnil : seen key [Op.observe key' o ts] = [] := by simp [seen, hkey]
      rw [hpeek, if_neg (Ne.symm hkey), hpk, expected_other hnil]

/-- The summary after a run. The induction is on the run from its end, with `step_expected` for the last
operation. -/
theorem run_expected (h : ∀ pre op post, ops = pre ++ op :: post → Young ttl key pre op ∧
      ∀ a, run F (.new ttl capacity) pre = some a → HasRoom a op) :
    ∃ b, run F (.new ttl capacity) ops = some b ∧ b.ttl = ttl ∧
      b.inner.peek key = expected F key ops := by
  induction ops using List.reverseRecOn with
  | nil => exact ⟨_, rfl, rfl, rfl⟩
  | append_singleton ops op ih =>
    obtain ⟨a, ha, rfl, hpk⟩ := ih fun pre op' post heq =>
      h pre op' (post ++ [op]) (by rw [heq, append_assoc, cons_append])
    obtain ⟨hyoung, hroom⟩ := h ops op [] rfl
    obtain ⟨b, hb, httl, hpeek⟩ := step_expected hpk hyoung (hroom a ha)
    refine ⟨b, ?_, httl, hpeek⟩
    rw [run, foldlM_append, ← run, ha]
    exact (Option.bind_some _ _).trans ((foldlM_cons ..).trans (by rw [hb]; rfl))

/-- All observations of the flow come while it is young. -/
theorem age_le (h : ∀ pre op post, ops = pre ++ op :: post → Young ttl key pre op)
    {e first : O × Timestamp} (he : e ∈ seen key ops) (hfirst : first ∈ (seen key ops).head?) :
    e.2.saturatingSub first.2 ≤ ttl := by
  obtain ⟨op, hop, hseen⟩ := mem_filterMap.mp he
  obtain ⟨pre, post, rfl⟩ := append_of_mem hop
  have hages : Ages key op e.2 := by
    match op, hseen with
    | .observe key' o ts, hseen =>
      obtain ⟨hkey, hts⟩ := Option.ite_none_right_eq_some.mp hseen
      exact ⟨hkey, congrArg Prod.snd (Option.some.inj hts)⟩
  rw [seen, filterMap_append, ← seen, filterMap_cons, hseen, head?_append] at hfirst
  cases hpre : (seen key pre).head? with
  | some e' => exact h pre op post rfl first (by rwa [hpre] at hfirst ⊢) e.2 hages
  | none =>
    rw [hpre] at hfirst
    cases hfirst
    rw [Timestamp.saturatingSub_self]
    exact Nat.zero_le _

/-- A flow that is not older than the TTL is analysed from all that was observed of it. -/
theorem finalize_folds (F : Fold K O S I R) (ttl : Duration) (capacity : ℕ) (key : K)
    (ops : List (Op K O)) (stats : T)
    (h : ∀ pre op post, ops = pre ++ op :: post → Young ttl key pre op ∧
      ∀ a, run F (.new ttl capacity) pre = some a → HasRoom a op) :
    ∃ b, run F (.new ttl capacity) ops = some b ∧
      (finalize F b key stats).2.l7 = (seen key ops).foldl (fun s e => F.observe s e.1) F.default ∧
      ∀ last ∈ (seen key ops).getLast?, snapshot F b key last.2 stats = (finalize F b key stats).2 := by
  obtain ⟨b, hb, httl, hpk⟩ := run_expected h
  refine ⟨b, hb, ?_, fun last hlast => ?_⟩
  · change ((b.inner.peek key).map Prod.fst).getD F.default = _
    rw [hpk, expected]
    cases seen key ops <;> rfl
  · change analyzed F key stats ((b.peek key last.2).getD _) = analyzed F key stats ((Option.map ..).getD _)
    have hmem := mem_of_getLast? hlast
    obtain ⟨first, hfirst⟩ : ∃ first, (seen key ops).head? = some first :=
      ⟨_, head?_eq_some_head (ne_nil_of_mem hmem)⟩
    have hexp : b.expired first.2 last.2 = false := by
      have hle := age_le (fun pre op post heq => (h pre op post heq).1) hmem hfirst
      rw [expired, httl]
      exact decide_eq_false (Nat.not_lt.mpr hle)
    rw [peek, hpk, expected, hfirst, Option.map_some, Option.bind_some, hexp]
    rfl

/-! ## The summary of the code -/

/-- The protocol that was last observed. -/
inductive AppProto where
  | tls
  | http
  | dns
deriving DecidableEq, Repr

/-- What is kept of a flow (`src/analysis/summary.rs`). -/
structure L7Summary where
  app_proto : Option AppProto := none
  server_name : Option String := none
  ja3 : Option String := none
  ja4 : Option String := none
  tls_version : Option ℕ := none
  tls_cipher : Option ℕ := none
  user_agent : Option String := none
  http_method : Option String := none
  http_uri : Option String := none
  dns_queries : List String := []
deriving DecidableEq, Repr

/-- What is read of a TLS handshake. -/
structure TlsHandshake where
  sni : Option String := none
  ja3 : Option String := none
  ja4 : Option String := none
  /-- The version as its code point. -/
  version : Option ℕ := none
  cipher_suite : Option ℕ := none

/-- What is read of an HTTP request: what its accessors give where the bytes are UTF-8. -/
structure HttpRequest where
  host : Option String := none
  user_agent : Option String := none
  method_str : Option String := none
  path_str : Option String := none

/-- A message of one of the parsers. Of queries and responses of DNS the names in the questions are
read. -/
inductive Observation where
  | tls (hs : TlsHandshake)
  | httpRequest (req : HttpRequest)
  | httpResponse
  | dnsQuery (names : List String)
  | dnsResponse (names : List String)

namespace L7Summary

/-- How many names are kept. -/
def MAX_DNS_QUERIES : ℕ := 16

/-- What was read last wins. -/
def observeTls (s : L7Summary) (hs : TlsHandshake) : L7Summary :=
  { s with
    app_proto := some .tls
    server_name := hs.sni <|> s.server_name
    ja3 := hs.ja3 <|> s.ja3
    ja4 := hs.ja4 <|> s.ja4
    tls_version := hs.version <|> s.tls_version
    tls_cipher := hs.cipher_suite <|> s.tls_cipher }

/-- A server name that is there already stays. -/
def observeHttp (s : L7Summary) (req : HttpRequest) : L7Summary :=
  { s with
    app_proto := some .http
    server_name := s.server_name <|> req.host
    user_agent := req.user_agent <|> s.user_agent
    http_method := req.method_str <|> s.http_method
    http_uri := req.path_str <|> s.http_uri }

/-- Keep names that are not empty and not there yet, until there are enough. -/
def pushDnsNames (s : L7Summary) : List String → L7Summary
  | [] => s
  | name :: rest =>
    if MAX_DNS_QUERIES ≤ s.dns_queries.length then s
    else if name ≠ "" ∧ name ∉ s.dns_queries then
      pushDnsNames { s with dns_queries := s.dns_queries ++ [name] } rest
    else pushDnsNames s rest

/-- Fold a message into the summary. -/
def observe (s : L7Summary) : Observation → L7Summary
  | .tls hs => s.observeTls hs
  | .httpRequest req => s.observeHttp req
  | .httpResponse => s
  | .dnsQuery names | .dnsResponse names => pushDnsNames { s with app_proto := some .dns } names

omit [DecidableEq K] in
/-- The fold of the code, with the rules for indicators and risk. -/
def fold (computeIoc : K → L7Summary → List I) (computeRisk : K → L7Summary → List I → R) :
    Fold K Observation L7Summary I R := ⟨{}, observe, computeIoc, computeRisk⟩

end L7Summary

/-- Without indicators and risks. -/
def plain : Fold Unit Observation L7Summary Unit Unit :=
  L7Summary.fold (fun _ _ => []) fun _ _ _ => ()

/-- A handshake with a server name, a request with a user agent, and a query. -/
def sampleOps : List (Op Unit Observation) :=
  [.observe () (.tls { sni := some "a.com" }) ⟨0, 0⟩,
    .observe () (.httpRequest { host := some "b.com", user_agent := some "curl" }) ⟨6, 0⟩,
    .observe () (.dnsQuery ["c.com", "", "c.com"]) ⟨12, 0⟩]

/-- The first two are both in the summary, within a TTL of ten seconds. -/
theorem finalize_folds_two : ∃ b,
    run plain (.new (10 * 10^9) 1) (sampleOps.take 2) = some b ∧
      (finalize plain b () ()).2.l7 =
        { app_proto := some .http, server_name := some "a.com", user_agent := some "curl" } := by
  obtain ⟨b, hb, hl7, -⟩ := finalize_folds plain (10 * 10^9) 1 () (sampleOps.take 2) ()
    fun pre op post heq => by
      rcases pre with _ | ⟨x, _ | ⟨y, pre⟩⟩
      · cases heq
        exact ⟨nofun, fun a ha => by cases ha; exact .inr Nat.one_pos⟩
      · cases heq
        refine ⟨?_, fun a ha => by cases ha; exact .inl rfl⟩
        rintro _ ⟨⟩ _ ⟨-, rfl⟩
        decide
      · cases pre <;> cases heq
  exact ⟨b, hb, hl7⟩

/-- A flow that is observed every six seconds, with a TTL of ten, loses what was observed first: the
server name and the user agent are gone. -/
theorem finalize_forgets : ∃ b,
    run plain (.new (10 * 10^9) 1) sampleOps = some b ∧
      (finalize plain b () ()).2.l7 = { app_proto := some .dns, dns_queries := ["c.com"] } :=
  ⟨_, rfl, by decide +kernel⟩

end Flowscope.Analysis
