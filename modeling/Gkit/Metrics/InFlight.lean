import Gkit.Metrics.Model

/-!
# In-flight gauges

What a goroutine has added to a gauge and has not taken back yet is read off its
phase.  As long as no handler panics and Prometheus takes the label values that a
request is counted with, a gauge is the sum of that over all goroutines, and every
request that is over has been counted once.  The first panic of a handler leaves
its gauge one too high, and the first label value that is refused leaves its
request without a count.
-/

namespace Gkit.Metrics

open Gkit.Lib

/-! ## What is still owed -/

def MetricOp.level (g : Gauge) : MetricOp → ℤ
  | .inc g' => if g' = g then 1 else 0
  | .dec g' => if g' = g then -1 else 0
  | _ => 0

def MetricOp.isCount : MetricOp → Bool
  | .count _ => true
  | _ => false

/-- Neither a gauge nor the count of the request depends on the operation. -/
def MetricOp.isIdle : MetricOp → Bool
  | .observe _ => true
  | .addBytes .. => true
  | _ => false

/-- What the goroutine still has to take back from the gauge. -/
def Thread.owes (g : Gauge) (t : Thread) : ℤ :=
  match t.phase with
  | .serving .. => if t.request.gauge = g then 1 else 0
  | .calling => if t.request.gauge = g then 1 else 0
  | .reporting ops => -(ops.map (MetricOp.level g)).sum
  | _ => 0

/-- How often the goroutine is still going to count its request. -/
def Thread.due (t : Thread) : ℕ :=
  match t.phase with
  | .reporting ops => ops.countP MetricOp.isCount
  | .finished => 0
  | .recovered => 0
  | _ => 1

/-- The request is inside the metrics layer, between the two operations on the
gauge of its method. -/
def Thread.within (g : Gauge) (t : Thread) : Bool :=
  match t.phase with
  | .serving .. => t.request.gauge = g
  | .calling => t.request.gauge = g
  | .reporting ops => .dec g ∈ ops
  | _ => false

/-- The move is not a panic of the handler, and Prometheus takes the label values
between here and the count of the request.  For gRPC these are also the ones of
the histogram, which comes before the counter. -/
def Thread.undisturbed (m : Instruments) (t : Thread) : Move → Bool
  | .enter => m.withLabelValues (.requestsInFlight t.request.gauge)
  | .served =>
      match t.request, t.phase with
      | .http method urlPath, .serving wrapped pattern =>
          m.withLabelValues
            (.requestsTotal (.http method (labelPath urlPath pattern) wrapped.status))
      | _, _ => true
  | .returned err =>
      match t.request with
      | .http .. => true
      | .unary method | .stream method =>
          m.withLabelValues (.requestDuration (.rpc method)) &&
            m.withLabelValues (.requestsTotal (.rpc method (err.getD 0)))
  | .panicked => false
  | _ => true

def Thread.isOver (t : Thread) : Bool :=
  match t.phase with
  | .finished => true
  | .recovered => true
  | _ => false

/-- The operations after the handler: the gauge first, then one count of the
method and nothing more on gauges. -/
structure Reports (r : Request) (ops rest : List MetricOp) : Prop where
  ops : ops = .dec r.gauge :: rest
  level : ∀ op ∈ rest, ∀ g, op.level g = 0 ∧ op ≠ .dec g
  once : rest.countP MetricOp.isCount = 1
  own : ∀ c, .count c ∈ rest → c.gauge = r.gauge

theorem reports_httpMiddleware (method urlPath : Bytes) (w : ResponseWriter) (pattern : Bytes) :
    ∃ rest, Reports (.http method urlPath) (httpMiddleware method urlPath w pattern) rest := by
  refine ⟨_, rfl, ?_, rfl, ?_⟩
  · intro op hop g
    simp only [List.mem_cons, List.not_mem_nil, or_false] at hop
    rcases hop with rfl | rfl | rfl <;> exact ⟨rfl, by simp⟩
  · intro c hc
    obtain rfl : c = _ := by simpa using hc
    rfl

theorem reports_rpcInterceptor {r : Request} {method : Bytes} (hr : r.gauge = .rpc method)
    (err : Option ℕ) : ∃ rest, Reports r (rpcInterceptor method err) rest := by
  refine ⟨_, by rw [hr]; rfl, ?_, rfl, ?_⟩
  · intro op hop g
    simp only [List.mem_cons, List.not_mem_nil, or_false] at hop
    rcases hop with rfl | rfl <;> exact ⟨rfl, by simp⟩
  · intro c hc
    obtain rfl : c = _ := by simpa using hc
    exact hr.symm

section Moves

variable {m : Instruments} {r : Request} {phase phase' : Phase} {op : MetricOp}
  {full rest ops : List MetricOp}

variable (m) in
/-- No lookup panics as long as there is something to take back or to count. -/
def Safe : List MetricOp → Prop
  | [] => True
  | op :: ops =>
      (m.withLabelValues op.series = true ∨ ∀ o ∈ op :: ops, o.isIdle = true) ∧ Safe ops

def Phase.inHandler : Phase → Bool
  | .serving .. => true
  | .calling => true
  | _ => false

/-- The gauge of a goroutine in its handler can be looked up, and what is ahead of
one past its handler is the end of its report. -/
structure Thread.WF (m : Instruments) (t : Thread) : Prop where
  entered : t.phase.inHandler = true →
    m.withLabelValues (.requestsInFlight t.request.gauge) = true
  report : ∀ ops, t.phase = .reporting ops →
    (∃ full rest, Reports t.request full rest ∧ ops <:+ full) ∧ Safe m ops

theorem Reports.sum_level (h : Reports r full rest) (hops : ops ⊆ rest) (g : Gauge) : (ops.map (MetricOp.level g)).sum = 0 := by
  apply List.sum_eq_zero
  intro x hx
  obtain ⟨op, hop, rfl⟩ := List.mem_map.mp hx
  exact (h.level op (hops hop) g).1

theorem Thread.WF.owes_eq {t : Thread} (h : t.WF m) (g : Gauge) :
    t.owes g = if t.within g then 1 else 0 := by
  obtain ⟨r, phase⟩ := t
  cases phase with
  | arriving | finished | recovered => rfl
  | serving | calling => simp [owes, within]
  | reporting ops =>
      obtain ⟨⟨full, rest, hfull, hops⟩, -⟩ := h.report ops rfl
      rw [hfull.ops, List.suffix_cons_iff] at hops
      change ops = .dec r.gauge :: rest ∨ ops <:+ rest at hops
      rcases hops with rfl | hops
      · have hnot : MetricOp.dec g ∉ rest := fun hmem => (hfull.level _ hmem g).2 rfl
        simp only [owes, within, List.map_cons, List.sum_cons,
          hfull.sum_level (List.Subset.refl rest) g,
          List.mem_cons, hnot, or_false]
        by_cases hg : r.gauge = g
        · simp [MetricOp.level, hg]
        · simp [MetricOp.level, hg, Ne.symm hg]
      · have hnot : MetricOp.dec g ∉ ops := fun hmem => (hfull.level _ (hops.subset hmem) g).2 rfl
        simp [owes, within, hfull.sum_level hops.subset g, hnot]

/-! ## One move -/

variable (m r) in
/-- What a move without a panic leaves behind. -/
structure Pays (phase : Phase) (op : Option MetricOp) (phase' : Phase) : Prop where
  owes : ∀ g, Thread.owes g ⟨r, phase'⟩ = Thread.owes g ⟨r, phase⟩ + op.elim 0 (MetricOp.level g)
  due : Thread.due ⟨r, phase'⟩ + (op.toList.countP MetricOp.isCount) = Thread.due ⟨r, phase⟩
  wf : Thread.WF m ⟨r, phase'⟩
  own : ∀ c, op = some (.count c) → c.gauge = r.gauge

theorem wf_of_inHandler (hphase : phase.inHandler = true)
    (htaken : m.withLabelValues (.requestsInFlight r.gauge) = true) : Thread.WF m ⟨r, phase⟩ := by
  refine ⟨fun _ => htaken, fun ops hops => ?_⟩
  obtain rfl : phase = .reporting ops := hops
  cases hphase

theorem pays_report (h : Reports r full rest) (hsafe : Safe m full)
    (hphase : phase.inHandler = true) : Pays m r phase none (.reporting full) := by
  have hdue : full.countP MetricOp.isCount = 1 := by
    rw [h.ops, List.countP_cons, h.once]
    rfl
  have hsum : ∀ g, (full.map (MetricOp.level g)).sum = MetricOp.level g (.dec r.gauge) := by
    intro g
    rw [h.ops, List.map_cons, List.sum_cons, h.sum_level (List.Subset.refl rest) g, add_zero]
  have howes : ∀ g, Thread.owes g ⟨r, .reporting full⟩ = if r.gauge = g then 1 else 0 := by
    intro g
    simp only [Thread.owes, hsum, MetricOp.level]
    split_ifs <;> simp
  have hwf : Thread.WF m ⟨r, .reporting full⟩ := by
    refine ⟨by simp [Phase.inHandler], ?_⟩
    rintro ops ⟨⟩
    exact ⟨⟨full, rest, h, List.suffix_rfl⟩, hsafe⟩
  cases phase with
  | serving | calling => exact ⟨fun g => by rw [howes]; simp [Thread.owes], hdue, hwf, by simp⟩
  | arriving | reporting | finished | recovered => cases hphase

theorem pays_enter (htaken : m.withLabelValues (.requestsInFlight r.gauge) = true) :
    Pays m r .arriving (some (.inc r.gauge)) r.handler := by
  have hin : r.handler.inHandler = true := by cases r <;> rfl
  refine ⟨fun g => ?_, ?_, wf_of_inHandler hin htaken, by simp⟩
  · have howes : Thread.owes g ⟨r, r.handler⟩ = if r.gauge = g then 1 else 0 := by
      cases r <;> rfl
    rw [howes]
    simp [Thread.owes, MetricOp.level]
  · cases r <;> rfl

/-- The next operation of a report. -/
theorem pays_ahead (hwf : Thread.WF m ⟨r, .reporting (op :: ops)⟩) :
    Pays m r (.reporting (op :: ops)) (some op) (.ahead ops) := by
  obtain ⟨⟨full, rest, hfull, hops⟩, hsafe⟩ := hwf.report _ rfl
  have howes : ∀ g, Thread.owes g ⟨r, .ahead ops⟩ = -(ops.map (MetricOp.level g)).sum := by
    intro g
    cases ops <;> simp [Phase.ahead, Thread.owes]
  have hdue : Thread.due ⟨r, .ahead ops⟩ = ops.countP MetricOp.isCount := by
    cases ops <;> rfl
  refine ⟨fun g => ?_, ?_, ⟨fun hin => ?_, fun ops' hops' => ?_⟩, fun c hc => ?_⟩
  · rw [howes]
    simp [Thread.owes]
  · rw [hdue]
    simp only [Thread.due, Option.toList_some, List.countP_cons, List.countP_nil]
    omega
  · cases ops <;> cases hin
  · obtain rfl : ops = ops' := by
      cases ops with
      | nil => cases hops'
      | cons => exact Phase.reporting.inj hops'
    exact ⟨⟨full, rest, hfull, (List.suffix_cons _ _).trans hops⟩, hsafe.2⟩
  · obtain rfl := Option.some.inj hc
    have hmem := hops.subset List.mem_cons_self
    rw [hfull.ops] at hmem
    exact hfull.own c (by simpa using hmem)

/-- A lookup that panics behind the count and the gauge does no harm. -/
theorem pays_refused (hwf : Thread.WF m ⟨r, .reporting (op :: ops)⟩)
    (hop : m.withLabelValues op.series = false) :
    Pays m r (.reporting (op :: ops)) none .recovered := by
  have hidle : ∀ o ∈ op :: ops, o.isIdle = true :=
    (hwf.report _ rfl).2.1.resolve_left (by simp [hop])
  have hlevel : ∀ g, ((op :: ops).map (MetricOp.level g)).sum = 0 := by
    intro g
    apply List.sum_eq_zero
    intro x hx
    obtain ⟨o, ho, rfl⟩ := List.mem_map.mp hx
    cases o with
    | inc | dec => cases hidle _ ho
    | count | observe | addBytes => rfl
  have hcount : (op :: ops).countP MetricOp.isCount = 0 := by
    apply List.countP_eq_zero.mpr
    intro o ho
    cases o with
    | count => cases hidle _ ho
    | inc | dec | observe | addBytes => simp [MetricOp.isCount]
  refine ⟨fun g => ?_, hcount.symm, ⟨by simp [Phase.inHandler], by simp⟩, by simp⟩
  simp only [Thread.owes, hlevel]
  rfl

theorem safe_httpMiddleware {method urlPath : Bytes} {w : ResponseWriter} {pattern : Bytes}
    (hgauge : m.withLabelValues (.requestsInFlight (.http method)) = true)
    (hcount : m.withLabelValues
      (.requestsTotal (.http method (labelPath urlPath pattern) w.status)) = true) :
    Safe m (httpMiddleware method urlPath w pattern) := by
  simp [Safe, httpMiddleware, MetricOp.series, MetricOp.isIdle, hgauge, hcount]

theorem safe_rpcInterceptor {method : Bytes} {err : Option ℕ}
    (hgauge : m.withLabelValues (.requestsInFlight (.rpc method)) = true)
    (hobserve : m.withLabelValues (.requestDuration (.rpc method)) = true)
    (hcount : m.withLabelValues (.requestsTotal (.rpc method (err.getD 0))) = true) :
    Safe m (rpcInterceptor method err) := by
  simp [Safe, rpcInterceptor, MetricOp.series, MetricOp.isIdle, hgauge, hobserve, hcount]

theorem pays_returned {method : Bytes} {err : Option ℕ} (hr : r.gauge = .rpc method)
    (hgauge : m.withLabelValues (.requestsInFlight r.gauge) = true)
    (hx : (m.withLabelValues (.requestDuration (.rpc method)) &&
      m.withLabelValues (.requestsTotal (.rpc method (err.getD 0)))) = true) :
    Pays m r .calling none (.reporting (rpcInterceptor method err)) := by
  obtain ⟨hobserve, hcount⟩ := Bool.and_eq_true_iff.mp hx
  obtain ⟨rest, hrest⟩ := reports_rpcInterceptor hr err
  exact pays_report hrest (safe_rpcInterceptor (hr ▸ hgauge) hobserve hcount) rfl

theorem pays_of_advance {x : Move} {op : Option MetricOp} (hwf : Thread.WF m ⟨r, phase⟩)
    (hx : Thread.undisturbed m ⟨r, phase⟩ x = true)
    (h : advance m r phase x = some (phase', op)) : Pays m r phase op phase' := by
  cases phase with
  | arriving =>
      cases x with
      | enter =>
          have htaken : m.withLabelValues (.requestsInFlight r.gauge) = true := hx
          simp only [advance, Instruments.attempt, MetricOp.series, htaken, if_true,
            Option.some.injEq, Prod.mk.injEq] at h
          obtain ⟨rfl, rfl⟩ := h
          exact pays_enter htaken
      | route | writeHeader | write | served | returned | panicked | report => cases h
  | serving w p =>
      have hkeep : ∀ w' p', Pays m r (.serving w p) none (.serving w' p') := fun w' p' =>
        ⟨fun g => by simp [Thread.owes], rfl, wf_of_inHandler rfl (hwf.entered rfl), by simp⟩
      cases x with
      | route | writeHeader | write =>
          cases h
          exact hkeep ..
      | served =>
          cases r with
          | http method urlPath =>
              cases h
              obtain ⟨rest, hrest⟩ := reports_httpMiddleware method urlPath w p
              exact pays_report hrest (safe_httpMiddleware (hwf.entered rfl) hx) rfl
          | unary | stream => cases h
      | panicked => cases hx
      | enter | returned | report => cases h
  | calling =>
      cases x with
      | returned err =>
          cases r with
          | http => cases h
          | unary method =>
              cases h
              exact pays_returned rfl (hwf.entered rfl) hx
          | stream method =>
              cases h
              exact pays_returned rfl (hwf.entered rfl) hx
      | panicked => cases hx
      | enter | route | writeHeader | write | served | report => cases h
  | reporting ops =>
      cases x with
      | report =>
          cases ops with
          | nil => cases h
          | cons o ops =>
              simp only [advance, Instruments.attempt, Option.some.injEq] at h
              split_ifs at h with htaken
              · cases h
                exact pays_ahead hwf
              · cases h
                exact pays_refused hwf (by simpa using htaken)
      | enter | route | writeHeader | write | served | returned | panicked => cases ops <;> cases h
  | finished | recovered => cases x <;> cases h

end Moves

/-! ## Whole runs -/

theorem requestsInFlight_apply (reg : Registry) (op : Option MetricOp) (g : Gauge) :
    (op.elim reg reg.apply).requestsInFlight g =
      reg.requestsInFlight g + op.elim 0 (MetricOp.level g) := by
  cases op with
  | none => simp
  | some op =>
      cases op with
      | inc g' | dec g' =>
          by_cases hg : g' = g
          · subst hg
            simp [Registry.apply, bump, MetricOp.level]
          · simp [Registry.apply, bump, MetricOp.level, hg, Function.update_of_ne (Ne.symm hg)]
      | count | observe | addBytes => simp [Registry.apply, MetricOp.level]

theorem requestsTotal_apply (reg : Registry) (op : Option MetricOp) (c : Counter) :
    (op.elim reg reg.apply).requestsTotal c =
      reg.requestsTotal c + op.toList.count (.count c) := by
  cases op with
  | none => simp
  | some op =>
      cases op with
      | count c' =>
          by_cases hc : c' = c
          · subst hc
            simp [Registry.apply, bump]
          · simp [Registry.apply, bump, hc, Function.update_of_ne (Ne.symm hc)]
      | inc | dec | observe | addBytes => simp [Registry.apply]

section Runs

variable {ι : Type} [DecidableEq ι] [Fintype ι] {m : Instruments} {s s' : Sys ι}
  {log : List (ι × Counter)} {i : ι} {x : Move} {phase : Phase} {op : Option MetricOp}

/-- Every gauge shows how many requests of its method are inside the metrics
layer. -/
def Balanced (s : Sys ι) : Prop :=
  ∀ g, s.metrics.requestsInFlight g =
    (Finset.univ.filter fun i => (s.threads i).within g = true).card

variable (m) in
/-- The invariant of the undisturbed runs, with what they have counted. -/
structure Books (s : Sys ι) (log : List (ι × Counter)) : Prop where
  wf : ∀ i, (s.threads i).WF m
  inFlight : ∀ g, s.metrics.requestsInFlight g = tally (Thread.owes g) s.threads
  once : ∀ i, (log.filter fun e => e.1 = i).length + (s.threads i).due = 1
  own : ∀ e ∈ log, e.2.gauge = (s.threads e.1).request.gauge
  total : ∀ c, s.metrics.requestsTotal c = (log.map Prod.snd).count c

theorem books_arrivals (requests : ι → Request) : Books m (arrivals requests) [] where
  wf := fun i => ⟨by simp [arrivals, Phase.inHandler], by simp [arrivals]⟩
  inFlight := fun g => (Finset.sum_eq_zero fun _ _ => rfl).symm
  once := fun i => rfl
  own := fun e he => nomatch he
  total := fun c => rfl

omit [Fintype ι] in
theorem step_eq_some (h : s.step m (i, x) = some s') :
    ∃ phase op, advance m (s.threads i).request (s.threads i).phase x = some (phase, op) ∧
      s' = ⟨op.elim s.metrics s.metrics.apply,
        Function.update s.threads i ⟨(s.threads i).request, phase⟩⟩ := by
  obtain ⟨⟨phase, op⟩, hadvance, rfl⟩ := Option.map_eq_some_iff.mp h
  exact ⟨phase, op, hadvance, rfl⟩

omit [DecidableEq ι] [Fintype ι] in
/-- What a step counts is the counter of its operation. -/
theorem counted_eq (h : advance m (s.threads i).request (s.threads i).phase x = some (phase, op)) :
    (∃ c, op = some (.count c) ∧ counted m s (i, x) = [(i, c)]) ∨
      op.toList.countP MetricOp.isCount = 0 ∧ counted m s (i, x) = [] := by
  simp only [counted, h]
  cases op with
  | none => exact .inr ⟨rfl, rfl⟩
  | some op =>
      cases op with
      | count c => exact .inl ⟨c, rfl, rfl⟩
      | inc | dec | observe | addBytes => exact .inr ⟨rfl, rfl⟩

omit [Fintype ι] in
theorem length_filter_counted
    (h : advance m (s.threads i).request (s.threads i).phase x = some (phase, op)) (j : ι) :
    ((counted m s (i, x)).filter fun e => e.1 = j).length =
      if i = j then op.toList.countP MetricOp.isCount else 0 := by
  rcases counted_eq h with ⟨c, rfl, hc⟩ | ⟨hzero, hc⟩
  · rw [hc]
    by_cases hij : i = j <;> simp [hij, MetricOp.isCount]
  · simp [hc, hzero]

omit [DecidableEq ι] [Fintype ι] in
theorem count_counted
    (h : advance m (s.threads i).request (s.threads i).phase x = some (phase, op)) (c : Counter) :
    ((counted m s (i, x)).map Prod.snd).count c = op.toList.count (.count c) := by
  rcases counted_eq h with ⟨c', rfl, hc⟩ | ⟨hzero, hc⟩
  · by_cases hcc : c' = c <;> simp [hc, hcc]
  · rw [hc, List.map_nil, List.count_nil, eq_comm, List.count_eq_zero]
    exact fun hmem => List.countP_eq_zero.mp hzero _ hmem rfl

theorem Books.step {x : ι × Move} (h : Books m s log)
    (hx : (s.threads x.1).undisturbed m x.2 = true) (hstep : s.step m x = some s') :
    Books m s' (log ++ counted m s x) := by
  obtain ⟨i, x⟩ := x
  obtain ⟨phase, op, hadvance, rfl⟩ := step_eq_some hstep
  have hpays := pays_of_advance (h.wf i) hx hadvance
  refine ⟨fun j => ?_, fun g => ?_, fun j => ?_, fun e he => ?_, fun c => ?_⟩
  · by_cases hj : j = i
    · subst hj
      simpa using hpays.wf
    · simpa [Function.update_of_ne hj] using h.wf j
  · have hupdate := tally_update (Thread.owes g) s.threads i ⟨(s.threads i).request, phase⟩
    have howes : Thread.owes g ⟨(s.threads i).request, phase⟩ =
        Thread.owes g (s.threads i) + op.elim 0 (MetricOp.level g) := hpays.owes g
    have hgauge := h.inFlight g
    rw [requestsInFlight_apply]
    linarith
  · have hdue : Thread.due ⟨(s.threads i).request, phase⟩ + op.toList.countP MetricOp.isCount =
        (s.threads i).due := hpays.due
    have honce := h.once j
    rw [List.filter_append, List.length_append, length_filter_counted hadvance]
    by_cases hj : i = j
    · subst hj
      simp only [Function.update_self, if_true]
      omega
    · simpa [hj, Function.update_of_ne (Ne.symm hj)] using honce
  · have hrequest : (Function.update s.threads i ⟨(s.threads i).request, phase⟩ e.1).request =
        (s.threads e.1).request := by
      by_cases hj : e.1 = i
      · rw [hj, Function.update_self]
      · rw [Function.update_of_ne hj]
    rw [hrequest]
    rcases List.mem_append.mp he with he | he
    · exact h.own e he
    · rcases counted_eq hadvance with ⟨c, hop, hc⟩ | ⟨-, hc⟩
      · rw [hc, List.mem_singleton] at he
        subst he
        exact hpays.own c hop
      · rw [hc] at he
        cases he
  · rw [requestsTotal_apply, List.map_append, List.count_append, ← h.total,
      count_counted hadvance]

theorem Books.balanced (h : Books m s log) : Balanced s := by
  intro g
  have hcard : tally (Thread.owes g) s.threads =
      ((Finset.univ.filter fun i => (s.threads i).within g = true).card : ℤ) := by
    rw [Finset.card_filter, Nat.cast_sum]
    refine Finset.sum_congr rfl fun i _ => ?_
    rw [(h.wf i).owes_eq]
    split_ifs <;> rfl
  rw [h.inFlight, hcard]

/-! ## The first disturbance -/

/-- The gauge stays and the request is gone. -/
theorem Books.not_balanced (h : Books m s log) (hstep : s.step m (i, .panicked) = some s') :
    ¬Balanced s' := by
  obtain ⟨phase, op, hadvance, rfl⟩ := step_eq_some hstep
  obtain ⟨rfl, rfl, hin⟩ : phase = .recovered ∧ op = none ∧
      (s.threads i).within (s.threads i).request.gauge = true := by
    generalize ht : s.threads i = t at hadvance
    obtain ⟨r, p⟩ := t
    cases p with
    | serving w pat =>
        cases hadvance
        exact ⟨rfl, rfl, by simp [Thread.within]⟩
    | calling =>
        cases hadvance
        exact ⟨rfl, rfl, by simp [Thread.within]⟩
    | reporting ops => cases ops <;> cases hadvance
    | arriving | finished | recovered => cases hadvance
  intro hbal
  have hbefore := h.balanced (s.threads i).request.gauge
  have hafter := hbal (s.threads i).request.gauge
  have hlt : (Finset.univ.filter fun j => ((Function.update s.threads i
      ⟨(s.threads i).request, .recovered⟩) j).within (s.threads i).request.gauge = true).card <
      (Finset.univ.filter fun j =>
        (s.threads j).within (s.threads i).request.gauge = true).card := by
    apply Finset.card_lt_card
    have hgone : i ∉ Finset.univ.filter fun j => ((Function.update s.threads i
        ⟨(s.threads i).request, .recovered⟩) j).within (s.threads i).request.gauge = true := by
      rw [Finset.mem_filter, Function.update_self]
      exact fun hmem => nomatch hmem.2
    refine (Finset.ssubset_iff_of_subset fun j hj => ?_).mpr ⟨i, by simpa using hin, hgone⟩
    have hne : j ≠ i := fun heq => hgone (heq ▸ hj)
    simpa [Function.update_of_ne hne] using hj
  simp only [Option.elim_none] at hafter
  omega

variable (m i) in
/-- From here on the request can come to its end without a count. -/
def Uncounted (s : Sys ι) : Prop :=
  ∃ ys t, run (Sys.step m) s ys = some t ∧ (t.threads i).isOver = true ∧
    collect (Sys.step m) (counted m) s ys = []

omit [Fintype ι] in
theorem Uncounted.cons (hstep : s.step m (i, x) = some s') (hcount : counted m s (i, x) = [])
    (h : Uncounted m i s') : Uncounted m i s := by
  obtain ⟨ys, t, hrun, hover, hlog⟩ := h
  refine ⟨(i, x) :: ys, t, run_cons_eq_some.mpr ⟨s', hstep, hrun⟩, hover, ?_⟩
  rw [collect_cons hstep, hcount, hlog, List.append_nil]

omit [Fintype ι] in
theorem uncounted_of_recovered (h : (s.threads i).phase = .recovered) : Uncounted m i s :=
  ⟨[], s, rfl, by simp [Thread.isOver, h], rfl⟩

omit [Fintype ι] in
/-- A lookup in front of the count panics, or one before it. -/
theorem uncounted_of_refused {o : MetricOp} (before rest : List MetricOp)
    (hphase : (s.threads i).phase = .reporting (before ++ o :: rest))
    (ho : m.withLabelValues o.series = false) (hbefore : ∀ o ∈ before, o.isCount = false) :
    Uncounted m i s := by
  induction before generalizing s with
  | nil =>
      have hadvance : advance m (s.threads i).request (s.threads i).phase .report =
          some (.recovered, none) := by
        simp [hphase, advance, Instruments.attempt, ho]
      refine .cons (x := .report) (by rw [Sys.step, hadvance]; rfl) ?_
        (uncounted_of_recovered (by simp))
      simp [counted, hadvance]
  | cons o' before ih =>
      have hcount : o'.isCount = false := hbefore o' List.mem_cons_self
      by_cases ho' : m.withLabelValues o'.series = true
      · have hadvance : advance m (s.threads i).request (s.threads i).phase .report =
            some (.reporting (before ++ o :: rest), some o') := by
          rw [hphase]
          simp only [List.cons_append, advance, Instruments.attempt, ho', if_true]
          cases before <;> rfl
        refine .cons (x := .report) (by rw [Sys.step, hadvance]; rfl) ?_
          (ih (by simp) fun o ho => hbefore o (List.mem_cons_of_mem _ ho))
        cases o' with
        | count => cases hcount
        | inc | dec | observe | addBytes => simp [counted, hadvance]
      · have hadvance : advance m (s.threads i).request (s.threads i).phase .report =
            some (.recovered, none) := by
          simp [hphase, advance, Instruments.attempt, ho']
        refine .cons (x := .report) (by rw [Sys.step, hadvance]; rfl) ?_
          (uncounted_of_recovered (by simp))
        simp [counted, hadvance]

/-- The label values that a move must not meet stop the report before its count. -/
theorem advance_of_disturbed {r : Request} {phase' : Phase}
    (hx : Thread.undisturbed m ⟨r, phase⟩ x = false) (hne : x ≠ .panicked)
    (h : advance m r phase x = some (phase', op)) :
    Thread.due ⟨r, phase⟩ = 1 ∧ op = none ∧
      (phase' = .recovered ∨ ∃ before o rest, phase' = .reporting (before ++ o :: rest) ∧
        m.withLabelValues o.series = false ∧ ∀ o ∈ before, o.isCount = false) := by
  cases x with
  | panicked => exact absurd rfl hne
  | route | writeHeader | write | report => cases hx
  | enter =>
      cases phase with
      | arriving =>
          have hrefused : m.withLabelValues (.requestsInFlight r.gauge) = false := hx
          simp only [advance, Instruments.attempt, MetricOp.series, hrefused] at h
          cases h
          exact ⟨rfl, rfl, .inl rfl⟩
      | reporting ops => cases ops <;> cases h
      | serving | calling | finished | recovered => cases h
  | served =>
      cases phase with
      | serving w p =>
          cases r with
          | http method urlPath =>
              cases h
              refine ⟨rfl, rfl, .inr ⟨[.dec (.http method)], _, _, rfl, hx, ?_⟩⟩
              simp [MetricOp.isCount]
          | unary | stream => cases h
      | reporting ops => cases ops <;> cases h
      | arriving | calling | finished | recovered => cases h
  | returned err =>
      cases phase with
      | calling =>
          cases r with
          | http => cases h
          | unary method | stream method =>
              cases h
              refine ⟨rfl, rfl, .inr ?_⟩
              rcases Bool.and_eq_false_iff.mp hx with hobserve | hcount
              · exact ⟨[.dec (.rpc method)], _, _, rfl, hobserve, by simp [MetricOp.isCount]⟩
              · exact ⟨[.dec (.rpc method), .observe (.rpc method)], _, _, rfl, hcount,
                  by simp [MetricOp.isCount]⟩
      | reporting ops => cases ops <;> cases h
      | arriving | serving | finished | recovered => cases h

/-- The request that meets the first refused label value is never counted. -/
theorem Books.uncounted (h : Books m s log) (hx : (s.threads i).undisturbed m x = false)
    (hne : x ≠ .panicked) (hstep : s.step m (i, x) = some s') :
    (log.filter fun e => e.1 = i) = [] ∧ Uncounted m i s := by
  obtain ⟨phase, op, hadvance, rfl⟩ := step_eq_some hstep
  obtain ⟨hdue, rfl, hphase⟩ := advance_of_disturbed hx hne hadvance
  change (s.threads i).due = 1 at hdue
  refine ⟨List.eq_nil_of_length_eq_zero (by have := h.once i; omega), .cons hstep ?_ ?_⟩
  · simp [counted, hadvance]
  · rcases hphase with rfl | ⟨before, o, rest, rfl, ho, hbefore⟩
    · exact uncounted_of_recovered (by simp)
    · exact uncounted_of_refused before rest (by simp) ho hbefore

end Runs

/-- In every run in which no handler panics and Prometheus takes the label values
the requests are counted with, the gauges are balanced, so they are zero when no
request is in progress, and every request that is over has been counted once,
under its own method.  After such a run any panic of a handler leaves a gauge that
is not balanced, and any label value that is refused can leave its request over
and not counted. -/
theorem in_flight_balanced {ι : Type} [DecidableEq ι] [Fintype ι] (m : Instruments)
    (requests : ι → Request) {xs : List (ι × Move)} {s : Sys ι}
    (hxs : Along (Sys.step m) (fun s x => (s.threads x.1).undisturbed m x.2 = true)
      (arrivals requests) xs)
    (h : run (Sys.step m) (arrivals requests) xs = some s) :
    Balanced s ∧
      ((∀ i, (s.threads i).phase = .arriving ∨ (s.threads i).isOver = true) →
        ∀ g, s.metrics.requestsInFlight g = 0) ∧
      (∀ i, (s.threads i).isOver = true →
        ∃ c, (collect (Sys.step m) (counted m) (arrivals requests) xs).filter (fun e => e.1 = i) =
          [(i, c)] ∧ c.gauge = (s.threads i).request.gauge) ∧
      (∀ c, s.metrics.requestsTotal c =
        ((collect (Sys.step m) (counted m) (arrivals requests) xs).map Prod.snd).count c) ∧
      (∀ i s', s.step m (i, .panicked) = some s' → ¬Balanced s') ∧
      ∀ i x s', s.step m (i, x) = some s' → x ≠ .panicked →
        (s.threads i).undisturbed m x = false →
        ∃ ys t, run (Sys.step m) s ys = some t ∧ (t.threads i).isOver = true ∧
          (collect (Sys.step m) (counted m) (arrivals requests) (xs ++ ys)).filter
            (fun e => e.1 = i) = [] := by
  have hbooks : Books m s (collect (Sys.step m) (counted m) (arrivals requests) xs) :=
    run_collect (fun _ _ _ _ hs hx hstep => hs.step hx hstep) (books_arrivals requests) hxs h
  refine ⟨hbooks.balanced, fun hidle g => ?_, fun i hover => ?_, hbooks.total,
    fun i s' hstep => hbooks.not_balanced hstep, fun i x s' hstep hne hx => ?_⟩
  · rw [hbooks.balanced g, Finset.filter_eq_empty_iff.mpr]
    · rfl
    · intro i _
      rcases hidle i with hi | hi
      · simp [Thread.within, hi]
      · unfold Thread.isOver at hi
        cases hphase : (s.threads i).phase <;> simp [hphase, Thread.within] at hi ⊢
  · have hdue : (s.threads i).due = 0 := by
      unfold Thread.isOver at hover
      cases hphase : (s.threads i).phase <;> simp [hphase, Thread.due] at hover ⊢
    have honce := hbooks.once i
    rw [hdue, add_zero] at honce
    obtain ⟨⟨j, c⟩, hlog⟩ := List.length_eq_one_iff.mp honce
    have hmem : (j, c) ∈ (collect (Sys.step m) (counted m) (arrivals requests) xs).filter
        (fun e => e.1 = i) := by
      rw [hlog]
      exact List.mem_singleton_self _
    obtain ⟨hin, hj⟩ := List.mem_filter.mp hmem
    obtain rfl : j = i := by simpa using hj
    exact ⟨c, hlog, hbooks.own _ hin⟩
  · obtain ⟨hlog, ys, t, hrun, hover, hys⟩ := hbooks.uncounted hx hne hstep
    refine ⟨ys, t, hrun, hover, ?_⟩
    rw [collect_append h, hys, List.append_nil, hlog]

/-- Three requests on known routes and one, `GET /%ff`, that matches none. -/
def fourRequests : Fin 4 → Request
  | 0 => .http (Text.bytes "GET".toList) (Text.bytes "/products/7".toList)
  | 1 => .unary (Text.bytes "/product.v1.ProductService/Get".toList)
  | 2 => .stream (Text.bytes "/product.v1.ProductService/Watch".toList)
  | 3 => .http (Text.bytes "GET".toList) [0x2f, 0xff]

/-- The first three handlers panic, and the fourth answers that there is no such
page. -/
def panickedSteps : List (Fin 4 × Move) :=
  [(0, .enter), (1, .enter), (2, .enter), (1, .panicked), (0, .panicked), (2, .panicked),
    (3, .enter), (3, .writeHeader 404), (3, .served), (3, .report), (3, .report)]

theorem panics_stay_in_flight :
    ∃ s, run (Sys.step utf8Only) (arrivals fourRequests) panickedSteps = some s ∧
      (∀ i, (s.threads i).isOver = true) ∧
      s.metrics.requestsInFlight (fourRequests 0).gauge = 1 ∧
      s.metrics.requestsInFlight (fourRequests 1).gauge = 1 ∧
      s.metrics.requestsInFlight (fourRequests 2).gauge = 1 ∧
      collect (Sys.step utf8Only) (counted utf8Only) (arrivals fourRequests) panickedSteps = [] :=
  ⟨_, rfl, by decide, by decide, by decide, by decide, by decide⟩

/-- The handlers return, one of them with an error. -/
def returnedSteps : List (Fin 4 × Move) :=
  [(0, .enter), (0, .route (Text.bytes "/products/\x7bid\x7d".toList)), (1, .enter),
    (0, .writeHeader 404), (2, .enter), (1, .returned (some 5)), (0, .served), (0, .report),
    (1, .report), (0, .report), (1, .report), (1, .report), (0, .report), (0, .report)]

theorem returned_balanced :
    ∃ s, run (Sys.step utf8Only) (arrivals fourRequests) returnedSteps = some s ∧ Balanced s ∧
      s.metrics.requestsInFlight (fourRequests 2).gauge = 1 ∧
      s.metrics.requestsTotal (.http (Text.bytes "GET".toList)
        (Text.bytes "/products/\x7bid\x7d".toList) 404) = 1 :=
  have hreturn : Along (Sys.step utf8Only)
      (fun s x => (s.threads x.1).undisturbed utf8Only x.2 = true) (arrivals fourRequests)
      returnedSteps := by decide
  ⟨_, rfl, (in_flight_balanced utf8Only fourRequests hreturn rfl).1, by decide, by decide⟩

end Gkit.Metrics
