import Gkit.Lib.Runs
import Gkit.Lib.Tallies
import Gkit.Lib.Texts

/-!
# Request metrics

HTTP requests through `Recovery(HTTPMetrics.Middleware(h))` and gRPC calls
through `Recovery(RPCMetrics.UnaryInterceptor(h))` or the stream pair, any
number of them at a time.  Every operation on a Prometheus instrument is one
step.  What the handlers do in between is up to the environment, up to their use
of the response writer and the pattern that the router sets.

Which label values an instrument takes is a parameter: for the others
`WithLabelValues` panics.  Such a panic unwinds to `Recovery`, as one of a handler
does; `Recovery` answers with 500 or `Internal` and does not touch the metrics.
Methods and paths are bytes, since a client may send any (`GET /%ff`).

The text of a status or a code as a label value stands for the number.  Of a
histogram only the number of observations is kept.
-/

namespace Gkit.Metrics

open Gkit.Lib

inductive Request where
  | http (method urlPath : Bytes)
  | unary (fullMethod : Bytes)
  | stream (fullMethod : Bytes)
  deriving DecidableEq, Repr

/-! ## Instruments -/

/-- `http_requests_in_flight` and `grpc_server_requests_in_flight`. -/
inductive Gauge where
  | http (method : Bytes)
  | rpc (method : Bytes)
  deriving DecidableEq, Repr

/-- `http_requests_total` and `grpc_server_requests_total`. -/
inductive Counter where
  | http (method path : Bytes) (status : ℤ)
  | rpc (method : Bytes) (code : ℕ)
  deriving DecidableEq, Repr

/-- `http_request_duration_seconds` and `grpc_server_request_duration_seconds`. -/
inductive Histogram where
  | http (method path : Bytes)
  | rpc (method : Bytes)
  deriving DecidableEq, Repr

def Request.gauge : Request → Gauge
  | .http method _ => .http method
  | .unary fullMethod => .rpc fullMethod
  | .stream fullMethod => .rpc fullMethod

/-- The gauge of the same method. -/
def Counter.gauge : Counter → Gauge
  | .http method _ _ => .http method
  | .rpc method _ => .rpc method

inductive MetricOp where
  | inc (g : Gauge)
  | dec (g : Gauge)
  | count (c : Counter)
  | observe (h : Histogram)
  | addBytes (method : Bytes) (n : ℕ)
  deriving DecidableEq, Repr

/-- An instrument with values for its labels. -/
inductive Series where
  | requestsInFlight (g : Gauge)
  | requestsTotal (c : Counter)
  | requestDuration (h : Histogram)
  | responseBytes (method : Bytes)
  deriving DecidableEq, Repr

def MetricOp.series : MetricOp → Series
  | .inc g => .requestsInFlight g
  | .dec g => .requestsInFlight g
  | .count c => .requestsTotal c
  | .observe h => .requestDuration h
  | .addBytes method _ => .responseBytes method

/-- The instruments of Prometheus, as far as they are looked up. -/
structure Instruments where
  /-- `WithLabelValues` returns the metric; otherwise it panics. -/
  withLabelValues : Series → Bool

def Series.labels : Series → List Bytes
  | .requestsInFlight (.http method) => [method]
  | .requestsInFlight (.rpc method) => [method]
  | .requestsTotal (.http method path _) => [method, path]
  | .requestsTotal (.rpc method _) => [method]
  | .requestDuration (.http method path) => [method, path]
  | .requestDuration (.rpc method) => [method]
  | .responseBytes method => [method]

/-- The check of the Prometheus client: all label values are valid UTF-8. -/
def utf8Only : Instruments :=
  ⟨fun x => x.labels.all fun value => (ByteArray.mk value.toArray).validateUTF8⟩

structure Registry where
  requestsInFlight : Gauge → ℤ
  requestsTotal : Counter → ℕ
  requestDuration : Histogram → ℕ
  responseBytes : Bytes → ℕ

def newMetrics : Registry := ⟨fun _ => 0, fun _ => 0, fun _ => 0, fun _ => 0⟩

/-- One label value of an instrument changes. -/
def bump {κ : Type} [DecidableEq κ] {α : Type} [Add α] (f : κ → α) (k : κ) (n : α) : κ → α :=
  Function.update f k (f k + n)

/-- An operation on the metric that has been found. -/
def Registry.apply (r : Registry) : MetricOp → Registry
  | .inc g => { r with requestsInFlight := bump r.requestsInFlight g 1 }
  | .dec g => { r with requestsInFlight := bump r.requestsInFlight g (-1) }
  | .count c => { r with requestsTotal := bump r.requestsTotal c 1 }
  | .observe h => { r with requestDuration := bump r.requestDuration h 1 }
  | .addBytes method n => { r with responseBytes := bump r.responseBytes method n }

/-! ## The wrappers -/

/-- The `responseWriter` around the one of the server. -/
structure ResponseWriter where
  status : ℤ
  wroteHeader : Bool
  bytes : ℕ
  deriving DecidableEq, Repr

def wrapResponseWriter : ResponseWriter := ⟨200, false, 0⟩

def ResponseWriter.writeHeader (rw : ResponseWriter) (code : ℤ) : ResponseWriter :=
  if rw.wroteHeader then rw else { rw with status := code, wroteHeader := true }

/-- A write of which the underlying writer takes `n` bytes. -/
def ResponseWriter.write (rw : ResponseWriter) (n : ℕ) : ResponseWriter :=
  { rw with bytes := rw.bytes + n }

/-- The matched pattern if there is one. -/
def labelPath (urlPath pattern : Bytes) : Bytes := if pattern = [] then urlPath else pattern

/-- What `HTTPMetrics.Middleware` does after the handler has returned. -/
def httpMiddleware (method urlPath : Bytes) (wrapped : ResponseWriter) (pattern : Bytes) :
    List MetricOp :=
  let path := labelPath urlPath pattern
  [.dec (.http method), .count (.http method path wrapped.status), .observe (.http method path),
    .addBytes method wrapped.bytes]

/-- What the interceptors of `RPCMetrics` do after the handler has returned; of an
error its `status.Code` is given. -/
def rpcInterceptor (method : Bytes) (err : Option ℕ) : List MetricOp :=
  let code := err.getD 0
  [.dec (.rpc method), .observe (.rpc method), .count (.rpc method code)]

def unaryInterceptor : Bytes → Option ℕ → List MetricOp := rpcInterceptor

def streamInterceptor : Bytes → Option ℕ → List MetricOp := rpcInterceptor

/-! ## Goroutines -/

inductive Phase where
  | arriving
  /-- In an HTTP handler. -/
  | serving (wrapped : ResponseWriter) (pattern : Bytes)
  /-- In a gRPC handler. -/
  | calling
  /-- Past the handler, with these operations ahead. -/
  | reporting (ops : List MetricOp)
  | finished
  /-- Past the deferred function of `Recovery`, after a panic. -/
  | recovered
  deriving DecidableEq, Repr

structure Thread where
  request : Request
  phase : Phase
  deriving DecidableEq, Repr

inductive Move where
  | enter
  | route (pattern : Bytes)
  | writeHeader (code : ℤ)
  | write (n : ℕ)
  | served
  | returned (err : Option ℕ)
  | panicked
  | report
  deriving DecidableEq, Repr

/-- The handler starts. -/
def Request.handler : Request → Phase
  | .http _ _ => .serving wrapResponseWriter []
  | .unary _ => .calling
  | .stream _ => .calling

/-- The metrics layer returns after its last operation. -/
def Phase.ahead : List MetricOp → Phase
  | [] => .finished
  | op :: ops => .reporting (op :: ops)

/-- An operation `WithLabelValues(...).Inc()` and its like, with the phase behind it. -/
def Instruments.attempt (m : Instruments) (op : MetricOp) (next : Phase) :
    Phase × Option MetricOp :=
  if m.withLabelValues op.series then (next, some op) else (.recovered, none)

/-- The next phase of a goroutine, and its operation on the metrics if it has
one. -/
def advance (m : Instruments) (r : Request) : Phase → Move → Option (Phase × Option MetricOp)
  | .arriving, .enter => some (m.attempt (.inc r.gauge) r.handler)
  | .serving wrapped _, .route pattern => some (.serving wrapped pattern, none)
  | .serving wrapped pattern, .writeHeader code =>
      some (.serving (wrapped.writeHeader code) pattern, none)
  | .serving wrapped pattern, .write n => some (.serving (wrapped.write n) pattern, none)
  | .serving wrapped pattern, .served =>
      match r with
      | .http method urlPath =>
          some (.reporting (httpMiddleware method urlPath wrapped pattern), none)
      | _ => none
  | .calling, .returned err =>
      match r with
      | .unary fullMethod => some (.reporting (unaryInterceptor fullMethod err), none)
      | .stream fullMethod => some (.reporting (streamInterceptor fullMethod err), none)
      | _ => none
  | .serving .., .panicked => some (.recovered, none)
  | .calling, .panicked => some (.recovered, none)
  | .reporting (op :: ops), .report => some (m.attempt op (.ahead ops))
  | _, _ => none

structure Sys (ι : Type) where
  metrics : Registry
  threads : ι → Thread

variable {ι : Type} [DecidableEq ι] (m : Instruments)

def Sys.step (s : Sys ι) : ι × Move → Option (Sys ι)
  | (i, x) =>
      (advance m (s.threads i).request (s.threads i).phase x).map fun next =>
        ⟨next.2.elim s.metrics s.metrics.apply,
          Function.update s.threads i ⟨(s.threads i).request, next.1⟩⟩

/-- The requests before the first of them has come in. -/
def arrivals (requests : ι → Request) : Sys ι := ⟨newMetrics, fun i => ⟨requests i, .arriving⟩⟩

/-- The requests that a step counts, with the counter. -/
def counted (s : Sys ι) : ι × Move → List (ι × Counter)
  | (i, x) =>
      match advance m (s.threads i).request (s.threads i).phase x with
      | some (_, some (.count c)) => [(i, c)]
      | _ => []

end Gkit.Metrics
