import Gkit.Metrics.Model

/-!
# The status of a response

The wrapper that `Logging` and `HTTPMetrics.Middleware` put around the server's
response writer records the first code a handler writes and lets only that one
through.  For the server it is the first final code or the first `Write` that fixes
the status.  The two agree as long as the first code is final and comes first.

The codes are those from 100 to 999.  For any other the server panics, when the
wrapper has recorded it already; such calls are left out.
-/

namespace Gkit.Metrics

/-- The codes that `WriteHeader` of the server takes. -/
abbrev StatusCode := { code : ℤ // 100 ≤ code ∧ code ≤ 999 }

def statusOK : StatusCode := ⟨200, by decide⟩

def statusInternalServerError : StatusCode := ⟨500, by decide⟩

/-- The codes that may precede the final one; 101 is final. -/
def informational (code : StatusCode) : Bool := code.1 ≤ 199 ∧ code.1 ≠ 101

def bodyAllowedForStatus (code : StatusCode) : Bool :=
  200 ≤ code.1 ∧ code.1 ≠ 204 ∧ code.1 ≠ 304

/-! ## The server -/

structure Server where
  /-- The final status, once it is fixed. -/
  final : Option StatusCode
  bytes : ℕ
  deriving DecidableEq

namespace Server

def writeHeader (s : Server) (code : StatusCode) : Server :=
  if s.final.isSome ∨ informational code then s else { s with final := some code }

/-- A `Write` of `len` bytes to a connection that takes `room` of them. -/
def write (s : Server) (len room : ℕ) : Server × ℕ :=
  let code := s.final.getD statusOK
  let n := if bodyAllowedForStatus code then min len room else 0
  (⟨some code, s.bytes + n⟩, n)

/-- The status the client has received when the handler is over. -/
def sent (s : Server) : StatusCode := s.final.getD statusOK

end Server

inductive Call where
  | writeHeader (code : StatusCode)
  | write (len room : ℕ)
  deriving DecidableEq

def Server.call (s : Server) : Call → Server
  | .writeHeader code => s.writeHeader code
  | .write len room => (s.write len room).1

/-! ## The wrapper around it -/

structure Wrapped where
  rw : ResponseWriter
  server : Server
  deriving DecidableEq

def Wrapped.call (w : Wrapped) : Call → Wrapped
  | .writeHeader code =>
      ⟨w.rw.writeHeader code.1,
        if w.rw.wroteHeader then w.server else w.server.writeHeader code⟩
  | .write len room =>
      let (server, n) := w.server.write len room
      ⟨w.rw.write n, server⟩

def plain (calls : List Call) : Server := calls.foldl Server.call ⟨none, 0⟩

def wrapped (calls : List Call) : Wrapped :=
  calls.foldl Wrapped.call ⟨wrapResponseWriter, ⟨none, 0⟩⟩

/-- `http.Error` in the deferred function of `Recovery`. -/
def recoveryCalls (room : ℕ) : List Call :=
  [.writeHeader statusInternalServerError, .write "Internal Server Error\n".length room]

/-- The client receives what it would receive without the wrapper, which has recorded it and has
counted the bytes. -/
def Agree (w : Wrapped) (s : Server) : Prop :=
  w.server.sent = s.sent ∧ w.rw.status = w.server.sent.1 ∧ w.rw.bytes = w.server.bytes

/-- The first code is final and comes before the body, or is 200 and comes behind its start. -/
def Timely (body : Bool) : List Call → Prop
  | [] => True
  | .write .. :: rest => Timely true rest
  | .writeHeader code :: _ => if body then code = statusOK else informational code = false

/-! ## What a call keeps -/

theorem Server.final_call {s : Server} {code : StatusCode} (h : s.final = some code) (x : Call) :
    (s.call x).final = some code := by
  cases x <;> simp [call, writeHeader, write, h]

theorem Wrapped.final_call {w : Wrapped} {code : StatusCode} (h : w.server.final = some code)
    (x : Call) : (w.call x).server.final = some code := by
  cases x with
  | write len room => simp [call, Server.write, h]
  | writeHeader c => by_cases hw : w.rw.wroteHeader <;> simp [call, hw, Server.writeHeader, h]

theorem Wrapped.bytes_call {w : Wrapped} (h : w.rw.bytes = w.server.bytes) (x : Call) :
    (w.call x).rw.bytes = (w.call x).server.bytes := by
  cases x with
  | write len room => simp [call, Server.write, ResponseWriter.write, h]
  | writeHeader c =>
      by_cases hw : w.rw.wroteHeader
      · simp [call, hw, ResponseWriter.writeHeader, h]
      · by_cases hc : w.server.final.isSome ∨ informational c <;>
          simp [call, hw, ResponseWriter.writeHeader, Server.writeHeader, hc, h]

/-- Behind the first code the wrapper records no other and lets none through. -/
structure Wrapped.Settled (code : StatusCode) (w : Wrapped) : Prop where
  wrote : w.rw.wroteHeader = true
  status : w.rw.status = code.1

theorem Wrapped.Settled.call {w : Wrapped} {code : StatusCode} (h : w.Settled code) (x : Call) :
    (w.call x).Settled code := by
  cases x with
  | write len room => exact ⟨h.wrote, h.status⟩
  | writeHeader c =>
      exact ⟨by simp [Wrapped.call, ResponseWriter.writeHeader, h.wrote],
        by simp [Wrapped.call, ResponseWriter.writeHeader, h.wrote, h.status]⟩

theorem Wrapped.Settled.foldl {w : Wrapped} {code : StatusCode} (h : w.Settled code)
    (calls : List Call) : (calls.foldl Wrapped.call w).Settled code :=
  List.foldlRecOn calls _ h fun _ hw x _ => hw.call x

theorem Wrapped.Settled.sent_foldl {w : Wrapped} {code : StatusCode} (h : w.Settled code)
    (hsent : w.server.sent = statusOK) (calls : List Call) :
    (calls.foldl Wrapped.call w).server.sent = statusOK := by
  refine (List.foldlRecOn
    (motive := fun w : Wrapped => w.Settled code ∧ w.server.sent = statusOK) calls _
    ⟨h, hsent⟩ fun w hw x _ => ⟨hw.1.call x, ?_⟩).2
  cases x with
  | write len room => simpa [Wrapped.call, Server.write, Server.sent] using hw.2
  | writeHeader c => simpa [Wrapped.call, hw.1.wrote] using hw.2

theorem Wrapped.bytes_foldl {w : Wrapped} (h : w.rw.bytes = w.server.bytes)
    (calls : List Call) :
    (calls.foldl Wrapped.call w).rw.bytes = (calls.foldl Wrapped.call w).server.bytes :=
  List.foldlRecOn (motive := fun w : Wrapped => w.rw.bytes = w.server.bytes) calls _ h
    fun _ hw x _ => Wrapped.bytes_call hw x

/-! ## The theorem -/

/-- The wrapper before the first code, with or without a body on its way. -/
structure Fresh (body : Bool) (w : Wrapped) (s : Server) : Prop where
  wrote : w.rw.wroteHeader = false
  status : w.rw.status = 200
  bytes : w.rw.bytes = w.server.bytes
  final : w.server.final = if body then some statusOK else none
  same : s.final = w.server.final

theorem Fresh.write {body : Bool} {w : Wrapped} {s : Server} (h : Fresh body w s)
    (len room : ℕ) : Fresh true (w.call (.write len room)) (s.call (.write len room)) where
  wrote := h.wrote
  status := h.status
  bytes := Wrapped.bytes_call h.bytes _
  final := by cases body <;> simp [Wrapped.call, Server.write, h.final]
  same := by simp [Wrapped.call, Server.call, Server.write, h.same]

theorem Fresh.settled {body : Bool} {w : Wrapped} {s : Server} (h : Fresh body w s)
    (code : StatusCode) : (w.call (.writeHeader code)).Settled code :=
  ⟨by simp [Wrapped.call, ResponseWriter.writeHeader, h.wrote],
    by simp [Wrapped.call, ResponseWriter.writeHeader, h.wrote]⟩

/-- Both sides have the same final status from here on. -/
theorem agree_iff_of_final {w : Wrapped} {s : Server} {code final : StatusCode}
    (hw : w.Settled code) (hbytes : w.rw.bytes = w.server.bytes)
    (hfinal : w.server.final = some final) (hs : s.final = some final) (calls : List Call) :
    Agree (calls.foldl Wrapped.call w) (calls.foldl Server.call s) ↔ code = final := by
  have hwf : (calls.foldl Wrapped.call w).server.final = some final :=
    List.foldlRecOn (motive := fun w : Wrapped => w.server.final = some final) calls _ hfinal
      fun _ h x _ => Wrapped.final_call h x
  have hsf : (calls.foldl Server.call s).final = some final :=
    List.foldlRecOn (motive := fun s : Server => s.final = some final) calls _ hs
      fun _ h x _ => Server.final_call h x
  simp only [Agree, Server.sent, hwf, hsf, Option.getD_some, (hw.foldl calls).status,
    Wrapped.bytes_foldl hbytes calls, and_true, true_and, Subtype.val_inj]

theorem Fresh.agree_iff {body : Bool} {w : Wrapped} {s : Server} (h : Fresh body w s)
    (calls : List Call) :
    Agree (calls.foldl Wrapped.call w) (calls.foldl Server.call s) ↔ Timely body calls := by
  induction calls generalizing body w s with
  | nil =>
      refine iff_of_true ⟨?_, ?_, h.bytes⟩ trivial
      · simp [Server.sent, h.same]
      · cases body <;> simp [Server.sent, h.final, h.status, statusOK]
  | cons x calls ih =>
      cases x with
      | write len room => exact ih (h.write len room)
      | writeHeader code =>
          have hsettled := h.settled code
          have hbytes := Wrapped.bytes_call h.bytes (.writeHeader code)
          cases body with
          | true =>
              have hfinal := Wrapped.final_call h.final (.writeHeader code)
              have hs := Server.final_call (h.same.trans h.final) (.writeHeader code)
              simpa [Timely] using agree_iff_of_final hsettled hbytes hfinal hs calls
          | false =>
              cases hinfo : informational code with
              | false =>
                  have hfinal : (w.call (.writeHeader code)).server.final = some code := by
                    simp [Wrapped.call, h.wrote, Server.writeHeader, h.final, hinfo]
                  have hs : (s.call (.writeHeader code)).final = some code := by
                    simp [Server.call, Server.writeHeader, h.same, h.final, hinfo]
                  have := agree_iff_of_final hsettled hbytes hfinal hs calls
                  simpa [Timely, hinfo] using this
              | true =>
                  -- the code is recorded, and the client gets 200
                  refine iff_of_false (fun hagree => ?_) (by simp [Timely, hinfo])
                  have hsent : (w.call (.writeHeader code)).server.sent = statusOK := by
                    simp [Wrapped.call, h.wrote, Server.writeHeader, h.final, hinfo, Server.sent]
                  have hstatus := hagree.2.1
                  rw [List.foldl_cons, hsettled.sent_foldl hsent, (hsettled.foldl calls).status]
                    at hstatus
                  simp [informational, hstatus, statusOK] at hinfo

/-- Whatever a handler writes, and `Recovery` behind it, the status that is recorded is the one
that is sent, and the one that would be sent without the wrapper, exactly if the first code
comes in time. -/
theorem recorded_status_iff (calls : List Call) :
    Agree (wrapped calls) (plain calls) ↔ Timely false calls :=
  Fresh.agree_iff ⟨rfl, rfl, rfl, rfl, rfl⟩ calls

/-- A handler that panics with a part of the body written: the client has got 200, and 500 is
recorded.  With early hints in front, the 404 is lost. -/
theorem late_codes_recorded :
    (wrapped (.write 5 5 :: recoveryCalls 100)).rw.status = 500 ∧
      (wrapped (.write 5 5 :: recoveryCalls 100)).server.sent = statusOK ∧
      (wrapped [.writeHeader ⟨103, by decide⟩, .writeHeader ⟨404, by decide⟩]).rw.status = 103 ∧
      (wrapped [.writeHeader ⟨103, by decide⟩, .writeHeader ⟨404, by decide⟩]).server.sent =
        statusOK ∧
      (plain [.writeHeader ⟨103, by decide⟩, .writeHeader ⟨404, by decide⟩]).sent.1 = 404 := by
  decide

end Gkit.Metrics
