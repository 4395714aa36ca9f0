import Modeld.Daemon.Model1
import Modeld.Host.Delimited

/-!
# The connection loop

`handle_varlink_client` collects what it reads from a client in a buffer, and answers the messages in
it that are complete. It is a program over the calls that it makes on the connection; what its
`select!` comes up with is given from outside, one event a turn.
-/

namespace Modeld

open Host

/-- The library that reads calls and writes replies. -/
structure WireLibrary where
  /-- `serde_json::from_slice` for a call, with the text of an error. -/
  callFromSlice : Bytes → Except String VarlinkCall
  /-- The text of a floating-point number. -/
  floatText : UInt64 → String
  floatText_nulFree : Json.NulFree floatText

/-- Maximum bytes accepted on a single client connection before it is dropped. -/
def MAX_MSG_BYTES : Nat := 1024 * 1024

/-- The size of `read_chunk`. -/
def READ_CHUNK_BYTES : Nat := 1024

/-- What one read takes from the stream. The end of the stream is read as no bytes. -/
structure Chunk where
  bytes : Bytes
  fits : bytes.length ≤ READ_CHUNK_BYTES

/-- What `select!` comes up with. -/
inductive Selected
  | changed (shutdown : Bool)
  | read (result : Except IoError Chunk)

/-- What the loop does on a connection. -/
inductive ConnCall
  | dispatch (call : VarlinkCall)
  | writeAll (bytes : Bytes)
  | flush

/-- What it is answered. -/
def ConnReply : ConnCall → Type
  | .dispatch _ => VarlinkReply
  | .writeAll _ | .flush => Except IoError Unit

/-- A program over a connection. -/
abbrev Conn := Program ConnReply

/-- `dispatch_call`. -/
def Conn.dispatch (call : VarlinkCall) : Conn VarlinkReply := Program.perform (ConnCall.dispatch call)

/-- `write_all`. -/
def Conn.writeAll (bytes : Bytes) : Conn (Except IoError Unit) := Program.perform (ConnCall.writeAll bytes)

/-- `flush`. -/
def Conn.flush : Conn (Except IoError Unit) := Program.perform ConnCall.flush

section Run

variable {σ α : Type} {exec : (o : ConnCall) → σ → ConnReply o × σ} {s : σ}

theorem Conn.run_dispatch (call : VarlinkCall) (f : VarlinkReply → Conn α) :
    (Conn.dispatch call >>= f).run exec s =
      (f (exec (.dispatch call) s).1).run exec (exec (.dispatch call) s).2 := rfl

theorem Conn.calls_dispatch (call : VarlinkCall) (f : VarlinkReply → Conn α) :
    (Conn.dispatch call >>= f).calls exec s = (.dispatch call, s) ::
      (f (exec (.dispatch call) s).1).calls exec (exec (.dispatch call) s).2 := rfl

theorem Conn.run_writeAll (bytes : Bytes) (f : Except IoError Unit → Conn α) :
    (Conn.writeAll bytes >>= f).run exec s =
      (f (exec (.writeAll bytes) s).1).run exec (exec (.writeAll bytes) s).2 := rfl

theorem Conn.calls_writeAll (bytes : Bytes) (f : Except IoError Unit → Conn α) :
    (Conn.writeAll bytes >>= f).calls exec s = (.writeAll bytes, s) ::
      (f (exec (.writeAll bytes) s).1).calls exec (exec (.writeAll bytes) s).2 := rfl

end Run

/-- The reply to a message that is not a call. -/
def invalidCall (reason : String) : VarlinkReply :=
  .err "org.varlink.service.InvalidParameter" (some (.object [("reason", .str reason)]))

/-- The reply to a client that exceeds the limit. -/
def protocolError : VarlinkReply :=
  .err "org.varlink.service.ProtocolError" (some (.object [
    ("reason", .str ("message exceeded " ++ toString MAX_MSG_BYTES ++ " bytes"))]))

/-- The first complete message of a buffer with its terminator, and what is left once it is
drained. -/
def drainMessage (buffer : Bytes) : Option (Bytes × Bytes) :=
  match buffer.findIdx? (· == 0x00) with
  | none => none
  | some nulPos => some (buffer.take (nulPos + 1), buffer.drop (nulPos + 1))

/-- Draining takes something away. -/
theorem length_lt_of_drainMessage {buffer message left : Bytes}
    (h : drainMessage buffer = some (message, left)) : left.length < buffer.length := by
  unfold drainMessage at h
  split at h
  · cases h
  · rename_i n hn
    obtain ⟨hlt, -⟩ := List.findIdx?_eq_some_iff_getElem.1 hn
    cases h
    rw [List.length_drop]
    omega

section Loop

variable (wire : WireLibrary)

/-- What is done with one message. -/
def handleMessage (payload : Bytes) : Conn (Except IoError Unit) :=
  match wire.callFromSlice payload with
  | .error e => Conn.writeAll ((invalidCall e).toBytes wire.floatText)
  | .ok call => do
    let reply ← Conn.dispatch call
    match ← Conn.writeAll (reply.toBytes wire.floatText) with
    | .error e => return .error e
    | .ok () => Conn.flush

/-- Process all complete NUL-delimited messages. What is left of the buffer is returned. -/
def processMessages (buffer : Bytes) : Conn (Except IoError Bytes) :=
  match _hdrain : drainMessage buffer with
  | none => return .ok buffer
  | some (message, left) => do
    match ← handleMessage wire message.dropLast with
    | .error e => return .error e
    | .ok () => processMessages left
termination_by buffer.length
decreasing_by exact length_lt_of_drainMessage _hdrain

/-- How the loop stands: it waits with a buffer, or it returned for one of these reasons. -/
inductive Outcome
  | waiting (buffer : Bytes)
  | shutDown
  | endOfStream
  | exceeded
  | failed (e : IoError)

/-- What `handle_varlink_client` returns, if it does. -/
def Outcome.result : Outcome → Option (Except IoError Unit)
  | waiting _ => none
  | shutDown | endOfStream | exceeded => some (.ok ())
  | failed e => some (.error e)

/-- The loop of `handle_varlink_client`, from a buffer on, as long as there are events. -/
def clientLoop : List Selected → Bytes → Conn Outcome
  | [], buffer => return .waiting buffer
  | .changed true :: _, _ => return .shutDown
  | .changed false :: events, buffer => clientLoop events buffer
  | .read (.error e) :: _, _ => return .failed e
  | .read (.ok chunk) :: events, buffer =>
    if chunk.bytes = [] then return .endOfStream
    else if MAX_MSG_BYTES < (buffer ++ chunk.bytes).length then do
      let _ ← Conn.writeAll (protocolError.toBytes wire.floatText)
      let _ ← Conn.flush
      return .exceeded
    else do
      match ← processMessages wire (buffer ++ chunk.bytes) with
      | .error e => return .failed e
      | .ok left => clientLoop events left

/-- `handle_varlink_client`. -/
def handleVarlinkClient (events : List Selected) : Conn Outcome := clientLoop wire events []

end Loop

/-! ### Messages are frames -/

variable {wire : WireLibrary} {buffer f t : Bytes}

theorem drainMessage_of_not_mem (h : 0 ∉ buffer) : drainMessage buffer = none := by
  have hnone : buffer.findIdx? (· == 0x00) = none := by
    rw [List.findIdx?_eq_none_iff]
    intro x hx
    simp only [beq_eq_false_iff_ne]
    rintro rfl
    exact h hx
  rw [drainMessage, hnone]

theorem drainMessage_cons (h : 0 ∉ f) :
    drainMessage (f ++ 0 :: t) = some (Delimited.close 0 f, t) := by
  have hsome : (f ++ 0 :: t).findIdx? (· == 0x00) = some f.length := by
    rw [List.findIdx?_eq_some_iff_getElem]
    refine ⟨by simp, by simp, fun j hj => ?_⟩
    rw [List.getElem_append_left hj]
    simp only [beq_iff_eq]
    intro hzero
    exact h (hzero ▸ List.getElem_mem hj)
  rw [drainMessage, hsome]
  have htake : f.take (f.length + 1) = f := List.take_of_length_le (Nat.le_succ _)
  simp [Delimited.close, List.take_append, List.drop_append, htake]

/-- What is done with frames, one after the other. -/
def handleFrames (wire : WireLibrary) : List Bytes → Conn (Except IoError Unit)
  | [] => return .ok ()
  | payload :: rest => do
    match ← handleMessage wire payload with
    | .error e => return .error e
    | .ok () => handleFrames wire rest

/-- The messages in a buffer are its frames. -/
theorem processMessages_eq (buffer : Bytes) : processMessages wire buffer = (do
    match ← handleFrames wire (Delimited.frames 0 buffer) with
    | .error e => return .error e
    | .ok () => return .ok (Delimited.rest 0 buffer)) := by
  induction buffer using Delimited.induct (z := (0 : UInt8)) with
  | tail buffer h =>
    rw [processMessages]
    split
    · rw [Delimited.frames_of_not_mem h, Delimited.rest_of_not_mem h]
      rfl
    · rename_i hdrain
      rw [drainMessage_of_not_mem h] at hdrain
      cases hdrain
  | frame f t h ih =>
    rw [processMessages]
    split
    · rename_i hdrain
      rw [drainMessage_cons h] at hdrain
      cases hdrain
    · rename_i hdrain
      rw [drainMessage_cons h] at hdrain
      cases hdrain
      rw [Delimited.frames_cons h, Delimited.rest_cons, handleFrames, Program.bind_assoc_eq, ih]
      rw [show (Delimited.close 0 f).dropLast = f from List.dropLast_concat]
      refine congrArg _ (funext fun r => ?_)
      cases r <;> rfl

/-- Events one after the other. -/
theorem clientLoop_append (events events' : List Selected) (buffer : Bytes) :
    clientLoop wire (events ++ events') buffer = (do
      match ← clientLoop wire events buffer with
      | .waiting buffer => clientLoop wire events' buffer
      | outcome => return outcome) := by
  induction events generalizing buffer with
  | nil => rfl
  | cons event events ih =>
    rcases event with shutdown | result
    · cases shutdown
      · exact ih buffer
      · rfl
    · rcases result with e | chunk
      · rfl
      · rw [List.cons_append, clientLoop, clientLoop]
        split
        · rfl
        split
        · rfl
        · rw [Program.bind_assoc_eq]
          refine congrArg _ (funext fun r => ?_)
          cases r with
          | error e => rfl
          | ok left => exact ih left

end Modeld
