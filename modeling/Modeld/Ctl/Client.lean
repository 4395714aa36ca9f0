import Modeld.Daemon.MessageCap

/-!
# The client's end of a call

`VarlinkClient::call` writes one call to the socket and reads its reply byte by byte, up to the
terminator. It is a program over the calls that it makes on the socket.
-/

namespace Modeld

open Host Program

/-- Maximum reply size accepted from the Varlink server. -/
def MAX_REPLY_BYTES : Nat := 1024 * 1024

/-- What the client does on its socket. A read asks for one byte. -/
inductive SocketCall
  | writeAll (bytes : Bytes)
  | flush
  | read

/-- What it is answered. The end of the stream is read as no byte. -/
def SocketReply : SocketCall → Type
  | .writeAll _ | .flush => Except IoError Unit
  | .read => Except IoError (Option UInt8)

/-- A program over a socket. -/
abbrev Client := Program SocketReply

/-- The call as it is written. -/
def callPayload (method : String) (parameters : Option Json) : Json :=
  .object [("method", .str method), ("parameters", parameters.getD .null)]

/-- The text of a call. -/
def callText (wire : WireLibrary) (method : String) (parameters : Option Json) : Bytes :=
  Text.toBytes ((callPayload method parameters).text wire.floatText)

/-- The text of the error for a reply that is too long. -/
def replyExceeded : String := "Varlink reply exceeded " ++ toString MAX_REPLY_BYTES ++ " bytes"

/-- The loop that reads a reply, where `replyBuf` has been read. -/
def readReply (replyBuf : Bytes) : Client (Except String Bytes) := do
  match ← Program.perform SocketCall.read with
  | .error e => return .error e.text
  | .ok none => return .error "Unexpected EOF reading Varlink reply"
  | .ok (some byte) =>
    if byte = 0x00 then return .ok replyBuf
    else if _hfull : MAX_REPLY_BYTES ≤ replyBuf.length then return .error replyExceeded
    else readReply (replyBuf ++ [byte])
termination_by MAX_REPLY_BYTES - replyBuf.length
decreasing_by
  rw [List.length_append, List.length_singleton]
  omega

/-- What a reply says. -/
def replyResult (reply : Json) : Except String Json :=
  match (reply.get "error").bind Json.asStr with
  | some err => .error ("Varlink error: " ++ err)
  | none => .ok ((reply.get "parameters").getD .null)

/-- `VarlinkClient::call`. -/
def clientCall (wire : WireLibrary) (json : JsonLibrary) (method : String)
    (parameters : Option Json) : Client (Except String Json) := do
  match ← Program.perform (SocketCall.writeAll (callText wire method parameters ++ [0x00])) with
  | .error e => return .error e.text
  | .ok () =>
    match ← Program.perform SocketCall.flush with
    | .error e => return .error e.text
    | .ok () =>
      match ← readReply [] with
      | .error e => return .error e
      | .ok replyBuf =>
        match json.fromSlice replyBuf with
        | .error e => return .error e
        | .ok reply => return replyResult reply

/-! ### The daemon at the other end -/

/-- The two ends of a connection: the daemon's state, and what the client has not read yet. -/
structure Connection where
  state : Fs
  incoming : Bytes

/-- A daemon that answers what is sent. Its reads cut that up in some way. -/
def answering (wire : WireLibrary) (json : JsonLibrary) (ctx : ModelServiceContext)
    (cut : (sent : Bytes) → Splitting sent) :
    (o : SocketCall) → Connection → SocketReply o × Connection
  | .writeAll sent, c =>
    let service : Service := ⟨wire, json, ctx, c.state⟩
    (.ok (), ⟨((service.loop (cut sent)).run (serveAlone json ctx) c.state).2,
      c.incoming ++ (service.replies (cut sent)).flatten⟩)
  | .flush, c => (.ok (), c)
  | .read, ⟨state, []⟩ => (.ok none, ⟨state, []⟩)
  | .read, ⟨state, byte :: rest⟩ => (.ok (some byte), ⟨state, rest⟩)

variable {wire : WireLibrary} {json : JsonLibrary} {ctx : ModelServiceContext}
  {cut : (sent : Bytes) → Splitting sent} {h : Fs} {replyBuf payload rest : Bytes} {byte : UInt8}

theorem run_readReply_cons (hbyte : byte ≠ 0) :
    (readReply replyBuf).run (answering wire json ctx cut) ⟨h, byte :: rest⟩ =
      if MAX_REPLY_BYTES ≤ replyBuf.length then (.error replyExceeded, ⟨h, rest⟩)
      else (readReply (replyBuf ++ [byte])).run (answering wire json ctx cut) ⟨h, rest⟩ := by
  rw [readReply]
  show (run _ (if byte = 0 then _ else _) _) = _
  rw [if_neg hbyte]
  split_ifs <;> rfl

/-- A reply is read up to its terminator, unless it is too long. -/
theorem run_readReply (hpayload : 0 ∉ payload) (hbuf : replyBuf.length ≤ MAX_REPLY_BYTES) :
    ∃ left, (readReply replyBuf).run (answering wire json ctx cut) ⟨h, payload ++ 0 :: rest⟩ =
        (if (replyBuf ++ payload).length ≤ MAX_REPLY_BYTES then .ok (replyBuf ++ payload)
          else .error replyExceeded, ⟨h, left⟩) ∧
      ((replyBuf ++ payload).length ≤ MAX_REPLY_BYTES → left = rest) := by
  induction payload generalizing replyBuf with
  | nil =>
    refine ⟨rest, ?_, fun _ => rfl⟩
    rw [List.append_nil, if_pos hbuf, readReply]
    rfl
  | cons byte payload ih =>
    rw [List.mem_cons, not_or] at hpayload
    rw [List.cons_append, run_readReply_cons (Ne.symm hpayload.1)]
    by_cases hfull : MAX_REPLY_BYTES ≤ replyBuf.length
    · have hlong : ¬ (replyBuf ++ byte :: payload).length ≤ MAX_REPLY_BYTES := by
        rw [List.length_append, List.length_cons]
        omega
      rw [if_pos hfull, if_neg hlong]
      exact ⟨_, rfl, fun hle => absurd hle hlong⟩
    · have hnext : (replyBuf ++ [byte]).length ≤ MAX_REPLY_BYTES := by
        rw [List.length_append, List.length_singleton]
        omega
      have happend : replyBuf ++ byte :: payload = replyBuf ++ [byte] ++ payload :=
        List.append_cons ..
      rw [if_neg hfull, happend]
      exact ih hpayload.2 hnext

/-- What the client makes of the text of a reply. -/
def textResult (json : JsonLibrary) (text : Bytes) : Except String Json :=
  if text.length ≤ MAX_REPLY_BYTES then
    match json.fromSlice text with
    | .error e => .error e
    | .ok reply => replyResult reply
  else .error replyExceeded

/-- A call whose answer is one reply. -/
theorem run_clientCall {method : String} {parameters : Option Json} {text : Bytes}
    (htext : 0 ∉ text)
    (hreplies : (⟨wire, json, ctx, h⟩ : Service).replies
      (cut (callText wire method parameters ++ [0x00])) = [text ++ [0x00]]) :
    ((clientCall wire json method parameters).run (answering wire json ctx cut) ⟨h, []⟩).1 =
      textResult json text := by
  rw [clientCall, perform_bind, run_call]
  dsimp only [answering]
  rw [perform_bind, run_call, hreplies]
  dsimp only [answering]
  rw [List.nil_append, List.flatten_singleton, run_bind]
  obtain ⟨left, hread, -⟩ := @run_readReply wire json ctx cut _ [] text [] htext (Nat.zero_le _)
  rw [hread, List.nil_append, textResult]
  split_ifs with hfits
  · dsimp only
    cases json.fromSlice text <;> rfl
  · rfl

end Modeld
