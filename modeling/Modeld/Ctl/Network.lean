import Modeld.Ctl.Client
import Modeld.Host.Pool

/-!
# Clients on a network

Any number of clients, each with a connection of its own to one daemon. What an end writes is under way
until the other end reads it, the client byte by byte and the daemon in chunks of any size, and on some
of the connections anything may fail. For the clients, this is as if each of their calls were answered
at once, at some moment: a call that returns was made exactly once, and one that fails at most once.
-/

namespace Modeld

open Host Program

/-- A method to call, and its parameters. -/
structure Ask where
  method : String
  parameters : Option Json

/-- What a client does on a connection: it makes calls, and goes on with what they return. It gives up at
the first one that fails. -/
abbrev Script := Program fun _ : Ask => Json

namespace Script

variable {α : Type}

/-- What comes after a call that is answered at once. -/
abbrev After (α : Type) := Program (fun _ : Ask => Except String Json) (Except String α)

/-- The script where each call is answered at once. -/
def atOnce : Script α → After α
  | .done a => .done (.ok a)
  | .call q k => .call q fun
    | .error e => .done (.error e)
    | .ok value => atOnce (k value)

/-- How the script goes on after a call. -/
def resume (k : Json → Script α) : Except String Json → After α
  | .error e => .done (.error e)
  | .ok value => atOnce (k value)

section OnSocket

variable (wire : WireLibrary) (json : JsonLibrary)

/-- The script where each call is made on a socket, by `VarlinkClient::call`. -/
def onSocket : Script α → Client (Except String α)
  | .done a => .done (.ok a)
  | .call q k => do
    match ← clientCall wire json q.method q.parameters with
    | .error e => return .error e
    | .ok value => onSocket (k value)

/-- Every call of the script, with its terminator, is within the daemon's limit. -/
def Fits : Script α → Prop
  | .done _ => True
  | .call q k => (callText wire q.method q.parameters).length < MAX_MSG_BYTES ∧ ∀ value, Fits (k value)

end OnSocket

end Script

/-! ### The network -/

/-- A connection: the bytes that are under way in each direction, and how the daemon's loop on it
stands. -/
structure Link where
  toServer : Bytes
  server : Outcome
  toClient : Bytes

/-- The clients, their connections and what the daemon stores. -/
structure Net (ι σ α : Type) where
  state : σ
  clients : ι → Client (Except String α)
  links : ι → Link

/-- The daemon's loop has returned. -/
def Link.Closed (link : Link) : Prop := ∀ buffer, link.server ≠ .waiting buffer

/-- What a client's socket does. A call fails, after any part of its bytes, on a connection that `may`
fail. -/
inductive socket (may : Prop) : System SocketReply Link
  | write (bytes : Bytes) (link : Link) :
    socket may (.writeAll bytes) link (.ok ()) { link with toServer := link.toServer ++ bytes }
  | flush (link : Link) : socket may .flush link (.ok ()) link
  | read {link : Link} {byte : UInt8} {rest : Bytes} (hnext : link.toClient = byte :: rest) :
    socket may .read link (.ok (some byte)) { link with toClient := rest }
  | endOfStream {link : Link} (hclosed : link.Closed) (hnone : link.toClient = []) :
    socket may .read link (.ok none) link
  | writeFails (bytes : Bytes) (link : Link) (n : Nat) (e : IoError) (hmay : may) :
    socket may (.writeAll bytes) link (.error e)
      { link with toServer := link.toServer ++ bytes.take n }
  | flushFails (link : Link) (e : IoError) (hmay : may) : socket may .flush link (.error e) link
  | readFails (link : Link) (e : IoError) (hmay : may) : socket may .read link (.error e) link

/-- What `select!` comes up with, and what it leaves of the bytes under way. The stream ends when the
client has `left`. -/
inductive Brings (may left : Prop) : Bytes → Selected → Bytes → Prop
  | unchanged (toServer : Bytes) : Brings may left toServer (.changed false) toServer
  | chunk (chunk : Chunk) (rest : Bytes) (hsome : chunk.bytes ≠ []) :
    Brings may left (chunk.bytes ++ rest) (.read (.ok chunk)) rest
  | endOfStream (chunk : Chunk) (hnone : chunk.bytes = []) (hleft : left) :
    Brings may left [] (.read (.ok chunk)) []
  | shutDown (toServer : Bytes) (hmay : may) : Brings may left toServer (.changed true) toServer
  | fails (toServer : Bytes) (e : IoError) (hmay : may) :
    Brings may left toServer (.read (.error e)) toServer

variable {ι σ α : Type}

section Serve

variable (exec : VarlinkCall → σ → VarlinkReply × σ)

/-- What the daemon does on a connection, where so much has been sent. When it is `broken`, its writes
fail after some bytes. -/
def serving (broken : Option (Nat × IoError)) : (o : ConnCall) → σ × Bytes → ConnReply o × (σ × Bytes)
  | .dispatch request, (s, sent) => ((exec request s).1, (exec request s).2, sent)
  | .writeAll bytes, (s, sent) =>
    match broken with
    | none => (.ok (), s, sent ++ bytes)
    | some (n, e) => (.error e, s, sent ++ bytes.take n)
  | .flush, (s, sent) =>
    match broken with
    | none => (.ok (), s, sent)
    | some (_, e) => (.error e, s, sent)

variable (wire : WireLibrary) [DecidableEq ι] (may : ι → Prop)

/-- One step: a client's next call on its socket, or one turn of the daemon's loop on a connection. -/
inductive Net.Step (net : Net ι σ α) : Net ι σ α → Prop
  | client (i : ι) {o : SocketCall} {k : SocketReply o → Client (Except String α)} {r : SocketReply o}
      {link : Link} (hclient : net.clients i = .call o k) (hsocket : socket (may i) o (net.links i) r link) :
      Net.Step net ⟨net.state, Function.update net.clients i (k r), Function.update net.links i link⟩
  | server (i : ι) {buffer left : Bytes} {selected : Selected} {broken : Option (Nat × IoError)}
      (hserver : (net.links i).server = .waiting buffer)
      (hbrings : Brings (may i) (∃ r, net.clients i = .done r) (net.links i).toServer selected left)
      (hbroken : broken ≠ none → may i) :
      Net.Step net
        ⟨((clientLoop wire [selected] buffer).run (serving exec broken)
            (net.state, (net.links i).toClient)).2.1, net.clients,
          Function.update net.links i ⟨left,
            ((clientLoop wire [selected] buffer).run (serving exec broken)
              (net.state, (net.links i).toClient)).1,
            ((clientLoop wire [selected] buffer).run (serving exec broken)
              (net.state, (net.links i).toClient)).2.2⟩⟩

/-- A run. -/
abbrev Net.Steps : Net ι σ α → Net ι σ α → Prop := Relation.ReflTransGen (Net.Step exec wire may)

/-- What the daemon does about a message. -/
def respond (payload : Bytes) (s : σ) : VarlinkReply × σ :=
  match wire.callFromSlice payload with
  | .error e => (invalidCall e, s)
  | .ok request => exec request s

/-- A call that is answered at once. -/
def answerAtOnce (json : JsonLibrary) (q : Ask) (s : σ) : Except String Json × σ :=
  (textResult json (Text.toBytes
      ((respond exec wire (callText wire q.method q.parameters) s).1.text wire.floatText)),
    (respond exec wire (callText wire q.method q.parameters) s).2)

end Serve

/-- All clients are about to start, on new connections. -/
def Net.start (wire : WireLibrary) (json : JsonLibrary) (state : σ) (scripts : ι → Script α) :
    Net ι σ α := ⟨state, fun i => Script.onSocket wire json (scripts i), fun _ => ⟨[], .waiting [], []⟩⟩

/-! ### The client's end -/

section ClientEnd

variable (wire : WireLibrary) (json : JsonLibrary)

/-- How the client goes on with a reply that it has read. -/
def taken (k : Json → Script α) : Except String Bytes → Client (Except String α)
  | .error e => .done (.error e)
  | .ok replyBuf =>
    match json.fromSlice replyBuf with
    | .error e => .done (.error e)
    | .ok reply =>
      match replyResult reply with
      | .error e => .done (.error e)
      | .ok value => Script.onSocket wire json (k value)

/-- The client reads a reply. -/
def reading (k : Json → Script α) (replyBuf : Bytes) : Client (Except String α) :=
  readReply replyBuf >>= taken wire json k

/-- The client has written its call. -/
def flushing (k : Json → Script α) : Client (Except String α) :=
  .call .flush fun
    | .error e => .done (.error e.text)
    | .ok () => reading wire json k []

/-- The client is about to call. -/
theorem onSocket_call (q : Ask) (k : Json → Script α) : Script.onSocket wire json (.call q k) =
    .call (.writeAll (callText wire q.method q.parameters ++ [0x00])) fun
      | .error e => .done (.error e.text)
      | .ok () => flushing wire json k := by
  rw [Script.onSocket, clientCall, bind_assoc_eq, perform_bind]
  congr 1
  funext written
  cases written with
  | error e => rfl
  | ok =>
    dsimp only
    rw [bind_assoc_eq, perform_bind, flushing]
    congr 1
    funext flushed
    cases flushed with
    | error e => rfl
    | ok =>
      dsimp only
      rw [bind_assoc_eq, reading]
      congr 1
      funext read
      cases read with
      | error e => rfl
      | ok replyBuf =>
        dsimp only
        rw [taken]
        cases json.fromSlice replyBuf with
        | error e => rfl
        | ok reply =>
          dsimp only
          rw [pure_eq, done_bind]
          cases replyResult reply <;> rfl

/-- Where a read takes the client. -/
def afterRead (k : Json → Script α) (replyBuf : Bytes) :
    Except IoError (Option UInt8) → Client (Except String α)
  | .error e => .done (.error e.text)
  | .ok none => .done (.error "Unexpected EOF reading Varlink reply")
  | .ok (some byte) =>
    if byte = 0x00 then taken wire json k (.ok replyBuf)
    else if MAX_REPLY_BYTES ≤ replyBuf.length then .done (.error replyExceeded)
    else reading wire json k (replyBuf ++ [byte])

theorem reading_eq (k : Json → Script α) (replyBuf : Bytes) :
    reading wire json k replyBuf = .call .read (afterRead wire json k replyBuf) := by
  rw [reading, readReply, bind_assoc_eq, perform_bind]
  congr 1
  funext r
  rcases r with e | _ | byte
  · rfl
  · rfl
  · dsimp only [afterRead]
    split_ifs <;> rfl

end ClientEnd

/-! ### A turn of the daemon's loop -/

section Turn

variable {exec : VarlinkCall → σ → VarlinkReply × σ} {wire : WireLibrary}
  {broken : Option (Nat × IoError)} {s : σ} {buffer sent text : Bytes} {chunk : Chunk}

/-- What is sent about a message. -/
def sentAbout (wire : WireLibrary) (reply : VarlinkReply) : Option (Nat × IoError) → Bytes
  | none => reply.toBytes wire.floatText
  | some (n, _) => (reply.toBytes wire.floatText).take n

/-- How the loop stands after it. -/
def outcomeOf : Option (Nat × IoError) → Outcome
  | none => .waiting []
  | some (_, e) => .failed e

/-- One message. -/
theorem run_handleMessage_serving :
    (handleMessage wire text).run (serving exec broken) (s, sent) =
      (match broken with
        | none => .ok ()
        | some (_, e) => .error e,
      (respond exec wire text s).2,
      sent ++ sentAbout wire (respond exec wire text s).1 broken) := by
  rw [handleMessage, respond]
  cases wire.callFromSlice text with
  | error e => cases broken <;> rfl
  | ok request => cases broken <;> rfl

/-- The chunk ends a message. -/
theorem run_turn_ends (htext : 0 ∉ text) (hsome : chunk.bytes ≠ [])
    (hwhole : buffer ++ chunk.bytes = text ++ [0]) (hfits : text.length < MAX_MSG_BYTES) :
    (clientLoop wire [.read (.ok chunk)] buffer).run (serving exec broken) (s, sent) =
      (outcomeOf broken, (respond exec wire text s).2,
        sent ++ sentAbout wire (respond exec wire text s).1 broken) := by
  have hlen : ¬ MAX_MSG_BYTES < (text ++ [0]).length := by
    rw [List.length_append, List.length_singleton]
    omega
  rw [clientLoop, if_neg hsome, hwhole, if_neg hlen, processMessages_eq,
    Delimited.frames_cons htext, Delimited.rest_cons, Delimited.frames_of_not_mem List.not_mem_nil,
    Delimited.rest_of_not_mem List.not_mem_nil, handleFrames, run_bind, run_bind, run_bind,
    run_handleMessage_serving]
  cases broken <;> rfl

/-- The chunk ends no message. -/
theorem run_turn_waits (hno : 0 ∉ buffer ++ chunk.bytes) (hsome : chunk.bytes ≠ [])
    (hfits : (buffer ++ chunk.bytes).length ≤ MAX_MSG_BYTES) :
    (clientLoop wire [.read (.ok chunk)] buffer).run (serving exec broken) (s, sent) =
      (.waiting (buffer ++ chunk.bytes), s, sent) := by
  rw [clientLoop, if_neg hsome, if_neg (Nat.not_lt.2 hfits), processMessages_eq,
    Delimited.frames_of_not_mem hno, Delimited.rest_of_not_mem hno, handleFrames]
  rfl

end Turn

end Modeld
