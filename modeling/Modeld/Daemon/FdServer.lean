import Modeld.Daemon.Auth
import Modeld.Daemon.FdHandoff
import Modeld.Daemon.Server

/-!
# The handoff of descriptors, connection by connection

`handle_fd_request` asks the kernel who the peer is and decides before it reads. What it does on the
connection and in the store are calls, so that it is said of all answers what it may come to. A request
is read as `read_framed_request` reads it, and there is one request a connection.
-/

namespace Modeld

open Host

/-- The most bytes of a request that may be held without a terminator. -/
def MAX_FD_REQUEST_BYTES : Nat := 64 * 1024

/-- The size of `chunk`. -/
def FD_CHUNK_BYTES : Nat := 4096

/-- What one read takes from the stream. The end of the stream is read as no bytes. -/
structure FdChunk where
  bytes : Bytes
  fits : bytes.length ≤ FD_CHUNK_BYTES

/-- What `select!` comes up with. -/
inductive FdSelected
  | changed (shutdown : Bool)
  | read (result : Except IoError FdChunk)

/-- What is done for a connection. -/
inductive FdCall
  | peerCred
  | readGroupFile
  | select
  | fs (o : Call)
  | writeAll (bytes : Bytes)
  | flush
  | sendFd (sealed payload : Bytes)

/-- What it is answered. The credentials are the user and the group of the peer. -/
@[reducible] def FdResp : FdCall → Type
  | .peerCred => Except IoError (Nat × Nat)
  | .readGroupFile => Except IoError Bytes
  | .select => FdSelected
  | .fs o => Reply o
  | .writeAll _ | .flush | .sendFd .. => Except IoError Unit

/-- A program for a connection. -/
abbrev Fd := Program FdResp

namespace Fd

/-- `get_socket_peercred`. -/
abbrev peerCred : Fd (Except IoError (Nat × Nat)) := Program.perform FdCall.peerCred

/-- `fs::read` of the group file. -/
abbrev readGroupFile : Fd (Except IoError Bytes) := Program.perform FdCall.readGroupFile

/-- One turn of `select!`. -/
abbrev select : Fd FdSelected := Program.perform FdCall.select

/-- A program on the file system. -/
def ofIo {α : Type} (p : Io α) : Fd α := p.expand fun o => Program.perform (FdCall.fs o)

/-- `write_all`. -/
abbrev writeAll (bytes : Bytes) : Fd (Except IoError Unit) := Program.perform (FdCall.writeAll bytes)

/-- `flush`. -/
abbrev flush : Fd (Except IoError Unit) := Program.perform FdCall.flush

/-- `send_fd_scm_rights`, with what the descriptor holds. -/
abbrev sendFd (sealed payload : Bytes) : Fd (Except IoError Unit) :=
  Program.perform (FdCall.sendFd sealed payload)

end Fd

/-! ### The decision -/

namespace TrustedGroupConfig

variable (policy : TrustedGroupConfig)

/-- The number of the trusted group. -/
def trustedGid : Fd (Option Nat) :=
  match policy.trustedGidOverride with
  | some gid => return some gid
  | none => do return parseGroupFile (← Fd.readGroupFile) policy.trustedGroup

/-- The decision on a peer. -/
def check (uid gid : Nat) : Fd Bool :=
  if uid = 0 then return true
  else do
    match ← policy.trustedGid with
    | some trusted => return gid == trusted
    | none => return false

/-- The decision on the credentials of a peer. -/
def isAuthorized (peer : Nat × Nat) : Fd Bool := policy.check peer.1 peer.2

end TrustedGroupConfig

/-! ### A request -/

/-- How reading a request ends. -/
inductive FdRead
  | request (payload : Bytes)
  | shutDown
  | endOfStream
  | tooLong
  | failed (e : IoError)

/-- `read_framed_request`, up to the JSON, with the signal that it is raced against. -/
def readFramedRequest (scratch : Bytes) : Fd FdRead := do
  match ← Fd.select with
  | .changed _ => return .shutDown
  | .read (.error e) => return .failed e
  | .read (.ok chunk) =>
    if _hend : chunk.bytes = [] then return .endOfStream
    else
      match drainMessage (scratch ++ chunk.bytes) with
      | some (message, _) => return .request message.dropLast
      | none =>
        if _hlong : MAX_FD_REQUEST_BYTES < (scratch ++ chunk.bytes).length then return .tooLong
        else readFramedRequest (scratch ++ chunk.bytes)
termination_by MAX_FD_REQUEST_BYTES + 1 - scratch.length
decreasing_by
  have hpos : 0 < chunk.bytes.length := List.length_pos_iff.2 _hend
  rw [List.length_append] at _hlong ⊢
  omega

/-- Why a request is not answered as it asks. -/
inductive FdError
  | json (text : String)
  | model (e : ModeldError)
  | io (e : IoError)

/-- The reply to a peer that is not trusted. -/
def permissionDenied (trustGroup : String) : Json :=
  .object [("error", .str "io.syntrop.Model1.PermissionDenied"), ("trust_group", .str trustGroup)]

/-- The reply for an identifier that nothing is found for. -/
def modelNotFound (id : String) : Json := .object [("error", .str "Model not found"), ("id", .str id)]

/-- The text that goes with a descriptor. -/
def descriptorPayload (id digest : String) (sizeBytes : Nat) : Json :=
  .object [("status", .str "ok"), ("id", .str id), ("digest", .str digest),
    ("size_bytes", .ofNat sizeBytes), ("sealed", .bool true)]

/-- `serde_json::to_vec`. -/
def toVec (lib : JsonLibrary) (value : Json) : Bytes := Text.toBytes (value.text lib.floatText)

section Connection

variable (lib : JsonLibrary) (policy : TrustedGroupConfig) (cas : CasStore) (tags : TagRegistry)

/-- What goes out for a request. -/
def sendReply : FdReply → Fd (Except IoError Unit)
  | .modelNotFound id => Fd.writeAll (toVec lib (modelNotFound id))
  | .descriptor id digest size sealed =>
    Fd.sendFd sealed (toVec lib (descriptorPayload id digest size))

/-- `handle_fd_request`, from the bytes of the request on. -/
def answerRequest (payload : Bytes) : Fd (Except FdError Unit) :=
  match lib.fromSlice payload with
  | .error e => return .error (.json e)
  | .ok request => do
    match ← Fd.ofIo (handleFdRequest request cas tags) with
    | .error e => return .error (.model e)
    | .ok reply =>
      match ← sendReply lib reply with
      | .error e => return .error (.io e)
      | .ok () => return .ok ()

/-- How a connection ends. -/
inductive FdOutcome
  | peerUnknown (e : IoError)
  | refused
  | noRequest (read : FdRead)
  | handled (payload : Bytes) (result : Except FdError Unit)

/-- The requests that were taken up. -/
def FdOutcome.requests : FdOutcome → List Bytes
  | handled payload _ => [payload]
  | _ => []

/-- `handle_fd_request`, once the peer is trusted. -/
def serveRequest : Fd FdOutcome := do
  match ← readFramedRequest [] with
  | .request payload => return .handled payload (← answerRequest lib cas tags payload)
  | other => return .noRequest other

/-- The reply to a peer that is not trusted is written, if it can be. -/
def refuse : Fd FdOutcome := do
  let _ ← Fd.writeAll (toVec lib (permissionDenied policy.trustedGroup))
  let _ ← Fd.flush
  return .refused

/-- `handle_fd_request`. -/
def handleFdConnection : Fd FdOutcome := do
  match ← Fd.peerCred with
  | .error e => return .peerUnknown e
  | .ok peer =>
    if ← policy.isAuthorized peer then serveRequest lib cas tags
    else refuse lib policy

end Connection

/-! ### One connection -/

/-- What the peer gets: bytes, or a descriptor with bytes. -/
inductive FdSent
  | text (bytes : Bytes)
  | descriptor (sealed payload : Bytes)

/-- A peer, what arrives from it, what it got, and the files. -/
structure FdWorld where
  peer : Nat × Nat
  groupFile : Except IoError Bytes
  arrivals : List FdChunk
  files : Fs
  sent : List FdSent

/-- The answers where nothing fails and nobody stops the daemon. Once everything has arrived, the
stream is at its end. -/
def FdWorld.exec : (o : FdCall) → FdWorld → FdResp o × FdWorld
  | .peerCred, w => (.ok w.peer, w)
  | .readGroupFile, w => (w.groupFile, w)
  | .select, w =>
    match w.arrivals with
    | [] => (.read (.ok ⟨[], Nat.zero_le _⟩), w)
    | chunk :: rest => (.read (.ok chunk), { w with arrivals := rest })
  | .fs o, w => ((Fs.exec o w.files).1, { w with files := (Fs.exec o w.files).2 })
  | .writeAll bytes, w => (.ok (), { w with sent := w.sent ++ [.text bytes] })
  | .flush, w => (.ok (), w)
  | .sendFd sealed payload, w => (.ok (), { w with sent := w.sent ++ [.descriptor sealed payload] })

end Modeld
