import Modeld.Core.Opening
import Modeld.Daemon.DaemonCalls
import Modeld.Daemon.Server

/-!
# Every frame is answered once

While the connection loop waits, it has handled exactly the frames of the stream that it received,
each once and in order, and its buffer holds what came after the last terminator, however the reads
cut the stream.
-/

namespace Modeld

open Host

variable {σ : Type} {wire : WireLibrary} {exec : (o : ConnCall) → σ → ConnReply o × σ} {s : σ}

/-- The bytes that an event brings. -/
def Selected.bytes : Selected → Bytes
  | .read (.ok chunk) => chunk.bytes
  | _ => []

/-- The stream that events bring. -/
def received (events : List Selected) : Bytes := events.flatMap Selected.bytes

/-- What is done about one frame: a call is dispatched, and its reply is written and flushed; about
anything else, that it is invalid is written. -/
def Answers (wire : WireLibrary) (exec : (o : ConnCall) → σ → ConnReply o × σ) (payload : Bytes)
    (calls : List (ConnCall × σ)) : Prop :=
  match wire.callFromSlice payload with
  | .error e => ∃ s, calls = [(.writeAll ((invalidCall e).toBytes wire.floatText), s)]
  | .ok call => ∃ s₁ s₂ s₃, calls = [(.dispatch call, s₁),
      (.writeAll (VarlinkReply.toBytes wire.floatText (exec (.dispatch call) s₁).1), s₂), (.flush, s₃)]

/-- What is written. -/
def written (calls : List (ConnCall × σ)) : List Bytes :=
  calls.filterMap fun x => match x.1 with
    | .writeAll bytes => some bytes
    | _ => none

/-- Messages are drained from one buffer to get to the other. -/
inductive Drained (buffer : Bytes) : Bytes → Prop
  | refl : Drained buffer buffer
  | step {left message left' : Bytes} (h : Drained buffer left)
      (hdrain : drainMessage left = some (message, left')) : Drained buffer left'

theorem Drained.length_le {buffer left : Bytes} (h : Drained buffer left) :
    left.length ≤ buffer.length := by
  induction h with
  | refl => exact Nat.le_refl _
  | step h hdrain ih => exact (length_lt_of_drainMessage hdrain).le.trans ih

/-! ### One message -/

theorem answers_handleMessage {payload : Bytes}
    (hok : ((handleMessage wire payload).run exec s).1 = .ok ()) :
    Answers wire exec payload ((handleMessage wire payload).calls exec s) := by
  unfold Answers
  unfold handleMessage at hok ⊢
  cases hcall : wire.callFromSlice payload with
  | error e => exact ⟨s, rfl⟩
  | ok call =>
    rw [hcall] at hok
    dsimp only at hok ⊢
    rw [Conn.run_dispatch, Conn.run_writeAll] at hok
    rw [Conn.calls_dispatch, Conn.calls_writeAll]
    split at hok
    · cases hok
    · exact ⟨_, _, _, rfl⟩

/-- Frames that are handled without failure are answered one by one. -/
theorem answers_handleFrames {payloads : List Bytes}
    (hok : ((handleFrames wire payloads).run exec s).1 = .ok ()) :
    ∃ parts, (handleFrames wire payloads).calls exec s = parts.flatten ∧
      List.Forall₂ (Answers wire exec) payloads parts := by
  induction payloads generalizing s with
  | nil => exact ⟨[], rfl, .nil⟩
  | cons payload rest ih =>
    rw [handleFrames, Program.run_bind] at hok
    rw [handleFrames, Program.calls_bind]
    cases hone : ((handleMessage wire payload).run exec s).1 with
    | error e =>
      rw [hone] at hok
      cases hok
    | ok =>
      rw [hone] at hok
      obtain ⟨parts, hcalls, hparts⟩ := ih hok
      exact ⟨_ :: parts, congrArg _ hcalls, .cons (answers_handleMessage hone) hparts⟩

/-! ### The loop -/

theorem processMessages_ok {buffer left : Bytes}
    (hok : ((processMessages wire buffer).run exec s).1 = .ok left) :
    left = Delimited.rest 0 buffer ∧
      ∃ parts, (processMessages wire buffer).calls exec s = parts.flatten ∧
        List.Forall₂ (Answers wire exec) (Delimited.frames 0 buffer) parts := by
  rw [processMessages_eq, Program.run_bind] at hok
  rw [processMessages_eq, Program.calls_bind]
  cases hframes : ((handleFrames wire (Delimited.frames 0 buffer)).run exec s).1 with
  | error e =>
    rw [hframes] at hok
    cases hok
  | ok =>
    rw [hframes] at hok
    obtain ⟨parts, hcalls, hparts⟩ := answers_handleFrames hframes
    refine ⟨(Except.ok.inj hok).symm, parts, ?_, hparts⟩
    rw [hcalls]
    exact List.append_nil _

/-- What the loop has done when it waits. -/
theorem clientLoop_waiting {events : List Selected} {buffer left : Bytes}
    (hwaits : ((clientLoop wire events buffer).run exec s).1 = .waiting left)
    (hbuffer : 0 ∉ buffer) :
    left = Delimited.rest 0 (buffer ++ received events) ∧
      (buffer.length ≤ MAX_MSG_BYTES → left.length ≤ MAX_MSG_BYTES) ∧
      ∃ parts, (clientLoop wire events buffer).calls exec s = parts.flatten ∧
        List.Forall₂ (Answers wire exec) (Delimited.frames 0 (buffer ++ received events)) parts := by
  induction events generalizing buffer s with
  | nil =>
    obtain rfl : buffer = left := Outcome.waiting.inj hwaits
    rw [received, List.flatMap_nil, List.append_nil, Delimited.frames_of_not_mem hbuffer,
      Delimited.rest_of_not_mem hbuffer]
    exact ⟨rfl, id, [], rfl, .nil⟩
  | cons event events ih =>
    rcases event with shutdown | result
    · cases shutdown
      · exact ih hwaits hbuffer
      · cases hwaits
    · rcases result with e | chunk
      · cases hwaits
      · rw [clientLoop] at hwaits ⊢
        split at hwaits
        · cases hwaits
        rename_i hchunk
        rw [if_neg hchunk]
        split at hwaits
        · cases hwaits
        rename_i hfits
        rw [if_neg hfits, Program.calls_bind]
        rw [Program.run_bind] at hwaits
        cases hturn : ((processMessages wire (buffer ++ chunk.bytes)).run exec s).1 with
        | error e =>
          rw [hturn] at hwaits
          cases hwaits
        | ok left' =>
          rw [hturn] at hwaits
          obtain ⟨rfl, parts, hcalls, hparts⟩ := processMessages_ok hturn
          obtain ⟨hleft, hlen, parts', hcalls', hparts'⟩ := ih hwaits (Delimited.not_mem_rest _)
          have hreceived : buffer ++ received (.read (.ok chunk) :: events) =
              buffer ++ chunk.bytes ++ received events := (List.append_assoc ..).symm
          rw [hreceived, Delimited.rest_append, Delimited.frames_append]
          refine ⟨hleft, fun _ => hlen ?_, parts ++ parts', ?_, List.rel_append hparts hparts'⟩
          · have hsize : (Delimited.rest (0 : UInt8) (buffer ++ chunk.bytes)).length ∈
                Delimited.sizes 0 (buffer ++ chunk.bytes) := by simp [Delimited.sizes]
            exact (Delimited.length_of_mem_sizes hsize).trans (Nat.not_lt.1 hfits)
          · rw [hcalls, List.flatten_append]
            exact congrArg _ hcalls'

/-! ### The bytes written -/

/-- What is written about one frame. -/
theorem Answers.written {payload : Bytes} {part : List (ConnCall × σ)}
    (h : Answers wire exec payload part) :
    ∃ text, 0 ∉ text ∧ Modeld.written part = [Delimited.close 0 text] := by
  unfold Answers at h
  split at h
  · obtain ⟨s, rfl⟩ := h
    exact ⟨_, VarlinkReply.zero_not_mem_text wire.floatText_nulFree _, rfl⟩
  · obtain ⟨s₁, s₂, s₃, rfl⟩ := h
    exact ⟨_, VarlinkReply.zero_not_mem_text wire.floatText_nulFree _, rfl⟩

theorem written_append (calls calls' : List (ConnCall × σ)) :
    written (calls ++ calls') = written calls ++ written calls' := List.filterMap_append

/-- On the wire, there is one reply for each frame. -/
theorem exists_texts {payloads : List Bytes} {parts : List (List (ConnCall × σ))}
    (h : List.Forall₂ (Answers wire exec) payloads parts) :
    ∃ texts : List Bytes, (∀ text ∈ texts, 0 ∉ text) ∧ texts.length = payloads.length ∧
      written parts.flatten = texts.map (Delimited.close 0) := by
  induction h with
  | nil => exact ⟨[], nofun, rfl, rfl⟩
  | cons hone _ ih =>
    obtain ⟨texts, htexts, hlen, hwritten⟩ := ih
    obtain ⟨text, htext, hpart⟩ := hone.written
    refine ⟨text :: texts, ?_, congrArg (· + 1) hlen, ?_⟩
    · intro t ht
      rcases List.mem_cons.1 ht with rfl | ht
      · exact htext
      · exact htexts t ht
    · rw [List.flatten_cons, written_append, hpart, hwritten]
      rfl

/-- However the reads cut the stream, as long as the connection goes on its frames are dispatched and
answered, each once and in order; the buffer holds what comes after the last terminator, and is never
longer than the limit and one read. -/
theorem frames_answered (wire : WireLibrary) (exec : (o : ConnCall) → σ → ConnReply o × σ) (s : σ)
    (events : List Selected) (buffer : Bytes)
    (hwaits : ((handleVarlinkClient wire events).run exec s).1 = .waiting buffer) :
    let calls := (handleVarlinkClient wire events).calls exec s
    (∃ parts, calls = parts.flatten ∧
      List.Forall₂ (Answers wire exec) (Delimited.frames 0 (received events)) parts) ∧
    (Delimited.frames 0 (written calls).flatten).length =
      (Delimited.frames 0 (received events)).length ∧
    Delimited.rest 0 (written calls).flatten = [] ∧
    buffer = Delimited.rest 0 (received events) ∧
    ∀ (chunk : Chunk) (held : Bytes), Drained (buffer ++ chunk.bytes) held →
      held.length ≤ MAX_MSG_BYTES + READ_CHUNK_BYTES := by
  intro calls
  obtain ⟨hbuffer, hlen, parts, hcalls, hparts⟩ := clientLoop_waiting hwaits List.not_mem_nil
  rw [List.nil_append] at hbuffer hparts
  obtain ⟨texts, htexts, hcount, hwritten⟩ := exists_texts hparts
  have hflatten : (written calls).flatten = texts.flatMap (Delimited.close 0) := by
    rw [List.flatMap_def, ← hwritten, ← hcalls]
    rfl
  refine ⟨⟨parts, hcalls, hparts⟩, ?_, ?_, hbuffer, fun chunk held hheld => ?_⟩
  · rw [hflatten, Delimited.frames_flatMap_close htexts, hcount]
  · rw [hflatten, Delimited.rest_flatMap_close]
  · have hle := hheld.length_le
    have hfits := chunk.fits
    have hmax := hlen (Nat.zero_le _)
    rw [List.length_append] at hle
    omega

/-- A daemon that nobody else uses, and a client that takes what is written. -/
def serveAlone (json : JsonLibrary) (ctx : ModelServiceContext) :
    (o : ConnCall) → Fs → ConnReply o × Fs
  | .dispatch call, h => (dispatchCall json call ctx).run Fs.exec h
  | .writeAll _, h => (.ok (), h)
  | .flush, h => (.ok (), h)

/-- The text of a call. -/
def getInfoText : Bytes := Text.toBytes "\x7b\"method\":\"org.varlink.service.GetInfo\"\x7d"

/-- A library that knows this call only. -/
def getInfoLibrary : WireLibrary where
  callFromSlice text := if text = getInfoText then .ok ⟨"org.varlink.service.GetInfo", none, none⟩
    else .error "expected value at line 1 column 1"
  floatText _ := "0.0"
  floatText_nulFree _ := show '\x00' ∉ "0.0".toList by decide

/-- A call, something that is none, and the start of more, cut in the middle of the frames. -/
def sampleEvents : List Selected :=
  [.read (.ok ⟨getInfoText, by decide +kernel⟩), .changed false,
    .read (.ok ⟨[0x00, 0x78], by decide⟩), .read (.ok ⟨[0x00, 0x7b], by decide⟩)]

/-- Both frames are answered. -/
theorem sample_frames_answered :
    let calls := (handleVarlinkClient getInfoLibrary sampleEvents).calls
      (serveAlone emptyObjectLibrary (.ofRoot [])) (blankFs true id)
    (Delimited.frames 0 (written calls).flatten).length = 2 := by
  have hwaits : ((handleVarlinkClient getInfoLibrary sampleEvents).run
      (serveAlone emptyObjectLibrary (.ofRoot [])) (blankFs true id)).1 = .waiting [0x7b] := by
    simp only [handleVarlinkClient, sampleEvents, clientLoop, processMessages_eq]
    rfl
  have hframes : (Delimited.frames 0 (received sampleEvents)).length = 2 := by decide +kernel
  obtain ⟨-, hcount, -⟩ := frames_answered getInfoLibrary
    (serveAlone emptyObjectLibrary (.ofRoot [])) (blankFs true id) sampleEvents _ hwaits
  exact hcount.trans hframes

end Modeld
