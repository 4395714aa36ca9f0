import Mathlib
import Modeld.Daemon.ServerFrames

/-!
# The limit on messages

The connection loop measures its whole buffer, before it looks for messages in it. A read that ends
one message and brings the start of others can therefore exceed the limit although no message does.
Which reads do decides how a stream is answered; without them, the stream alone does.
-/

namespace Modeld

open Host

/-! ### Frames up to a read that exceeds the limit -/

/-- The bytes that reads take. -/
def bytesOf (chunks : List Chunk) : Bytes := chunks.flatMap Chunk.bytes

/-- After some reads, one more takes the bytes since the last terminator past the limit. -/
def Exceeds (before : List Chunk) (chunk : Chunk) : Prop :=
  MAX_MSG_BYTES < (Delimited.rest 0 (bytesOf before) ++ chunk.bytes).length

/-- No read exceeds the limit. -/
def NoneExceeds (chunks : List Chunk) : Prop :=
  ∀ before chunk after, chunks = before ++ chunk :: after → ¬ Exceeds before chunk

/-- A frame of the stream, counted with its terminator, or what comes after them is longer than the
limit. -/
def HasTooLong (stream : Bytes) : Prop := ∃ n ∈ Delimited.sizes 0 stream, MAX_MSG_BYTES < n

variable {before after chunks : List Chunk} {chunk : Chunk} {stream : Bytes}

theorem bytesOf_append (before after : List Chunk) :
    bytesOf (before ++ after) = bytesOf before ++ bytesOf after := List.flatMap_append

theorem bytesOf_cons (chunk : Chunk) (chunks : List Chunk) :
    bytesOf (chunk :: chunks) = chunk.bytes ++ bytesOf chunks := List.flatMap_cons

theorem noneExceeds_append_singleton :
    NoneExceeds (chunks ++ [chunk]) ↔ NoneExceeds chunks ∧ ¬ Exceeds chunks chunk := by
  constructor
  · intro h
    refine ⟨?_, h chunks chunk [] rfl⟩
    rintro before c after rfl
    exact h before c (after ++ [chunk]) (by simp)
  · rintro ⟨h, hlast⟩ before c after heq
    rcases List.eq_nil_or_concat after with rfl | ⟨after, last, rfl⟩
    · obtain ⟨rfl, hc⟩ := List.append_inj' heq rfl
      cases hc
      exact hlast
    · rw [List.concat_eq_append, ← List.cons_append, ← List.append_assoc] at heq
      exact h before c after (List.append_inj' heq rfl).1

/-- A read exceeds the limit first, or none does. -/
theorem noneExceeds_or_first (chunks : List Chunk) :
    NoneExceeds chunks ∨ ∃ before chunk after, chunks = before ++ chunk :: after ∧
      NoneExceeds before ∧ Exceeds before chunk := by
  induction chunks using List.reverseRecOn with
  | nil => exact .inl fun before chunk after h => by simp at h
  | append_singleton chunks last ih =>
    rcases ih with hnone | ⟨before, chunk, after, rfl, hnone, hexceeds⟩
    · by_cases hlast : Exceeds chunks last
      · exact .inr ⟨chunks, last, [], rfl, hnone, hlast⟩
      · exact .inl (noneExceeds_append_singleton.2 ⟨hnone, hlast⟩)
    · exact .inr ⟨before, chunk, after ++ [last], by simp, hnone, hexceeds⟩

/-- Reads within the limit bring frames within the limit. -/
theorem NoneExceeds.sizes_le (h : NoneExceeds chunks) :
    ∀ n ∈ Delimited.sizes 0 (bytesOf chunks), n ≤ MAX_MSG_BYTES := by
  induction chunks using List.reverseRecOn with
  | nil =>
    intro n hn
    exact (Delimited.length_of_mem_sizes hn).trans (Nat.zero_le _)
  | append_singleton chunks last ih =>
    obtain ⟨hnone, hlast⟩ := noneExceeds_append_singleton.1 h
    have hbytes : bytesOf (chunks ++ [last]) = bytesOf chunks ++ last.bytes := by
      simp [bytesOf]
    intro n hn
    rw [hbytes, Delimited.sizes_append, List.mem_append] at hn
    rcases hn with hn | hn
    · exact ih hnone n (List.mem_append_left _ hn)
    · exact (Delimited.length_of_mem_sizes hn).trans (Nat.not_lt.1 hlast)

theorem HasTooLong.first (h : HasTooLong (bytesOf chunks)) :
    ∃ before chunk after, chunks = before ++ chunk :: after ∧ NoneExceeds before ∧
      Exceeds before chunk := by
  rcases noneExceeds_or_first chunks with hnone | hfirst
  · obtain ⟨n, hn, hlong⟩ := h
    exact absurd (hnone.sizes_le n hn) (Nat.not_le.2 hlong)
  · exact hfirst

/-! ### A client that takes what is written -/

/-- Writes and flushes succeed. -/
structure Takes {σ : Type} (exec : (o : ConnCall) → σ → ConnReply o × σ) : Prop where
  write : ∀ bytes s, (exec (.writeAll bytes) s).1 = .ok ()
  flush : ∀ s, (exec .flush s).1 = .ok ()

section Takes

variable {σ : Type} {wire : WireLibrary} {exec : (o : ConnCall) → σ → ConnReply o × σ} {s : σ}
  (ht : Takes exec)

include ht

theorem handleMessage_ok (payload : Bytes) :
    ((handleMessage wire payload).run exec s).1 = .ok () := by
  unfold handleMessage
  cases wire.callFromSlice payload with
  | error e => exact ht.write ..
  | ok call =>
    dsimp only
    rw [Conn.run_dispatch, Conn.run_writeAll, ht.write]
    exact ht.flush _

theorem run_handleFrames_cons (payload : Bytes) (rest : List Bytes) :
    (handleFrames wire (payload :: rest)).run exec s =
      (handleFrames wire rest).run exec ((handleMessage wire payload).run exec s).2 ∧
    (handleFrames wire (payload :: rest)).calls exec s =
      (handleMessage wire payload).calls exec s ++
        (handleFrames wire rest).calls exec ((handleMessage wire payload).run exec s).2 := by
  rw [handleFrames, Program.run_bind, Program.calls_bind, handleMessage_ok ht]
  exact ⟨rfl, rfl⟩

theorem handleFrames_ok (payloads : List Bytes) :
    ((handleFrames wire payloads).run exec s).1 = .ok () := by
  induction payloads generalizing s with
  | nil => rfl
  | cons payload rest ih =>
    rw [(run_handleFrames_cons ht payload rest).1]
    exact ih

/-- Frames after frames. -/
theorem handleFrames_append (payloads rest : List Bytes) :
    (handleFrames wire (payloads ++ rest)).run exec s =
      (handleFrames wire rest).run exec ((handleFrames wire payloads).run exec s).2 ∧
    (handleFrames wire (payloads ++ rest)).calls exec s =
      (handleFrames wire payloads).calls exec s ++
        (handleFrames wire rest).calls exec ((handleFrames wire payloads).run exec s).2 := by
  induction payloads generalizing s with
  | nil => exact ⟨rfl, rfl⟩
  | cons payload payloads ih =>
    obtain ⟨hrun, hcalls⟩ := run_handleFrames_cons (s := s) ht payload payloads
    obtain ⟨hrun', hcalls'⟩ := run_handleFrames_cons (s := s) ht payload (payloads ++ rest)
    obtain ⟨ih, ih'⟩ := ih (s := ((handleMessage wire payload).run exec s).2)
    rw [List.cons_append, hrun', hcalls', hrun, hcalls, ih, ih', List.append_assoc]
    exact ⟨rfl, rfl⟩

/-- There is one reply to each frame. -/
theorem length_written_handleFrames (payloads : List Bytes) :
    (written ((handleFrames wire payloads).calls exec s)).length = payloads.length := by
  obtain ⟨parts, hcalls, hparts⟩ := answers_handleFrames (handleFrames_ok (s := s) ht payloads)
  obtain ⟨texts, -, hlen, hwritten⟩ := exists_texts hparts
  rw [hcalls, hwritten, List.length_map, hlen]

variable (wire s)

/-- Reads within the limit have their frames handled. -/
theorem clientLoop_noneExceeds (hchunks : ∀ c ∈ chunks, c.bytes ≠ []) (hnone : NoneExceeds chunks) :
    (handleVarlinkClient wire (chunks.map fun c => .read (.ok c))).run exec s =
      (.waiting (Delimited.rest 0 (bytesOf chunks)),
        ((handleFrames wire (Delimited.frames 0 (bytesOf chunks))).run exec s).2) ∧
    (handleVarlinkClient wire (chunks.map fun c => .read (.ok c))).calls exec s =
      (handleFrames wire (Delimited.frames 0 (bytesOf chunks))).calls exec s := by
  induction chunks using List.reverseRecOn with
  | nil => exact ⟨rfl, rfl⟩
  | append_singleton chunks last ih =>
    obtain ⟨hnone', hlast⟩ := noneExceeds_append_singleton.1 hnone
    obtain ⟨hrun, hcalls⟩ := ih (fun c hc => hchunks c (List.mem_append_left _ hc)) hnone'
    have hbytes : bytesOf (chunks ++ [last]) = bytesOf chunks ++ last.bytes := by
      simp [bytesOf]
    have hnonempty : last.bytes ≠ [] := hchunks last (by simp)
    have hfits : ¬ MAX_MSG_BYTES < (Delimited.rest 0 (bytesOf chunks) ++ last.bytes).length := hlast
    rw [hbytes, Delimited.rest_append, Delimited.frames_append, (handleFrames_append ht ..).1,
      (handleFrames_append ht ..).2, List.map_append, handleVarlinkClient, clientLoop_append,
      Program.run_bind, Program.calls_bind]
    rw [handleVarlinkClient] at hrun hcalls
    rw [hrun, hcalls]
    dsimp only
    rw [List.map_singleton, clientLoop, if_neg hnonempty, if_neg hfits, processMessages_eq, Program.run_bind,
      Program.run_bind, Program.calls_bind, Program.calls_bind, Program.run_bind,
      handleFrames_ok ht]
    refine ⟨rfl, congrArg _ ?_⟩
    simp [clientLoop, Program.calls]

/-- The first read that exceeds the limit closes the connection. -/
theorem clientLoop_exceeds (hchunks : ∀ c ∈ before ++ chunk :: after, c.bytes ≠ [])
    (hnone : NoneExceeds before) (hexceeds : Exceeds before chunk) :
    ((handleVarlinkClient wire ((before ++ chunk :: after).map fun c => .read (.ok c))).run exec s).1 =
      .exceeded ∧
    written ((handleVarlinkClient wire
        ((before ++ chunk :: after).map fun c => .read (.ok c))).calls exec s) =
      written ((handleFrames wire (Delimited.frames 0 (bytesOf before))).calls exec s) ++
        [protocolError.toBytes wire.floatText] := by
  have hnonempty : chunk.bytes ≠ [] := hchunks chunk (by simp)
  have hlong : MAX_MSG_BYTES < (Delimited.rest 0 (bytesOf before) ++ chunk.bytes).length := hexceeds
  obtain ⟨hrun, hcalls⟩ := clientLoop_noneExceeds wire s ht
    (fun c hc => hchunks c (List.mem_append_left _ hc)) hnone
  rw [handleVarlinkClient] at hrun hcalls
  rw [List.map_append, handleVarlinkClient, clientLoop_append, Program.run_bind,
    Program.calls_bind, hrun, hcalls]
  dsimp only
  rw [List.map_cons, clientLoop, if_neg hnonempty, if_pos hlong, written_append]
  exact ⟨rfl, rfl⟩

end Takes

/-! ### Streams in pieces -/

/-- A stream in pieces, as the reads on a connection take it. -/
structure Splitting (stream : Bytes) where
  chunks : List Chunk
  nonempty : ∀ c ∈ chunks, c.bytes ≠ []
  whole : bytesOf chunks = stream

/-- A daemon, and what it is asked through one connection. -/
structure Service where
  wire : WireLibrary
  json : JsonLibrary
  ctx : ModelServiceContext
  state : Fs

namespace Service

variable (service : Service) (t t' : Splitting stream)

/-- The connection loop on the pieces of a stream. -/
def loop : Conn Outcome :=
  handleVarlinkClient service.wire (t.chunks.map fun c => .read (.ok c))

/-- How the loop stands when the pieces are taken. -/
def outcome : Outcome := ((service.loop t).run (serveAlone service.json service.ctx) service.state).1

/-- What it has written. -/
def replies : List Bytes :=
  written ((service.loop t).calls (serveAlone service.json service.ctx) service.state)

/-- The connection is aborted if and only if the stream has a frame that is too long, and then the
frame that the abort cuts off, the one behind those that were answered, is too long. -/
def KeepsLimit : Prop :=
  (service.outcome t = .exceeded ↔ HasTooLong stream) ∧
    (service.outcome t = .exceeded →
      ∀ n, (Delimited.sizes 0 stream)[(service.replies t).length - 1]? = some n → MAX_MSG_BYTES < n)

end Service

/-- The first read that exceeds the limit, if any, goes on with a frame that is too long. -/
def Splitting.InTime (t : Splitting stream) : Prop :=
  ∀ before chunk after, t.chunks = before ++ chunk :: after → NoneExceeds before →
    Exceeds before chunk →
      ∀ n, (Delimited.sizes 0 stream)[(Delimited.frames 0 (bytesOf before)).length]? = some n →
        MAX_MSG_BYTES < n

theorem takes_serveAlone (json : JsonLibrary) (ctx : ModelServiceContext) :
    Takes (serveAlone json ctx) := ⟨fun _ _ => rfl, fun _ => rfl⟩

/-- Frames of a part of a stream come first in the stream. -/
theorem sizes_getElem? {s t : Bytes} {i : Nat} (hi : i < (Delimited.frames 0 s).length) :
    ∃ n ∈ Delimited.sizes 0 s, (Delimited.sizes 0 (s ++ t))[i]? = some n := by
  have hlen : i < ((Delimited.frames (0 : UInt8) s).map fun f => (Delimited.close 0 f).length).length := by
    rwa [List.length_map]
  refine ⟨_, List.mem_append_left _ (List.getElem_mem hlen), ?_⟩
  rw [Delimited.sizes_append, List.getElem?_append_left hlen, List.getElem?_eq_getElem hlen]

theorem frames_length_lt_sizes (s t : Bytes) :
    (Delimited.frames 0 s).length < (Delimited.sizes 0 (s ++ t)).length := by
  rw [Delimited.sizes_append, List.length_append, List.length_map, Delimited.sizes,
    List.length_append, List.length_singleton]
  omega

variable (service : Service) {t t' : Splitting stream}

/-- A stream within the limit at every read is answered whole. -/
theorem Service.of_noneExceeds (hnone : NoneExceeds t.chunks) :
    service.outcome t = .waiting (Delimited.rest 0 stream) ∧ service.replies t =
      written ((handleFrames service.wire (Delimited.frames 0 stream)).calls
        (serveAlone service.json service.ctx) service.state) := by
  obtain ⟨hrun, hcalls⟩ := clientLoop_noneExceeds service.wire service.state
    (takes_serveAlone service.json service.ctx) t.nonempty hnone
  rw [t.whole] at hrun hcalls
  exact ⟨congrArg Prod.fst hrun, congrArg written hcalls⟩

/-- Otherwise what comes before the first read that exceeds the limit is answered. -/
theorem Service.of_exceeds {before after : List Chunk} {chunk : Chunk}
    (hchunks : t.chunks = before ++ chunk :: after) (hnone : NoneExceeds before)
    (hexceeds : Exceeds before chunk) :
    service.outcome t = .exceeded ∧ service.replies t =
      written ((handleFrames service.wire (Delimited.frames 0 (bytesOf before))).calls
        (serveAlone service.json service.ctx) service.state) ++
          [protocolError.toBytes service.wire.floatText] := by
  have hnonempty : ∀ c ∈ before ++ chunk :: after, c.bytes ≠ [] := hchunks ▸ t.nonempty
  have hboth := clientLoop_exceeds service.wire service.state
    (takes_serveAlone service.json service.ctx) hnonempty hnone hexceeds
  rwa [← hchunks] at hboth

/-- The replies before an abort, and the one that tells of it. -/
theorem Service.length_replies {before after : List Chunk} {chunk : Chunk}
    (hchunks : t.chunks = before ++ chunk :: after) (hnone : NoneExceeds before)
    (hexceeds : Exceeds before chunk) :
    (service.replies t).length - 1 = (Delimited.frames 0 (bytesOf before)).length := by
  rw [(service.of_exceeds hchunks hnone hexceeds).2, List.length_append,
    length_written_handleFrames (takes_serveAlone ..), List.length_singleton, Nat.add_sub_cancel]

theorem Splitting.stream_eq {before after : List Chunk} {chunk : Chunk}
    (hchunks : t.chunks = before ++ chunk :: after) :
    stream = bytesOf before ++ bytesOf (chunk :: after) := by
  rw [← t.whole, hchunks, bytesOf_append]

/-- The frame that the first read that exceeds the limit goes on with. -/
theorem Splitting.exists_size {before after : List Chunk} {chunk : Chunk}
    (hchunks : t.chunks = before ++ chunk :: after) :
    ∃ n, (Delimited.sizes 0 stream)[(Delimited.frames 0 (bytesOf before)).length]? = some n := by
  rw [t.stream_eq hchunks]
  exact ⟨_, List.getElem?_eq_getElem (frames_length_lt_sizes ..)⟩

/-- Whether a splitting keeps the limit is decided by its first read that exceeds it. -/
theorem Service.keepsLimit_iff : service.KeepsLimit t ↔ t.InTime := by
  constructor
  · rintro ⟨-, hcut⟩ before chunk after hchunks hnone hexceeds n hn
    rw [← service.length_replies hchunks hnone hexceeds] at hn
    exact hcut (service.of_exceeds hchunks hnone hexceeds).1 n hn
  · intro hin
    have hwaits : NoneExceeds t.chunks → service.outcome t ≠ .exceeded := by
      intro hnone
      rw [(service.of_noneExceeds hnone).1]
      exact nofun
    refine ⟨⟨fun hout => ?_, fun hlong => ?_⟩, fun hout n hn => ?_⟩
    · rcases noneExceeds_or_first t.chunks with hnone | ⟨before, chunk, after, hchunks, hnone, hex⟩
      · exact absurd hout (hwaits hnone)
      · obtain ⟨n, hn⟩ := t.exists_size hchunks
        exact ⟨n, List.mem_of_getElem? hn, hin before chunk after hchunks hnone hex n hn⟩
    · rw [← t.whole] at hlong
      obtain ⟨before, chunk, after, hchunks, hnone, hex⟩ := hlong.first
      exact (service.of_exceeds hchunks hnone hex).1
    · rcases noneExceeds_or_first t.chunks with hnone | ⟨before, chunk, after, hchunks, hnone, hex⟩
      · exact absurd hout (hwaits hnone)
      · rw [service.length_replies hchunks hnone hex] at hn
        exact hin before chunk after hchunks hnone hex n hn

/-- The first frame that is too long is at one place. -/
private theorem length_le_of_inTime {before after before' after' : List Chunk} {chunk chunk' : Chunk}
    (hin : t.InTime) (hchunks : t.chunks = before ++ chunk :: after) (hnone : NoneExceeds before)
    (hexceeds : Exceeds before chunk) (hchunks' : t'.chunks = before' ++ chunk' :: after')
    (hnone' : NoneExceeds before') :
    (Delimited.frames 0 (bytesOf before')).length ≤ (Delimited.frames 0 (bytesOf before)).length := by
  by_contra hlt
  obtain ⟨n, hn, hat⟩ := sizes_getElem? (t := bytesOf (chunk' :: after')) (Nat.not_le.1 hlt)
  rw [← t'.stream_eq hchunks'] at hat
  have hlong := hin before chunk after hchunks hnone hexceeds n hat
  exact absurd (hnone'.sizes_le n hn) (Nat.not_le.2 hlong)

/-- Splittings of one stream that keep the limit are answered alike. -/
theorem Service.replies_eq (hin : t.InTime) (hin' : t'.InTime) :
    service.replies t = service.replies t' := by
  have hkeeps := service.keepsLimit_iff.2 hin
  have hkeeps' := service.keepsLimit_iff.2 hin'
  rcases noneExceeds_or_first t.chunks with hnone | ⟨before, chunk, after, hchunks, hnone, hex⟩ <;>
    rcases noneExceeds_or_first t'.chunks with hnone' | ⟨before', chunk', after', hchunks', hnone', hex'⟩
  · rw [(service.of_noneExceeds hnone).2, (service.of_noneExceeds hnone').2]
  · have hlong := hkeeps'.1.1 (service.of_exceeds hchunks' hnone' hex').1
    have hout := hkeeps.1.2 hlong
    rw [(service.of_noneExceeds hnone).1] at hout
    cases hout
  · have hlong := hkeeps.1.1 (service.of_exceeds hchunks hnone hex).1
    have hout := hkeeps'.1.2 hlong
    rw [(service.of_noneExceeds hnone').1] at hout
    cases hout
  · have hlen : (Delimited.frames (0 : UInt8) (bytesOf before)).length =
        (Delimited.frames 0 (bytesOf before')).length :=
      Nat.le_antisymm (length_le_of_inTime hin' hchunks' hnone' hex' hchunks hnone)
        (length_le_of_inTime hin hchunks hnone hex hchunks' hnone')
    have hstream := (t.stream_eq hchunks).symm.trans (t'.stream_eq hchunks')
    have hframes := congrArg (Delimited.frames 0) hstream
    rw [Delimited.frames_append (bytesOf before), Delimited.frames_append (bytesOf before')] at hframes
    rw [(service.of_exceeds hchunks hnone hex).2, (service.of_exceeds hchunks' hnone' hex').2,
      List.append_inj_left hframes hlen]

/-- Two splittings of a stream are answered alike and by its frames, if and only if in each of them
the first read that exceeds the limit goes on with a frame that does. -/
theorem limit_kept_iff (service : Service) (stream : Bytes) (t t' : Splitting stream) :
    (service.KeepsLimit t ∧ service.KeepsLimit t' ∧ service.replies t = service.replies t') ↔
      t.InTime ∧ t'.InTime := by
  constructor
  · rintro ⟨hkeeps, hkeeps', -⟩
    exact ⟨service.keepsLimit_iff.1 hkeeps, service.keepsLimit_iff.1 hkeeps'⟩
  · rintro ⟨hin, hin'⟩
    exact ⟨service.keepsLimit_iff.2 hin, service.keepsLimit_iff.2 hin', service.replies_eq hin hin'⟩

/-! ### A sample stream -/

/-- Reads that bring no more than the limit allows do not exceed it. -/
theorem noneExceeds_of_length (h : (bytesOf chunks).length ≤ MAX_MSG_BYTES) : NoneExceeds chunks := by
  rintro before chunk after rfl hexceeds
  have hrest : (Delimited.rest (0 : UInt8) (bytesOf before)).length ∈
      Delimited.sizes 0 (bytesOf before) := by simp [Delimited.sizes]
  have hle := Delimited.length_of_mem_sizes hrest
  rw [Exceeds, List.length_append] at hexceeds
  rw [bytesOf_append, bytesOf_cons, List.length_append, List.length_append] at h
  omega

/-- A read of one byte over and over. -/
def sameChunk (n : Nat) (h : n ≤ READ_CHUNK_BYTES) : Chunk := ⟨List.replicate n 0x78, by simpa using h⟩

/-- A first read of one byte, and full reads. -/
def sampleBefore (reads : Nat) : List Chunk :=
  sameChunk 1 (by decide) :: List.replicate reads (sameChunk READ_CHUNK_BYTES (Nat.le_refl _))

/-- The end of one message, and another one that is empty. -/
def sampleLast : Chunk := ⟨List.replicate (READ_CHUNK_BYTES - 2) 0x78 ++ [0x00, 0x00], by
  rw [List.length_append, List.length_replicate]
  exact Nat.le_refl _⟩

private theorem bytesOf_sampleBefore (reads : Nat) :
    bytesOf (sampleBefore reads) = List.replicate (1 + reads * READ_CHUNK_BYTES) 0x78 := by
  have hrest : bytesOf (List.replicate reads (sameChunk READ_CHUNK_BYTES (Nat.le_refl _))) =
      List.replicate (reads * READ_CHUNK_BYTES) 0x78 := by
    rw [bytesOf, List.flatMap_replicate]
    exact List.flatten_replicate_replicate
  rw [sampleBefore, bytesOf_cons, hrest, sameChunk, List.replicate_append_replicate]

/-- A message and an empty one behind it. The first read takes one byte, the others are full. -/
def sampleSplitting (reads : Nat) : Splitting (bytesOf (sampleBefore reads ++ [sampleLast])) where
  chunks := sampleBefore reads ++ [sampleLast]
  nonempty := by
    intro c hc
    simp only [sampleBefore, List.cons_append, List.mem_cons, List.mem_append, List.mem_replicate,
      List.not_mem_nil, or_false] at hc
    rcases hc with rfl | ⟨-, rfl⟩ | rfl
    · exact List.cons_ne_nil _ _
    · exact List.cons_ne_nil _ _
    · exact List.append_ne_nil_of_right_ne_nil _ (List.cons_ne_nil _ _)
  whole := rfl

/-- A stream that aborts its connection although its two messages are within the limit, the first one
just so. -/
theorem sample_exceeds :
    ¬ HasTooLong (bytesOf (sampleBefore 1023 ++ [sampleLast])) ∧
      ∀ service : Service, service.outcome (sampleSplitting 1023) = .exceeded := by
  have hbefore := bytesOf_sampleBefore 1023
  have hsame : ∀ n : Nat, (0 : UInt8) ∉ List.replicate n 0x78 := by
    intro n hmem
    exact absurd (List.eq_of_mem_replicate hmem) (by decide)
  constructor
  · have hstream : bytesOf (sampleBefore 1023 ++ [sampleLast]) =
        List.replicate (1 + 1023 * READ_CHUNK_BYTES + (READ_CHUNK_BYTES - 2)) 0x78 ++
          0 :: ([] ++ 0 :: []) := by
      have hlast : bytesOf [sampleLast] = sampleLast.bytes := List.append_nil _
      rw [bytesOf_append, hbefore, hlast, sampleLast,
        ← List.replicate_append_replicate (n := 1 + 1023 * READ_CHUNK_BYTES), List.append_assoc,
        List.nil_append]
    rw [hstream]
    rintro ⟨n, hn, hlong⟩
    rw [Delimited.sizes, Delimited.frames_cons (hsame _), Delimited.frames_cons List.not_mem_nil,
      Delimited.rest_cons, Delimited.rest_cons, Delimited.rest_of_not_mem List.not_mem_nil,
      Delimited.frames_of_not_mem List.not_mem_nil] at hn
    simp only [List.map_cons, List.map_nil, Delimited.close, List.length_append,
      List.length_replicate, List.length_cons, List.length_nil, List.cons_append, List.nil_append,
      List.mem_cons, List.not_mem_nil, or_false] at hn
    rw [MAX_MSG_BYTES] at hlong
    rw [READ_CHUNK_BYTES] at hn
    omega
  · intro service
    refine (service.of_exceeds rfl (noneExceeds_of_length ?_) ?_).1
    · rw [hbefore, List.length_replicate]
      decide
    · rw [Exceeds, hbefore, Delimited.rest_of_not_mem (hsame _), sampleLast, List.length_append,
        List.length_append, List.length_replicate, List.length_replicate]
      decide

end Modeld
