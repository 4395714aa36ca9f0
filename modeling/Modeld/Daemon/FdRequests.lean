import Modeld.Daemon.FdTrust

/-!
# One request a connection

However the reads cut the stream, the first request of a trusted peer is answered. What else is in the
buffer by then is dropped with it.
-/

namespace Modeld

open Host

variable {lib : JsonLibrary} {policy : TrustedGroupConfig} {cas : CasStore} {tags : TagRegistry}
  {chunks : List FdChunk} {frames : List Bytes} {f t scratch : Bytes} {w : FdWorld}

/-- Reads that bring a stream. None of them is the end. -/
structure Cuts (chunks : List FdChunk) (stream : Bytes) : Prop where
  joined : chunks.flatMap FdChunk.bytes = stream
  nonempty : ∀ chunk ∈ chunks, chunk.bytes ≠ []

/-- A connection that brings these reads and has sent nothing yet. -/
def FdWorld.bringing (w : FdWorld) (chunks : List FdChunk) : FdWorld :=
  { w with arrivals := chunks, sent := [] }

section Alone

variable (lib policy cas tags)

/-- What the connection comes to. -/
def served (w : FdWorld) (chunks : List FdChunk) : FdOutcome × FdWorld :=
  (handleFdConnection lib policy cas tags).run FdWorld.exec (w.bringing chunks)

/-- What a request is answered that is alone on its connection. -/
def AnsweredAlone (w : FdWorld) (frame : Bytes) (answer : List FdSent) : Prop :=
  ∀ chunks, Cuts chunks (Delimited.close 0 frame) →
    (served lib policy cas tags w chunks).2.sent = answer

/-- All requests are taken up, in order, and each is answered as it is alone. -/
def AnswersAll (w : FdWorld) (frames : List Bytes) (chunks : List FdChunk) : Prop :=
  (served lib policy cas tags w chunks).1.requests = frames ∧
    ∃ answers, List.Forall₂ (AnsweredAlone lib policy cas tags w) frames answers ∧
      (served lib policy cas tags w chunks).2.sent = answers.flatten

end Alone

/-! ### Reading -/

/-- A stream that holds a frame, cut after a part that has its terminator. -/
theorem drainMessage_part {part rest : Bytes} (hf : 0 ∉ f) (hpart : 0 ∈ part)
    (hjoined : part ++ rest = f ++ 0 :: t) : ∃ left, drainMessage part = some (Delimited.close 0 f, left) := by
  obtain ⟨f', t', rfl, hf'⟩ := List.eq_append_cons_of_mem hpart
  have hframes := congrArg (Delimited.frames 0) hjoined
  rw [List.append_assoc, List.cons_append, Delimited.frames_cons hf', Delimited.frames_cons hf] at hframes
  obtain rfl : f' = f := (List.cons.inj hframes).1
  exact ⟨t', drainMessage_cons hf'⟩

/-- A part without the terminator is not longer than the frame. -/
theorem length_le_of_not_mem {part rest : Bytes} (hpart : 0 ∉ part)
    (hjoined : part ++ rest = f ++ 0 :: t) : part.length ≤ f.length := by
  by_contra hlong
  have hget : (part ++ rest)[f.length]? = some 0 := by
    rw [hjoined, List.getElem?_append_right (Nat.le_refl _), Nat.sub_self]
    rfl
  rw [List.getElem?_append_left (by omega)] at hget
  exact hpart (List.mem_of_getElem? hget)

theorem run_select_cons {α : Type} {chunk : FdChunk} {rest : List FdChunk} {k : FdSelected → Fd α}
    (harrivals : w.arrivals = chunk :: rest) : (Fd.select >>= k).run FdWorld.exec w =
      (k (.read (.ok chunk))).run FdWorld.exec { w with arrivals := rest } := by
  have hexec : FdWorld.exec .select w = (.read (.ok chunk), { w with arrivals := rest }) := by
    simp only [FdWorld.exec, harrivals]
  show (k (FdWorld.exec .select w).1).run FdWorld.exec (FdWorld.exec .select w).2 = _
  rw [hexec]

/-- The first frame is read, whatever the cuts. -/
theorem run_readFramedRequest (hf : 0 ∉ f) (hfits : f.length ≤ MAX_FD_REQUEST_BYTES)
    (hscratch : 0 ∉ scratch) (hne : ∀ chunk ∈ chunks, chunk.bytes ≠ [])
    (hjoined : scratch ++ chunks.flatMap FdChunk.bytes = f ++ 0 :: t) (harrivals : w.arrivals = chunks) :
    ∃ rest, (readFramedRequest scratch).run FdWorld.exec w = (.request f, { w with arrivals := rest }) := by
  induction chunks generalizing scratch w with
  | nil =>
    rw [List.flatMap_nil, List.append_nil] at hjoined
    exact absurd (hjoined ▸ List.mem_append_right f (List.mem_cons_self ..)) hscratch
  | cons chunk rest ih =>
    rw [List.flatMap_cons, ← List.append_assoc] at hjoined
    rw [readFramedRequest, run_select_cons harrivals]
    dsimp only
    rw [dif_neg (hne chunk (List.mem_cons_self ..))]
    by_cases hzero : 0 ∈ scratch ++ chunk.bytes
    · obtain ⟨left, hdrain⟩ := drainMessage_part hf hzero hjoined
      rw [hdrain]
      dsimp only
      rw [Delimited.close, List.dropLast_concat]
      exact ⟨rest, rfl⟩
    · have hshort := length_le_of_not_mem hzero hjoined
      rw [drainMessage_of_not_mem hzero]
      dsimp only
      rw [dif_neg (by omega)]
      exact ih hzero (fun c hc => hne c (List.mem_cons_of_mem _ hc)) hjoined rfl

/-! ### Answering -/

/-- What does not read from the connection. -/
def FdCall.Silent : FdCall → Prop
  | .select => False
  | _ => True

theorem only_ofIo {α : Type} (p : Io α) : Program.Only FdCall.Silent (Fd.ofIo p) := by
  induction p with
  | done a => exact Program.only_done a
  | call o k ih => exact Program.Only.perform trivial ih

theorem only_answerRequest {payload : Bytes} :
    Program.Only FdCall.Silent (answerRequest lib cas tags payload) := by
  unfold answerRequest
  split
  · exact Program.only_done _
  refine (only_ofIo _).bind fun r => ?_
  cases r with
  | error e => exact Program.only_done _
  | ok reply =>
    have hreply : Program.Only FdCall.Silent (sendReply lib reply) := by
      cases reply <;> exact Program.only_perform trivial
    refine hreply.bind fun r => ?_
    cases r <;> exact Program.only_done _

/-- What does not read comes to the same whatever arrives. -/
theorem run_arrivals {α : Type} {p : Fd α} (hp : Program.Only FdCall.Silent p) (w : FdWorld)
    (arrivals : List FdChunk) : p.run FdWorld.exec { w with arrivals := arrivals } =
      ((p.run FdWorld.exec w).1, { (p.run FdWorld.exec w).2 with arrivals := arrivals }) := by
  induction p generalizing w with
  | done a => rfl
  | call o k ih =>
    rw [Program.Only, Program.keeps_call] at hp
    have hexec : FdWorld.exec o { w with arrivals := arrivals } =
        ((FdWorld.exec o w).1, { (FdWorld.exec o w).2 with arrivals := arrivals }) := by
      cases o with
      | select => exact hp.1.elim
      | _ => rfl
    rw [Program.run_call, Program.run_call, hexec]
    exact ih _ (hp.2 _ trivial) _

/-! ### A connection of a trusted peer -/

theorem run_isAuthorized (htrusts : policy.Trusts w.groupFile w.peer.1 w.peer.2) :
    (policy.isAuthorized w.peer).run FdWorld.exec w = (true, w) := by
  have hstate : ((policy.check w.peer.1 w.peer.2).run FdWorld.exec w).2 = w := by
    unfold TrustedGroupConfig.check
    split
    · rfl
    have hgid : (policy.trustedGid.run FdWorld.exec w).2 = w := by
      unfold TrustedGroupConfig.trustedGid
      cases policy.trustedGidOverride <;> rfl
    rw [Program.run_bind, TrustedGroupConfig.run_trustedGid, hgid]
    cases policy.trustedGidOverride.or _ <;> rfl
  exact Prod.ext (TrustedGroupConfig.run_check.2 htrusts) hstate

theorem served_trusted (htrusts : policy.Trusts w.groupFile w.peer.1 w.peer.2) :
    served lib policy cas tags w chunks =
      (serveRequest lib cas tags).run FdWorld.exec (w.bringing chunks) := by
  show ((policy.isAuthorized (w.bringing chunks).peer >>= fun trusted =>
    if trusted = true then serveRequest lib cas tags else refuse lib policy).run FdWorld.exec
      (w.bringing chunks)) = _
  rw [Program.run_bind, run_isAuthorized (w := w.bringing chunks) htrusts]
  rfl

/-- The first request is answered, and the rest of the stream is not looked at. -/
theorem served_frame (htrusts : policy.Trusts w.groupFile w.peer.1 w.peer.2) (hf : 0 ∉ f)
    (hfits : f.length ≤ MAX_FD_REQUEST_BYTES) (hcuts : Cuts chunks (f ++ 0 :: t)) :
    (served lib policy cas tags w chunks).1.requests = [f] ∧
      (served lib policy cas tags w chunks).2.sent =
        ((answerRequest lib cas tags f).run FdWorld.exec (w.bringing [])).2.sent := by
  obtain ⟨rest, hread⟩ := run_readFramedRequest (w := w.bringing chunks) hf hfits List.not_mem_nil
    hcuts.nonempty ((List.nil_append _).trans hcuts.joined) rfl
  rw [served_trusted htrusts, serveRequest, Program.run_bind, hread]
  dsimp only
  rw [Program.run_bind]
  refine ⟨rfl, ?_⟩
  show ((answerRequest lib cas tags f).run FdWorld.exec { w.bringing [] with arrivals := rest }).2.sent = _
  rw [run_arrivals only_answerRequest]

/-- No more than one request is taken up. -/
theorem FdOutcome.length_requests_le (outcome : FdOutcome) : outcome.requests.length ≤ 1 := by
  cases outcome <;> exact Nat.le_of_ble_eq_true rfl

theorem Cuts.eq_nil (hcuts : Cuts chunks []) : chunks = [] := by
  cases chunks with
  | nil => rfl
  | cons chunk rest =>
    have hjoined := hcuts.joined
    rw [List.flatMap_cons, List.append_eq_nil_iff] at hjoined
    exact absurd hjoined.1 (hcuts.nonempty chunk (List.mem_cons_self ..))

/-- All requests of a trusted peer are answered if and only if there is at most one. -/
theorem requests_answered_iff (lib : JsonLibrary) (policy : TrustedGroupConfig) (cas : CasStore)
    (tags : TagRegistry) (w : FdWorld) (frames : List Bytes) (chunks : List FdChunk)
    (htrusts : policy.Trusts w.groupFile w.peer.1 w.peer.2)
    (hframes : ∀ f ∈ frames, 0 ∉ f ∧ f.length ≤ MAX_FD_REQUEST_BYTES)
    (hcuts : Cuts chunks (frames.flatMap (Delimited.close 0))) :
    AnswersAll lib policy cas tags w frames chunks ↔ frames.length ≤ 1 := by
  constructor
  · intro h
    rw [← h.1]
    exact FdOutcome.length_requests_le _
  · intro hlen
    match frames, hlen with
    | [], _ =>
      obtain rfl := hcuts.eq_nil
      rw [AnswersAll, served_trusted htrusts, serveRequest, readFramedRequest]
      exact ⟨rfl, [], .nil, rfl⟩
    | [f], _ =>
      obtain ⟨hf, hfits⟩ := hframes f (List.mem_cons_self ..)
      have halone : ∀ cut, Cuts cut (Delimited.close 0 f) →
          (served lib policy cas tags w cut).1.requests = [f] ∧
            (served lib policy cas tags w cut).2.sent =
              ((answerRequest lib cas tags f).run FdWorld.exec (w.bringing [])).2.sent :=
        fun cut hcut => served_frame htrusts hf hfits hcut
      rw [List.flatMap_cons, List.flatMap_nil, List.append_nil] at hcuts
      obtain ⟨hrequests, hsent⟩ := halone chunks hcuts
      refine ⟨hrequests, [_], .cons (fun cut hcut => (halone cut hcut).2) .nil, ?_⟩
      rw [hsent, List.flatten_cons, List.flatten_nil, List.append_nil]

/-- The text of a request. -/
def tinyRequest : Bytes := Text.toBytes "\x7b\"id\":\"tiny\"\x7d"

/-- A library that knows this request only. -/
def tinyRequestLibrary : JsonLibrary where
  fromSlice text := if text = tinyRequest then .ok (.obj [("id", .str "tiny")])
    else .error "expected value at line 1 column 1"
  floatText _ := "0.0"

/-- Root, on a daemon that has no models. -/
def rootWorld : FdWorld := { strangerWorld [] with peer := (0, 0) }

/-- One request, cut in two. -/
theorem cut_request_answered : AnswersAll tinyRequestLibrary modeldPolicy ⟨[]⟩ (TagRegistry.ofRoot [])
    rootWorld [tinyRequest] [⟨tinyRequest.take 3, by decide +kernel⟩,
      ⟨tinyRequest.drop 3 ++ [0x00], by decide +kernel⟩] :=
  (requests_answered_iff _ _ _ _ _ _ _ (.inl rfl) (by decide +kernel)
    ⟨by decide +kernel, by decide +kernel⟩).2 (Nat.le_refl 1)

/-- Two requests in one read. -/
theorem pipelined_request_lost : ¬ ∀ (lib : JsonLibrary) (policy : TrustedGroupConfig) (cas : CasStore)
    (tags : TagRegistry) (w : FdWorld) (frames : List Bytes) (chunks : List FdChunk),
    policy.Trusts w.groupFile w.peer.1 w.peer.2 →
    (∀ f ∈ frames, 0 ∉ f ∧ f.length ≤ MAX_FD_REQUEST_BYTES) →
    Cuts chunks (frames.flatMap (Delimited.close 0)) → AnswersAll lib policy cas tags w frames chunks := by
  intro hall
  have hboth := hall tinyRequestLibrary modeldPolicy ⟨[]⟩ (TagRegistry.ofRoot []) rootWorld
    [tinyRequest, tinyRequest]
    [⟨Delimited.close 0 tinyRequest ++ Delimited.close 0 tinyRequest, by decide +kernel⟩]
    (.inl rfl) (by decide +kernel) ⟨by decide +kernel, by decide +kernel⟩
  have hlen := FdOutcome.length_requests_le (served tinyRequestLibrary modeldPolicy ⟨[]⟩
    (TagRegistry.ofRoot []) rootWorld
    [⟨Delimited.close 0 tinyRequest ++ Delimited.close 0 tinyRequest, by decide +kernel⟩]).1
  rw [hboth.1] at hlen
  exact absurd hlen (by decide)

end Modeld
