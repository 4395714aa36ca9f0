import Modeld.Ctl.Network

/-!
# How connections stand

In every run of a network, each connection stands in one of a few ways: no call is under way, or one
is, or its reply is. A step takes it from one to another, or answers a call.
-/

namespace Modeld

open Host Program

variable {ι σ α : Type} {wire : WireLibrary} {json : JsonLibrary}

/-- Nothing is under way to the daemon, or its loop has returned, on `closable` connections only. -/
def Link.Quiet (closable : Prop) (link : Link) : Prop :=
  (link.server = .waiting [] ∧ link.toServer = []) ∨ (closable ∧ link.Closed)

theorem Link.Quiet.weaken {closable : Prop} {link : Link} (h : link.Quiet closable) :
    link.Quiet True := h.imp id (And.imp_left fun _ => trivial)

/-- The client has asked, and awaits the reply, of which it has read so much. -/
def Awaits (wire : WireLibrary) (json : JsonLibrary) (k : Json → Script α) (p : Client (Except String α))
    (replyBuf : Bytes) : Prop :=
  (p = flushing wire json k ∧ replyBuf = []) ∨ p = reading wire json k replyBuf

/-- How a connection stands: its client, the link, and the client if it were answered at once. -/
inductive Standing (wire : WireLibrary) (json : JsonLibrary) (may : Prop) :
    Client (Except String α) → Link → Script.After α → Prop
  | ready {q : Ask} {k : Json → Script α} {link : Link} (hfits : Script.Fits wire (.call q k))
      (hquiet : link.Quiet may) (hnone : link.toClient = []) :
    Standing wire json may (Script.onSocket wire json (.call q k)) link (Script.atOnce (.call q k))
  | asked {q : Ask} {k : Json → Script α} {p : Client (Except String α)} {link : Link}
      (hfits : Script.Fits wire (.call q k)) (hp : Awaits wire json k p []) (hnone : link.toClient = [])
      (hcall : (∃ buffer, link.server = .waiting buffer ∧ 0 ∉ buffer ∧
        buffer ++ link.toServer = callText wire q.method q.parameters ++ [0]) ∨ (may ∧ link.Closed)) :
    Standing wire json may p link (Script.atOnce (.call q k))
  | answered {k : Json → Script α} {p : Client (Except String α)} {link : Link} {text replyBuf : Bytes}
      (hfits : ∀ value, Script.Fits wire (k value)) (hp : Awaits wire json k p replyBuf)
      (htext : 0 ∉ text) (hbuf : 0 ∉ replyBuf) (hlen : replyBuf.length ≤ MAX_REPLY_BYTES)
      (hquiet : link.Quiet may)
      (hreply : replyBuf ++ link.toClient = text ++ [0] ∨
        (may ∧ link.Closed ∧ replyBuf ++ link.toClient <+: text ++ [0])) :
    Standing wire json may p link (Script.resume k (textResult json text))
  | finished {r : Except String α} {link : Link} {d : Script.After α}
      (hd : d = .done r ∨ (may ∧ ∃ e, r = .error e)) (hquiet : link.Quiet True) :
    Standing wire json may (.done r) link d
  | givenUp {q : Ask} {k : Json → Script α} {e : String} {link : Link} {buffer : Bytes}
      (hfits : Script.Fits wire (.call q k)) (hmay : may) (hserver : link.server = .waiting buffer)
      (hcall : buffer ++ link.toServer <+: callText wire q.method q.parameters ++ [0]) :
    Standing wire json may (.done (.error e)) link (Script.atOnce (.call q k))

/-- A client that starts. -/
theorem standing_start {may : Prop} (script : Script α) {link : Link} (hfits : Script.Fits wire script)
    (hquiet : link.Quiet may) (hnone : link.toClient = []) :
    Standing wire json may (Script.onSocket wire json script) link (Script.atOnce script) := by
  cases script with
  | done a => exact .finished (.inl rfl) hquiet.weaken
  | call q k => exact .ready hfits hquiet hnone

/-- There is no terminator in the text of a call. -/
theorem zero_not_mem_callText (wire : WireLibrary) (method : String) (parameters : Option Json) :
    0 ∉ callText wire method parameters :=
  Text.zero_not_mem_toBytes (Json.nul_not_mem_text wire.floatText_nulFree _)

/-! ### The client's steps -/

section ClientSteps

variable {may : Prop} {link link' : Link} {k : Json → Script α} {replyBuf text : Bytes}

/-- The client takes a whole reply. -/
theorem Standing.take (hfits : ∀ value, Script.Fits wire (k value))
    (hlen : text.length ≤ MAX_REPLY_BYTES) (hquiet : link.Quiet may) (hnone : link.toClient = []) :
    Standing wire json may (taken wire json k (.ok text)) link
      (Script.resume k (textResult json text)) := by
  rw [taken, textResult, if_pos hlen]
  cases json.fromSlice text with
  | error e => exact .finished (.inl rfl) hquiet.weaken
  | ok reply =>
    dsimp only
    cases replyResult reply with
    | error e => exact .finished (.inl rfl) hquiet.weaken
    | ok value => exact standing_start (k value) (hfits value) hquiet hnone

/-- What is left of a reply begins with the byte that is read. -/
private theorem reply_cases {byte : UInt8} {rest : Bytes} (htext : 0 ∉ text)
    (h : replyBuf ++ byte :: rest <+: text ++ [0]) :
    (byte = 0 ∧ replyBuf = text ∧ rest = []) ∨ (byte ≠ 0 ∧ replyBuf.length < text.length) := by
  have hlen := h.length_le
  rw [List.append_cons] at h
  rcases List.prefix_concat_iff.1 ((List.prefix_append _ rest).trans h) with heq | hin
  · obtain ⟨rfl, hbyte⟩ := List.append_inj' heq rfl
    refine .inl ⟨List.head_eq_of_cons_eq hbyte, rfl, ?_⟩
    simp only [List.length_append, List.length_cons, List.length_nil] at hlen
    exact List.eq_nil_of_length_eq_zero (by omega)
  · have hmem : byte ∈ text := hin.subset (List.mem_append_right _ (List.mem_singleton_self _))
    have hshorter := hin.length_le
    rw [List.length_append, List.length_singleton] at hshorter
    refine .inr ⟨?_, hshorter⟩
    rintro rfl
    exact htext hmem

/-- A client that reads a byte. -/
theorem Standing.read {byte : UInt8} {rest : Bytes} (hfits : ∀ value, Script.Fits wire (k value))
    (htext : 0 ∉ text) (hbuf : 0 ∉ replyBuf) (hlen : replyBuf.length ≤ MAX_REPLY_BYTES)
    (hquiet : link.Quiet may) (hnext : link.toClient = byte :: rest)
    (hreply : replyBuf ++ link.toClient = text ++ [0] ∨
      (may ∧ link.Closed ∧ replyBuf ++ link.toClient <+: text ++ [0])) :
    Standing wire json may (afterRead wire json k replyBuf (.ok (some byte)))
      { link with toClient := rest } (Script.resume k (textResult json text)) := by
  have hprefix : replyBuf ++ link.toClient <+: text ++ [0] := by
    rcases hreply with heq | ⟨-, -, hprefix⟩
    · exact heq ▸ List.prefix_rfl
    · exact hprefix
  rw [hnext] at hreply hprefix
  dsimp only [afterRead]
  rcases reply_cases htext hprefix with ⟨rfl, rfl, rfl⟩ | ⟨hbyte, hshort⟩
  · rw [if_pos rfl]
    exact Standing.take hfits hlen hquiet rfl
  rw [if_neg hbyte]
  by_cases hfull : MAX_REPLY_BYTES ≤ replyBuf.length
  · rw [if_pos hfull, textResult, if_neg (by omega)]
    exact .finished (.inl rfl) hquiet.weaken
  · rw [if_neg hfull]
    rw [List.append_cons] at hreply
    refine .answered hfits (.inr rfl) htext ?_ ?_ hquiet hreply
    · rw [List.mem_append, not_or, List.mem_singleton]
      exact ⟨hbuf, Ne.symm hbyte⟩
    · rw [List.length_append, List.length_singleton]
      omega

/-- A client that fails. -/
theorem Standing.fail {q : Ask} {e : String} (hmay : may) (hfits : Script.Fits wire (.call q k))
    (hcall : (∃ buffer, link.server = .waiting buffer ∧
      buffer ++ link.toServer <+: callText wire q.method q.parameters ++ [0]) ∨ link.Closed) :
    Standing wire json may (.done (.error e)) link (Script.atOnce (.call q k)) := by
  rcases hcall with ⟨buffer, hserver, hprefix⟩ | hclosed
  · exact .givenUp hfits hmay hserver hprefix
  · exact .finished (.inr ⟨hmay, e, rfl⟩) (.inr ⟨trivial, hclosed⟩)

/-- A client's step answers no call. -/
theorem Standing.client {o : SocketCall} {next : SocketReply o → Client (Except String α)}
    {r : SocketReply o} {d : Script.After α} (h : Standing wire json may (.call o next) link d)
    (hsocket : socket may o link r link') : Standing wire json may (next r) link' d := by
  generalize hp : (Program.call o next : Client (Except String α)) = p at h
  cases h with
  | @ready q k _ hfits hquiet hnone =>
    rw [onSocket_call] at hp
    cases hp
    cases hsocket with
    | write bytes link =>
      refine .asked hfits (.inl ⟨rfl, rfl⟩) hnone ?_
      rcases hquiet with ⟨hserver, hempty⟩ | hclosed
      · refine .inl ⟨[], hserver, List.not_mem_nil, ?_⟩
        dsimp only
        rw [hempty, List.nil_append, List.nil_append]
      · exact .inr hclosed
    | writeFails bytes link n e hmay =>
      refine Standing.fail hmay hfits ?_
      rcases hquiet with ⟨hserver, hempty⟩ | ⟨-, hclosed⟩
      · refine .inl ⟨[], hserver, ?_⟩
        dsimp only
        rw [hempty, List.nil_append, List.nil_append]
        exact List.take_prefix ..
      · exact .inr hclosed
  | @asked q k _ _ hfits hawaits hnone hcall =>
    have hfail : may → ∀ e, Standing wire json may (.done (.error e)) link
        (Script.atOnce (.call q k)) := by
      intro hmay e
      refine Standing.fail hmay hfits (hcall.imp ?_ And.right)
      rintro ⟨buffer, hserver, -, heq⟩
      exact ⟨buffer, hserver, heq ▸ List.prefix_rfl⟩
    rcases hawaits with ⟨rfl, -⟩ | rfl
    · cases hp
      cases hsocket with
      | flush link => exact .asked hfits (.inr rfl) hnone hcall
      | flushFails link e hmay => exact hfail hmay _
    · rw [reading_eq] at hp
      cases hp
      cases hsocket with
      | read hnext =>
        rw [hnone] at hnext
        cases hnext
      | endOfStream hclosed _ =>
        rcases hcall with ⟨buffer, hserver, -, -⟩ | ⟨hmay, -⟩
        · exact absurd hserver (hclosed buffer)
        · exact hfail hmay _
      | readFails link e hmay => exact hfail hmay _
  | @answered k _ _ text replyBuf hfits hawaits htext hbuf hlen hquiet hreply =>
    have hfail : may → ∀ e, Standing wire json may (.done (.error e)) link
        (Script.resume k (textResult json text)) :=
      fun hmay e => .finished (.inr ⟨hmay, e, rfl⟩) hquiet.weaken
    rcases hawaits with ⟨rfl, rfl⟩ | rfl
    · cases hp
      cases hsocket with
      | flush link => exact .answered hfits (.inr rfl) htext hbuf hlen hquiet hreply
      | flushFails link e hmay => exact hfail hmay _
    · rw [reading_eq] at hp
      cases hp
      cases hsocket with
      | read hnext => exact Standing.read hfits htext hbuf hlen hquiet hnext hreply
      | endOfStream hclosed hnone =>
        rcases hreply with heq | ⟨hmay, -, -⟩
        · rcases hquiet with ⟨hserver, -⟩ | ⟨hmay, -⟩
          · exact absurd hserver (hclosed [])
          · exact hfail hmay _
        · exact hfail hmay _
      | readFails link e hmay => exact hfail hmay _
  | finished hd hquiet => cases hp
  | givenUp hfits hmay hserver hcall => cases hp

end ClientSteps

/-! ### The daemon's steps -/

section ServerSteps

variable {may : Prop} {link link' : Link} {p : Client (Except String α)} {d : Script.After α}
  {exec : VarlinkCall → σ → VarlinkReply × σ} {broken : Option (Nat × IoError)} {s : σ}
  {buffer left : Bytes} {selected : Selected}

/-- The loop returns on a connection that may fail. -/
theorem Standing.close (h : Standing wire json may p link d) (hmay : may) (hclosed : link'.Closed)
    (hsame : link'.toClient = link.toClient) (hopen : ¬ link.Closed) :
    Standing wire json may p link' d := by
  cases h with
  | ready hfits hquiet hnone => exact .ready hfits (.inr ⟨hmay, hclosed⟩) (hsame.trans hnone)
  | asked hfits hp hnone hcall => exact .asked hfits hp (hsame.trans hnone) (.inr ⟨hmay, hclosed⟩)
  | answered hfits hp htext hbuf hlen hquiet hreply =>
    refine .answered hfits hp htext hbuf hlen (.inr ⟨hmay, hclosed⟩) (.inr ⟨hmay, hclosed, ?_⟩)
    rcases hreply with heq | ⟨-, hclosed', -⟩
    · rw [hsame, heq]
    · exact absurd hclosed' hopen
  | finished hd hquiet => exact .finished hd (.inr ⟨trivial, hclosed⟩)
  | givenUp hfits _ hserver hcall => exact .finished (.inr ⟨hmay, _, rfl⟩) (.inr ⟨trivial, hclosed⟩)

/-- A client that is done got its results by calls that were answered at once, unless its connection
failed. -/
theorem Standing.result {r : Except String α} (h : Standing wire json may (.done r) link d) :
    d = .done r ∨ (may ∧ ∃ e, r = .error e) := by
  generalize hp : (Program.done r : Client (Except String α)) = p at h
  cases h with
  | ready hfits hquiet hnone =>
    rw [onSocket_call] at hp
    cases hp
  | asked hfits hawaits hnone hcall =>
    rcases hawaits with ⟨rfl, -⟩ | rfl
    · cases hp
    · rw [reading_eq] at hp
      cases hp
  | answered hfits hawaits htext hbuf hlen hquiet hreply =>
    rcases hawaits with ⟨rfl, -⟩ | rfl
    · cases hp
    · rw [reading_eq] at hp
      cases hp
  | finished hd hquiet =>
    cases hp
    exact hd
  | givenUp hfits hmay hserver hcall =>
    cases hp
    exact .inr ⟨hmay, _, rfl⟩

/-- The loop returns when the client has left. -/
theorem Standing.closeLeft {r : Except String α} (h : Standing wire json may (.done r) link d)
    (hclosed : link'.Closed) : Standing wire json may (.done r) link' d :=
  .finished h.result (.inr ⟨trivial, hclosed⟩)

/-- A part of a call ends it, or has no terminator. -/
private theorem call_cases {text part rest : Bytes} (htext : 0 ∉ text)
    (h : part ++ rest <+: text ++ [0]) :
    (rest = [] ∧ part = text ++ [0]) ∨ (0 ∉ part ∧ part.length ≤ text.length) := by
  rcases List.prefix_concat_iff.1 ((List.prefix_append part rest).trans h) with rfl | hin
  · have hlen := h.length_le
    rw [List.length_append] at hlen
    exact .inl ⟨List.eq_nil_of_length_eq_zero (by omega), rfl⟩
  · exact .inr ⟨fun hmem => htext (hin.subset hmem), hin.length_le⟩

/-- The daemon answers a call. -/
theorem Standing.answer {q : Ask} {k : Json → Script α} (hfits : Script.Fits wire (.call q k))
    (hp : Awaits wire json k p []) (hbroken : broken ≠ none → may) (reply : VarlinkReply) :
    Standing wire json may p ⟨[], outcomeOf broken, sentAbout wire reply broken⟩
      (Script.resume k (textResult json (Text.toBytes (reply.text wire.floatText)))) := by
  have htext := VarlinkReply.zero_not_mem_text wire.floatText_nulFree reply
  cases broken with
  | none =>
    exact .answered hfits.2 hp htext List.not_mem_nil (Nat.zero_le _) (.inl ⟨rfl, rfl⟩) (.inl rfl)
  | some failure =>
    have hmay : may := hbroken (Option.some_ne_none _)
    have hclosed : ∀ toClient, (⟨[], outcomeOf (some failure), toClient⟩ : Link).Closed := by
      intro toClient buffer h
      cases h
    exact .answered hfits.2 hp htext List.not_mem_nil (Nat.zero_le _) (.inr ⟨hmay, hclosed _⟩)
      (.inr ⟨hmay, hclosed _, List.take_prefix ..⟩)

/-- Nothing more comes on a connection that is quiet. -/
private theorem not_quiet {closable : Prop} {chunk : Chunk} {rest : Bytes}
    (hquiet : link.Quiet closable) (hserver : link.server = .waiting buffer) (hsome : chunk.bytes ≠ [])
    (hrest : link.toServer = chunk.bytes ++ rest) : False := by
  rcases hquiet with ⟨-, hempty⟩ | ⟨-, hclosed⟩
  · rw [hempty] at hrest
    exact hsome (List.append_eq_nil_iff.1 hrest.symm).1
  · exact hclosed buffer hserver

/-- A turn in which a chunk comes. -/
theorem Standing.chunk {chunk : Chunk} {rest : Bytes} (h : Standing wire json may p link d)
    (hserver : link.server = .waiting buffer) (hsome : chunk.bytes ≠ [])
    (hrest : link.toServer = chunk.bytes ++ rest) (hbroken : broken ≠ none → may) :
    let out := (clientLoop wire [.read (.ok chunk)] buffer).run (serving exec broken) (s, link.toClient)
    (out.2.1 = s ∧ Standing wire json may p ⟨rest, out.1, out.2.2⟩ d) ∨
      ∃ q k, d = Script.atOnce (.call q k) ∧ out.2.1 = (answerAtOnce exec wire json q s).2 ∧
        Standing wire json may p ⟨rest, out.1, out.2.2⟩
          (Script.resume k (answerAtOnce exec wire json q s).1) := by
  intro out
  cases h with
  | ready hfits hquiet hnone => exact (not_quiet hquiet hserver hsome hrest).elim
  | answered hfits hp htext hbuf hlen hquiet hreply => exact (not_quiet hquiet hserver hsome hrest).elim
  | finished hd hquiet => exact (not_quiet hquiet hserver hsome hrest).elim
  | @asked q k _ _ hfits hp hnone hcall =>
    have htext := zero_not_mem_callText wire q.method q.parameters
    obtain ⟨buffer', hserver', -, hwhole⟩ : ∃ buffer', link.server = .waiting buffer' ∧ 0 ∉ buffer' ∧
        buffer' ++ link.toServer = callText wire q.method q.parameters ++ [0] := by
      rcases hcall with hcall | ⟨-, hclosed⟩
      · exact hcall
      · exact absurd hserver (hclosed buffer)
    obtain rfl : buffer = buffer' := Outcome.waiting.inj (hserver.symm.trans hserver')
    rw [hrest, ← List.append_assoc] at hwhole
    have hprefix : buffer ++ chunk.bytes ++ rest <+: callText wire q.method q.parameters ++ [0] :=
      hwhole ▸ List.prefix_rfl
    rcases call_cases htext hprefix with ⟨rfl, hends⟩ | ⟨hno, hle⟩
    · have hrun : out = _ := run_turn_ends htext hsome hends hfits.1
      rw [hrun, hnone]
      exact .inr ⟨q, k, rfl, rfl, Standing.answer hfits hp hbroken _⟩
    · have hrun : out = _ := run_turn_waits hno hsome (hle.trans hfits.1.le)
      rw [hrun]
      exact .inl ⟨rfl, .asked hfits hp hnone (.inl ⟨_, rfl, hno, hwhole⟩)⟩
  | @givenUp q k e _ buffer' hfits hmay hserver' hcall =>
    have htext := zero_not_mem_callText wire q.method q.parameters
    obtain rfl : buffer = buffer' := Outcome.waiting.inj (hserver.symm.trans hserver')
    rw [hrest, ← List.append_assoc] at hcall
    rcases call_cases htext hcall with ⟨rfl, hends⟩ | ⟨hno, hle⟩
    · have hrun : out = _ := run_turn_ends htext hsome hends hfits.1
      rw [hrun]
      refine .inr ⟨q, k, rfl, rfl, .finished (.inr ⟨hmay, e, rfl⟩) ?_⟩
      cases broken with
      | none => exact .inl ⟨rfl, rfl⟩
      | some failure =>
        refine .inr ⟨trivial, fun buffer h => ?_⟩
        cases h
    · have hrun : out = _ := run_turn_waits hno hsome (hle.trans hfits.1.le)
      rw [hrun]
      exact .inl ⟨rfl, .givenUp hfits hmay rfl hcall⟩

variable (exec s) in
/-- A turn of the loop answers one call, or none. -/
theorem Standing.server (h : Standing wire json may p link d)
    (hserver : link.server = .waiting buffer)
    (hbrings : Brings may (∃ r, p = .done r) link.toServer selected left)
    (hbroken : broken ≠ none → may) :
    let out := (clientLoop wire [selected] buffer).run (serving exec broken) (s, link.toClient)
    (out.2.1 = s ∧ Standing wire json may p ⟨left, out.1, out.2.2⟩ d) ∨
      ∃ q k, d = Script.atOnce (.call q k) ∧ out.2.1 = (answerAtOnce exec wire json q s).2 ∧
        Standing wire json may p ⟨left, out.1, out.2.2⟩
          (Script.resume k (answerAtOnce exec wire json q s).1) := by
  have hopen : ¬ link.Closed := fun hclosed => hclosed buffer hserver
  obtain ⟨toServer, server, toClient⟩ := link
  dsimp only at hserver hbrings ⊢
  subst hserver
  cases hbrings with
  | unchanged => exact .inl ⟨rfl, h⟩
  | chunk chunk rest hsome => exact h.chunk rfl hsome rfl hbroken
  | endOfStream chunk hnone hleft =>
    obtain ⟨r, rfl⟩ := hleft
    rw [clientLoop, if_pos hnone]
    refine .inl ⟨rfl, h.closeLeft fun buffer h => ?_⟩
    cases h
  | shutDown _ hmay =>
    refine .inl ⟨rfl, h.close hmay (fun buffer h => ?_) rfl hopen⟩
    cases h
  | fails _ e hmay =>
    refine .inl ⟨rfl, h.close hmay (fun buffer h => ?_) rfl hopen⟩
    cases h

end ServerSteps

/-! ### Runs -/

variable {exec : VarlinkCall → σ → VarlinkReply × σ} {may : ι → Prop}
  {net net' : Net ι σ α} {pool : Pool ι σ (fun _ : Ask => Except String Json) (Except String α)}

/-- The clients whose calls are answered at once stand for those on the network. -/
def StandsFor (wire : WireLibrary) (json : JsonLibrary) (may : ι → Prop) (net : Net ι σ α)
    (pool : Pool ι σ (fun _ : Ask => Except String Json) (Except String α)) : Prop :=
  pool.state = net.state ∧
    ∀ i, Standing wire json (may i) (net.clients i) (net.links i) (pool.threads i)

variable [DecidableEq ι]

/-- A step on the network answers one call, or none. -/
theorem StandsFor.step (h : StandsFor wire json may net pool)
    (hstep : Net.Step exec wire may net net') :
    ∃ pool', Pool.Steps (reliable (answerAtOnce exec wire json)) (fun _ _ _ _ => True) pool pool' ∧
      StandsFor wire json may net' pool' := by
  obtain ⟨hstate, hstand⟩ := h
  cases hstep with
  | client i hclient hsocket =>
    refine ⟨pool, .refl, hstate, fun j => ?_⟩
    rcases eq_or_ne j i with rfl | hne
    · dsimp only
      rw [Function.update_self, Function.update_self]
      exact Standing.client (hclient ▸ hstand j) hsocket
    · dsimp only
      rw [Function.update_of_ne hne, Function.update_of_ne hne]
      exact hstand j
  | @server i buffer left selected broken hserver hbrings hbroken =>
    have hothers : ∀ j, j ≠ i → ∀ link : Link,
        Standing wire json (may j) (net.clients j) (Function.update net.links i link j)
          (pool.threads j) := by
      intro j hne link
      rw [Function.update_of_ne hne]
      exact hstand j
    rcases (hstand i).server exec net.state hserver hbrings hbroken with
      ⟨hsame, hi⟩ | ⟨q, k, hthread, hnext, hi⟩
    · refine ⟨pool, .refl, hstate.trans hsame.symm, fun j => ?_⟩
      rcases eq_or_ne j i with rfl | hne
      · dsimp only
        rw [Function.update_self]
        exact hi
      · exact hothers j hne _
    · have hcall : pool.threads i = .call q (Script.resume k) := by
        rw [hthread, Script.atOnce]
        exact congrArg _ (funext fun r => by cases r <;> rfl)
      refine ⟨pool.advance i q (answerAtOnce exec wire json q pool.state).1
        (answerAtOnce exec wire json q pool.state).2
        (Script.resume k (answerAtOnce exec wire json q pool.state).1),
        Pool.Steps.call hcall rfl trivial, ?_, fun j => ?_⟩
      · rw [Pool.advance_state, hstate]
        exact hnext.symm
      · rcases eq_or_ne j i with rfl | hne
        · rw [Pool.advance_threads_self, hstate]
          dsimp only
          rw [Function.update_self]
          exact hi
        · rw [Pool.advance_threads_of_ne _ hne]
          exact hothers j hne _

/-- A run of the network is one of clients whose calls are answered at once. -/
theorem StandsFor.steps (h : StandsFor wire json may net pool)
    (hsteps : Net.Steps exec wire may net net') :
    ∃ pool', Pool.Steps (reliable (answerAtOnce exec wire json)) (fun _ _ _ _ => True) pool pool' ∧
      StandsFor wire json may net' pool' := by
  induction hsteps with
  | refl => exact ⟨pool, .refl, h⟩
  | tail _ hlast ih =>
    obtain ⟨pool₁, hsteps₁, hstand₁⟩ := ih
    obtain ⟨pool₂, hsteps₂, hstand₂⟩ := hstand₁.step hlast
    exact ⟨pool₂, hsteps₁.trans hsteps₂, hstand₂⟩

/-! ### Progress -/

/-- The client gets done, if the others wait. -/
def Finishes (exec : VarlinkCall → σ → VarlinkReply × σ) (wire : WireLibrary) (may : ι → Prop) (i : ι)
    (net : Net ι σ α) : Prop :=
  ∃ net' r, Net.Steps exec wire may net net' ∧ net'.clients i = .done r

section Progress

variable {i : ι} {k : Json → Script α}

theorem Finishes.of_step (hstep : Net.Step exec wire may net net')
    (h : Finishes exec wire may i net') : Finishes exec wire may i net := by
  obtain ⟨net'', r, hsteps, hdone⟩ := h
  exact ⟨net'', r, .head hstep hsteps, hdone⟩

/-- The client's next call on its socket succeeds. -/
theorem Finishes.client {o : SocketCall} {next : SocketReply o → Client (Except String α)}
    {r : SocketReply o} {link link' : Link} (hclient : net.clients i = .call o next)
    (hlink : net.links i = link) (hsocket : socket (may i) o link r link')
    (h : ∀ net' : Net ι σ α, net'.clients i = next r → net'.links i = link' →
      Finishes exec wire may i net') : Finishes exec wire may i net :=
  .of_step (.client i hclient (hlink ▸ hsocket))
    (h _ (Function.update_self ..) (Function.update_self ..))

/-- A turn of the loop in which its writes succeed. -/
theorem Finishes.server {buffer left : Bytes} {selected : Selected} {link : Link}
    (hlink : net.links i = link) (hserver : link.server = .waiting buffer)
    (hbrings : Brings (may i) (∃ r, net.clients i = .done r) link.toServer selected left)
    (h : ∀ net' : Net ι σ α, net'.clients i = net.clients i →
      net'.links i = ⟨left,
        ((clientLoop wire [selected] buffer).run (serving exec none) (net.state, link.toClient)).1,
        ((clientLoop wire [selected] buffer).run (serving exec none) (net.state, link.toClient)).2.2⟩ →
      Finishes exec wire may i net') : Finishes exec wire may i net := by
  subst hlink
  exact .of_step (.server i hserver hbrings (absurd rfl)) (h _ rfl (Function.update_self ..))

end Progress

end Modeld
