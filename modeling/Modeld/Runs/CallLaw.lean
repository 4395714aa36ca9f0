import Modeld.Core.TagMap
import Modeld.Ctl.Client
import Modeld.Runs.Listed
import Modeld.Runs.TagNames

/-!
# A call from end to end

What `VarlinkClient::call` returns is what the daemon replied, as long as the reply is no longer
than the client accepts. Nothing bounds a reply: the list of a registry grows with it.
-/

namespace Modeld

open Host Program

/-! ### One frame -/

section OneFrame

variable {payload : Bytes} (t : Splitting (payload ++ [0x00])) (service : Service)

/-- What the daemon replies to a frame that it reads whole. -/
def Service.answer (service : Service) (payload : Bytes) : VarlinkReply :=
  match service.wire.callFromSlice payload with
  | .error e => invalidCall e
  | .ok asked => ((dispatchCall service.json asked service.ctx).run Fs.exec service.state).1

theorem Service.replies_of_fits (hpayload : 0 ∉ payload)
    (hfits : (payload ++ [(0x00 : UInt8)]).length ≤ MAX_MSG_BYTES) :
    service.replies t = [(service.answer payload).toBytes service.wire.floatText] := by
  have hframes : Delimited.frames (0 : UInt8) (payload ++ [0x00]) = [payload] := by
    rw [Delimited.frames_cons hpayload, Delimited.frames_of_not_mem List.not_mem_nil]
  rw [← t.whole] at hfits
  have ht := takes_serveAlone service.json service.ctx
  rw [(service.of_noneExceeds (noneExceeds_of_length hfits)).2, hframes,
    (run_handleFrames_cons ht payload []).2, written_append]
  unfold handleMessage Service.answer
  cases service.wire.callFromSlice payload <;> rfl

/-- A frame that is too long is not answered. -/
theorem Service.replies_of_not_fits (hpayload : 0 ∉ payload)
    (hlong : MAX_MSG_BYTES < (payload ++ [(0x00 : UInt8)]).length) :
    service.replies t = [protocolError.toBytes service.wire.floatText] := by
  rcases noneExceeds_or_first t.chunks with hnone | ⟨before, chunk, after, hchunks, hnone, hexceeds⟩
  · have hsize : (payload ++ [(0x00 : UInt8)]).length ∈ Delimited.sizes 0 (bytesOf t.chunks) := by
      rw [t.whole, Delimited.sizes, Delimited.frames_cons hpayload]
      exact List.mem_append_left _ (List.mem_cons_self ..)
    exact absurd (hnone.sizes_le _ hsize) (Nat.not_le.2 hlong)
  · -- The terminator is the last byte, and some of the frame is still to be read.
    have hstream := t.stream_eq hchunks
    have hrest : 0 < (bytesOf (chunk :: after)).length := by
      rw [bytesOf_cons, List.length_append]
      exact Nat.add_pos_left (List.length_pos_of_ne_nil (t.nonempty chunk (by simp [hchunks]))) _
    have hlen := congrArg List.length hstream
    rw [List.length_append, List.length_append, List.length_singleton] at hlen
    have hbefore : bytesOf before <+: payload ++ [0x00] := by
      rw [hstream]
      exact List.prefix_append ..
    have hpre : bytesOf before <+: payload :=
      List.prefix_of_prefix_length_le hbefore (List.prefix_append ..) (by omega)
    have hfree : 0 ∉ bytesOf before := fun hmem => hpayload (hpre.subset hmem)
    rw [(service.of_exceeds hchunks hnone hexceeds).2, Delimited.frames_of_not_mem hfree]
    rfl

end OneFrame

/-! ### The law -/

/-- The parameters that a call arrives with. -/
def receivedParameters : Option Json → Option Json
  | some .null => none
  | parameters => parameters

/-- The reply that the daemon has for a call: that of its handler, unless the call is too long. -/
def replyTo (wire : WireLibrary) (json : JsonLibrary) (ctx : ModelServiceContext) (h : Fs)
    (method : String) (parameters : Option Json) : VarlinkReply :=
  if (callText wire method parameters ++ [(0x00 : UInt8)]).length ≤ MAX_MSG_BYTES then
    ((dispatchCall json ⟨method, receivedParameters parameters, none⟩ ctx).run Fs.exec h).1
  else protocolError

/-- What the caller is to get for a reply: its parameters, or an error that names its error. -/
def VarlinkReply.result (reply : VarlinkReply) : Except String Json :=
  match reply.error with
  | some err => .error ("Varlink error: " ++ err)
  | none => .ok (reply.parameters.getD .null)

/-- The fields of a reply have different names. -/
theorem VarlinkReply.nodup_fields (reply : VarlinkReply) : (reply.fields.map (·.1)).Nodup := by
  obtain ⟨parameters, error, continues⟩ := reply
  cases parameters <;> cases error <;> cases continues <;> simp [VarlinkReply.fields]

theorem replyResult_fields (reply : VarlinkReply) :
    replyResult (.object reply.fields) = reply.result := by
  rw [replyResult, Json.get_object_eq reply.nodup_fields, Json.get_object_eq reply.nodup_fields]
  obtain ⟨parameters, error, continues⟩ := reply
  cases parameters <;> cases error <;> cases continues <;> rfl

/-- The one reply that comes back. -/
theorem replies_replyTo {wire : WireLibrary} {json : JsonLibrary} {ctx : ModelServiceContext}
    {h : Fs} {method : String} {parameters : Option Json}
    (hcall : wire.callFromSlice (callText wire method parameters) =
      .ok ⟨method, receivedParameters parameters, none⟩)
    (t : Splitting (callText wire method parameters ++ [0x00])) :
    (⟨wire, json, ctx, h⟩ : Service).replies t =
      [(replyTo wire json ctx h method parameters).toBytes wire.floatText] := by
  have hcallText : 0 ∉ callText wire method parameters :=
    Text.zero_not_mem_toBytes (Json.nul_not_mem_text wire.floatText_nulFree _)
  unfold replyTo
  split_ifs with hfits
  · rw [Service.replies_of_fits t _ hcallText hfits, Service.answer, hcall]
  · exact Service.replies_of_not_fits t _ hcallText (Nat.lt_of_not_le hfits)

/-- Every reply is a text without NUL and its terminator. A call returns what its reply says, if the
client accepts a reply of that length. -/
theorem call_law (wire : WireLibrary) (json : JsonLibrary) (ctx : ModelServiceContext)
    (cut : (sent : Bytes) → Splitting sent) (h : Fs) (method : String) (parameters : Option Json)
    (hcall : wire.callFromSlice (callText wire method parameters) =
      .ok ⟨method, receivedParameters parameters, none⟩)
    (hreply : json.fromSlice (Text.toBytes
        ((replyTo wire json ctx h method parameters).text wire.floatText)) =
      .ok (.object (replyTo wire json ctx h method parameters).fields)) :
    let reply := replyTo wire json ctx h method parameters
    let text := Text.toBytes (reply.text wire.floatText)
    (∀ r : VarlinkReply, r.toBytes wire.floatText = Text.toBytes (r.text wire.floatText) ++ [0x00] ∧
      0 ∉ Text.toBytes (r.text wire.floatText)) ∧
    ((clientCall wire json method parameters).run (answering wire json ctx cut) ⟨h, []⟩).1 =
      if text.length ≤ MAX_REPLY_BYTES then reply.result else .error replyExceeded := by
  intro reply text
  have hnul : ∀ r : VarlinkReply, 0 ∉ Text.toBytes (r.text wire.floatText) :=
    fun r => r.zero_not_mem_text wire.floatText_nulFree
  refine ⟨fun r => ⟨rfl, hnul r⟩, ?_⟩
  rw [run_clientCall (hnul reply) (replies_replyTo hcall _), textResult]
  split_ifs with hfits
  · rw [hreply]
    exact replyResult_fields reply
  · rfl

/-! ### A registry that is too large to list -/

variable {json : JsonLibrary} {root : Path} {h : Fs} {m : TagMap}

/-- Registering a digest leaves what setting the tag leaves. -/
theorem state_handleRegister {params : Option Json} {id name tag given : String}
    (hid : registerId params = some id)
    (htarget : registerTarget id (textParam params "tag") = (name, tag)) (hname : IsSegment name)
    (htag : IsSegment tag) (hgiven : textParam params "digest" = some given)
    (hd : IsDigest (cleanDigest (Text.trim given))) :
    ((handleRegister json params (.ofRoot root)).run Fs.exec h).2 =
      (((TagRegistry.ofRoot root).setTag name tag
        (cleanDigest (Text.trim given))).run Fs.exec h).2 := by
  unfold handleRegister
  rw [hid]
  dsimp only
  rw [htarget]
  dsimp only
  rw [validateTagSegment_eq_ok.2 ⟨rfl, hname⟩]
  dsimp only
  rw [validateTagSegment_eq_ok.2 ⟨rfl, htag⟩, hgiven]
  dsimp only [registerDigest, digestCandidate]
  rw [pure_eq, done_bind]
  dsimp only
  rw [validateDigestFormat_of_isDigest hd]
  dsimp only
  rw [run_bind]
  generalize ((TagRegistry.ofRoot root).setTag name tag
    (cleanDigest (Text.trim given))).run Fs.exec h = made
  obtain ⟨r, h'⟩ := made
  cases r with
  | error e => rfl
  | ok u => exact Only.run_eq only_describeEntry h'

/-- Parameters that register the tag with this number. -/
def numberedParams (i : Nat) : List (String × Json) :=
  [("id", .str "n"), ("tag", .str (Text.hex i)), ("digest", .str digestEmpty)]

def numberedTag (i : Nat) : Operation := .call (modelCall "Register" (numberedParams i))

theorem textParam_numberedParams {i : Nat} {key text : String}
    (hmem : (key, Json.str text) ∈ numberedParams i) :
    textParam (some (.object (numberedParams i))) key = some text := by
  show ((Json.object _).get key).bind Json.asStr = some text
  rw [Json.get_object (by simp [numberedParams]) hmem]
  rfl

theorem isSegment_hex (i : Nat) : IsSegment (Text.hex i) := by
  have hchars : ∀ c ∈ (Text.hex i).toList, ∃ d < 16, c = Nat.digitChar d := by
    intro c hc
    by_contra hnone
    exact Text.not_mem_hex i (fun d hd heq => hnone ⟨d, hd, heq⟩) hc
  have hsegment : ∀ d < 16, isSegmentChar (Nat.digitChar d) = true := by decide
  have hdot : ∀ d < 16, Nat.digitChar d ≠ '.' := by decide
  have hslash : ∀ d < 16, Nat.digitChar d ≠ '/' := by decide
  have hnodot : '.' ∉ (Text.hex i).toList := fun hmem => by
    obtain ⟨d, hd, heq⟩ := hchars _ hmem
    exact hdot d hd heq.symm
  refine ⟨⟨?_, ?_, ?_, ?_⟩, ?_⟩
  · intro heq
    have hlen := congrArg (fun s => s.toList.length) heq
    rw [Text.hex, String.toList_ofList] at hlen
    exact Nat.length_toDigits_pos.ne' hlen
  · intro heq
    rw [heq] at hnodot
    exact hnodot (by decide)
  · intro heq
    rw [heq] at hnodot
    exact hnodot (by decide)
  · intro hmem
    obtain ⟨d, hd, heq⟩ := hchars _ hmem
    exact hslash d hd heq.symm
  · intro c hc
    obtain ⟨d, hd, rfl⟩ := hchars c hc
    exact hsegment d hd

theorem refines_numberedTag (hr : (TagRegistry.ofRoot root).Refines h m) (i : Nat) :
    (TagRegistry.ofRoot root).Refines ((numberedTag i).after ⟨root, json, sampleSha⟩ h)
      (m.insert ("n", Text.hex i) digestEmpty) := by
  have hsegment := isSegment_hex i
  have hdigest : IsDigest (Text.trim digestEmpty) := by
    rw [isDigest_digestEmpty.trim_eq]
    exact isDigest_digestEmpty
  have hn : IsSegment "n" := by decide
  obtain ⟨-, hnext⟩ := hr.step (.set "n" (Text.hex i) digestEmpty)
  rw [TagMap.step, if_pos ⟨hn, hsegment, hdigest⟩, isDigest_digestEmpty.trim_eq] at hnext
  rw [TagRegistry.perform, run_bind] at hnext
  have hid := @textParam_numberedParams i "id" "n" (by simp [numberedParams])
  have htag := @textParam_numberedParams i "tag" (Text.hex i) (by simp [numberedParams])
  have hgiven := @textParam_numberedParams i "digest" digestEmpty (by simp [numberedParams])
  have hclean : cleanDigest (Text.trim digestEmpty) = digestEmpty := by
    rw [isDigest_digestEmpty.trim_eq, isDigest_digestEmpty.cleanDigest_eq]
  have hregisterId : registerId (some (.object (numberedParams i))) = some "n" := by
    rw [registerId, hid]
    decide
  have htarget : registerTarget "n" (some (Text.hex i)) = ("n", Text.hex i) := by
    rw [registerTarget, hsegment.trim_eq]
    rfl
  have hstate := @state_handleRegister json root h _ "n" "n" (Text.hex i) digestEmpty hregisterId
    (by rw [htag, htarget]) hn hsegment hgiven (by rw [hclean]; exact isDigest_digestEmpty)
  have hafter : (numberedTag i).after ⟨root, json, sampleSha⟩ h = ((handleRegister json
      (some (.object (numberedParams i))) (.ofRoot root)).run Fs.exec h).2 := by
    rw [numberedTag, Operation.after, Operation.program, run_bind]
    rfl
  rw [hafter, hstate, hclean]
  exact hnext

/-- Each of them is one more entry. -/
theorem refines_numberedTags (hr : (TagRegistry.ofRoot root).Refines h ∅) (count : Nat) :
    ∃ m : TagMap, (TagRegistry.ofRoot root).Refines
        (Operation.afterAll ⟨root, json, sampleSha⟩ ((List.range count).map numberedTag) h) m ∧
      m.entries.length = count ∧ ∀ i, ("n", Text.hex i) ∈ m → i < count := by
  induction count with
  | zero => exact ⟨∅, hr, rfl, fun i hi => absurd hi (AList.notMem_empty _)⟩
  | succ count ih =>
    obtain ⟨m, hm, hlen, hmem⟩ := ih
    have hnew : ("n", Text.hex count) ∉ m := fun hold => Nat.lt_irrefl _ (hmem count hold)
    refine ⟨m.insert ("n", Text.hex count) digestEmpty, ?_, ?_, fun i hi => ?_⟩
    · rw [List.range_succ, List.map_append, Operation.afterAll, List.foldl_append]
      exact refines_numberedTag hm count
    · rw [AList.entries_insert_of_notMem hnew, List.length_cons, hlen]
    · rcases (AList.mem_insert m).1 hi with heq | hold
      · have hhex := Text.hex_injective (congrArg Prod.snd heq)
        omega
      · exact (hmem i hold).trans (Nat.lt_succ_self _)

theorem length_listEntries {ctx : ModelServiceContext} (tags : List ModelTag) :
    ((listEntries ctx tags).run Fs.exec h).1.length = tags.length := by
  induction tags generalizing h with
  | nil => rfl
  | cons tag tags ih =>
    rw [listEntries, run_bind, run_bind]
    exact congrArg Nat.succ ih

/-- The call that lists the tags. -/
def listCall : VarlinkCall := ⟨"io.syntrop.Model1.List", none, none⟩

/-- The list of the tags is longer than the number of them. -/
theorem length_listReply (hr : (TagRegistry.ofRoot root).Refines h m)
    (floatText : UInt64 → String) :
    ((dispatchCall json listCall (.ofRoot root)).run Fs.exec h).1.error = none ∧
    m.entries.length < (Text.toBytes
      (((dispatchCall json listCall (.ofRoot root)).run Fs.exec h).1.text floatText)).length := by
  rw [dispatchCall_list rfl, handleList, run_bind_of_reads TagRegistry.only_listTags,
    hr.run_listTags, run_bind]
  dsimp only [Except.toOption, Option.getD]
  have hlisting : m.listing.length = m.entries.length := by
    rw [TagMap.listing, List.length_insertionSort, List.length_map]
  have hentries := @length_listEntries h (ModelServiceContext.ofRoot root) m.listing
  rw [hlisting] at hentries
  generalize ((listEntries (ModelServiceContext.ofRoot root) m.listing).run Fs.exec h).1 =
    entries at *
  refine ⟨rfl, ?_⟩
  have hlist : Json.object [("models", .arr entries)] = .obj [("models", .arr entries)] := rfl
  have hmodels : (_ : String × Json) ∈ [("models", Json.arr entries)] := List.mem_singleton.2 rfl
  have hparameters : (_ : String × Json) ∈
      (VarlinkReply.ok (.obj [("models", .arr entries)])).fields :=
    List.mem_singleton.2 rfl
  rw [hlist, VarlinkReply.text]
  calc m.entries.length = entries.length := hentries.symm
    _ < _ := Json.length_lt_text_arr entries
    _ < _ := Json.length_text_lt_obj hmodels
    _ < _ := Json.length_text_lt_obj hparameters
    _ ≤ _ := Text.length_le_toBytes _

/-- A new registry stands for the empty map. -/
theorem refines_openedFs (root : Path) (hardLinks : Bool) (clock : Nat → Nat) :
    (TagRegistry.ofRoot root).Refines (openedFs root hardLinks clock) ∅ :=
  ⟨holds_openedFs root hardLinks clock, nofun⟩

/-- A registry with so many tags. -/
def crowdedFs (count : Nat) : Fs :=
  Operation.afterAll sampleInstallation ((List.range count).map numberedTag) (sampleFs true)

theorem reachable_crowdedFs (count : Nat) : Reachable sampleInstallation (crowdedFs count) := by
  refine ⟨true, id, (List.range count).map numberedTag, fun o ho => ?_, rfl⟩
  obtain ⟨i, -, rfl⟩ := List.mem_map.1 ho
  trivial

private theorem one_le_chunk : 1 ≤ READ_CHUNK_BYTES := by decide

/-- Reads that take one byte each. -/
def bytewise (sent : Bytes) : Splitting sent where
  chunks := sent.map fun byte => ⟨[byte], one_le_chunk⟩
  nonempty := by
    intro c hc
    obtain ⟨byte, -, rfl⟩ := List.mem_map.1 hc
    exact List.cons_ne_nil byte []
  whole := by
    induction sent with
    | nil => rfl
    | cons byte sent ih => exact congrArg (byte :: ·) ih

/-- The text of that call. -/
def listText : Bytes :=
  Text.toBytes "\x7b\"method\":\"io.syntrop.Model1.List\",\"parameters\":null\x7d"

/-- A library that knows this call only. -/
def listLibrary : WireLibrary where
  callFromSlice text := if text = listText then .ok listCall
    else .error "expected value at line 1 column 1"
  floatText := getInfoLibrary.floatText
  floatText_nulFree := getInfoLibrary.floatText_nulFree

private theorem listLibrary_list : listLibrary.callFromSlice
    (callText listLibrary listCall.method none) = .ok listCall := by
  have htext : callText listLibrary listCall.method none = listText := by decide +kernel
  rw [htext]
  simp only [listLibrary, ↓reduceIte]

private theorem replyTo_list (json : JsonLibrary) (ctx : ModelServiceContext) (h : Fs) :
    replyTo listLibrary json ctx h listCall.method none =
      ((dispatchCall json listCall ctx).run Fs.exec h).1 := by
  have hfits : (callText listLibrary listCall.method none ++ [(0x00 : UInt8)]).length ≤
      MAX_MSG_BYTES := by
    decide +kernel
  exact if_pos hfits

private theorem list_crowdedFs {count : Nat} (hcount : MAX_REPLY_BYTES ≤ count) :
    ((dispatchCall sampleInstallation.json listCall sampleInstallation.ctx).run Fs.exec
      (crowdedFs count)).1.error = none ∧
    ((clientCall listLibrary sampleInstallation.json listCall.method none).run
      (answering listLibrary sampleInstallation.json sampleInstallation.ctx bytewise)
        ⟨crowdedFs count, []⟩).1 = .error replyExceeded := by
  obtain ⟨m, hm, hlen, -⟩ := @refines_numberedTags sampleInstallation.json sampleRoot
    (sampleFs true) (refines_openedFs ..) count
  obtain ⟨hok, hlong⟩ := @length_listReply sampleInstallation.json sampleRoot (crowdedFs count) m hm
    listLibrary.floatText
  rw [hlen] at hlong
  refine ⟨hok, ?_⟩
  rw [run_clientCall (VarlinkReply.zero_not_mem_text listLibrary.floatText_nulFree _)
    (replies_replyTo listLibrary_list _), replyTo_list, textResult]
  exact if_neg (Nat.not_le.2 (hcount.trans_lt hlong))

/-- With as many tags as a reply may have bytes, `List` fails although the daemon has an answer. -/
theorem crowded_list_fails :
    let inst := sampleInstallation
    let h := crowdedFs MAX_REPLY_BYTES
    Reachable inst h ∧ ((dispatchCall inst.json listCall inst.ctx).run Fs.exec h).1.error = none ∧
    ((clientCall listLibrary inst.json listCall.method none).run
      (answering listLibrary inst.json inst.ctx bytewise) ⟨h, []⟩).1 = .error replyExceeded :=
  ⟨reachable_crowdedFs MAX_REPLY_BYTES, list_crowdedFs (Nat.le_refl MAX_REPLY_BYTES)⟩

/-! ### A call that is answered -/

/-- The text of the list of an empty registry. -/
def emptyListText : Bytes := Text.toBytes "\x7b\"parameters\":\x7b\"models\":[]\x7d\x7d"

/-- A library that knows this reply only. -/
def emptyListLibrary : JsonLibrary where
  fromSlice text :=
    if text = emptyListText then .ok (.object [("parameters", .object [("models", .arr [])])])
    else .error "expected value at line 1 column 1"
  floatText := getInfoLibrary.floatText

private theorem reply_emptyList : ((dispatchCall emptyListLibrary listCall (.ofRoot sampleRoot)).run
    Fs.exec (sampleFs true)).1 = .ok (.object [("models", .arr [])]) := by
  have hlisted : ((ModelServiceContext.ofRoot sampleRoot).tags.listTags).run Fs.exec
      (sampleFs true) = (.ok [], sampleFs true) :=
    (refines_openedFs sampleRoot true id).run_listTags
  rw [dispatchCall_list rfl, handleList, run_bind_of_reads TagRegistry.only_listTags, hlisted]
  rfl

theorem emptyList_called :
    ((clientCall listLibrary emptyListLibrary listCall.method none).run
      (answering listLibrary emptyListLibrary (.ofRoot sampleRoot) bytewise)
        ⟨sampleFs true, []⟩).1 = .ok (.object [("models", .arr [])]) := by
  have hreply := replyTo_list emptyListLibrary (.ofRoot sampleRoot) (sampleFs true)
  rw [reply_emptyList] at hreply
  have htext : Text.toBytes ((replyTo listLibrary emptyListLibrary (.ofRoot sampleRoot)
      (sampleFs true) listCall.method none).text listLibrary.floatText) = emptyListText := by
    rw [hreply]
    decide +kernel
  have hparsed : emptyListLibrary.fromSlice emptyListText =
      .ok (.object [("parameters", .object [("models", .arr [])])]) := by
    simp only [emptyListLibrary, ↓reduceIte]
  obtain ⟨-, hcall⟩ := call_law listLibrary emptyListLibrary (.ofRoot sampleRoot) bytewise
    (sampleFs true) listCall.method none listLibrary_list (by rw [htext, hreply, hparsed]; rfl)
  rw [htext, hreply] at hcall
  exact hcall.trans (if_pos (by decide +kernel))

end Modeld
