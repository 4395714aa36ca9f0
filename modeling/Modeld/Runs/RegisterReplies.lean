import Modeld.Runs.Listed
import Modeld.Runs.RegisterSpec

/-!
# `Register`, `Inspect` and `List` agree

What `Register` replies is what `Inspect` and `List` report afterwards, and the digest that it names
is the one that was asked for, however it was spelled.
-/

namespace Modeld

open Host Program

/-! ### How a digest may be spelled -/

section

variable {core : String}

/-- What may stand before a digest. -/
def digestStarts : List String := ["", "sha256:", "sha256-"]

/-- What may stand after a digest. -/
def digestEnds : List String := ["", ".gguf", ".safetensors"]

/-- Hexadecimal digits of either case. -/
def HexDigits (s : String) : Prop := ∀ c ∈ s.toList, TagRegistry.isHexDigit c = true

instance (s : String) : Decidable (HexDigits s) := List.decidableBAll _ s.toList

private theorem not_isWhitespace_of_isHexDigit {c : Char} (hc : TagRegistry.isHexDigit c = true) :
    Text.isWhitespace c = false := by
  rw [TagRegistry.isHexDigit, Text.lowerAscii] at hc
  apply not_isWhitespace_of_isSegmentChar
  split at hc
  · rename_i hupper
    have hA : 65 ≤ c.val := hupper.1
    have hZ : c.val ≤ 90 := hupper.2
    simp [isSegmentChar, isAlphanum_eq, hA, hZ]
  · simp only [isDigestChar, Bool.or_eq_true, Bool.and_eq_true, decide_eq_true_eq] at hc
    rcases hc with hdigit | hletter
    · have h0 : 48 ≤ c.val := hdigit.1
      have h9 : c.val ≤ 57 := hdigit.2
      simp [isSegmentChar, isAlphanum_eq, h0, h9]
    · have ha : 97 ≤ c.val := hletter.1
      have hz : c.val ≤ 122 := Char.le_trans hletter.2 (by decide : 'f' ≤ 'z')
      simp [isSegmentChar, isAlphanum_eq, ha, hz]

private theorem not_mem_hexDigits (hcore : HexDigits core) {c : Char}
    (hc : TagRegistry.isHexDigit c = false) : c ∉ core.toList := by
  intro hmem
  rw [hcore c hmem] at hc
  cases hc

private theorem stripPrefix_append (start rest : String) :
    Text.stripPrefix (start ++ rest) start = some rest := Text.stripPrefix_eq_some.2 rfl

private theorem stripSuffix_append (rest ending : String) :
    Text.stripSuffix (rest ++ ending) ending = some rest := Text.stripSuffix_eq_some.2 rfl

private theorem stripPrefix_none {s start : String} (hs : ¬ start.toList <+: s.toList) :
    Text.stripPrefix s start = none := if_neg hs

private theorem stripSuffix_none {s ending : String} (hs : ¬ ending.toList <:+ s.toList) :
    Text.stripSuffix s ending = none := if_neg hs

private theorem strip_start {start ending : String} (hstart : start ∈ digestStarts)
    (hending : ending ∈ digestEnds) (hcore : HexDigits core) :
    ((Text.stripPrefix (start ++ (core ++ ending)) "sha256:").or
      (Text.stripPrefix (start ++ (core ++ ending)) "sha256-")).getD (start ++ (core ++ ending)) =
      core ++ ending := by
  simp only [digestStarts, List.mem_cons, List.not_mem_nil, or_false] at hstart
  rcases hstart with rfl | rfl | rfl
  · -- Neither a digit nor what may follow the digits begins with an `s`.
    have hhead : ∀ rest, (core ++ ending).toList ≠ 's' :: rest := by
      intro rest hlist
      rw [String.toList_append] at hlist
      cases hdigits : core.toList with
      | nil =>
        rw [hdigits] at hlist
        simp only [digestEnds, List.mem_cons, List.not_mem_nil, or_false] at hending
        rcases hending with rfl | rfl | rfl <;> simp at hlist
      | cons c digits =>
        rw [hdigits] at hlist
        obtain rfl : c = 's' := (List.cons.inj hlist).1
        exact not_mem_hexDigits hcore (c := 's') (by decide) (by simp [hdigits])
    have hnone : ∀ rest : String, rest.toList.head? = some 's' →
        ¬ rest.toList <+: (core ++ ending).toList := by
      rintro rest hs ⟨t, ht⟩
      cases hrest : rest.toList with
      | nil => simp [hrest] at hs
      | cons c cs =>
        rw [hrest] at hs ht
        obtain rfl : c = 's' := by simpa using hs
        exact hhead _ ht.symm
    rw [String.empty_append, stripPrefix_none (hnone _ rfl), stripPrefix_none (hnone _ rfl)]
    rfl
  · rw [stripPrefix_append]
    rfl
  · have hcolon : ¬ "sha256:".toList <+: ("sha256-" ++ (core ++ ending)).toList := by
      rintro ⟨t, ht⟩
      simp at ht
    rw [stripPrefix_none hcolon, stripPrefix_append]
    rfl

private theorem strip_end {ending : String} (hending : ending ∈ digestEnds) (hcore : HexDigits core) :
    ((Text.stripSuffix (core ++ ending) ".gguf").or
      (Text.stripSuffix (core ++ ending) ".safetensors")).getD (core ++ ending) = core := by
  have hdot : ∀ part : String, '.' ∈ part.toList → ¬ part.toList <:+ core.toList :=
    fun part hpart hsuffix => not_mem_hexDigits hcore (by decide) (hsuffix.subset hpart)
  simp only [digestEnds, List.mem_cons, List.not_mem_nil, or_false] at hending
  rcases hending with rfl | rfl | rfl
  · rw [String.append_empty, stripSuffix_none (hdot _ (by decide)), stripSuffix_none (hdot _ (by decide))]
    rfl
  · rw [stripSuffix_append]
    rfl
  · have hgguf : ¬ ".gguf".toList <:+ (core ++ ".safetensors").toList := by
      rintro ⟨t, ht⟩
      have hlast := congrArg List.getLast? ht
      simp at hlast
    rw [stripSuffix_none hgguf, stripSuffix_append]
    rfl

/-- What is left of a digest that is spelled in one of these ways. -/
theorem cleanDigest_spelled {start ending : String} (hstart : start ∈ digestStarts)
    (hending : ending ∈ digestEnds) (hcore : HexDigits core) :
    cleanDigest (Text.trim (start ++ core ++ ending)) = Text.toAsciiLowercase core := by
  have hends : ∀ part ∈ digestStarts ++ digestEnds, ∀ c ∈ part.toList,
      Text.isWhitespace c = false := by
    have hall : ∀ part ∈ digestStarts ++ digestEnds,
        (part.toList.all fun c => !Text.isWhitespace c) = true := by
      decide
    intro part hpart c hc
    have hc' := List.all_eq_true.1 (hall part hpart) c hc
    rwa [Bool.not_eq_true'] at hc'
  have htrim : Text.trim (start ++ core ++ ending) = start ++ core ++ ending := by
    refine Text.trim_eq_self fun c hc => ?_
    simp only [String.toList_append, List.mem_append] at hc
    rcases hc with (hc | hc) | hc
    · exact hends start (List.mem_append_left _ hstart) c hc
    · exact not_isWhitespace_of_isHexDigit (hcore c hc)
    · exact hends ending (List.mem_append_right _ hending) c hc
  rw [htrim, String.append_assoc, cleanDigest, strip_start hstart hending hcore,
    strip_end hending hcore]

end

/-! ### What the other handlers report -/

variable {root : Path} {h : Fs} {m : Entries} {inst : Installation}

/-- The fields that `Register` and `Inspect` have in common. -/
def commonFields : List String := ["digest", "size_bytes", "pinned", "format"]

/-- `Inspect` under the name replies with the metadata and with the entry's fields. -/
def InspectsAs (inst : Installation) (h : Fs) (id : String) (entry : Json) (metadata : Option Json) :
    Prop :=
  ∀ params, textParam params "id" = some id →
    ∃ body info, ((handleInspect inst.json params inst.ctx).run Fs.exec h).1 = .ok body ∧
      body.get "info" = some info ∧ body.get "metadata" = metadata ∧
      ∀ key ∈ commonFields, info.get key = entry.get key

/-- The entry of the list under the name is this one. -/
def ListsAs (inst : Installation) (h : Fs) (id : String) (entry : Json) : Prop :=
  let models := ((handleList inst.ctx).run Fs.exec h).1.models
  entry ∈ models ∧ ∀ e ∈ models, e.get "id" = some (.str id) → e = entry

theorem mem_listEntries {ctx : ModelServiceContext} {tags : List ModelTag} {e : Json} :
    e ∈ ((listEntries ctx tags).run Fs.exec h).1 ↔
      ∃ x ∈ tags, e = ((listEntry ctx x).run Fs.exec h).1 := by
  induction tags with
  | nil => exact ⟨nofun, fun ⟨_, hx, _⟩ => nomatch hx⟩
  | cons x tags ih =>
    rw [listEntries, run_bind_of_reads only_listEntry, run_bind]
    simp only [pure_eq, run_done, List.mem_cons, ih, exists_eq_or_imp]

section

variable {name tag d : String} {body : Json}

/-- What `Inspect` finds for a name that was just registered. -/
private theorem inspectsAs_of_describeEntry (hname : IsSegment name) (htag : IsSegment tag)
    (hget : ((inst.ctx.tags.getTag name tag).run Fs.exec h).1 = .ok (some d))
    (hrun : ((describeEntry inst.json inst.ctx name tag d).run Fs.exec h).1 = .ok body) :
    ∃ entry, body.get "entry" = some entry ∧ InspectsAs inst h (name ++ ":" ++ tag) entry
      (body.get "metadata") := by
  obtain ⟨format, description, hblob, rfl⟩ := describeEntry_ok hrun
  obtain ⟨hinspect, -⟩ := registerBlob_ok hblob
  have hresolve : ((resolveDigest inst.ctx.tags (name ++ ":" ++ tag)).run Fs.exec h).1 = .ok d := by
    rw [resolveDigest, run_bind, TagRegistry.resolve_tagged _ hname htag, hget]
    rfl
  refine ⟨_, Json.get_object (by simp) (List.mem_cons_self ..), fun params hid => ?_⟩
  rw [handleInspect, hid]
  dsimp only
  rw [run_bind_of_reads only_resolveDigest, hresolve]
  dsimp only
  rw [run_bind_of_reads (reads_of_looks only_sizeOrZero),
    run_bind_of_reads (reads_of_looks EvictionManager.only_isPinned),
    run_bind_of_reads only_inspectBlob, hinspect]
  refine ⟨_, _, rfl, Json.get_object (by simp) (List.mem_cons_self ..), ?_, fun key hkey => ?_⟩
  · rw [Json.get_object (by simp) (List.mem_cons_of_mem _ (List.mem_cons_self ..)),
      Json.get_object (by simp) (List.mem_cons_of_mem _ (List.mem_cons_self ..))]
  · simp only [commonFields, List.mem_cons, List.not_mem_nil, or_false] at hkey
    rcases hkey with rfl | rfl | rfl | rfl <;>
      rw [Json.get_object (by simp) (by simp; rfl), Json.get_object (by simp) (by simp; rfl)]

/-- The entry of a list is what `Register` replies for its tag. -/
private theorem listEntry_of_describeEntry
    (hrun : ((describeEntry inst.json inst.ctx name tag d).run Fs.exec h).1 = .ok body) :
    body.get "entry" = some ((listEntry inst.ctx ⟨name, tag, d⟩).run Fs.exec h).1 := by
  obtain ⟨format, description, hblob, rfl⟩ := describeEntry_ok hrun
  obtain ⟨-, hlist⟩ := registerBlob_ok hblob
  rw [listEntry, run_bind_of_reads (reads_of_looks only_sizeOrZero),
    run_bind_of_reads (reads_of_looks EvictionManager.only_isPinned),
    run_bind_of_reads only_listFormat, hlist]
  exact Json.get_object (by simp) (List.mem_cons_self ..)

/-- The parts of an identifier are told apart by the first colon. -/
private theorem tagged_inj {name' tag' : String} (hname : IsSegment name) (hname' : IsSegment name')
    (heq : name ++ ":" ++ tag = name' ++ ":" ++ tag') : name = name' ∧ tag = tag' := by
  have hsplit := hname.splitOnce_tagged tag
  rw [heq, hname'.splitOnce_tagged tag', Option.some.injEq, Prod.mk.injEq] at hsplit
  exact ⟨hsplit.1.symm, hsplit.2.symm⟩

/-- What `List` finds for a name that was just registered. -/
private theorem listsAs_of_holds (hm : inst.ctx.tags.Holds h m)
    (hseg : ∀ n v d, m n v = some d → Segments n v) (hdigest : ∀ n v d, m n v = some d → IsDigest d)
    (hname : IsSegment name) (htag : IsSegment tag)
    (hd : m ⟨name, hname.1⟩ ⟨tag, htag.1⟩ = some d) :
    ListsAs inst h (name ++ ":" ++ tag) ((listEntry inst.ctx ⟨name, tag, d⟩).run Fs.exec h).1 := by
  obtain ⟨entries, hdir⟩ := Fs.exists_readDir (hm.base _ List.prefix_rfl)
  have hrun := TagRegistry.run_listTags hdir
    ((TagRegistry.forall_readableModel hdir).2 (hm.allNameable hseg))
  -- What the registry says of each entry.
  have hget : ∀ {n v : String} {e : String} (hn : IsSegment n) (hv : IsSegment v),
      inst.ctx.tags.getTagAt h n v = .ok (some e) ↔ m ⟨n, hn.1⟩ ⟨v, hv.1⟩ = some e := by
    intro n v e hn hv
    rcases hm.run_getTag n v with ⟨_, _, hget⟩ | ⟨hbad, -⟩
    swap
    · exact absurd ⟨hn, hv⟩ hbad
    rw [TagRegistry.getTagAt, hget]
    cases he : m ⟨n, hn.1⟩ ⟨v, hv.1⟩ with
    | none => simp
    | some e' => simp [(hdigest _ _ e' he).trim_eq]
  rw [ListsAs, models_handleList, hrun]
  simp only [Except.toOption, Option.getD_some, mem_listEntries, List.mem_insertionSort,
    TagRegistry.mem_listed hdir]
  constructor
  · obtain ⟨hisDir, i, hi, -⟩ := hm.present _ _ d hd
    exact ⟨⟨name, tag, d⟩, ⟨_, _, i, hisDir, hi, rfl, rfl, (hget hname htag).2 hd⟩, rfl⟩
  · rintro e ⟨x, ⟨n, v, i, -, hi, hn, hv, hx⟩, rfl⟩ hid
    obtain ⟨e, he, -⟩ := hm.of_file hi
    obtain ⟨hsn, hsv⟩ := hseg n v e he
    rw [(isEntryOf_listEntry x).id, Option.some.injEq, Json.str.injEq, hn, hv] at hid
    obtain ⟨hn', hv'⟩ := tagged_inj hsn hname hid
    obtain ⟨xname, xtag, xdigest⟩ := x
    dsimp only at hn hv hx
    subst hn hv hn' hv'
    have hsame := hx.symm.trans ((hget hname htag).2 hd)
    obtain rfl : xdigest = d := Option.some.inj (Except.ok.inj hsame)
    rfl

end

/-- After any run of operations under names that the registry accepts, and so after any calls of
`Register` and imports, a call of `Register` that succeeds has named the digest that it was given in
lower case and without what may stand around it, or the one that the tag had; and its reply is what
`Inspect` and `List` report of the tag. -/
theorem register_reported (inst : Installation) (hardLinks : Bool) (clock : Nat → Nat)
    (ops : List Operation) (hops : ∀ o ∈ ops, o.Valid inst.root ∧ o.Accepted) (params : Option Json)
    (body : Json) :
    let h := Operation.afterAll inst ops (openedFs inst.root hardLinks clock)
    let after := (handleRegister inst.json params inst.ctx).run Fs.exec h
    after.1 = .ok body →
      ∃ id name tag d entry, registerId params = some id ∧
        registerTarget id (textParam params "tag") = (name, tag) ∧
        inst.ctx.tags.getTagAt after.2 name tag = .ok (some d) ∧
        (∀ start core ending, start ∈ digestStarts → ending ∈ digestEnds → HexDigits core →
          textParam params "digest" = some (start ++ core ++ ending) →
          d = Text.toAsciiLowercase core) ∧
        (textParam params "digest" = none → inst.ctx.tags.getTagAt h name tag = .ok (some d)) ∧
        body.get "entry" = some entry ∧ entry.get "id" = some (.str (name ++ ":" ++ tag)) ∧
        entry.get "digest" = some (.str d) ∧
        InspectsAs inst after.2 (name ++ ":" ++ tag) entry (body.get "metadata") ∧
        ListsAs inst after.2 (name ++ ":" ++ tag) entry := by
  intro h after hok
  obtain ⟨m, hm, he⟩ := Operation.registry_afterAll (P := Segments) (fun o ho => (hops o ho).1)
    (fun o ho _ _ hnv => (hops o ho).2.segments hnv) (wellFormed_openedFs ..)
    (holds_openedFs inst.root hardLinks clock)
  have hnew : ∀ n v d, m n v = some d → IsDigest d ∧ Segments n v := by
    intro n v d hd
    rcases he n v d hd with hnone | hnew
    · cases hnone
    · exact hnew
  obtain ⟨name, tag, d, hreg⟩ := exists_registration hm (fun n v d hd => (hnew n v d hd).1) hok
  obtain ⟨id, hid, htarget⟩ := hreg.target
  have hset : ∀ n v e, m.set ⟨name, hreg.isName.1⟩ ⟨tag, hreg.isTag.1⟩ (some d) n v = some e →
      IsDigest e ∧ Segments n v := by
    intro n v e he
    rcases Entries.extends_set hreg.isDigest (P := Segments) ⟨hreg.isName, hreg.isTag⟩ n v e he with
      hold | hnew'
    · exact hnew n v e hold
    · exact hnew'
  have hself : m.set ⟨name, hreg.isName.1⟩ ⟨tag, hreg.isTag.1⟩ (some d) ⟨name, hreg.isName.1⟩
      ⟨tag, hreg.isTag.1⟩ = some d := by
    rw [Entries.set, if_pos ⟨rfl, rfl⟩]
  -- What the registry says of the tag before and after.
  have hget : ∀ {m' : Entries} {s : Fs}, inst.ctx.tags.Holds s m' →
      m' ⟨name, hreg.isName.1⟩ ⟨tag, hreg.isTag.1⟩ = some d →
      inst.ctx.tags.getTagAt s name tag = .ok (some d) := by
    intro m' s hm' hd
    rcases hm'.run_getTag name tag with ⟨_, _, hget⟩ | ⟨hbad, -⟩
    · rw [TagRegistry.getTagAt, hget, hd, Option.map_some, hreg.isDigest.trim_eq]
    · exact absurd ⟨hreg.isName, hreg.isTag⟩ hbad
  have hreply := congrArg Prod.fst hreg.reply
  have hentry := listEntry_of_describeEntry hreply
  obtain ⟨entry, hentry', hinspects⟩ :=
    inspectsAs_of_describeEntry hreg.isName hreg.isTag (hget hreg.holds hself) hreply
  obtain rfl := Option.some.inj (hentry'.symm.trans hentry)
  have hof : IsEntryOf ⟨name, tag, d⟩ ((listEntry inst.ctx ⟨name, tag, d⟩).run Fs.exec after.2).1 :=
    isEntryOf_listEntry _
  refine ⟨id, name, tag, d, _, hid, htarget, hget hreg.holds hself, ?_, ?_, hentry, hof.id, hof.digest,
    hinspects, ?_⟩
  · intro start core ending hstart hending hcore hgiven
    rw [hreg.given _ hgiven, cleanDigest_spelled hstart hending hcore]
  · intro hnone
    exact hget hm (hreg.absent hnone)
  · exact listsAs_of_holds hreg.holds (fun n v e he => (hset n v e he).2)
      (fun n v e he => (hset n v e he).1) hreg.isName hreg.isTag hself

/-- A call that names a digest in upper case, between what may stand around it. -/
def sampleSpelled : Option Json :=
  some (.obj [("digest", .str ("sha256:" ++ digestEmptyUpper ++ ".gguf")), ("id", .str "n")])

/-- There is nothing unsafe in a store that was just opened. -/
private theorem not_unsafeBlob_openedFs (d : String) : ¬ UnsafeBlob ⟨sampleRoot⟩ (sampleFs true) d := by
  rintro ⟨bytes, reason, hcontent, -⟩
  rw [CasStore.content_eq] at hcontent
  obtain ⟨i, hi, -⟩ := Option.map_eq_some_iff.1 hcontent
  exact lookup_openedFs_ne_file sampleRoot true id _ i (Fs.fileAt_eq_some.1 hi)

/-- The digest is named in lower case. -/
theorem sample_register_reported :
    sampleInstallation.ctx.tags.getTagAt ((handleRegister sampleInstallation.json sampleSpelled
      sampleInstallation.ctx).run Fs.exec (sampleFs true)).2 "n" "latest" =
        .ok (some (Text.toAsciiLowercase digestEmptyUpper)) := by
  have hstart : "sha256:" ∈ digestStarts := by decide
  have hending : ".gguf" ∈ digestEnds := by decide
  have hcore : HexDigits digestEmptyUpper := by decide
  have hid' : registerId sampleSpelled = some "n" := by decide
  have htarget' : registerTarget "n" (textParam sampleSpelled "tag") = ("n", "latest") := by decide
  have hclean := cleanDigest_spelled hstart hending hcore
  obtain ⟨body, hok⟩ := @exists_reply sampleRoot sampleInstallation.json (sampleFs true) _
    (wellFormed_openedFs sampleRoot true id) (holds_openedFs sampleRoot true id) _ _ _ _ _ hid' htarget'
    (by decide) (by decide) rfl (hclean ▸ by decide) (not_unsafeBlob_openedFs _)
  obtain ⟨id, name, tag, d, entry, hid, htarget, hget, hspelled, -⟩ :=
    register_reported sampleInstallation true id [] nofun sampleSpelled body hok
  obtain rfl := Option.some.inj (hid.symm.trans hid')
  obtain ⟨rfl, rfl⟩ := Prod.mk.inj (htarget.symm.trans htarget')
  obtain rfl := hspelled _ _ _ hstart hending hcore rfl
  exact hget

end Modeld
