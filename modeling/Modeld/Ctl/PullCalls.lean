import Modeld.Ctl.CommitCalls
import Modeld.Ctl.Import
import Modeld.Ctl.Pull

/-!
# Which calls a pull and an import make

As for commits, the calls of `runPull` stay where they belong when the name and the tag of the model
are ordinary file names. `runImport` leaves such checks to the tag registry.
-/

namespace Modeld

open Host Program

namespace Pull

variable {may : Call → Prop} {p : Pull}

theorem only_readOrEmpty {path : Path} : Only Reads (readOrEmpty path) := by
  refine Only.perform trivial fun r => ?_
  rcases r with e | file
  · exact only_done _
  refine Only.perform trivial fun r => ?_
  cases r <;> exact only_done _

theorem only_isPresent : Only Reads p.isPresent := by
  refine Only.perform trivial fun r => ?_
  split
  · refine only_readOrEmpty.bind fun _ => ?_
    refine Only.perform trivial fun r => ?_
    split
    · exact only_done _
    · exact only_perform trivial
  · exact only_done _

theorem keeps_downloadLoop {reply : (o : Call) → Reply o → Prop} {file : Ino}
    (hwrite : ∀ off b, may (.writeAt file off b)) (chunks : List (Except String Bytes))
    (hashed : Bytes) : Keeps may reply (downloadLoop file chunks hashed) fun _ => True := by
  induction chunks generalizing hashed with
  | nil => exact (keeps_done _).2 trivial
  | cons chunk chunks ih =>
    rcases chunk with e | chunk
    · exact (keeps_done _).2 trivial
    refine Keeps.perform (hwrite _ _) fun r _ => ?_
    rcases r with e | -
    · exact (keeps_done _).2 trivial
    · exact ih _

/-- The download writes to the file that it has created. -/
theorem keeps_download {reply : (o : Call) → Reply o → Prop} {chunks : List (Except String Bytes)}
    (hcreate : may (.create p.stagePath))
    (hwrite : ∀ i off b, reply (.create p.stagePath) (.ok i) → may (.writeAt i off b))
    (hremove : may (.removeFile p.stagePath)) :
    Keeps may reply (p.download chunks) fun _ => True := by
  refine Keeps.perform hcreate fun r hr => ?_
  rcases r with e | file
  · exact (keeps_done _).2 trivial
  refine (keeps_downloadLoop (fun off b => hwrite file off b hr) chunks []).bind fun r _ => ?_
  rcases r with e | bytes
  · exact Keeps.perform hremove fun _ _ => (keeps_done _).2 trivial
  · exact (keeps_done _).2 trivial

theorem only_commitTokenizer {root : Path} {name : String} {data : Bytes}
    (hdirs : may (.createDirAll (root.join "safetensors")))
    (hwrite : may (.write ((root.join "safetensors").join (name ++ ".tokenizer.json")) data)) :
    Only may (commitTokenizer root name data) := by
  refine Only.perform hdirs fun r => ?_
  rcases r with e | -
  · exact only_done _
  refine Only.perform hwrite fun r => ?_
  cases r <;> exact only_done _

theorem only_finish {sha : Sha256} {bytes : Bytes}
    (hcommit : Only may (commitArtifact (p.commit (sha.hash bytes))))
    (htokenizer : ∀ data, Only may (commitTokenizer p.storageRoot p.name data)) :
    Only may (p.finish sha bytes) := by
  refine hcommit.bind fun r => ?_
  rcases r with e | -
  · exact only_done _
  dsimp only
  split
  · exact only_done _
  · exact (htokenizer _).bind fun _ => only_done _

theorem only_runPull {sha : Sha256} (hreads : ∀ o, Reads o → may o)
    (hdirs : may (.createDirAll p.incomingDir)) (hdownload : ∀ chunks, Only may (p.download chunks))
    (hfinish : ∀ bytes, Only may (p.finish sha bytes)) : Only may (runPull sha p) := by
  refine (only_isPresent.mono hreads).bind fun present => ?_
  split
  · exact only_done _
  split
  · exact only_done _
  refine Only.perform hdirs fun r => ?_
  rcases r with e | -
  · exact only_done _
  refine (hdownload _).bind fun r => ?_
  rcases r with e | bytes
  · exact only_done _
  · exact hfinish bytes

/-- The name and the tag are ordinary file names. -/
structure Valid (p : Pull) : Prop where
  name : PlainName p.name
  tag : PlainName p.tag

theorem incomingDir_eq : p.incomingDir = p.storageRoot ++ [Dir.cas, Dir.incoming] :=
  CasStore.incomingDir_eq ⟨p.storageRoot⟩

private theorem not_mem_replaceChar {s t : String} {c x : Char} (hs : x ∉ s.toList)
    (ht : x ∉ t.toList) : x ∉ (Text.replaceChar s c t).toList := by
  simp only [Text.replaceChar, String.toList_ofList, List.mem_flatMap, not_exists, not_and]
  intro y hy
  split
  · exact ht
  · simp only [List.mem_singleton]
    rintro rfl
    exact hs hy

private theorem not_mem_toString {n : Nat} {c : Char} (hc : c.isDigit = false) :
    c ∉ (toString n).toList := by
  intro hmem
  rw [Nat.toString_eq_ofList_toDigits, String.toList_ofList] at hmem
  simp [Nat.isDigit_of_mem_toDigits (by decide) (by decide) hmem] at hc

namespace Valid

variable (hp : p.Valid)

include hp

theorem plain_stage : PlainName p.stageFilename := by
  have hname := not_mem_replaceChar (c := '/') (t := "-") hp.name.2.2.2 (by decide)
  have htag := not_mem_replaceChar (c := ':') (t := "-") hp.tag.2.2.2 (by decide)
  have hnum := fun n => not_mem_toString (n := n) (c := '/') (by decide)
  have hpull : PlainName "pull-" := by decide
  unfold stageFilename
  exact ((((((((hpull.append (hnum _)).append (by decide)).append hname).append (by decide)).append
    htag).append (by decide)).append (hnum _)).append (by decide)).append (hnum _)

theorem stagePath_eq : p.stagePath =
    p.storageRoot ++ [Dir.cas, Dir.incoming, ⟨p.stageFilename, hp.plain_stage⟩] := by
  rw [stagePath, incomingDir_eq, Path.join_of_plain _ hp.plain_stage]
  simp

theorem valid_commit {d : String} (hd : IsDigest d) : (p.commit d).Valid := by
  refine ⟨?_, by rwa [digest_commit], by rw [Pull.commit]; exact hp.name, by
    rw [Pull.commit]; exact hp.tag⟩
  rw [stagePath_commit, storageRoot_commit]
  exact ⟨_, hp.stagePath_eq⟩

omit hp in
theorem inArea_incomingDir : InArea p.storageRoot Dir.cas (.createDirAll p.incomingDir) :=
  CasStore.inArea_incomingDir

theorem stage_in_cas : p.storageRoot ++ [Dir.cas] <+: p.stagePath := by
  rw [hp.stagePath_eq]
  simp

theorem inArea_download {chunks : List (Except String Bytes)} :
    Only (InArea p.storageRoot Dir.cas) (p.download chunks) := by
  have hcas := hp.stage_in_cas
  exact keeps_download
    ⟨⟨under_root hcas, not_linkPlace_of_area hcas (by decide) (by decide)⟩,
      fun y hy => not_under hcas hy⟩
    (fun _ _ _ _ => ⟨trivial, fun _ _ => trivial⟩) ⟨trivial, fun y hy => not_under hcas hy⟩

/-- The tokenizer goes to a directory of links, under a name that no link has. -/
theorem amongLinks_commitTokenizer (data : Bytes) :
    Only (AmongLinks p.storageRoot) (commitTokenizer p.storageRoot p.name data) := by
  have hplain : PlainName (p.name ++ ".tokenizer.json") := hp.name.append (by decide)
  have hdir : p.storageRoot.join "safetensors" = p.storageRoot ++ [Dir.safetensors] :=
    Path.join_name _ Dir.safetensors
  have hfile : (p.storageRoot.join "safetensors").join (p.name ++ ".tokenizer.json") =
      p.storageRoot ++ [Dir.safetensors, ⟨_, hplain⟩] := by
    rw [hdir, Path.join_of_plain _ hplain]
    simp
  refine only_commitTokenizer ?_ ?_
  · rw [hdir]
    exact amongLinks_createDirAll (.inr rfl)
  · rw [hfile]
    refine ⟨⟨List.prefix_append _ _, ?_⟩, fun y _ hy => not_under (x := Dir.safetensors) (by simp) hy,
      by rintro _ _ _ ⟨⟩⟩
    rintro ⟨n, ⟨hn, -⟩ | ⟨hn, hext⟩⟩
    · simp at hn
    · simp only [List.append_cancel_left_eq, List.cons.injEq, and_true, true_and] at hn
      subst hn
      simp only [Text.endsWith, decide_eq_true_eq] at hext
      obtain ⟨t, ht⟩ := hext
      have := congrArg List.reverse ht
      simp at this

theorem outside_commitTokenizer (data : Bytes) :
    Only (Outside p.storageRoot) (commitTokenizer p.storageRoot p.name data) :=
  (hp.amongLinks_commitTokenizer data).mono fun _ ho => ho.outside

theorem keepsPins_runPull {sha : Sha256} : Only (KeepsPins p.storageRoot) (runPull sha p) := by
  refine only_runPull (fun _ ho => ho.inArea.keepsPins (x := Dir.cas) (by decide))
    (inArea_incomingDir.keepsPins (by decide))
    (fun _ => hp.inArea_download.mono fun _ ho => ho.keepsPins (by decide)) fun bytes => ?_
  exact only_finish (hp.valid_commit (sha.isDigest_hash bytes)).keepsPins_commitArtifact
    fun data => (hp.outside_commitTokenizer data).mono fun _ ho => ho.keepsPins

end Valid

end Pull

/-! ### Imports -/

variable {may : Call → Prop} {sha : Sha256} {root : Path} {pid : Pid} {tag : Option String}

theorem keeps_storeImport {reply : (o : Call) → Reply o → Prop} {cas : CasStore}
    {tags : TagRegistry} {reader : Reader}
    (hstore : Keeps may reply (cas.storeBlob sha pid reader none) fun _ => True)
    (hset : ∀ name variant d, Keeps may reply (tags.setTag name variant d) fun _ => True) :
    Keeps may reply (storeImport sha cas tags pid reader tag) fun _ => True := by
  refine hstore.bind fun r _ => ?_
  rcases r with e | ⟨digest, -⟩
  · exact (keeps_done _).2 trivial
  dsimp only
  split
  · exact (keeps_done _).2 trivial
  · exact hset _ _ _

theorem keeps_runImport {reply : (o : Call) → Reply o → Prop} {chunking : Chunking} {source : Path}
    (hlooks : ∀ o, Looks o → may o) (hsource : may (.openFile source))
    (hblobs : may (.createDirAll (CasStore.mk root).blobsDir))
    (hincoming : may (.createDirAll (CasStore.mk root).incomingDir))
    (htags : may (.createDirAll (root.join "tags")))
    (hstore : ∀ reader,
      Keeps may reply ((CasStore.mk root).storeBlob sha pid reader none) fun _ => True)
    (hset : ∀ name variant d,
      Keeps may reply ((TagRegistry.mk (root.join "tags")).setTag name variant d) fun _ => True) :
    Keeps may reply (runImport sha chunking root pid source tag) fun _ => True := by
  refine Keeps.perform (hlooks _ trivial) fun r _ => ?_
  split
  · exact (keeps_done _).2 trivial
  split
  · exact (keeps_done _).2 trivial
  refine Keeps.bind (CasStore.keeps_new hblobs hincoming) fun r hr => ?_
  rcases r with e | cas
  · exact (keeps_done _).2 trivial
  obtain rfl := hr cas rfl
  refine Keeps.bind (TagRegistry.keeps_new htags) fun r hr => ?_
  rcases r with e | tags
  · exact (keeps_done _).2 trivial
  obtain rfl := hr tags rfl
  refine Keeps.perform hsource fun r _ => ?_
  rcases r with e | file
  · exact (keeps_done _).2 trivial
  refine Keeps.perform (hlooks _ trivial) fun r _ => ?_
  split
  · exact (keeps_done _).2 trivial
  refine Keeps.perform (hlooks _ trivial) fun r _ => ?_
  refine (keeps_storeImport (hstore _) hset).bind fun r _ => ?_
  cases r <;> exact (keeps_done _).2 trivial

/-- An import keeps to the layout and leaves the pins alone, whatever its tag is. -/
theorem keepsPins_runImport {chunking : Chunking} {source : Path} :
    Only (KeepsPins root) (runImport sha chunking root pid source tag) := by
  have hreads : ∀ o, Reads o → KeepsPins root o := fun _ ho =>
    ho.inArea.keepsPins (x := Dir.cas) (by decide)
  refine keeps_runImport (fun o ho => hreads o ho.reads) (hreads _ trivial)
    (CasStore.inArea_blobsDir.keepsPins (by decide))
    (CasStore.inArea_incomingDir.keepsPins (by decide))
    (TagRegistry.inArea_tagsDir.keepsPins (by decide)) (fun reader => ?_) fun name variant d => ?_
  · exact CasStore.inArea_storeBlob.mono fun _ ho => ho.keepsPins (by decide)
  · rw [Path.join_name _ Dir.tags]
    exact TagRegistry.inArea_setTag.mono fun _ ho => ho.keepsPins (by decide)

end Modeld
