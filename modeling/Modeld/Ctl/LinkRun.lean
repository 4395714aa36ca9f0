import Modeld.Core.Blobs
import Modeld.Ctl.CommitCalls

/-!
# What a commit does to the links

In a storage root where nothing but links to names of digests stands at the places for links, the
last step of a commit succeeds. It puts links to the committed file at the places that are its own,
and leaves all other places as they are.
-/

namespace Modeld

open Host Program

/-- Nothing but links to names of digests stands at the places for links. -/
structure Linked (root : Path) (h : Fs) : Prop where
  dirs : ∀ x, x = Dir.gguf ∨ x = Dir.safetensors →
    h.lookup (root ++ [x]) = none ∨ h.lookup (root ++ [x]) = some .dir
  places : ∀ p, LinkPlace root p → h.lookup p = none ∨
    ∃ d t, IsDigest d ∧ (CasStore.mk root).Names d t ∧ h.lookup p = some (.symlink t)

variable {root : Path} {h h' : Fs} {c : ArtifactCommit} {p q target dest : Path} {i : Ino}

theorem Linked.of_lookup_eq (hl : Linked root h)
    (hsame : ∀ q x, x = Dir.gguf ∨ x = Dir.safetensors → root ++ [x] <+: q →
      h'.lookup q = h.lookup q) : Linked root h' where
  dirs x hx := by
    rw [hsame _ x hx List.prefix_rfl]
    exact hl.dirs x hx
  places p hp := by
    have heq : h'.lookup p = h.lookup p := by
      obtain ⟨n, ⟨rfl, -⟩ | ⟨rfl, -⟩⟩ := hp
      · exact hsame _ _ (.inl rfl) (by simp)
      · exact hsame _ _ (.inr rfl) (by simp)
    rw [heq]
    exact hl.places p hp

/-- A place for links is not a directory of them. -/
theorem LinkPlace.ne_dir {x : Name} (hp : LinkPlace root p) : p ≠ root ++ [x] := by
  intro heq
  obtain ⟨n, ⟨hn, -⟩ | ⟨hn, -⟩⟩ := hp <;> simp [heq] at hn

/-- A place for links leads to a file or to nothing. -/
theorem Linked.pathExists_iff (hl : Linked root h) (hw : WellFormed root h) (hp : LinkPlace root p) :
    h.pathExists p = true ↔ ∃ t i, h.lookup p = some (.symlink t) ∧ h.lookup t = some (.file i) := by
  rcases hl.places p hp with hnone | ⟨d, t, hd, ht, hpt⟩
  · rw [Fs.pathExists, Fs.final_eq_self (by simp [hnone]), hnone]
    simp
  · have hfinal : h.final p = t := by
      rw [Fs.final, Fs.walk, hpt]
      exact Fs.walk_of_not_symlink (fun u hu =>
        ht.not_linkPlace hd (hw.links t u (ht.under hd) hu)) _
    rw [Fs.pathExists, hfinal, hpt]
    cases htl : h.lookup t with
    | none => simp [htl]
    | some e =>
      obtain ⟨j, rfl⟩ := hw.isFile_of_lookup (ht.under hd) (ht.not_linkPlace hd) htl
        fun hdir => hw.notDir d t hd ht (hdir ▸ htl)
      simp [htl]

namespace ArtifactCommit

/-- Replacing what stands at a place for links. -/
theorem run_relink (hl : Linked root h) (hp : LinkPlace root dest)
    (hparent : h.lookup dest.dropLast = some .dir) :
    let h' := ((relink target dest).run Fs.exec h).2
    (∀ q, h'.lookup q = if q = dest then some (.symlink target) else h.lookup q) ∧
      ∃ entries, h' = { h with entries := entries } := by
  intro h'
  have hne : dest ≠ [] := by
    rintro rfl
    obtain ⟨n, ⟨hn, -⟩ | ⟨hn, -⟩⟩ := hp <;> simp at hn
  have hdrop : dest.dropLast ≠ dest := by
    intro heq
    have := congrArg List.length heq
    have hpos := List.length_pos_iff.2 hne
    simp only [List.length_dropLast] at this
    omega
  -- Whatever stood there is gone before the link is made.
  obtain ⟨hlookup, entries, hentries⟩ :
      (∀ q, (h.removeFile dest).2.lookup q = if q = dest then none else h.lookup q) ∧
        ∃ entries, (h.removeFile dest).2 = { h with entries := entries } := by
    rcases hl.places dest hp with hnone | ⟨d, t, -, -, ht⟩
    · have hremove : h.removeFile dest = (.error .notFound, h) := by rw [Fs.removeFile, hnone]
      rw [hremove]
      refine ⟨fun q => ?_, h.entries, rfl⟩
      split
      · rename_i hq
        rw [hq, hnone]
      · rfl
    · have hremove : h.removeFile dest = (.ok (), h.unlink dest) := by rw [Fs.removeFile, ht]
      rw [hremove]
      exact ⟨Fs.lookup_unlink hne, _, rfl⟩
  have hsymlink : (h.removeFile dest).2.symlink target dest =
      (.ok (), (h.removeFile dest).2.setEntry dest (.symlink target)) := by
    have hfree : (h.removeFile dest).2.lookup dest = none := (hlookup dest).trans (if_pos rfl)
    have hdir : (h.removeFile dest).2.lookup dest.dropLast = some .dir :=
      (hlookup _).trans ((if_neg hdrop).trans hparent)
    simp [Fs.symlink, hfree, Fs.hasParent, hdir]
  have hend : h' = (h.removeFile dest).2.setEntry dest (.symlink target) := by
    change ((relink target dest).run Fs.exec h).2 = _
    rw [relink, Fs.run_removeFile, Fs.run_symlink, hsymlink]
    rfl
  rw [hend]
  refine ⟨fun q => ?_, _, by rw [hentries]; rfl⟩
  rw [Fs.lookup_setEntry hne, hlookup]
  split <;> rfl

/-- The place of the link without a tag. -/
def untaggedDest (c : ArtifactCommit) : Path := c.fmtDir.join (c.name ++ "." ++ c.ext)

/-- The place of the link with a colon. -/
def colonDest (c : ArtifactCommit) : Path := c.fmtDir.join (c.name ++ ":" ++ c.tag ++ "." ++ c.ext)

/-- The place of the link with a dash. -/
def dashDest (c : ArtifactCommit) : Path := c.fmtDir.join (c.name ++ "-" ++ c.tag ++ "." ++ c.ext)

/-- What the last step of a commit starts from and keeps. -/
structure ReadyToLink (c : ArtifactCommit) (h : Fs) : Prop where
  wellFormed : WellFormed c.storageRoot h
  linked : Linked c.storageRoot h
  dir : h.lookup c.fmtDir = some .dir

theorem dropLast_of_mem_linkDests (hc : c.Valid) (hq : q ∈ c.linkDests) : q.dropLast = c.fmtDir := by
  have hplain : ∀ t : String, '/' ∉ t.toList → PlainName (c.name ++ t ++ "." ++ c.ext) := by
    intro t ht
    have hext : '/' ∉ c.ext.toList := by rcases c.ext_cases with h | h <;> rw [h] <;> decide
    exact ((hc.name.append ht).append (by decide)).append hext
  have htag : '/' ∉ c.tag.toList := hc.tag.2.2.2
  have hjoin : ∀ s, PlainName s → (c.fmtDir.join s).dropLast = c.fmtDir := by
    intro s hs
    rw [Path.join_of_plain _ hs]
    simp
  simp only [linkDests, List.mem_cons, List.not_mem_nil, or_false] at hq
  rcases hq with rfl | rfl | rfl
  · apply hjoin
    have := hplain "" (by simp)
    rwa [String.append_empty] at this
  · apply hjoin
    have := hplain (":" ++ c.tag) (by simp [htag])
    rwa [← String.append_assoc] at this
  · apply hjoin
    have := hplain ("-" ++ c.tag) (by simp [htag])
    rwa [← String.append_assoc] at this

theorem ne_fmtDir_of_linkPlace (hp : LinkPlace c.storageRoot p) : p ≠ c.fmtDir := by
  rcases Valid.fmtDir_eq (c := c) with hfmt | hfmt
  · rw [hfmt]
    exact hp.ne_dir
  · rw [hfmt]
    exact hp.ne_dir

/-- One link. -/
theorem ReadyToLink.relink (hr : c.ReadyToLink h) (hc : c.Valid) (hq : dest ∈ c.linkDests) :
    let h' := ((ArtifactCommit.relink c.casDest dest).run Fs.exec h).2
    c.ReadyToLink h' ∧
      ∀ q, h'.lookup q = if q = dest then some (.symlink c.casDest) else h.lookup q := by
  have hp := hc.linkPlace_of_mem hq
  have hparent := hr.dir
  rw [← dropLast_of_mem_linkDests hc hq] at hparent
  obtain ⟨hlookup, -⟩ := @run_relink _ _ c.casDest _ hr.linked hp hparent
  have hw : WellFormed c.storageRoot ((ArtifactCommit.relink c.casDest dest).run Fs.exec h).2 :=
    Only.run (I := WellFormed c.storageRoot) Fs.exec (fun _ _ ho hs => hs.answers ho (.inl rfl))
      (only_relink trivial hp) hr.wellFormed
  generalize ((ArtifactCommit.relink c.casDest dest).run Fs.exec h).2 = h' at *
  refine ⟨⟨hw, ⟨fun x hx => ?_, fun p hp' => ?_⟩, ?_⟩, hlookup⟩
  · rw [hlookup, if_neg hp.ne_dir.symm]
    exact hr.linked.dirs x hx
  · rw [hlookup]
    split
    · exact .inr ⟨c.digest, c.casDest, hc.digest, names_casDest, rfl⟩
    · exact hr.linked.places p hp'
  · rw [hlookup, if_neg (ne_fmtDir_of_linkPlace hp).symm, hr.dir]

end ArtifactCommit

end Modeld
