import Modeld.Core.Areas
import Modeld.Ctl.LinkRun
import Modeld.Runs.BlobRuns

/-!
# The aliases of models

Commits put links to models in the format directories. Over a whole run, these links are a table in
which every commit that succeeds takes the places of its aliases; nothing else changes the table.
-/

namespace Modeld

open Host Program

/-- Where the links lead. -/
abbrev LinkTable := Path → Option Path

/-- The link at a place leads to a file. -/
def LinkTable.leads (table : LinkTable) (h : Fs) (p : Path) : Bool :=
  match table p with
  | none => false
  | some t =>
    match h.lookup t with
    | some (.file _) => true
    | _ => false

namespace ArtifactCommit

/-- The aliases that are the commit's own: with its tag, or without one for the tag `latest`. -/
def aliases (c : ArtifactCommit) : List Path :=
  if c.tag = "latest" then [c.untaggedDest] else [c.colonDest, c.dashDest]

/-- The places that a commit takes: its aliases, and the place without a tag when that leads to no
file. -/
def places (c : ArtifactCommit) (h : Fs) (table : LinkTable) : List Path :=
  c.aliases ++ if table.leads h c.untaggedDest then [] else [c.untaggedDest]

end ArtifactCommit

namespace BlobEvent

variable (inst : Installation)

/-- The commit, if the event is one and succeeds. -/
def committed (h : Fs) : BlobEvent → Option ArtifactCommit
  | commit staged c =>
    if (((commit staged c).program inst).run Fs.exec h).1 = some c.digest then some c else none
  | _ => none

end BlobEvent

/-! ### Links and the table -/

variable {root : Path} {h h' : Fs} {table : LinkTable} {p : Path}

/-- The links are those of the table. -/
structure Tabled (root : Path) (h : Fs) (table : LinkTable) : Prop where
  wellFormed : WellFormed root h
  linked : Linked root h
  places : ∀ p, LinkPlace root p → h.lookup p = (table p).map .symlink

/-- Links as before. -/
structure SameLinks (root : Path) (h h' : Fs) : Prop where
  gguf : SameArea root Dir.gguf h h'
  safetensors : SameArea root Dir.safetensors h h'

theorem SameLinks.refl : SameLinks root h h := ⟨.refl, .refl⟩

theorem SameLinks.trans {h'' : Fs} (h₁ : SameLinks root h h') (h₂ : SameLinks root h' h'') :
    SameLinks root h h'' := ⟨h₁.gguf.trans h₂.gguf, h₁.safetensors.trans h₂.safetensors⟩

theorem SameLinks.lookup (hs : SameLinks root h h') (hp : LinkPlace root p) :
    h'.lookup p = h.lookup p := by
  obtain ⟨n, ⟨rfl, -⟩ | ⟨rfl, -⟩⟩ := hp
  · exact hs.gguf.lookup _ (by simp)
  · exact hs.safetensors.lookup _ (by simp)

theorem SameLinks.linked (hs : SameLinks root h h') (hl : Linked root h) : Linked root h' := by
  refine hl.of_lookup_eq fun q x hx hq => ?_
  rcases hx with rfl | rfl
  · exact hs.gguf.lookup q hq
  · exact hs.safetensors.lookup q hq

/-- A link leads to a file as the table says. -/
theorem Tabled.pathExists (ht : Tabled root h table) (hp : LinkPlace root p) :
    h.pathExists p = table.leads h p := by
  rw [Bool.eq_iff_iff, ht.linked.pathExists_iff ht.wellFormed hp, ht.places p hp, LinkTable.leads]
  cases table p with
  | none => simp
  | some t =>
    dsimp only
    constructor
    · rintro ⟨t', i, hlink, hfile⟩
      obtain rfl : t = t' := by simpa using hlink
      rw [hfile]
    · intro hleads
      split at hleads
      · exact ⟨t, _, rfl, ‹_›⟩
      · cases hleads

/-! ### Programs that leave the links alone -/

/-- The program leaves the links as they are. -/
def LeavesLinks {α : Type} (root : Path) (p : Io α) : Prop :=
  Leaves root Dir.gguf p ∧ Leaves root Dir.safetensors p

theorem LeavesLinks.bind {α β : Type} {p : Io α} {f : α → Io β} (hp : LeavesLinks root p)
    (hf : ∀ a, LeavesLinks root (f a)) : LeavesLinks root (p >>= f) :=
  ⟨hp.1.bind fun a => (hf a).1, hp.2.bind fun a => (hf a).2⟩

theorem LeavesLinks.done {α : Type} (a : α) : LeavesLinks root (Program.done a : Io α) :=
  ⟨.done a, .done a⟩

namespace BlobEvent

variable {inst : Installation}

end BlobEvent

/-! ### A commit -/

namespace ArtifactCommit

variable {c : ArtifactCommit} {staged : Bytes}

namespace Valid

variable (hc : c.Valid)

include hc

end Valid

end ArtifactCommit

/-! ### Runs -/

namespace BlobEvent

variable {inst : Installation} {e : BlobEvent}

end BlobEvent

end Modeld
