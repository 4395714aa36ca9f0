import Modeld.Core.PinnedBlobs
import Modeld.Daemon.ErrorFrame
import Modeld.Runs.Operations

/-!
# Pins over runs of operations

A run keeps a ledger for each digest: whether the last `Pin` or `Unpin` that succeeded for it was a
`Pin`. As long as pulls and commits use ordinary file names, the ledger says pinned only when the
pin file is there, and no `Prune` then changes what opening the digest yields.
-/

namespace Modeld

open Host Program

variable {inst : Installation} {root : Path} {h : Fs} {d e : String} {o : Operation}
  {ctx : ModelServiceContext} {params : Option Json} {more : Option Bool}

/-! ### The ledger -/

/-- The digest that a `Pin` or an `Unpin` acts on. -/
def digestTarget (tags : TagRegistry) (h : Fs) (params : Option Json) : Option String :=
  (textParam params "id").bind fun id =>
    match ((resolveDigest tags id).run Fs.exec h).1 with
    | .ok digest => some (Text.trim digest)
    | _ => none

/-- A `Pin` or an `Unpin` either fails or is the operation on its target. -/
theorem run_handleDigest {α : Type} (ctx : ModelServiceContext) (params : Option Json) (h : Fs)
    (operation : EvictionManager → String → Io (Except ModeldError α)) :
    (((handleDigest operation params ctx).run Fs.exec h).1.error = none ∧
      ∃ e a, digestTarget ctx.tags h params = some (Text.trim e) ∧
      ((operation ctx.eviction e).run Fs.exec h).1 = .ok a ∧
      ((handleDigest operation params ctx).run Fs.exec h).2 =
        ((operation ctx.eviction e).run Fs.exec h).2) ∨
    ((handleDigest operation params ctx).run Fs.exec h).1.error.isSome = true := by
  unfold handleDigest digestTarget
  cases textParam params "id" with
  | none => exact .inr rfl
  | some id =>
    dsimp only [Option.bind_some]
    rw [run_bind_of_reads only_resolveDigest]
    cases ((resolveDigest ctx.tags id).run Fs.exec h).1 with
    | invalid => exact .inr rfl
    | notFound => exact .inr rfl
    | ok digest =>
      dsimp only
      rw [run_bind]
      cases hr : ((operation ctx.eviction digest).run Fs.exec h).1 with
      | error err => exact .inr rfl
      | ok a => exact .inl ⟨rfl, digest, a, rfl, hr, rfl⟩

/-- A pin that succeeds is of a digest, makes its file and takes no file away. -/
theorem EvictionManager.run_pin {u : Unit} (hw : WellFormed root h)
    (hok : (((ofRoot root).pin e).run Fs.exec h).1 = .ok u) :
    IsDigest (Text.trim e) ∧ Pinned root (((ofRoot root).pin e).run Fs.exec h).2 (Text.trim e) ∧
      ∀ d, Pinned root h d → Pinned root (((ofRoot root).pin e).run Fs.exec h).2 d := by
  unfold pin at hok ⊢
  by_cases hd : IsDigest (Text.trim e)
  swap
  · obtain ⟨err, herr⟩ := validateDigestFormat_of_not_isDigest hd
    rw [herr] at hok
    cases hok
  have harea : root ++ [Dir.pinned] <+: (ofRoot root).pinnedDir.join (Text.trim e) := by
    rw [pinFile_eq hd]
    simp
  have hfinal := hw.final_eq (under_root harea) (not_linkPlace_of_area harea (by decide) (by decide))
  rw [validateDigestFormat_of_isDigest hd] at hok ⊢
  simp only [Pinned]
  generalize (ofRoot root).pinnedDir.join (Text.trim e) = p at *
  rw [Fs.run_create] at hok ⊢
  rcases hc : h.create p with ⟨err | i, h'⟩
  · rw [hc] at hok
    cases hok
  obtain ⟨hself, hother⟩ := Fs.create_lookup hc hfinal
  refine ⟨hd, ⟨i, hself⟩, ?_⟩
  rintro d ⟨j, hj⟩
  by_cases hpath : (ofRoot root).pinnedDir.join d = p
  · exact ⟨i, hpath ▸ hself⟩
  · exact ⟨j, (hother _ hpath).trans hj⟩

namespace Operation

theorem after_call (c : VarlinkCall) :
    (call c).after inst h = ((dispatchCall inst.json c inst.ctx).run Fs.exec h).2 := by
  rw [after, program, run_bind]
  rfl

/-- A call of `Prune` with any parameters either does nothing or prunes. -/
theorem after_prune (inst : Installation) (h : Fs) (params : Option Json) (more : Option Bool) :
    (call ⟨"io.syntrop.Model1.Prune", params, more⟩).after inst h = h ∨
    (call ⟨"io.syntrop.Model1.Prune", params, more⟩).after inst h =
      (((EvictionManager.ofRoot inst.root).prune ⟨inst.root⟩ (maxBytesParam params)).run
        Fs.exec h).2 := by
  rw [after_call, dispatchCall_prune, handlePrune]
  split
  · exact .inl rfl
  · right
    rw [run_bind]
    cases (((EvictionManager.ofRoot inst.root).prune ⟨inst.root⟩ (maxBytesParam params)).run
      Fs.exec h).1 <;> rfl

end Operation

end Modeld
