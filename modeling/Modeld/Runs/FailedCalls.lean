import Modeld.Daemon.ErrorFrame
import Modeld.Runs.Operations

/-!
# Calls that fail, in any reachable state

A reply with an error leaves the tags, the pins and the store as they were, except when `Register`
refuses an unsafe blob: the tag is written by then.
-/

namespace Modeld

open Host Program

/-- The state that a failed call leaves behind is the state before it, unless the call registers an
unsafe blob under a tag that did not have its digest before. -/
theorem error_unchanged_iff (inst : Installation) (h : Fs) (hh : Reachable inst h)
    (call : VarlinkCall) :
    let result := (dispatchCall inst.json call inst.ctx).run Fs.exec h
    (result.1.error.isSome = true → SameStorage inst.root h result.2) ↔
      ¬ RegistersUnsafe inst.root call h :=
  dispatchCall_error inst.root inst.json call h hh.wellFormed

/-- Pinning a model that does not exist fails and changes nothing. -/
theorem pin_unknown_unchanged :
    let result := (dispatchCall emptyObjectLibrary (modelCall "Pin" [("id", .str "m")])
      sampleInstallation.ctx).run Fs.exec (sampleFs true)
    result.1.error.isSome = true ∧ SameStorage sampleRoot (sampleFs true) result.2 := by
  have herror : ((dispatchCall emptyObjectLibrary (modelCall "Pin" [("id", .str "m")])
      sampleInstallation.ctx).run Fs.exec (sampleFs true)).1.error.isSome = true := by
    decide +kernel
  refine ⟨herror, (error_unchanged_iff sampleInstallation (sampleFs true) (reachable_openedFs ..)
    _).2 (fun hbad => ?_) herror⟩
  exact absurd hbad.1 (by decide)

/-- The bytes of a short pickle. -/
def samplePickle : Bytes := [0x80, 0x04, 0x00, 0x00]

/-- The sample root once a pickle was stored. -/
def samplePickled : Fs :=
  Operation.afterAll sampleInstallation [.store 7 [.ok samplePickle] none] (sampleFs true)

/-- Registering a stored pickle fails, and yet the model has its tag afterwards. -/
theorem register_pickle_writes_tag :
    let result := (dispatchCall emptyObjectLibrary
      (modelCall "Register" [("digest", .str digestEmpty), ("id", .str "m")])
      sampleInstallation.ctx).run Fs.exec samplePickled
    Reachable sampleInstallation samplePickled ∧ result.1.error.isSome = true ∧
      ¬ SameStorage sampleRoot samplePickled result.2 := by
  refine ⟨⟨true, id, _, ?_, rfl⟩, ?_, fun hsame => ?_⟩
  · simp [Operation.Valid]
  · decide +kernel
  · have htag := hsame.tags ⟨"m", by decide⟩ ⟨"latest", by decide⟩
    revert htag
    decide +kernel

end Modeld
