import Modeld.Runs.CallLaw
import Modeld.Runs.CatalogueReplies

/-!
# The daemon refines the catalogue

One event of a client, and by induction a run of them, on a storage root that stands for a catalogue.
-/

namespace Modeld

open Host Program

variable {root : Path} {h : Fs} {c : Catalogue} {inst : Installation}

/-- Why a store is refused. -/
theorem CasStore.run_storeBlob_error {sha : Sha256} {pid : Pid} {reader : Reader}
    {expected : Option String} (hw : WellFormed root h)
    (hfree : h.lookup ((mk root).nextStage pid h) ≠ some .dir) :
    let r := ((mk root).storeBlob sha pid reader expected).run Fs.exec h
    (∀ e, reader.content = .error e → r.1 = .error (.io e)) ∧
    ∀ bytes d, reader.content = .ok bytes → mismatch (sha.hash bytes) expected = some d →
      r.1 = .error (.digestMismatch d (sha.hash bytes)) := by
  intro r
  rcases @run_storeBlob_start root h sha pid reader expected hw with
    ⟨hdir, -⟩ | ⟨-, file, h₁, hcreate, hr⟩
  · exact absurd hdir hfree
  obtain ⟨hempty, -⟩ := Fs.create_spec hcreate
  obtain ⟨herror, hok, -⟩ := run_storeLoop reader [] 0 hempty rfl
  rw [show r = _ from hr, storeInto, run_bind]
  constructor
  · intro e he
    rw [herror e he]
    rfl
  · intro bytes d hbytes hmatch
    rw [(hok bytes hbytes).1, List.nil_append]
    dsimp only
    rw [storeStaged, hmatch]
    rfl

namespace Stands

/-- `store_blob`. -/
theorem run_store (hs : Stands root h c) (sha : Sha256) (pid : Pid) (reader : Reader)
    (expected : Option String) :
    (((CasStore.mk root).storeBlob sha pid reader expected).run Fs.exec h).1 =
        (c.store sha reader expected).1 ∧
      Stands root (((CasStore.mk root).storeBlob sha pid reader expected).run Fs.exec h).2
        (c.store sha reader expected).2 := by
  have hfree : h.lookup ((CasStore.mk root).nextStage pid h) ≠ some .dir := by
    rw [CasStore.nextStage, CasStore.stagePath_eq]
    exact hs.staging _
  obtain ⟨file, hstocked⟩ := hs.stocked
  obtain ⟨hok, herr⟩ := @CasStore.run_storeBlob root h sha pid reader expected hs.wellFormed
  obtain ⟨hio, hmismatch⟩ := @CasStore.run_storeBlob_error root h sha pid reader expected hs.wellFormed hfree
  have hdirs : Only (MakesNoDir root) ((CasStore.mk root).storeBlob sha pid reader expected) :=
    makesNoDir_of_inArea CasStore.inArea_storeBlob CasStore.noDirs_storeBlob
  have hkeep : ∀ x, x ≠ Dir.cas → Leaves root x ((CasStore.mk root).storeBlob sha pid reader expected) :=
    fun x hx => CasStore.leaves_storeBlob hx
  -- A store that is refused leaves the contents as they are.
  have hrefused : (¬ ∃ bytes, (CasStore.mk root).Accepts sha pid reader expected h bytes) →
      Stands root (((CasStore.mk root).storeBlob sha pid reader expected).run Fs.exec h).2 c :=
    fun hno => hs.of_blobs hdirs hkeep (hstocked.of_sameShelf (herr hno).2)
  unfold Catalogue.store
  cases hcontent : reader.content with
  | error e =>
    refine ⟨hio e hcontent, hrefused ?_⟩
    rintro ⟨bytes, hbytes, -⟩
    rw [hcontent] at hbytes
    cases hbytes
  | ok bytes =>
    dsimp only
    cases hmatch : CasStore.mismatch (sha.hash bytes) expected with
    | some d =>
      refine ⟨hmismatch bytes d hcontent hmatch, hrefused ?_⟩
      rintro ⟨bytes', hbytes, hnone, -⟩
      obtain rfl : bytes = bytes' := Except.ok.inj (hcontent.symm.trans hbytes)
      rw [hmatch] at hnone
      cases hnone
    | none =>
      obtain ⟨hresult, i, hshelves⟩ := hok bytes ⟨hcontent, hmatch, hfree⟩
      exact ⟨hresult, hs.of_blobs hdirs hkeep
        (hstocked.store hs.wellFormed (sha.isDigest_hash bytes) hshelves)⟩

/-- A call of any method. -/
theorem run_call (hs : Stands root h c) (hsum : c.total < 2 ^ 64) (json : JsonLibrary)
    (call : VarlinkCall) :
    ((dispatchCall json call (.ofRoot root)).run Fs.exec h).1 = (c.answer json call).1 ∧
      Stands root ((dispatchCall json call (.ofRoot root)).run Fs.exec h).2 (c.answer json call).2 := by
  have hread : ∀ {p : Io VarlinkReply} {reply : VarlinkReply}, p.run Fs.exec h = (reply, h) →
      (p.run Fs.exec h).1 = reply ∧ Stands root (p.run Fs.exec h).2 c := by
    intro p reply hp
    rw [hp]
    exact ⟨rfl, hs⟩
  unfold dispatchCall Catalogue.answer
  cases handleServiceCall call.method call.parameters with
  | some reply => exact hread rfl
  | none =>
    unfold handleModel1Call
    dsimp only
    by_cases hlist : call.method = "io.syntrop.Model1.List"
    · rw [if_pos hlist, if_pos hlist]
      exact hread hs.run_list
    rw [if_neg hlist, if_neg hlist]
    by_cases hinspect : call.method = "io.syntrop.Model1.Inspect"
    · rw [if_pos hinspect, if_pos hinspect]
      exact hread (hs.run_inspect json _)
    rw [if_neg hinspect, if_neg hinspect]
    by_cases hregister : call.method = "io.syntrop.Model1.Register"
    · rw [if_pos hregister, if_pos hregister]
      exact hs.run_register json _
    rw [if_neg hregister, if_neg hregister]
    by_cases hpin : call.method = "io.syntrop.Model1.Pin"
    · rw [if_pos hpin, if_pos hpin]
      exact hs.run_handleDigest fun d hd => ⟨⟨_, (hs.pin hd).1⟩, (hs.pin hd).2⟩
    rw [if_neg hpin, if_neg hpin]
    by_cases hunpin : call.method = "io.syntrop.Model1.Unpin"
    · rw [if_pos hunpin, if_pos hunpin]
      exact hs.run_handleDigest fun d hd => hs.unpin hd
    rw [if_neg hunpin, if_neg hunpin]
    by_cases hprune : call.method = "io.syntrop.Model1.Prune"
    · rw [if_pos hprune, if_pos hprune]
      exact hs.run_prune hsum _
    rw [if_neg hprune, if_neg hprune]
    by_cases hstats : call.method = "io.syntrop.Model1.GetStorageStats"
    · rw [if_pos hstats, if_pos hstats]
      exact hread (hs.run_stats hsum)
    · rw [if_neg hstats, if_neg hstats]
      exact hread rfl

/-- One event. -/
theorem step (hs : Stands inst.root h c) (hsum : c.total < 2 ^ 64) (e : ClientEvent) :
    ((e.program inst).run Fs.exec h).1 = (c.step inst e).1 ∧
      Stands inst.root ((e.program inst).run Fs.exec h).2 (c.step inst e).2 := by
  cases e with
  | call request =>
    obtain ⟨hreply, hs'⟩ := hs.run_call hsum inst.json request
    rw [ClientEvent.program, Catalogue.step, run_bind, pure_eq, run_done, hreply]
    exact ⟨rfl, hs'⟩
  | store pid reader expected =>
    obtain ⟨hreply, hs'⟩ := hs.run_store inst.sha pid reader expected
    rw [ClientEvent.program, Catalogue.step, run_bind, pure_eq, run_done, hreply]
    exact ⟨rfl, hs'⟩
  | handoff request =>
    obtain ⟨r, hrun, hreply⟩ := hs.run_handoff request
    rw [ClientEvent.program, Catalogue.step, run_bind, hrun, pure_eq, run_done, hreply]
    exact ⟨rfl, hs⟩

end Stands

/-! ### How much is stored -/

theorem Catalogue.total_filter (blobs : List (String × Bytes)) (p : String × Bytes → Bool) :
    Quota.total Stocked.len (blobs.filter p) ≤ Quota.total Stocked.len blobs :=
  Quota.total_le_of_sublist _ List.filter_sublist

/-- Only a store adds to what is stored. -/
theorem Catalogue.total_step (c : Catalogue) (inst : Installation) (e : ClientEvent) :
    (c.step inst e).2.total ≤ c.total + e.bytes := by
  have hstore : ∀ sha reader expected, (c.store sha reader expected).2.total ≤
      c.total + (ClientEvent.store 0 reader expected).bytes := by
    intro sha reader expected
    unfold store ClientEvent.bytes
    dsimp only
    cases reader.content with
    | error e => exact Nat.le_add_right ..
    | ok x =>
      dsimp only
      cases CasStore.mismatch (sha.hash x) expected with
      | some d => exact Nat.le_add_right ..
      | none =>
        have hle : Quota.total Stocked.len
            (c.blobs.filter (fun b => decide (b.1 ≠ sha.hash x)) ++ [(sha.hash x, x)]) ≤
              c.total + x.length := by
          rw [Quota.total_append]
          exact Nat.add_le_add (total_filter _ _) le_rfl
        exact hle
  have hnameDigest : ∀ json name tag digest, (c.nameDigest json name tag digest).2.total = c.total := by
    intro json name tag digest
    unfold nameDigest
    cases c.candidate name tag digest with
    | error reply => rfl
    | ok x =>
      dsimp only
      cases validateDigestFormat (cleanDigest x) <;> rfl
  have hregister : ∀ json params, (c.register json params).2.total = c.total := by
    intro json params
    unfold register
    cases registerId params with
    | none => rfl
    | some id =>
      dsimp only
      split
      · rfl
      split
      · rfl
      · exact hnameDigest ..
  have hrepin : ∀ change params, (c.repin change params).2.total = c.total := by
    intro change params
    unfold repin
    split
    · rfl
    split <;> rfl
  have hprune : ∀ params, (c.prune params).2.total ≤ c.total := by
    intro params
    unfold prune
    dsimp only
    split
    · exact le_rfl
    · exact total_filter _ _
  cases e with
  | call request =>
    change (c.answer inst.json request).2.total ≤ c.total
    unfold answer
    split
    · exact le_rfl
    split_ifs
    · exact le_rfl
    · exact le_rfl
    · exact (hregister ..).le
    · exact (hrepin ..).le
    · exact (hrepin ..).le
    · exact hprune _
    · exact le_rfl
    · exact le_rfl
  | store pid reader expected => exact hstore ..
  | handoff request => exact le_rfl

/-! ### Runs -/

/-- A run of events. -/
theorem Stands.steps (events : List ClientEvent) (hs : Stands inst.root h c)
    (hsum : c.total + (events.map ClientEvent.bytes).sum < 2 ^ 64) :
    (ClientEvent.runAll inst h events).1 = (c.stepAll inst events).1 ∧
      Stands inst.root (ClientEvent.runAll inst h events).2 (c.stepAll inst events).2 := by
  induction events generalizing h c with
  | nil => exact ⟨rfl, hs⟩
  | cons e events ih =>
    rw [List.map_cons, List.sum_cons] at hsum
    have htotal := c.total_step inst e
    obtain ⟨hreply, hs₁⟩ := hs.step (by omega) e
    obtain ⟨hreplies, hs₂⟩ := ih hs₁ (by omega)
    rw [ClientEvent.runAll, Catalogue.stepAll]
    dsimp only
    rw [hreply, hreplies]
    exact ⟨rfl, hs₂⟩

end Modeld
