import Modeld.Core.Footprint

/-!
# Areas that stay as they are

A program that names no path under a directory of the root, and writes only to files that it has
created elsewhere, leaves everything under that directory as it is.
-/

namespace Modeld

open Host Program

/-- Nothing under one directory of the root differs. -/
structure SameArea (root : Path) (x : Name) (h h' : Fs) : Prop where
  lookup : ∀ q, root ++ [x] <+: q → h'.lookup q = h.lookup q
  data : ∀ q i, root ++ [x] <+: q → h.lookup q = some (.file i) → h'.data i = h.data i

variable {root : Path} {x : Name} {h h' : Fs} {T : Set Ino} {α β : Type}

theorem SameArea.refl : SameArea root x h h := ⟨fun _ _ => rfl, fun _ _ _ _ => rfl⟩

theorem SameArea.trans {h₁ h₂ h₃ : Fs} (h₁₂ : SameArea root x h₁ h₂) (h₂₃ : SameArea root x h₂ h₃) :
    SameArea root x h₁ h₃ where
  lookup q hq := (h₂₃.lookup q hq).trans (h₁₂.lookup q hq)
  data q i hq hqi :=
    (h₂₃.data q i hq ((h₁₂.lookup q hq).trans hqi)).trans (h₁₂.data q i hq hqi)

theorem SameArea.sameStore (hs : SameArea root Dir.cas h h') : SameStore root h h' :=
  ⟨hs.lookup, hs.data⟩

/-! ### Open files -/

/-- The call writes to none of the files. -/
def NotInto (T : Set Ino) : Call → Prop
  | .writeAt i _ _ => i ∉ T
  | _ => True

/-- A file that was created is none of the files. -/
def FreshHandle (T : Set Ino) : (o : Call) → Reply o → Prop
  | .create _, r => ∀ i, r = .ok i → i ∉ T
  | _, _ => True

theorem Reads.notInto {o : Call} (ho : Reads o) : NotInto T o := by
  cases o <;> first | exact ho.elim | exact trivial

/-- The files under a directory of the root. -/
def filesOf (root : Path) (x : Name) (h : Fs) : Set Ino :=
  {i | ∃ q, root ++ [x] <+: q ∧ h.lookup q = some (.file i)}

/-- The call keeps to the layout, and leaves one directory of the root alone. -/
def Spare (root : Path) (x : Name) (o : Call) : Prop := Tidy root o ∧ Avoids (root ++ [x]) o

theorem InArea.spare {y : Name} {o : Call} (ho : InArea root y o) (hx : x ≠ y) : Spare root x o :=
  ⟨ho.1, ho.2 x hx⟩

/-- One call. -/
theorem Spare.exec {o : Call} {s : Fs} (ho : Spare root x o) (hinto : NotInto (filesOf root x h) o)
    (hw : WellFormed root s) (hs : SameArea root x h s) :
    FreshHandle (filesOf root x h) o (Fs.exec o s).1 ∧ WellFormed root (Fs.exec o s).2 ∧
      SameArea root x h (Fs.exec o s).2 := by
  have hanswers : Fs.Answers o s (Fs.exec o s).1 (Fs.exec o s).2 := .inl rfl
  refine ⟨?_, hw.answers ho.1 hanswers, hs.trans ⟨fun q hq => ho.2.lookup_eq ho.1 hw hanswers hq,
    fun q i hq hqi => ho.2.data_eq ho.1 hw hanswers hq hqi ?_⟩⟩
  · cases o with
    | create p =>
      rintro j hj ⟨q, hq, hqj⟩
      rw [← hs.lookup q hq] at hqj
      rcases hc : s.create p with ⟨r, s'⟩
      have hr : r = .ok j := by
        rw [← hj]
        exact (congrArg Prod.fst hc).symm
      subst hr
      obtain ⟨-, hold | rfl, -⟩ := Fs.create_frame hc
      · rw [hw.fileAt_eq_some ho.1.1 ho.1.2] at hold
        rcases hw.shared p q j ho.1.1 (under_root hq) hold hqj with rfl | ⟨d, hd, hdp, hdq⟩
        · exact ho.2 hq
        · have hcas := area_unique hq (hdq.in_cas hd)
          exact ho.2 (hcas ▸ hdp.in_cas hd)
      · exact lt_irrefl _ (hw.fresh q _ (under_root hq) hqj)
    | _ => exact trivial
  · rintro off b rfl
    refine hinto ⟨q, hq, ?_⟩
    rw [← hs.lookup q hq]
    exact hqi

/-- A program that leaves a directory alone, in every well-formed state. -/
def Leaves (root : Path) (x : Name) (p : Io α) : Prop :=
  ∀ h, WellFormed root h → WellFormed root (p.run Fs.exec h).2 ∧
    SameArea root x h (p.run Fs.exec h).2

namespace Leaves

variable {p : Io α}

theorem of_keeps {Q : α → Prop}
    (hp : ∀ T, Keeps (fun o => Spare root x o ∧ NotInto T o) (FreshHandle T) p Q) :
    Leaves root x p := by
  intro h hw
  exact (Keeps.run (I := fun s => WellFormed root s ∧ SameArea root x h s) Fs.exec
    (fun o s ho hs => ho.1.exec ho.2 hs.1 hs.2) (hp (filesOf root x h)) ⟨hw, .refl⟩).2

theorem of_only (hp : Only (Spare root x) p) (hinto : ∀ T, Only (NotInto T) p) : Leaves root x p :=
  of_keeps fun T => (hp.and (hinto T)).of_true

theorem of_reads (hp : Only Reads p) : Leaves root x p := by
  intro h hw
  rw [Only.run_eq hp]
  exact ⟨hw, .refl⟩

theorem bind {f : α → Io β} (hp : Leaves root x p) (hf : ∀ a, Leaves root x (f a)) :
    Leaves root x (p >>= f) := by
  intro h hw
  obtain ⟨hw₁, hs₁⟩ := hp h hw
  obtain ⟨hw₂, hs₂⟩ := hf (p.run Fs.exec h).1 _ hw₁
  rw [run_bind]
  exact ⟨hw₂, hs₁.trans hs₂⟩

theorem done (a : α) : Leaves root x (Program.done a : Io α) := of_reads (only_done a)

theorem perform {o : Call} {f : Reply o → Io β} (ho : Spare root x o)
    (hinto : ∀ i off b, o ≠ .writeAt i off b) (hf : ∀ r, Leaves root x (f r)) :
    Leaves root x (Program.perform o >>= f) := by
  refine bind (of_only (only_perform ho) fun T => only_perform ?_) hf
  cases o with
  | writeAt i off b => exact absurd rfl (hinto i off b)
  | _ => exact trivial

end Leaves

/-! ### The operations of the core -/

section Core

variable {d : String}

theorem CasStore.leaves_storeBlob {sha : Sha256} {pid : Pid} {reader : Reader}
    {expected : Option String} (hx : x ≠ Dir.cas) :
    Leaves root x ((CasStore.mk root).storeBlob sha pid reader expected) := by
  refine Leaves.of_keeps fun T => Keeps.and (Keeps.of_true (inArea_storeBlob.mono fun _ ho =>
    ho.spare hx)) (keeps_storeBlob (fun _ _ => keeps_blobPath fun _ ho => ho.reads.notInto) trivial (fun _ => trivial) ?_
    (fun _ => trivial) fun _ _ _ _ _ => trivial)
  intro n i off b hi
  exact hi i rfl

theorem EvictionManager.leaves_pin (hx : x ≠ Dir.pinned) : Leaves root x ((ofRoot root).pin d) :=
  .of_only (inArea_pin.mono fun _ ho => ho.spare hx) fun _ => only_pin fun _ => trivial

theorem EvictionManager.leaves_unpin (hx : x ≠ Dir.pinned) : Leaves root x ((ofRoot root).unpin d) :=
  .of_only (inArea_unpin.mono fun _ ho => ho.spare hx) fun _ =>
    only_unpin (fun _ ho => ho.reads.notInto) fun _ => trivial

theorem EvictionManager.leaves_prune {max : Nat} (hx : x ≠ Dir.cas) :
    Leaves root x ((ofRoot root).prune ⟨root⟩ max) :=
  .of_only (inArea_prune.mono fun _ ho => ho.spare hx) fun _ =>
    only_prune (fun _ ho => ho.reads.notInto) trivial trivial fun _ _ => ⟨trivial, trivial⟩

end Core

end Modeld
