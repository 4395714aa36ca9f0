import Modeld.Core.Opening
import Modeld.Daemon.FdServer

/-!
# Descriptors go to trusted peers only

Whatever the calls are answered, what a connection does first is to find out who the peer is and, if
that needs it, which group is trusted. A peer that is not trusted is refused, and nothing is read from it.
-/

namespace Modeld

open Host

variable {σ : Type} {exec : (o : FdCall) → σ → FdResp o × σ} {s : σ} {policy : TrustedGroupConfig}
  {uid gid : Nat}

namespace TrustedGroupConfig

theorem run_trustedGid : (policy.trustedGid.run exec s).1 =
    policy.trustedGidOverride.or (parseGroupFile (exec .readGroupFile s).1 policy.trustedGroup) := by
  unfold trustedGid
  cases policy.trustedGidOverride with
  | none => rfl
  | some gid => rfl

/-- The decision, for every answer that reading the group file may get. -/
theorem run_check : ((policy.check uid gid).run exec s).1 = true ↔
    policy.Trusts (exec .readGroupFile s).1 uid gid := by
  unfold check Trusts
  by_cases hroot : uid = 0
  · rw [if_pos hroot]
    exact iff_of_true rfl (.inl hroot)
  rw [if_neg hroot, Program.run_bind, run_trustedGid]
  cases hover : policy.trustedGidOverride with
  | some trusted =>
    show (gid == trusted) = true ↔ _
    rw [beq_iff_eq]
    constructor
    · exact fun h => .inr (.inl (congrArg some h.symm))
    · rintro (h | h | ⟨h, -⟩)
      · exact absurd h hroot
      · exact (Option.some.inj h).symm
      · cases h
  | none =>
    rw [Option.none_or, ← parseGroupFile_eq_some]
    cases parseGroupFile (exec .readGroupFile s).1 policy.trustedGroup with
    | none => exact iff_of_false Bool.false_ne_true (by simp [hroot])
    | some trusted =>
      show (gid == trusted) = true ↔ _
      rw [beq_iff_eq, Option.some.injEq]
      constructor
      · exact fun h => .inr (.inr ⟨rfl, h.symm⟩)
      · rintro (h | h | ⟨-, h⟩)
        · exact absurd h hroot
        · cases h
        · exact h.symm

/-- All that the decision asks for. -/
theorem calls_check : (policy.check uid gid).calls exec s = [] ∨
    (policy.check uid gid).calls exec s = [(.readGroupFile, s)] := by
  unfold check
  by_cases hroot : uid = 0
  · rw [if_pos hroot]
    exact .inl rfl
  have hcalls : policy.trustedGid.calls exec s = [] ∨
      policy.trustedGid.calls exec s = [(.readGroupFile, s)] := by
    unfold trustedGid
    cases policy.trustedGidOverride with
    | some trusted => exact .inl rfl
    | none => exact .inr rfl
  rw [if_neg hroot, Program.calls_bind, run_trustedGid]
  cases policy.trustedGidOverride.or _ with
  | none =>
    change _ ++ [] = [] ∨ _ ++ [] = _
    rwa [List.append_nil]
  | some trusted =>
    change _ ++ [] = [] ∨ _ ++ [] = _
    rwa [List.append_nil]

end TrustedGroupConfig

theorem calls_refuse {lib : JsonLibrary} : ((refuse lib policy).calls exec s).map Prod.fst =
    [.writeAll (toVec lib (permissionDenied policy.trustedGroup)), .flush] := rfl

/-- A peer is served only if it is root or its group is the one that the override, or else the first
entry in the group file, says; all that comes before is to ask who it is and to read the group file, and
one that is not trusted is refused without being read from. Group files that are text lead to the same
decision if they agree on the lines of the group. -/
theorem descriptors_to_trusted (lib : JsonLibrary) (policy : TrustedGroupConfig) (cas : CasStore)
    (tags : TagRegistry) (exec : (o : FdCall) → σ → FdResp o × σ) (s : σ) :
    let calls := (handleFdConnection lib policy cas tags).calls exec s
    let file := (exec .readGroupFile (exec .peerCred s).2).1
    (∀ e, (exec .peerCred s).1 = .error e → calls = [(.peerCred, s)]) ∧
    (∀ uid gid, (exec .peerCred s).1 = .ok (uid, gid) →
      ∃ asked served, calls = (.peerCred, s) :: (asked ++ served) ∧
        (asked = [] ∨ asked = [(.readGroupFile, (exec .peerCred s).2)]) ∧
        (policy.Trusts file uid gid ∨ served.map Prod.fst =
          [.writeAll (toVec lib (permissionDenied policy.trustedGroup)), .flush])) ∧
    ∀ (uid gid : Nat) (t t' : σ) (text text' : String),
      (exec .readGroupFile t).1 = .ok (Text.toBytes text) →
      (exec .readGroupFile t').1 = .ok (Text.toBytes text') →
      linesOf policy.trustedGroup text = linesOf policy.trustedGroup text' →
      ((policy.check uid gid).run exec t).1 = ((policy.check uid gid).run exec t').1 := by
  intro calls file
  refine ⟨fun e he => ?_, fun uid gid hpeer => ?_, ?_⟩
  · show (handleFdConnection lib policy cas tags).calls exec s = _
    rw [handleFdConnection, Program.perform_bind, Program.calls, he]
    rfl
  · have hcalls : calls = (.peerCred, s) ::
        (((policy.check uid gid).calls exec (exec .peerCred s).2) ++
          (if ((policy.check uid gid).run exec (exec .peerCred s).2).1 = true
            then serveRequest lib cas tags else refuse lib policy).calls exec
              ((policy.check uid gid).run exec (exec .peerCred s).2).2) := by
      show (handleFdConnection lib policy cas tags).calls exec s = _
      rw [handleFdConnection, Program.perform_bind, Program.calls, hpeer]
      exact congrArg _ (Program.calls_bind ..)
    refine ⟨_, _, hcalls, TrustedGroupConfig.calls_check, ?_⟩
    by_cases htrusted : policy.Trusts file uid gid
    · exact .inl htrusted
    · have hno : ¬ ((policy.check uid gid).run exec (exec .peerCred s).2).1 = true :=
        mt TrustedGroupConfig.run_check.1 htrusted
      rw [if_neg hno]
      exact .inr calls_refuse
  · intro uid gid t t' text text' ht ht' hlines
    rw [Bool.eq_iff_iff, TrustedGroupConfig.run_check, TrustedGroupConfig.run_check, ht, ht']
    exact TrustedGroupConfig.trusts_congr hlines

/-- A group file that has just the text, and somebody of group 5 who asks. -/
def strangerWorld (file : Bytes) : FdWorld where
  peer := (1000, 5)
  groupFile := .ok file
  arrivals := []
  files := blankFs true id
  sent := []

/-- The group of the daemon, as the group file says. -/
def modeldPolicy : TrustedGroupConfig := ⟨"modeld", none⟩

/-- Entries of other groups, comments and lines cut short come before the entry of the group. -/
theorem modeld_entry_decides :
    ((modeldPolicy.check 1000 5).run FdWorld.exec
      (strangerWorld (Text.toBytes "modeld:x\nmodeld:x:5:\n"))).1 =
    ((modeldPolicy.check 1000 5).run FdWorld.exec
      (strangerWorld (Text.toBytes "# system\nmodeld:x\nroot:x:0:\n\nmodeld:x:5:\nmodel:x:7:"))).1 :=
  (descriptors_to_trusted emptyObjectLibrary modeldPolicy ⟨[]⟩ (TagRegistry.ofRoot []) FdWorld.exec
    (strangerWorld [])).2.2 1000 5 _ _ _ _ rfl rfl (by decide +kernel)

/-- The lines of a group in a file, text or not. -/
def byteLinesOf (wanted : String) (file : Bytes) : List Bytes :=
  (file.splitOn 0x0a).filter fun line =>
    line.head? ≠ some 0x23 ∧ (line.splitOn 0x3a).head? = some (Text.toBytes wanted)

/-- Files that are not text do not only matter by the lines of the group. -/
theorem other_lines_matter : ¬ ∀ (policy : TrustedGroupConfig) (w w' : FdWorld) (file file' : Bytes)
    (uid gid : Nat), w.groupFile = .ok file → w'.groupFile = .ok file' →
    byteLinesOf policy.trustedGroup file = byteLinesOf policy.trustedGroup file' →
    ((policy.check uid gid).run FdWorld.exec w).1 = ((policy.check uid gid).run FdWorld.exec w').1 := by
  intro hall
  have hsame := hall modeldPolicy (strangerWorld (Text.toBytes "modeld:x:5:\n"))
    (strangerWorld (Text.toBytes "modeld:x:5:\n" ++ [0xff])) _ _ 1000 5 rfl rfl (by decide +kernel)
  revert hsame
  decide +kernel

end Modeld
