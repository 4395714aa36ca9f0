import Modeld.Core.TagWrites
import Modeld.Host.Moves
import Modeld.Host.Pool
import Modeld.Runs.TagNames

/-!
# Two clients that register at the same time

`handle_register` in steps that are atomic for the registry: one lookup, one write, and what follows.
In any order of the steps of two calls the registry ends as after one call and then the other,
unless a call without a digest writes back what it had looked up before the other call wrote
something else under the same name. Then the registry is what it was before both.
-/

namespace Modeld

open Host Program

/-! ### `Register` in steps -/

/-- A step of a call. -/
inductive RegisterStep
  | resolve (identifier : String)
  | setTag (name tag digest : String)
  | describe (name tag digest : String)

/-- What a step returns. -/
@[reducible] def RegisterAnswer : RegisterStep → Type
  | .resolve _ => Except ModeldError (Option String)
  | .setTag .. => Except ModeldError Unit
  | .describe .. => VarlinkReply

namespace RegisterStep

/-- What a step does. -/
def program (json : JsonLibrary) (ctx : ModelServiceContext) :
    (o : RegisterStep) → Io (RegisterAnswer o)
  | resolve identifier => ctx.tags.resolve identifier
  | setTag name tag digest => ctx.tags.setTag name tag digest
  | describe name tag digest => describeEntry json ctx name tag digest

/-- A step on a file system that answers every call. -/
def exec (json : JsonLibrary) (ctx : ModelServiceContext) (o : RegisterStep) (h : Fs) :
    RegisterAnswer o × Fs := (o.program json ctx).run Fs.exec h

end RegisterStep

abbrev resolveStep (identifier : String) :
    Program RegisterAnswer (Except ModeldError (Option String)) :=
  perform (RegisterStep.resolve identifier)

abbrev setTagStep (name tag digest : String) : Program RegisterAnswer (Except ModeldError Unit) :=
  perform (RegisterStep.setTag name tag digest)

abbrev describeStep (name tag digest : String) : Program RegisterAnswer VarlinkReply :=
  perform (RegisterStep.describe name tag digest)

/-- The digest to register, in steps. -/
def candidateSteps (name tag : String) (digest : Option String) :
    Program RegisterAnswer (Except VarlinkReply String) := do
  match digest with
  | some d => return .ok (Text.trim d)
  | none =>
    let resolveId := name ++ ":" ++ tag
    match ← resolveStep resolveId with
    | .ok (some d) => return .ok d
    | .ok none =>
      return .error (.err "io.syntrop.Model1.NoSuchModel" (some (.object [("id", .str resolveId)])))
    | .error _ =>
      return .error
        (.err "io.syntrop.Model1.InvalidIdentifier" (some (.object [("id", .str resolveId)])))

/-- Writing a tag and describing it, in steps. -/
def writeSteps (name tag digest : String) : Program RegisterAnswer VarlinkReply := do
  match ← setTagStep name tag digest with
  | .error e => return operationFailed e
  | .ok () => describeStep name tag digest

/-- What follows a digest to register, in steps. -/
def cleanSteps (name tag candidate : String) : Program RegisterAnswer VarlinkReply :=
  match validateDigestFormat (cleanDigest candidate) with
  | .error e => return invalidParameter "digest" e.toText
  | .ok () => writeSteps name tag (cleanDigest candidate)

/-- What follows the checks of the name and the tag, in steps. -/
def digestSteps (name tag : String) (digest : Option String) :
    Program RegisterAnswer VarlinkReply := do
  match ← candidateSteps name tag digest with
  | .error reply => return reply
  | .ok candidate => cleanSteps name tag candidate

theorem digestSteps_some (name tag d : String) :
    digestSteps name tag (some d) = cleanSteps name tag (Text.trim d) := by
  simp only [digestSteps, candidateSteps, pure_eq, done_bind]

/-- Without a digest, the call looks the tag up first. -/
theorem digestSteps_none (name tag : String) : ∃ next,
    digestSteps name tag none = call (.resolve (name ++ ":" ++ tag)) next ∧
      (∃ r, next (.ok none) = done r) ∧ ∀ d, next (.ok (some d)) = cleanSteps name tag d := by
  refine ⟨_, rfl, ⟨_, rfl⟩, fun d => ?_⟩
  simp only [Program.bind, pure_eq]

/-- `handle_register` in steps. -/
def registerSteps (params : Option Json) : Program RegisterAnswer VarlinkReply := do
  match registerId params with
  | none => return .err "io.syntrop.Model1.InvalidIdentifier" none
  | some id =>
    let (name, tag) := registerTarget id (textParam params "tag")
    match validateTagSegment name with
    | .error e =>
      return .err "io.syntrop.Model1.InvalidIdentifier"
        (some (.object [("id", .str id), ("reason", .str e.toText)]))
    | .ok _ =>
      match validateTagSegment tag with
      | .error e => return invalidParameter "tag" e.toText
      | .ok _ => digestSteps name tag (textParam params "digest")

section

variable {json : JsonLibrary} {ctx : ModelServiceContext}

private theorem expand_writeSteps (name tag digest : String) :
    (writeSteps name tag digest).expand (RegisterStep.program json ctx) = (do
      match ← ctx.tags.setTag name tag digest with
      | .error e => return operationFailed e
      | .ok () => describeEntry json ctx name tag digest) := by
  refine bind_congr fun r => ?_
  rcases r with e | -
  · rfl
  · exact bind_pure _

private theorem expand_cleanSteps (name tag candidate : String) :
    (cleanSteps name tag candidate).expand (RegisterStep.program json ctx) =
      (match validateDigestFormat (cleanDigest candidate) with
      | .error e => done (invalidParameter "digest" e.toText)
      | .ok () =>
        (writeSteps name tag (cleanDigest candidate)).expand (RegisterStep.program json ctx)) := by
  unfold cleanSteps
  generalize cleanDigest candidate = d
  generalize validateDigestFormat d = checked
  cases checked with
  | error e => rfl
  | ok u => rfl

private theorem expand_digestSteps (name tag : String) (digest : Option String) :
    (digestSteps name tag digest).expand (RegisterStep.program json ctx) =
      registerDigest json ctx name tag digest := by
  cases digest with
  | some d =>
    rw [digestSteps_some, expand_cleanSteps]
    cases hchecked : validateDigestFormat (cleanDigest (Text.trim d)) with
    | error e => simp only [registerDigest, digestCandidate, pure_eq, done_bind, hchecked]
    | ok u =>
      simp only [registerDigest, digestCandidate, pure_eq, done_bind, hchecked]
      exact expand_writeSteps name tag _
  | none =>
    simp only [digestSteps, candidateSteps, registerDigest, digestCandidate, bind_assoc, perform_bind]
    refine bind_congr fun r => ?_
    rcases r with e | _ | d
    · rfl
    · rfl
    · simp only [pure_eq, done_bind, Program.bind, expand_cleanSteps]
      cases hchecked : validateDigestFormat (cleanDigest d) with
      | error e => simp only
      | ok u => exact expand_writeSteps name tag _

/-- The steps are those of the call. -/
theorem expand_registerSteps (params : Option Json) :
    (registerSteps params).expand (RegisterStep.program json ctx) =
      handleRegister json params ctx := by
  unfold registerSteps handleRegister
  cases registerId params with
  | none => rfl
  | some id =>
    dsimp only
    cases validateTagSegment (registerTarget id (textParam params "tag")).1 with
    | error e => rfl
    | ok name =>
      cases validateTagSegment (registerTarget id (textParam params "tag")).2 with
      | error e => rfl
      | ok tag => exact expand_digestSteps _ _ _

end

/-! ### What the steps do to the registry -/

/-- A registry as a map of names and tags. -/
def Entries.toMap (m : Entries) : Name × Name → Option String := fun k => m k.1 k.2

/-- A map of names and tags as a registry. -/
def Entries.ofMap (f : Name × Name → Option String) : Entries := fun n v => f (n, v)

theorem Entries.ofMap_update (f : Name × Name → Option String) (k : Name × Name) (d : String) :
    ofMap (Function.update f k (some d)) = (ofMap f).set k.1 k.2 (some d) := by
  funext n v
  simp [ofMap, set, Function.update_apply, Prod.ext_iff]

/-- What a step does on the registry, when it does something. -/
def registryMove : Event Bool RegisterAnswer → Option (Bool × Move (Name × Name) String)
  | ⟨b, .resolve identifier, .ok x⟩ =>
    if hs : IsTagged (Text.trim identifier) then
      some (b, .look (⟨_, hs.1.1⟩, ⟨_, hs.2.1⟩) x)
    else none
  | ⟨b, .setTag name tag digest, .ok ()⟩ =>
    if hs : IsSegment name ∧ IsSegment tag then
      some (b, .put (⟨name, hs.1.1⟩, ⟨tag, hs.2.1⟩) digest)
    else none
  | _ => none

theorem registryMove_resolve {k : Name × Name} (hname : IsSegment k.1.text)
    (htag : IsSegment k.2.text) (b : Bool) (x : Option String) :
    registryMove ⟨b, .resolve (k.1.text ++ ":" ++ k.2.text), .ok x⟩ = some (b, .look k x) := by
  have hparts : identifierParts (Text.trim (k.1.text ++ ":" ++ k.2.text)) = (k.1.text, k.2.text) := by
    rw [hname.trim_tagged htag, hname.identifierParts_tagged]
  have htagged : IsTagged (Text.trim (k.1.text ++ ":" ++ k.2.text)) := by
    rw [IsTagged, hparts]
    exact ⟨hname, htag⟩
  simp only [registryMove, htagged, dif_pos, hparts]

theorem registryMove_setTag {k : Name × Name} (hname : IsSegment k.1.text)
    (htag : IsSegment k.2.text) (b : Bool) (d : String) :
    registryMove ⟨b, .setTag k.1.text k.2.text d, .ok ()⟩ = some (b, .put k d) := by
  have hs : IsSegment k.1.text ∧ IsSegment k.2.text := ⟨hname, htag⟩
  simp only [registryMove, hs, and_self, dif_pos]

/-- The lookups and writes of a run, newest first. -/
def registryMoves (hist : List (Event Bool RegisterAnswer)) :
    List (Bool × Move (Name × Name) String) := hist.filterMap registryMove

/-- Two calls, from a state of the registry. -/
def registerPool (params : Bool → Option Json) (h : Fs) :
    Pool Bool Fs RegisterAnswer VarlinkReply where
  state := h
  threads b := registerSteps (params b)

/-- The program does on the registry what the transaction does. -/
def Follows (p : Program RegisterAnswer VarlinkReply) : Transaction (Name × Name) String → Prop
  | .nothing => ∃ r, p = done r
  | .write k d => IsSegment k.1.text ∧ IsSegment k.2.text ∧ IsDigest d ∧
      p = writeSteps k.1.text k.2.text d
  | .rewrite k => IsSegment k.1.text ∧ IsSegment k.2.text ∧ p = digestSteps k.1.text k.2.text none

theorem cleanSteps_cases (name tag candidate : String) :
    (∃ r, cleanSteps name tag candidate = done r) ∨ (IsDigest (cleanDigest candidate) ∧
      cleanSteps name tag candidate = writeSteps name tag (cleanDigest candidate)) := by
  unfold cleanSteps
  generalize cleanDigest candidate = d
  by_cases hd : IsDigest d
  · rw [validateDigestFormat_of_isDigest hd]
    exact .inr ⟨hd, rfl⟩
  · obtain ⟨msg, hmsg⟩ := validateDigestFormat_of_not_isDigest hd
    rw [hmsg]
    exact .inl ⟨_, rfl⟩

theorem cleanSteps_of_isDigest (name tag : String) {d : String} (hd : IsDigest d) :
    cleanSteps name tag d = writeSteps name tag d := by
  unfold cleanSteps
  simp only [hd.cleanDigest_eq, validateDigestFormat_of_isDigest hd]

/-- Every call is one of three kinds. -/
theorem exists_follows (params : Option Json) : ∃ a, Follows (registerSteps params) a := by
  unfold registerSteps
  cases registerId params with
  | none => exact ⟨.nothing, _, rfl⟩
  | some id =>
    dsimp only
    generalize registerTarget id (textParam params "tag") = target
    obtain ⟨name, tag⟩ := target
    dsimp only
    rcases validateTagSegment_cases name with ⟨hname, h1⟩ | ⟨-, msg, h1⟩
    swap
    · rw [h1]
      exact ⟨.nothing, _, rfl⟩
    rcases validateTagSegment_cases tag with ⟨htag, h2⟩ | ⟨-, msg, h2⟩
    swap
    · rw [h1, h2]
      exact ⟨.nothing, _, rfl⟩
    rw [h1, h2]
    dsimp only
    cases textParam params "digest" with
    | none => exact ⟨.rewrite (⟨name, hname.1⟩, ⟨tag, htag.1⟩), hname, htag, rfl⟩
    | some d =>
      rw [digestSteps_some]
      rcases cleanSteps_cases name tag (Text.trim d) with ⟨r, hr⟩ | ⟨hd, hwrite⟩
      · exact ⟨.nothing, r, hr⟩
      · exact ⟨.write (⟨name, hname.1⟩, ⟨tag, htag.1⟩) (cleanDigest (Text.trim d)), hname, htag, hd,
          hwrite⟩

/-! ### Steps of two calls -/

section

variable {inst : Installation} {h s s' : Fs} {f : Name × Name → Option String}
  {hist : List (Event Bool RegisterAnswer)} {γ : Bool → List (Move (Name × Name) String)} {b : Bool}
  {k : Name × Name} {d : String}

/-- The registry is what the moves so far have made of it, and every call has made the moves that
its ghost lists. -/
structure RegistryInv (inst : Installation) (f : Name × Name → Option String)
    (γ : Bool → List (Move (Name × Name) String)) (s : Fs)
    (hist : List (Event Bool RegisterAnswer)) : Prop where
  holds : inst.ctx.tags.Holds s (.ofMap (Move.replay f (registryMoves hist)))
  digest : ∀ k d, Move.replay f (registryMoves hist) k = some d → IsDigest d
  faithful : Move.Faithful f (registryMoves hist)
  own : ∀ b, Move.own b (registryMoves hist) = γ b

variable (inst) in
theorem exec_resolve (hm : inst.ctx.tags.Holds s (.ofMap f)) (hdigest : ∀ k d, f k = some d → IsDigest d)
    (hname : IsSegment k.1.text) (htag : IsSegment k.2.text) :
    RegisterStep.exec inst.json inst.ctx (.resolve (k.1.text ++ ":" ++ k.2.text)) s =
      (.ok (f k), s) := by
  have hrun : (inst.ctx.tags.resolve (k.1.text ++ ":" ++ k.2.text)).run Fs.exec s = (.ok (f k), s) := by
    rw [TagRegistry.resolve_tagged _ hname htag]
    rcases hm.run_getTag k.1.text k.2.text with ⟨_, _, hrun⟩ | ⟨hbad, -⟩
    · rw [hrun]
      cases hd : f k with
      | none => simp [Entries.ofMap, hd]
      | some d => simp [Entries.ofMap, hd, (hdigest k d hd).trim_eq]
    · exact absurd ⟨hname, htag⟩ hbad
  exact hrun

variable (inst) in
theorem exec_setTag (hm : inst.ctx.tags.Holds s (.ofMap f)) (hname : IsSegment k.1.text)
    (htag : IsSegment k.2.text) (hd : IsDigest d) :
    (RegisterStep.exec inst.json inst.ctx (.setTag k.1.text k.2.text d) s).1 = .ok () ∧
      inst.ctx.tags.Holds (RegisterStep.exec inst.json inst.ctx (.setTag k.1.text k.2.text d) s).2
        (.ofMap (Function.update f k (some d))) := by
  rcases hm.run_setTag k.1.text k.2.text d with ⟨_, _, -, hok, hholds⟩ | ⟨hbad, -⟩
  · rw [hd.trim_eq] at hholds
    rw [Entries.ofMap_update]
    exact ⟨hok, hholds⟩
  · rw [hd.trim_eq] at hbad
    exact absurd ⟨hname, htag, hd⟩ hbad

variable (inst) in
theorem exec_describe (name tag d : String) :
    (RegisterStep.exec inst.json inst.ctx (.describe name tag d) s).2 = s := by
  have hreads : Only Reads (describeEntry inst.json inst.ctx name tag d) := only_describeEntry
  exact Only.run_eq hreads s

/-- A step that is no move and leaves the registry as it is. -/
theorem RegistryInv.quiet (hInv : RegistryInv inst f γ s hist) {e : Event Bool RegisterAnswer}
    (he : registryMove e = none) : RegistryInv inst f γ s (e :: hist) := by
  have hmoves : registryMoves (e :: hist) = registryMoves hist := by
    simp [registryMoves, he]
  refine ⟨?_, ?_, ?_, ?_⟩
  all_goals rw [hmoves]
  · exact hInv.holds
  · exact hInv.digest
  · exact hInv.faithful
  · exact hInv.own

/-- A step that is a move of call `b`. -/
theorem RegistryInv.move (hInv : RegistryInv inst f γ s hist) {e : Event Bool RegisterAnswer}
    {a : Move (Name × Name) String} (he : registryMove e = some (b, a))
    (hholds : inst.ctx.tags.Holds s' (.ofMap (Move.replay f ((b, a) :: registryMoves hist))))
    (hdigest : ∀ k d, Move.replay f ((b, a) :: registryMoves hist) k = some d → IsDigest d)
    (hfaithful : Move.Faithful f ((b, a) :: registryMoves hist)) :
    RegistryInv inst f (Function.update γ b (a :: γ b)) s' (e :: hist) := by
  have hmoves : registryMoves (e :: hist) = (b, a) :: registryMoves hist := by
    simp [registryMoves, he]
  refine ⟨?_, ?_, ?_, fun c => ?_⟩
  all_goals rw [hmoves]
  · exact hholds
  · exact hdigest
  · exact hfaithful
  · rcases eq_or_ne c b with rfl | hcb
    · rw [Move.own_cons_self, hInv.own, Function.update_self]
    · rw [Move.own_cons_of_ne hcb.symm, hInv.own, Function.update_of_ne hcb]

variable (inst f) in
/-- A program of call `b`, in company of the other. -/
private abbrev Runs {α : Type} (b : Bool) (p : Program RegisterAnswer α)
    (Q : α → List (Move (Name × Name) String) → Prop) (g : List (Move (Name × Name) String)) : Prop :=
  Pool.Outline (reliable (RegisterStep.exec inst.json inst.ctx)) (fun _ _ _ _ => True)
    (RegistryInv inst f) (fun _ _ _ _ => True) b p Q g

private theorem runs_writeSteps (hname : IsSegment k.1.text) (htag : IsSegment k.2.text)
    (hd : IsDigest d) (g : List (Move (Name × Name) String)) :
    Runs inst f b (writeSteps k.1.text k.2.text d) (fun _ g' => g' = .put k d :: g) g := by
  refine Pool.Outline.perform fun γ s hist hγ hInv => ⟨trivial, fun r s' _ hs => ?_⟩
  obtain ⟨hok, hholds⟩ := exec_setTag inst hInv.holds hname htag hd
  obtain rfl : Except.ok () = r := hok.symm.trans (congrArg Prod.fst hs)
  have hstate : (RegisterStep.exec inst.json inst.ctx (.setTag k.1.text k.2.text d) s).2 = s' :=
    congrArg Prod.snd hs
  rw [hstate] at hholds
  refine ⟨_, hInv.move (registryMove_setTag hname htag b d) hholds (fun k' d' hd' => ?_)
    hInv.faithful, ?_⟩
  · rw [Move.replay, Function.update_apply] at hd'
    split at hd'
    · obtain rfl := Option.some.inj hd'
      exact hd
    · exact hInv.digest k' d' hd'
  refine Pool.Outline.perform fun γ s hist hγ' hInv => ⟨trivial, fun r s' _ hs => ?_⟩
  obtain rfl : s = s' := (exec_describe inst k.1.text k.2.text d).symm.trans (congrArg Prod.snd hs)
  refine ⟨_, ?_, (Pool.outline_done _).2 rfl⟩
  rw [hγ] at hγ'
  rw [← hγ', Function.update_eq_self]
  exact hInv.quiet rfl

private theorem runs_rewrite (hname : IsSegment k.1.text) (htag : IsSegment k.2.text) :
    Runs inst f b (digestSteps k.1.text k.2.text none)
      (fun _ g => (Transaction.rewrite k).Made g) [] := by
  unfold digestSteps candidateSteps
  dsimp only
  rw [bind_assoc]
  refine Pool.Outline.perform fun γ s hist hγ hInv => ⟨trivial, fun r s' _ hs => ?_⟩
  obtain ⟨rfl, rfl⟩ := Prod.mk.inj
    (hs.symm.trans (exec_resolve inst hInv.holds hInv.digest hname htag))
  refine ⟨_, hInv.move (registryMove_resolve hname htag b _) hInv.holds hInv.digest
    ⟨rfl, hInv.faithful⟩, ?_⟩
  rw [hγ]
  cases hd : Move.replay f (registryMoves hist) k with
  | none => exact (Pool.outline_done _).2 (.inl rfl)
  | some d =>
    have hdigest := hInv.digest k d hd
    simp only [pure_eq, done_bind, cleanSteps_of_isDigest _ _ hdigest]
    exact (runs_writeSteps hname htag hdigest _).mono fun r g hg => .inr ⟨d, hg⟩

/-- A call that does what a transaction does makes the moves of the transaction. -/
private theorem runs_follows {p : Program RegisterAnswer VarlinkReply}
    {a : Transaction (Name × Name) String} (hp : Follows p a) :
    Runs inst f b p (fun _ g => a.Made g) [] := by
  cases a with
  | nothing =>
    obtain ⟨r, rfl⟩ := hp
    exact (Pool.outline_done _).2 rfl
  | write k d =>
    obtain ⟨hname, htag, hd, rfl⟩ := hp
    exact (runs_writeSteps hname htag hd []).mono fun r g hg => hg
  | rewrite k =>
    obtain ⟨hname, htag, rfl⟩ := hp
    exact runs_rewrite hname htag

/-! ### One call after the other -/

/-- The state after a call that nobody interferes with. -/
def registered (inst : Installation) (params : Option Json) (h : Fs) : Fs :=
  ((handleRegister inst.json params inst.ctx).run Fs.exec h).2

private theorem run_writeSteps (hm : inst.ctx.tags.Holds s (.ofMap f)) (hname : IsSegment k.1.text)
    (htag : IsSegment k.2.text) (hd : IsDigest d) : inst.ctx.tags.Holds
      ((writeSteps k.1.text k.2.text d).run (RegisterStep.exec inst.json inst.ctx) s).2
      (.ofMap (Function.update f k (some d))) := by
  obtain ⟨hok, hholds⟩ := exec_setTag inst hm hname htag hd
  rw [writeSteps, perform_bind, run_call, hok]
  dsimp only
  have hsame := exec_describe inst
    (s := (RegisterStep.exec inst.json inst.ctx (.setTag k.1.text k.2.text d) s).2)
    k.1.text k.2.text d
  rw [← hsame] at hholds
  exact hholds

private theorem run_follows {p : Program RegisterAnswer VarlinkReply}
    {a : Transaction (Name × Name) String} (hp : Follows p a)
    (hm : inst.ctx.tags.Holds s (.ofMap f)) (hdigest : ∀ k d, f k = some d → IsDigest d) :
    inst.ctx.tags.Holds (p.run (RegisterStep.exec inst.json inst.ctx) s).2 (.ofMap (a.effect f)) ∧
      ∀ k d, a.effect f k = some d → IsDigest d := by
  cases a with
  | nothing =>
    obtain ⟨r, rfl⟩ := hp
    exact ⟨hm, hdigest⟩
  | write k d =>
    obtain ⟨hname, htag, hd, rfl⟩ := hp
    refine ⟨run_writeSteps hm hname htag hd, fun k' d' hd' => ?_⟩
    rw [Transaction.effect, Function.update_apply] at hd'
    split at hd'
    · obtain rfl := Option.some.inj hd'
      exact hd
    · exact hdigest k' d' hd'
  | rewrite k =>
    obtain ⟨hname, htag, rfl⟩ := hp
    refine ⟨?_, hdigest⟩
    unfold digestSteps candidateSteps
    dsimp only
    rw [bind_assoc, perform_bind, run_call, exec_resolve inst hm hdigest hname htag]
    cases hd : f k with
    | none => exact hm
    | some d =>
      have hsame : Function.update f k (some d) = f := by rw [← hd, Function.update_eq_self]
      have hholds := run_writeSteps hm hname htag (hdigest k d hd)
      simp only [pure_eq, done_bind, cleanSteps_of_isDigest _ _ (hdigest k d hd)]
      rw [hsame] at hholds
      exact hholds

/-- A call alone does what its transaction does. -/
private theorem holds_registered {params : Option Json} {a : Transaction (Name × Name) String}
    (hp : Follows (registerSteps params) a) (hm : inst.ctx.tags.Holds s (.ofMap f))
    (hdigest : ∀ k d, f k = some d → IsDigest d) :
    inst.ctx.tags.Holds (registered inst params s) (.ofMap (a.effect f)) ∧
      ∀ k d, a.effect f k = some d → IsDigest d := by
  have hrun : registered inst params s =
      ((registerSteps params).run (RegisterStep.exec inst.json inst.ctx) s).2 := by
    rw [registered, ← expand_registerSteps, run_expand]
    rfl
  rw [hrun]
  exact run_follows hp hm hdigest

theorem TagRegistry.Holds.tagAt_eq {m : Entries} (hm : inst.ctx.tags.Holds s m) (n v : Name) :
    tagAt inst.root s n v = (m n v).map Text.toBytes := by
  have hpath : inst.root ++ [Dir.tags, n, v] = inst.ctx.tags.tagsDir ++ [n, v] := by
    rw [List.append_assoc]
    rfl
  rw [tagAt, hpath]
  cases hd : m n v with
  | none => rw [hm.absent n v hd]; rfl
  | some d =>
    obtain ⟨-, i, hi, -, hbytes⟩ := hm.present n v d hd
    rw [hi]
    simp [hbytes]

/-- Registries agree when the maps that they hold do. -/
private theorem tagAt_eq_iff {f' : Name × Name → Option String}
    (hm : inst.ctx.tags.Holds s (.ofMap f)) (hm' : inst.ctx.tags.Holds s' (.ofMap f')) :
    tagAt inst.root s = tagAt inst.root s' ↔ f = f' := by
  constructor
  · intro h
    funext ⟨n, v⟩
    have hnv := congrFun (congrFun h n) v
    rw [hm.tagAt_eq, hm'.tagAt_eq] at hnv
    exact Option.map_injective Text.toBytes_injective hnv
  · rintro rfl
    funext n v
    rw [hm.tagAt_eq, hm'.tagAt_eq]

end

/-- In every order of the steps of two calls the registry ends as after one and then the other, if
and only if no call writes back what it had looked up before the other wrote something else. If one
does, the registry is as before both. -/
theorem registers_serial (inst : Installation) (h : Fs) (hh : Reachable inst h)
    (params : Bool → Option Json) (pool : Pool Bool Fs RegisterAnswer VarlinkReply)
    (hrun : Pool.Steps (reliable (RegisterStep.exec inst.json inst.ctx)) (fun _ _ _ _ => True)
      (registerPool params h) pool)
    (hdone : ∀ b, ∃ r, pool.threads b = .done r) :
    ((∃ b, Transaction.Overwrites b (registryMoves pool.history)) →
      tagAt inst.root pool.state = tagAt inst.root h) ∧
    ((∃ b, tagAt inst.root pool.state =
        tagAt inst.root (registered inst (params !b) (registered inst (params b) h))) ↔
      ¬ ∃ b, Transaction.Overwrites b (registryMoves pool.history)) := by
  obtain ⟨m, hm, hdigest⟩ := hh.exists_holds
  have hm' : inst.ctx.tags.Holds h (.ofMap m.toMap) := hm
  have hdigest' : ∀ k d, m.toMap k = some d → IsDigest d := fun k d => hdigest k.1 k.2 d
  choose a ha using fun b => exists_follows (params b)
  have hstart : Pool.Outlined (reliable (RegisterStep.exec inst.json inst.ctx)) (fun _ _ _ _ => True)
      (RegistryInv inst m.toMap) (fun _ _ _ _ => True) (fun b _ g => (a b).Made g)
      (registerPool params h) :=
    ⟨fun _ => [], ⟨hm', hdigest', trivial, fun _ => rfl⟩, fun b => runs_follows (ha b)⟩
  obtain ⟨γ, hInv, hthreads⟩ := hrun.outlined hstart
  have hmade : ∀ b, (a b).Made (Move.own b (registryMoves pool.history)) := by
    intro b
    obtain ⟨r, hr⟩ := hdone b
    have hb := hthreads b
    rw [hr, Pool.outline_done] at hb
    rw [hInv.own b]
    exact hb
  obtain ⟨hsame, hserial⟩ := Transaction.serial_of_made hmade hInv.faithful
  have hafter : ∀ b, tagAt inst.root pool.state =
      tagAt inst.root (registered inst (params !b) (registered inst (params b) h)) ↔
      Move.replay m.toMap (registryMoves pool.history) = (a !b).effect ((a b).effect m.toMap) := by
    intro b
    obtain ⟨hb, hb'⟩ := holds_registered (ha b) hm' hdigest'
    exact tagAt_eq_iff hInv.holds (holds_registered (ha !b) hb hb').1
  refine ⟨fun h => (tagAt_eq_iff hInv.holds hm').2 (hsame h), ?_⟩
  rw [← hserial]
  exact exists_congr hafter

/-- An update is lost: the call without a digest looks the tag up, the other writes it, and the
first writes back what it had found. -/
theorem exists_lost (inst : Installation) {h : Fs} {f : Name × Name → Option String}
    (hm : inst.ctx.tags.Holds h (.ofMap f)) (hdigest : ∀ k d, f k = some d → IsDigest d)
    (params : Bool → Option Json) {k : Name × Name} {d d' : String} (hd : f k = some d)
    (htrue : Follows (registerSteps (params true)) (.rewrite k))
    (hfalse : Follows (registerSteps (params false)) (.write k d')) :
    ∃ pool, Pool.Steps (reliable (RegisterStep.exec inst.json inst.ctx)) (fun _ _ _ _ => True)
      (registerPool params h) pool ∧ (∀ b, ∃ r, pool.threads b = .done r) ∧
      inst.ctx.tags.Holds pool.state (.ofMap f) := by
  obtain ⟨hname, htag, htrue⟩ := htrue
  obtain ⟨-, -, hd', hfalse⟩ := hfalse
  obtain ⟨next, hsteps, -, hnext⟩ := digestSteps_none k.1.text k.2.text
  have hresolve := exec_resolve inst hm hdigest hname htag
  rw [hd] at hresolve
  have hlook : Pool.Steps (reliable (RegisterStep.exec inst.json inst.ctx)) (fun _ _ _ _ => True)
      (registerPool params h) _ := Pool.Steps.call (i := true) (htrue.trans hsteps) hresolve trivial
  set pool₁ := (registerPool params h).advance true (.resolve (k.1.text ++ ":" ++ k.2.text))
    (.ok (some d)) h (next (.ok (some d))) with hpool₁
  have hwaits : pool₁.threads false = writeSteps k.1.text k.2.text d' := by
    rw [hpool₁, Pool.advance_threads_of_ne _ (by decide)]
    exact hfalse
  obtain ⟨pool₂, hwrite, hthreads₂, hstate₂⟩ := Pool.Steps.finish
    (RegisterStep.exec inst.json inst.ctx) (fun _ _ _ _ => True) (fun _ => True) _ pool₁ hwaits
    (only_true _) fun _ _ _ _ => trivial
  have hback : pool₂.threads true = writeSteps k.1.text k.2.text d := by
    rw [hthreads₂, Function.update_of_ne (by decide), hpool₁, Pool.advance_threads_self, hnext,
      cleanSteps_of_isDigest _ _ (hdigest k d hd)]
  obtain ⟨pool₃, hrewrite, hthreads₃, hstate₃⟩ := Pool.Steps.finish
    (RegisterStep.exec inst.json inst.ctx) (fun _ _ _ _ => True) (fun _ => True) _ pool₂ hback
    (only_true _) fun _ _ _ _ => trivial
  have hholds₂ := run_writeSteps (s := pool₁.state) hm hname htag hd'
  rw [← hstate₂] at hholds₂
  have hholds₃ := run_writeSteps hholds₂ hname htag (hdigest k d hd)
  rw [← hstate₃, Function.update_idem, ← hd, Function.update_eq_self] at hholds₃
  refine ⟨pool₃, (hlook.trans hwrite).trans hrewrite, fun b => ?_, hholds₃⟩
  rw [hthreads₃]
  cases b with
  | false =>
    rw [Function.update_of_ne (by decide), hthreads₂, Function.update_self]
    exact ⟨_, rfl⟩
  | true =>
    rw [Function.update_self]
    exact ⟨_, rfl⟩

/-! ### Sample calls -/

/-- The name and the tag that the sample calls register. -/
def sampleKey : Name × Name := (⟨"n", by decide⟩, ⟨"latest", by decide⟩)

/-- A call that registers `n`, again or with a digest. -/
def registerN : Option String → Option Json
  | none => some (.obj [("id", .str "n")])
  | some d => some (.obj [("digest", .str d), ("id", .str "n")])

private theorem registerSteps_registerN (d : Option String) :
    registerSteps (registerN d) = digestSteps sampleKey.1.text sampleKey.2.text d := by
  have htrim : Text.trim "n" = "n" := by decide
  have hid : registerId (registerN d) = some "n" := by
    cases d <;> simp [registerId, textParam, registerN, Json.get, Json.asStr, htrim]
  have htag : textParam (registerN d) "tag" = none := by
    cases d <;> simp [textParam, registerN, Json.get]
  have hdigest : textParam (registerN d) "digest" = d := by
    cases d <;> simp [textParam, registerN, Json.get, Json.asStr]
  have hname : validateTagSegment "n" = .ok "n" := by decide
  have hlatest : validateTagSegment "latest" = .ok "latest" := by decide
  have htarget : registerTarget "n" none = ("n", "latest") := by decide
  unfold registerSteps
  rw [hid, htag, hdigest]
  dsimp only
  rw [htarget]
  dsimp only
  rw [hname, hlatest]
  rfl

theorem follows_registerN_none : Follows (registerSteps (registerN none)) (.rewrite sampleKey) :=
  ⟨by decide, by decide, registerSteps_registerN none⟩

theorem follows_registerN_some {d : String} (hd : IsDigest d) :
    Follows (registerSteps (registerN (some d))) (.write sampleKey d) := by
  refine ⟨by decide, by decide, hd, ?_⟩
  rw [registerSteps_registerN, digestSteps_some, hd.trim_eq, cleanSteps_of_isDigest _ _ hd]

/-- The state after `n` was registered in an empty store. -/
def sampleRegistered : Fs := registered sampleInstallation (registerN (some digestEmpty)) (sampleFs true)

theorem reachable_sampleRegistered : Reachable sampleInstallation sampleRegistered := by
  refine ⟨true, id, [.call ⟨"io.syntrop.Model1.Register", registerN (some digestEmpty), none⟩],
    by simp [Operation.Valid], ?_⟩
  have hdispatch : dispatchCall sampleInstallation.json
      ⟨"io.syntrop.Model1.Register", registerN (some digestEmpty), none⟩ sampleInstallation.ctx =
      handleRegister sampleInstallation.json (registerN (some digestEmpty)) sampleInstallation.ctx :=
    rfl
  have hopened : openedFs sampleInstallation.root true id = sampleFs true := rfl
  rw [Operation.afterAll, List.foldl_cons, List.foldl_nil, Operation.after, Operation.program,
    hdispatch, run_bind, pure_eq, run_done, sampleRegistered, registered, hopened]

theorem holds_sampleRegistered : sampleInstallation.ctx.tags.Holds sampleRegistered
    (.ofMap (Function.update (fun _ => none) sampleKey (some digestEmpty))) := by
  have hempty : sampleInstallation.ctx.tags.Holds (sampleFs true) (.ofMap fun _ => none) :=
    holds_openedFs sampleInstallation.root true id
  have hdigest : IsDigest digestEmpty := by decide
  exact (holds_registered (follows_registerN_some hdigest) hempty (fun _ _ h => nomatch h)).1

/-- The parameters of a call that registers `n` again, and none. -/
def againAndNone (b : Bool) : Option Json := cond b (registerN none) none

/-- A call that finds nothing to register again, and one that is refused. -/
theorem sample_registers_serial : ∃ pool,
    Pool.Steps (reliable (RegisterStep.exec sampleInstallation.json sampleInstallation.ctx))
      (fun _ _ _ _ => True) (registerPool againAndNone (sampleFs true)) pool ∧
    ∃ b, tagAt sampleRoot pool.state = tagAt sampleRoot (registered sampleInstallation
      (againAndNone !b) (registered sampleInstallation (againAndNone b) (sampleFs true))) := by
  obtain ⟨hname, htag, hsteps⟩ := follows_registerN_none
  obtain ⟨next, hcall, ⟨r, hr⟩, -⟩ := digestSteps_none sampleKey.1.text sampleKey.2.text
  have hempty : sampleInstallation.ctx.tags.Holds (sampleFs true) (.ofMap fun _ => none) :=
    holds_openedFs sampleInstallation.root true id
  have hresolve := exec_resolve sampleInstallation hempty (fun _ _ h => nomatch h) hname htag
  have hrun : Pool.Steps (reliable (RegisterStep.exec sampleInstallation.json sampleInstallation.ctx))
      (fun _ _ _ _ => True) (registerPool againAndNone (sampleFs true)) _ :=
    Pool.Steps.call (i := true) (hsteps.trans hcall) hresolve trivial
  have hserial := registers_serial sampleInstallation (sampleFs true) (reachable_openedFs true id)
    againAndNone _ hrun fun b => by
      cases b with
      | false =>
        rw [Pool.advance_threads_of_ne _ (by decide)]
        exact ⟨_, rfl⟩
      | true =>
        rw [Pool.advance_threads_self]
        exact ⟨r, hr⟩
  refine ⟨_, hrun, hserial.2.2 ?_⟩
  rintro ⟨b, k, d, d', -, hsub⟩
  have hle := hsub.length_le.trans (List.length_filterMap_le _ _)
  simp [registerPool] at hle

/-- Neither order of the calls ends where the interleaved calls do. -/
theorem sample_update_lost : Reachable sampleInstallation sampleRegistered ∧ ∃ pool,
    Pool.Steps (reliable (RegisterStep.exec sampleInstallation.json sampleInstallation.ctx))
      (fun _ _ _ _ => True)
      (registerPool (fun b => registerN (cond b none (some digestOne))) sampleRegistered) pool ∧
    (∀ b, ∃ r, pool.threads b = .done r) ∧
    ∀ b, tagAt sampleRoot pool.state ≠ tagAt sampleRoot (registered sampleInstallation
      (registerN (cond (!b) none (some digestOne))) (registered sampleInstallation
        (registerN (cond b none (some digestOne))) sampleRegistered)) := by
  have hdigest : ∀ k d, Function.update (fun _ => none) sampleKey (some digestEmpty) k = some d →
      IsDigest d := by
    intro k d hd
    rw [Function.update_apply] at hd
    split at hd
    · obtain rfl := Option.some.inj hd
      decide
    · cases hd
  have hone : IsDigest digestOne := by decide
  have hfollows : ∀ b, Follows (registerSteps (registerN (cond b none (some digestOne))))
      (cond b (.rewrite sampleKey) (.write sampleKey digestOne)) := by
    rintro (_ | _)
    · exact follows_registerN_some hone
    · exact follows_registerN_none
  obtain ⟨pool, hrun, hdone, hholds⟩ := exists_lost sampleInstallation holds_sampleRegistered hdigest
    (fun b => registerN (cond b none (some digestOne))) (Function.update_self ..)
    (hfollows true) (hfollows false)
  refine ⟨reachable_sampleRegistered, pool, hrun, hdone, fun b heq => ?_⟩
  obtain ⟨hfirst, hfirst'⟩ := holds_registered (hfollows b) holds_sampleRegistered hdigest
  have hboth := (holds_registered (hfollows !b) hfirst hfirst').1
  have hmap := congrFun ((tagAt_eq_iff hholds hboth).1 heq) sampleKey
  revert hmap
  cases b <;> simp [Transaction.effect, digestEmpty, digestOne]

end Modeld
