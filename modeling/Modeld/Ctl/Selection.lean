import Modeld.Ctl.QuantScan
import Modeld.Host.Choice

/-!
# Which file is selected

`select_file` picks the first file of the best kind of match: for a quantization the strict matches
come before the delimited ones and these before any other, and without one the preferred
quantizations are tried in turn. The scans of the delimited matches may leave the character
boundaries; where they do not, the selection is total.
-/

namespace Modeld

open Host Choice

/-- The name of a file as it is compared. -/
def upperChars (f : String) : List Char := (Text.toAsciiUppercase f).toList

/-- `matches_quant_strict` on a file. -/
def strictMatch (qUpper f : String) : Bool := matchesQuantStrict (Text.toAsciiUppercase f) qUpper

/-- `matches_quant_delimited` on a file, when it returns. -/
def delimitedMatch (qUpper f : String) : Bool :=
  match matchesQuantDelimited (Text.toAsciiUppercase f) qUpper with
  | .ok found => found
  | .error _ => false

/-- The fallback of `select_file`. -/
def looseMatch (qUpper f : String) : Bool :=
  !isBf16Only (Text.toAsciiUppercase f) qUpper && Text.contains (Text.toAsciiUppercase f) qUpper

/-- What a file is selected by. -/
def quantCriteria : Option String → List (String → Bool)
  | some q =>
    let qUpper := Text.toAsciiUppercase q
    [strictMatch qUpper, delimitedMatch qUpper, looseMatch qUpper]
  | none => preferredQuants.map strictMatch ++ (preferredQuants.map delimitedMatch ++ [fun _ => true])

/-- The text of the error when no file matches. -/
def noMatchText (files : List String) (q : String) : String :=
  "No file matching quantization '" ++ q ++ "' found. Available: " ++ ", ".intercalate files

/-- The scans of names, one after the other until one of them finds the text, stay on character
boundaries. -/
def ScansStay (q : List Char) : List String → Prop
  | [] => True
  | f :: fs => StaysOnBoundaries q none (upperChars f) ∧
      (¬ HasDelimited q none (upperChars f) → ScansStay q fs)

theorem scansStay_of_ascii {c : Char} {q : List Char} (hascii : c.toNat < 128) (files : List String) :
    ScansStay (c :: q) files := by
  induction files with
  | nil => trivial
  | cons f fs ih => exact ⟨staysOnBoundaries_of_ascii hascii none _, fun _ => ih⟩

theorem eq_f16_of_isBf16Only {fileUpper qUpper : String} (h : isBf16Only fileUpper qUpper = true) :
    qUpper = "F16" := by
  rw [isBf16Only, Bool.and_eq_true, Bool.and_eq_true, decide_eq_true_eq] at h
  exact h.1.1

theorem findM_cons {α ε : Type} (p : α → Except ε Bool) (a : α) (l : List α) :
    (a :: l).findM? p = p a >>= fun found => if found then .ok (some a) else l.findM? p := by
  rw [List.findM?]
  congr 1
  funext found
  cases found <;> rfl

/-- The scans of all names: either they stay on the boundaries and find the first delimited match, or
they panic. -/
theorem findM_delimited_cases (qUpper : String) (files : List String) :
    (ScansStay qUpper.toList files ∧
        files.findM? (fun f => matchesQuantDelimited (Text.toAsciiUppercase f) qUpper) =
          .ok (files.find? (delimitedMatch qUpper))) ∨
      (¬ ScansStay qUpper.toList files ∧ ∃ msg ∈ slicePanics,
        files.findM? (fun f => matchesQuantDelimited (Text.toAsciiUppercase f) qUpper) =
          .error msg) := by
  induction files with
  | nil => exact .inl ⟨trivial, rfl⟩
  | cons f fs ih =>
    rw [findM_cons]
    cases hbf : isBf16Only (Text.toAsciiUppercase f) qUpper with
    | true =>
      obtain rfl := eq_f16_of_isBf16Only hbf
      have hstay : ∀ files, ScansStay "F16".toList files :=
        scansStay_of_ascii (c := 'F') (q := ['1', '6']) (by decide)
      have hmatch : matchesQuantDelimited (Text.toAsciiUppercase f) "F16" = .ok false := by
        rw [matchesQuantDelimited, if_pos hbf]
      have hfs := (ih.resolve_right fun hbad => hbad.1 (hstay fs)).2
      refine .inl ⟨hstay _, ?_⟩
      have hnot : ¬ delimitedMatch "F16" f = true := by
        rw [delimitedMatch, hmatch]
        exact Bool.false_ne_true
      rw [hmatch, List.find?_cons_of_neg hnot, ← hfs]
      rfl
    | false =>
      have hscan : matchesQuantDelimited (Text.toAsciiUppercase f) qUpper =
          searchDelimited qUpper.toList none (upperChars f) := matchesQuantDelimited_eq hbf
      rcases searchDelimited_cases qUpper.toList none (upperChars f) with
        ⟨hstay, found, hfound, hiff⟩ | ⟨hleave, msg, hmsg, herror⟩
      · rw [hscan, hfound]
        cases found with
        | true =>
          have hmatch : delimitedMatch qUpper f = true := by rw [delimitedMatch, hscan, hfound]
          refine .inl ⟨⟨hstay, fun hnot => absurd (hiff.1 rfl) hnot⟩, ?_⟩
          rw [List.find?_cons_of_pos hmatch]
          rfl
        | false =>
          have hnot : ¬ HasDelimited qUpper.toList none (upperChars f) := fun h =>
            Bool.false_ne_true (hiff.2 h)
          have hmatch : ¬ delimitedMatch qUpper f = true := by
            rw [delimitedMatch, hscan, hfound]
            exact Bool.false_ne_true
          rw [List.find?_cons_of_neg hmatch]
          rcases ih with ⟨hfs, hrun⟩ | ⟨hfs, msg, hmsg, hrun⟩
          · exact .inl ⟨⟨hstay, fun _ => hfs⟩, hrun⟩
          · exact .inr ⟨fun h => hfs (h.2 hnot), msg, hmsg, hrun⟩
      · rw [hscan, herror]
        exact .inr ⟨fun h => hleave h.1, msg, hmsg, rfl⟩

/-! ### What is selected -/

/-- The scans that a selection makes stay on character boundaries. It makes none without a
quantization that could leave them, and none where a file matches strictly. -/
def SelectsInBounds (files : List String) : Option String → Prop
  | some q => (∀ f ∈ files, strictMatch (Text.toAsciiUppercase q) f = false) →
      ScansStay (Text.toAsciiUppercase q).toList files
  | none => True

/-- The outcome of a selection, from what is picked. -/
def selectionOf (files : List String) (quant : Option String) : Except String String :=
  match pick (quantCriteria quant) files with
  | some f => .ok f
  | none => .error (noMatchText files (quant.getD ""))

theorem findSome_three {α β : Type} (g : α → Option β) (a b c : α) :
    [a, b, c].findSome? g = (g a).or ((g b).or (g c)) := by
  simp only [List.findSome?_cons, List.findSome?_nil]
  cases g a <;> cases g b <;> cases g c <;> rfl

theorem selectQuant_cases (files : List String) (q : String) :
    (SelectsInBounds files (some q) ∧ selectQuant files q = selectionOf files (some q)) ∨
      (¬ SelectsInBounds files (some q) ∧ ∃ msg ∈ slicePanics, selectQuant files q = .error msg) := by
  have hpick : pick (quantCriteria (some q)) files =
      (files.find? (strictMatch (Text.toAsciiUppercase q))).or
        ((files.find? (delimitedMatch (Text.toAsciiUppercase q))).or
          (files.find? (looseMatch (Text.toAsciiUppercase q)))) := findSome_three ..
  rw [selectionOf, hpick, SelectsInBounds, selectQuant]
  generalize Text.toAsciiUppercase q = qUpper
  have hstrict : files.find? (fun f => matchesQuantStrict (Text.toAsciiUppercase f) qUpper) =
      files.find? (strictMatch qUpper) := rfl
  rw [hstrict]
  cases hfind : files.find? (strictMatch qUpper) with
  | some f =>
    have hmatch := List.find?_some hfind
    have hmem := List.mem_of_find?_eq_some hfind
    refine .inl ⟨fun hnone => ?_, rfl⟩
    rw [hnone f hmem] at hmatch
    cases hmatch
  | none =>
    have hnone : ∀ f ∈ files, strictMatch qUpper f = false := fun f hf => by
      simpa using List.find?_eq_none.1 hfind f hf
    rw [Option.none_or]
    rcases findM_delimited_cases qUpper files with ⟨hstay, hrun⟩ | ⟨hleave, msg, hmsg, hrun⟩
    · refine .inl ⟨fun _ => hstay, ?_⟩
      rw [hrun]
      cases files.find? (delimitedMatch qUpper) with
      | some f => rfl
      | none =>
        have hloose : files.find? (fun f => !isBf16Only (Text.toAsciiUppercase f) qUpper &&
            Text.contains (Text.toAsciiUppercase f) qUpper) = files.find? (looseMatch qUpper) := rfl
        rw [← hloose]
        rfl
    · refine .inr ⟨fun h => hleave (h hnone), msg, hmsg, ?_⟩
      rw [hrun]
      rfl

theorem findSomeM_eq {α β ε : Type} {g : α → Except ε (Option β)} {h : α → Option β} {l : List α}
    (hg : ∀ a ∈ l, g a = .ok (h a)) : l.findSomeM? g = .ok (l.findSome? h) := by
  induction l with
  | nil => rfl
  | cons a l ih =>
    rw [List.findSomeM?, hg a (List.mem_cons_self ..), List.findSome?_cons]
    cases h a with
    | some b => rfl
    | none => exact ih fun x hx => hg x (List.mem_cons_of_mem _ hx)

theorem selectPreferred_eq (first : String) (rest : List String) :
    selectPreferred (first :: rest) first = selectionOf (first :: rest) none := by
  have hscans : ∀ q ∈ preferredQuants,
      (first :: rest).findM? (fun f => matchesQuantDelimited (Text.toAsciiUppercase f) q) =
        .ok ((first :: rest).find? (delimitedMatch q)) := by
    intro q hq
    have hstay : ScansStay q.toList (first :: rest) := by
      simp only [preferredQuants, List.mem_cons, List.not_mem_nil, or_false] at hq
      rcases hq with rfl | rfl | rfl | rfl
      · exact scansStay_of_ascii (c := 'Q') (q := ['4', '_', 'K', '_', 'M']) (by decide) _
      · exact scansStay_of_ascii (c := 'Q') (q := ['4', '_', '0']) (by decide) _
      · exact scansStay_of_ascii (c := 'Q') (q := ['8', '_', '0']) (by decide) _
      · exact scansStay_of_ascii (c := 'F') (q := ['1', '6']) (by decide) _
    exact ((findM_delimited_cases q (first :: rest)).resolve_right fun hbad => hbad.1 hstay).2
  have hpick : pick (quantCriteria none) (first :: rest) =
      (preferredQuants.findSome? fun q => (first :: rest).find? (strictMatch q)).or
        ((preferredQuants.findSome? fun q => (first :: rest).find? (delimitedMatch q)).or
          (some first)) := by
    rw [pick, quantCriteria, List.findSome?_append, List.findSome?_append, List.findSome?_map,
      List.findSome?_map]
    rfl
  have hstrict : (preferredQuants.findSome? fun q => (first :: rest).find? fun f =>
      matchesQuantStrict (Text.toAsciiUppercase f) q) =
      preferredQuants.findSome? fun q => (first :: rest).find? (strictMatch q) := rfl
  rw [selectionOf, hpick, selectPreferred, hstrict, findSomeM_eq hscans]
  cases preferredQuants.findSome? fun q => (first :: rest).find? (strictMatch q) with
  | some f => rfl
  | none =>
    cases preferredQuants.findSome? fun q => (first :: rest).find? (delimitedMatch q) <;> rfl

/-- A selection by quantization picks by the criteria, or panics. -/
theorem selectFile_cases {files : List String} {format : String} (quant : Option String)
    (hfiles : files ≠ []) (hformat : format ≠ "safetensors") :
    (SelectsInBounds files quant ∧ selectFile files format quant = selectionOf files quant) ∨
      (¬ SelectsInBounds files quant ∧ ∃ msg ∈ slicePanics,
        selectFile files format quant = .error msg) := by
  cases files with
  | nil => exact absurd rfl hfiles
  | cons first rest =>
    cases quant with
    | some q =>
      have hrun : selectFile (first :: rest) format (some q) = selectQuant (first :: rest) q :=
        if_neg hformat
      rw [hrun]
      exact selectQuant_cases (first :: rest) q
    | none =>
      have hrun : selectFile (first :: rest) format none = selectPreferred (first :: rest) first :=
        if_neg hformat
      rw [hrun]
      exact .inl ⟨trivial, selectPreferred_eq first rest⟩

/-! ### Selections that panic -/

/-- The selection has panicked. -/
def Panics (r : Except String String) : Prop := ∃ msg ∈ slicePanics, r = .error msg

theorem not_panics_of_head {msg : String} (h : msg.toList.head? = some 'N') :
    ¬ Panics (.error msg) := by
  intro hpanics
  obtain ⟨panic, hmem, heq⟩ := hpanics
  cases heq
  simp only [slicePanics, List.mem_cons, List.not_mem_nil, or_false] at hmem
  rcases hmem with rfl | rfl
  · exact absurd h (by decide)
  · exact absurd h (by decide)

theorem head_append {s : String} {c : Char} (h : s.toList.head? = some c) (t : String) :
    (s ++ t).toList.head? = some c := by
  rw [String.toList_append, List.head?_append, h, Option.some_or]

theorem head_noMatchText (files : List String) (q : String) :
    (noMatchText files q).toList.head? = some 'N' :=
  head_append (head_append (head_append (by decide) _) _) _

theorem selectionOf_cases (files : List String) (quant : Option String) :
    (∃ f ∈ files, selectionOf files quant = .ok f) ∨
      selectionOf files quant = .error (noMatchText files (quant.getD "")) := by
  rw [selectionOf]
  cases hpick : pick (quantCriteria quant) files with
  | some f => exact .inl ⟨f, mem_of_pick hpick, rfl⟩
  | none => exact .inr rfl

theorem mem_of_selectFile {files : List String} {format f : String} {quant : Option String}
    (h : selectFile files format quant = .ok f) : f ∈ files := by
  cases hfiles : files with
  | nil =>
    rw [hfiles] at h
    cases h
  | cons first rest =>
    rw [← hfiles]
    have hne : files ≠ [] := by
      rw [hfiles]
      exact List.cons_ne_nil first rest
    by_cases hformat : format = "safetensors"
    · have hrun : selectFile files format quant =
          .ok ((files.find? (· = "model.safetensors")).getD first) := by
        rw [hfiles]
        exact if_pos hformat
      rw [hrun] at h
      cases h
      cases hfind : files.find? (· = "model.safetensors") with
      | some f => exact List.mem_of_find?_eq_some hfind
      | none =>
        rw [hfiles]
        exact List.mem_cons_self ..
    · rcases selectFile_cases quant hne hformat with ⟨-, hrun⟩ | ⟨-, msg, -, hrun⟩
      · rw [hrun] at h
        rcases selectionOf_cases files quant with ⟨f', hf', hok⟩ | herror
        · rw [hok] at h
          cases h
          exact hf'
        · rw [herror] at h
          cases h
      · rw [hrun] at h
        cases h

/-- The errors of a selection that does not panic. -/
theorem selectFile_error {files : List String} {format msg : String} {quant : Option String}
    (h : selectFile files format quant = .error msg) :
    msg ∈ slicePanics ∨ msg.toList.head? = some 'N' := by
  cases hfiles : files with
  | nil =>
    rw [hfiles] at h
    cases h
    exact .inr (by decide)
  | cons first rest =>
    have hne : files ≠ [] := by
      rw [hfiles]
      exact List.cons_ne_nil first rest
    by_cases hformat : format = "safetensors"
    · rw [hfiles] at h
      have hrun := h.symm.trans (if_pos hformat)
      cases hrun
    · rcases selectFile_cases quant hne hformat with ⟨-, hrun⟩ | ⟨-, panic, hpanic, hrun⟩
      · rcases selectionOf_cases files quant with ⟨f, -, hok⟩ | herror
        · rw [hrun, hok] at h
          cases h
        · rw [hrun, herror] at h
          cases h
          exact .inr (head_noMatchText _ _)
      · rw [hrun] at h
        cases h
        exact .inl hpanic

/-- A selection returns an error or an element of the list, without a panic, exactly when the scans that
it makes stay on character boundaries. -/
theorem select_total_iff (files : List String) (format : String) (quant : Option String) :
    (¬ Panics (selectFile files format quant) ∧
        ((∃ msg, selectFile files format quant = .error msg) ∨
          ∃ f ∈ files, selectFile files format quant = .ok f)) ↔
      (files ≠ [] → format ≠ "safetensors" → SelectsInBounds files quant) := by
  have houtcome : (∃ msg, selectFile files format quant = .error msg) ∨
      ∃ f ∈ files, selectFile files format quant = .ok f := by
    cases hrun : selectFile files format quant with
    | error msg => exact .inl ⟨msg, rfl⟩
    | ok f => exact .inr ⟨f, mem_of_selectFile hrun, rfl⟩
  rw [and_iff_left houtcome]
  constructor
  · intro hpanics hfiles hformat
    exact ((selectFile_cases quant hfiles hformat).resolve_right fun h => hpanics h.2).1
  · intro h hpanics
    obtain ⟨msg, hmsg, hrun⟩ := hpanics
    by_cases hfiles : files = []
    · rw [hfiles] at hrun
      exact not_panics_of_head (by decide) ⟨msg, hmsg, hrun⟩
    by_cases hformat : format = "safetensors"
    · obtain ⟨first, rest, rfl⟩ := List.exists_cons_of_ne_nil hfiles
      have hok := hrun.symm.trans (if_pos hformat)
      cases hok
    · have hselect := ((selectFile_cases quant hfiles hformat).resolve_right fun hbad =>
        hbad.1 (h hfiles hformat)).2
      rw [hselect] at hrun
      rcases selectionOf_cases files quant with ⟨f, -, hok⟩ | herror
      · rw [hok] at hrun
        cases hrun
      · rw [herror] at hrun
        exact not_panics_of_head (head_noMatchText _ _) ⟨msg, hmsg, hrun⟩

/-- A quantization that starts with `é` leaves the boundaries behind a letter, and an empty one goes
behind the end of the name. -/
theorem select_panics :
    selectFile ["xé.gguf"] "gguf" (some "é") = .error "byte index is not a char boundary" ∧
      selectFile ["x.gguf"] "gguf" (some "") = .error "byte index is out of bounds" := by
  constructor
  · rfl
  · rfl

/-! ### Half precision -/

/-- The name of the file has `F16` in it, ignoring case, at a place where it is not the end of `BF16`. -/
def OffersF16 (f : String) : Prop :=
  ∃ s t, upperChars f = s ++ "F16".toList ++ t ∧ s.getLast? ≠ some 'B'

theorem OffersF16.of_delimiter {f : String} {c : Char} (hc : c ≠ 'B') {s t : List Char}
    (h : upperChars f = s ++ c :: ("F16".toList ++ t)) : OffersF16 f := by
  refine ⟨s ++ [c], t, ?_, ?_⟩
  · rw [h, List.append_assoc, List.append_assoc]
    rfl
  · rw [List.getLast?_concat]
    intro hlast
    exact hc (Option.some.inj hlast)

theorem offersF16_of_strict {f : String} (h : strictMatch "F16" f = true) : OffersF16 f := by
  have hsuffix : ∀ c : Char, c ≠ 'B' → (c :: ("F16".toList ++ ".GGUF".toList)) <:+ upperChars f →
      OffersF16 f := by
    intro c hc hends
    obtain ⟨s, hs⟩ := hends
    exact .of_delimiter hc hs.symm
  rw [strictMatch, matchesQuantStrict, Bool.or_eq_true, Bool.or_eq_true] at h
  rcases h with (h | h) | h
  · exact hsuffix '-' (by decide) (of_decide_eq_true h)
  · exact hsuffix '_' (by decide) (of_decide_eq_true h)
  · exact hsuffix '.' (by decide) (of_decide_eq_true h)

theorem offersF16_of_delimited {f : String} (h : delimitedMatch "F16" f = true) : OffersF16 f := by
  rw [delimitedMatch, matchesQuantDelimited] at h
  split_ifs at h
  rcases searchDelimited_cases "F16".toList none (upperChars f) with
    ⟨-, found, hfound, hiff⟩ | ⟨hleave, -⟩
  · have hrun : searchDelimited "F16".toList none (Text.toAsciiUppercase f).toList = .ok found := hfound
    rw [hrun] at h
    obtain ⟨s, t, hsplit, hat⟩ := hiff.1 h
    obtain ⟨u, rfl⟩ := hat.occurs
    refine ⟨s, u, by rw [hsplit, List.append_assoc], fun hlast => ?_⟩
    have hbefore := hat.before
    rw [hlast] at hbefore
    exact absurd hbefore (by decide)
  · exact absurd (staysOnBoundaries_of_ascii (c := 'F') (q := ['1', '6']) (by decide) none _) hleave

theorem offersF16_of_loose {f : String} (h : looseMatch "F16" f = true) : OffersF16 f := by
  rw [looseMatch, Bool.and_eq_true, Bool.not_eq_true'] at h
  obtain ⟨hbf, hcontains⟩ := h
  obtain ⟨s, t, hst⟩ := of_decide_eq_true hcontains
  rw [isBf16Only, decide_eq_true rfl, Bool.true_and, Bool.and_eq_false_iff] at hbf
  rcases hbf with hbf | hdash
  · refine ⟨s, t, hst.symm, fun hlast => ?_⟩
    -- A `B` in front would be a `BF16`, and there is none.
    obtain ⟨s', rfl⟩ := List.getLast?_eq_some_iff.1 hlast
    refine absurd (show Text.contains _ "BF16" = true from decide_eq_true ⟨s', t, ?_⟩) (by
      rw [hbf]
      exact Bool.false_ne_true)
    rw [← hst, List.append_assoc, List.append_assoc, List.append_assoc]
    rfl
  · rw [Bool.not_eq_false'] at hdash
    obtain ⟨s', t', hdash⟩ := of_decide_eq_true hdash
    refine .of_delimiter (c := '-') (by decide) (s := s') (t := t') ?_
    rw [upperChars, ← hdash, List.append_assoc]
    rfl

/-- A file that is selected for `F16` offers it, and where no file does an error is returned. -/
theorem select_f16 (files : List String) (format q : String) (hformat : format ≠ "safetensors")
    (hq : Text.toAsciiUppercase q = "F16") :
    (∀ f, selectFile files format (some q) = .ok f → OffersF16 f) ∧
      ((∀ f ∈ files, ¬ OffersF16 f) →
        ∃ msg, selectFile files format (some q) = .error msg ∧ msg ∉ slicePanics) := by
  have hstays : SelectsInBounds files (some q) := by
    rw [SelectsInBounds, hq]
    exact fun _ => scansStay_of_ascii (c := 'F') (q := ['1', '6']) (by decide) files
  have hpicked : ∀ f, pick (quantCriteria (some q)) files = some f → OffersF16 f := by
    intro f hpick
    obtain ⟨p, hp, hmatch⟩ := rank_lt_iff.1 (pick_eq_some hpick).1
    rw [quantCriteria, hq] at hp
    simp only [List.mem_cons, List.not_mem_nil, or_false] at hp
    rcases hp with rfl | rfl | rfl
    · exact offersF16_of_strict hmatch
    · exact offersF16_of_delimited hmatch
    · exact offersF16_of_loose hmatch
  by_cases hfiles : files = []
  · rw [hfiles]
    refine ⟨fun f hselect => ?_, fun _ => ⟨"No matching files found for selection", rfl, by decide⟩⟩
    cases hselect
  · have hrun := ((selectFile_cases (some q) hfiles hformat).resolve_right
      fun hbad => hbad.1 hstays).2
    rw [hrun, selectionOf]
    cases hpick : pick (quantCriteria (some q)) files with
    | some f =>
      constructor
      · intro f' hselect
        cases hselect
        exact hpicked f hpick
      · intro hnone
        exact absurd (hpicked f hpick) (hnone f (mem_of_pick hpick))
    | none =>
      constructor
      · intro f hselect
        cases hselect
      · intro _
        refine ⟨_, rfl, fun hmem => ?_⟩
        exact not_panics_of_head (head_noMatchText _ _) ⟨_, hmem, rfl⟩

theorem select_f16_lower : "gguf" ≠ "safetensors" ∧ Text.toAsciiUppercase "f16" = "F16" ∧
    selectFile ["m-BF16.gguf", "m-f16.gguf"] "gguf" (some "f16") = .ok "m-f16.gguf" ∧
    OffersF16 "m-f16.gguf" := by
  have hq : Text.toAsciiUppercase "f16" = "F16" := by decide
  have hselect := select_f16 ["m-BF16.gguf", "m-f16.gguf"] "gguf" "f16" (by decide) hq
  have hrun : selectFile ["m-BF16.gguf", "m-f16.gguf"] "gguf" (some "f16") = .ok "m-f16.gguf" := rfl
  exact ⟨by decide, hq, hrun, hselect.1 _ hrun⟩

end Modeld
