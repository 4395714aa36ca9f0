import Modeld.Ctl.Selection
import Modeld.Host.FloatParse

/-!
# Split models

A model that was split has files that are no models on their own. A repository with split SafeTensors
weights is told by the text `-of-` in a name; among GGUF files the parts stand like any other file.
-/

namespace Modeld

open Host Choice

/-- Digits, at least one. -/
def IsNumber (digits : List Char) : Prop := digits ≠ [] ∧ digits.all Char.isDigit = true

/-- The name of one part of a split model: `<stem>-<i>-of-<n>.<ext>`, where there is more than one. -/
def IsPart (f : String) : Prop :=
  ∃ stem i n ext, f.toList = stem ++ '-' :: (i ++ "-of-".toList ++ n ++ '.' :: ext) ∧
    IsNumber i ∧ IsNumber n ∧ 1 < digitsValue n ∧
    (ext = "gguf".toList ∨ ext = "safetensors".toList)

/-- The files of a listing with an ending. -/
def pathsWith (ending : String) (entries : List HfTreeEntry) : List String :=
  (entries.filter (·.isFileWith ending)).map (·.path)

/-- There is a reason to refuse a listing: a part, a name with `.part`, or several files of which none
is the model. -/
def HasGrounds (stFiles : List String) : Prop :=
  (∃ f ∈ stFiles, IsPart f) ∨ (∃ f ∈ stFiles, Text.contains f ".part" = true) ∨
    (1 < stFiles.length ∧ "model.safetensors" ∉ stFiles)

/-- The error of a refused listing. -/
def shardedText (repo : String) (stFiles : List String) : String :=
  "Sharded Safetensors model detected in '" ++ repo ++ "' (found " ++ toString stFiles.length ++
    " shards: " ++ ", ".intercalate stFiles ++
    "). Sharded weights are not supported for single-stream pull. " ++
    "Please choose an unsharded model or a GGUF quant."

theorem IsPart.contains {f : String} (h : IsPart f) : Text.contains f "-of-" = true := by
  obtain ⟨stem, i, n, ext, hname, -⟩ := h
  refine decide_eq_true ⟨stem ++ '-' :: i, n ++ '.' :: ext, ?_⟩
  rw [hname]
  simp only [List.append_assoc, List.cons_append]

/-! ### What is refused -/

/-- The files to choose from, or why there are none. -/
def matchedFiles (repo format : String) (entries : List HfTreeEntry) : Except String (List String) :=
  if Text.eqIgnoreAsciiCase format "safetensors" then safetensorsFiles repo entries
  else ggufFiles repo entries

theorem resolveHfRepo_filename {hub : HfHub} {repo : String} {entries : List HfTreeEntry}
    (htree : hub.tree repo = .ok entries) (format : String) (quant tagOverride : Option String) :
    (resolveHfRepo hub repo format quant tagOverride).map (·.filename) =
      (matchedFiles repo format entries).bind fun files => selectFile files format quant := by
  simp only [resolveHfRepo, htree, bind, Except.bind, pure, Except.pure, matchedFiles]
  cases Text.eqIgnoreAsciiCase format "safetensors"
  · cases ggufFiles repo entries with
    | error e => rfl
    | ok files => cases hselect : selectFile files format quant <;> simp [hselect, Except.map]
  · cases safetensorsFiles repo entries with
    | error e => rfl
    | ok files => cases hselect : selectFile files format quant <;> simp [hselect, Except.map]

/-- The listing is refused as one of split weights. -/
def IsRefused (stFiles : List String) : Prop :=
  (∃ f ∈ stFiles, Text.contains f "-of-" = true) ∨ (∃ f ∈ stFiles, Text.contains f ".part" = true) ∨
    (1 < stFiles.length ∧ "model.safetensors" ∉ stFiles)

theorem safetensorsFiles_refused {repo : String} {entries : List HfTreeEntry}
    (h : IsRefused (pathsWith ".safetensors" entries)) : safetensorsFiles repo entries =
      .error (shardedText repo (pathsWith ".safetensors" entries)) := by
  rw [safetensorsFiles, ← pathsWith, if_pos]
  · rfl
  · rcases h with ⟨f, hf, hcontains⟩ | ⟨f, hf, hcontains⟩ | ⟨hseveral, hnone⟩
    · have hany : ((pathsWith ".safetensors" entries).any fun f =>
          Text.contains f "-of-" || Text.contains f ".part") = true :=
        List.any_eq_true.2 ⟨f, hf, by rw [hcontains, Bool.true_or]⟩
      rw [hany, Bool.true_or]
    · have hany : ((pathsWith ".safetensors" entries).any fun f =>
          Text.contains f "-of-" || Text.contains f ".part") = true :=
        List.any_eq_true.2 ⟨f, hf, by rw [hcontains, Bool.or_true]⟩
      rw [hany, Bool.true_or]
    · have hmodel : ((pathsWith ".safetensors" entries).any (· = "model.safetensors")) = false := by
        rw [List.any_eq_false]
        intro f hf hname
        rw [← of_decide_eq_true hname] at hnone
        exact hnone hf
      rw [hmodel, decide_eq_true hseveral, Bool.not_false, Bool.and_true, Bool.or_true]

theorem safetensorsFiles_not_refused {repo : String} {entries : List HfTreeEntry}
    (h : ¬ IsRefused (pathsWith ".safetensors" entries)) : safetensorsFiles repo entries =
      if pathsWith ".safetensors" entries = [] then
        .error ("No .safetensors files found in repository '" ++ repo ++ "'")
      else .ok (pathsWith ".safetensors" entries) := by
  rw [safetensorsFiles, ← pathsWith, if_neg]
  intro hrefused
  refine h ?_
  rw [Bool.or_eq_true, Bool.and_eq_true] at hrefused
  rcases hrefused with hany | ⟨hseveral, hmodel⟩
  · obtain ⟨f, hf, hcontains⟩ := List.any_eq_true.1 hany
    rcases Bool.or_eq_true _ _ ▸ hcontains with hof | hpart
    · exact .inl ⟨f, hf, hof⟩
    · exact .inr (.inl ⟨f, hf, hpart⟩)
  · refine .inr (.inr ⟨of_decide_eq_true hseveral, fun hmem => ?_⟩)
    have hany : ((pathsWith ".safetensors" entries).any (· = "model.safetensors")) = true :=
      List.any_eq_true.2 ⟨_, hmem, decide_eq_true rfl⟩
    rw [hany] at hmodel
    cases hmodel

theorem head_shardedText (repo : String) (stFiles : List String) :
    (shardedText repo stFiles).toList.head? = some 'S' :=
  head_append (head_append (head_append (head_append (head_append (head_append (head_append
    (by decide) _) _) _) _) _) _) _

theorem ne_shardedText_of_head {msg repo : String} {stFiles : List String}
    (h : msg.toList.head? = some 'N') : msg ≠ shardedText repo stFiles := by
  rintro rfl
  rw [head_shardedText] at h
  exact absurd h (by decide)

/-- A selection does not fail with the error of a refused listing. -/
theorem selectFile_ne_shardedText {files stFiles : List String} {format repo : String}
    {quant : Option String} :
    selectFile files format quant ≠ .error (shardedText repo stFiles) := by
  intro hrun
  rcases selectFile_error hrun with hpanic | hhead
  · have hhead := head_shardedText repo stFiles
    simp only [slicePanics, List.mem_cons, List.not_mem_nil, or_false] at hpanic
    rcases hpanic with heq | heq
    · rw [heq] at hhead
      exact absurd hhead (by decide)
    · rw [heq] at hhead
      exact absurd hhead (by decide)
  · exact ne_shardedText_of_head hhead rfl

/-! ### Whole files only -/

/-- What a pull resolves to is no part of a split model, and a listing is refused as split weights for
a reason only. -/
structure PicksWhole (hub : HfHub) (repo format : String) (quant tagOverride : Option String)
    (entries : List HfTreeEntry) : Prop where
  whole : ∀ m, resolveHfRepo hub repo format quant tagOverride = .ok m → ¬ IsPart m.filename
  refused : resolveHfRepo hub repo format quant tagOverride =
    .error (shardedText repo (pathsWith ".safetensors" entries)) →
    HasGrounds (pathsWith ".safetensors" entries)

/-- When a pull picks whole files. -/
structure PartsOutdone (format : String) (quant : Option String) (entries : List HfTreeEntry) :
    Prop where
  /-- In SafeTensors, where a name has `-of-` in it there is a reason to refuse the listing. -/
  safetensors : Text.eqIgnoreAsciiCase format "safetensors" = true →
    (∃ f ∈ pathsWith ".safetensors" entries, Text.contains f "-of-" = true) →
    HasGrounds (pathsWith ".safetensors" entries)
  /-- In GGUF, unless the selection panics, every part that matches is outdone by a whole file: by one
  that matches better, or by one before it that matches as well. -/
  gguf : Text.eqIgnoreAsciiCase format "safetensors" = false →
    SelectsInBounds (pathsWith ".gguf" entries) quant →
    ∀ before f after, pathsWith ".gguf" entries = before ++ f :: after → IsPart f →
      rank (quantCriteria quant) f < (quantCriteria quant).length →
      (∃ g ∈ pathsWith ".gguf" entries, ¬ IsPart g ∧
        rank (quantCriteria quant) g < rank (quantCriteria quant) f) ∨
      ∃ g ∈ before, ¬ IsPart g ∧ rank (quantCriteria quant) g = rank (quantCriteria quant) f

/-- The outcome of a resolution, as far as these results speak of it. -/
theorem picksWhole_iff {hub : HfHub} {repo format : String} {quant tagOverride : Option String}
    {entries : List HfTreeEntry} {r : Except String String}
    (hrun : (resolveHfRepo hub repo format quant tagOverride).map (·.filename) = r) :
    PicksWhole hub repo format quant tagOverride entries ↔
      (∀ f, r = .ok f → ¬ IsPart f) ∧
        (r = .error (shardedText repo (pathsWith ".safetensors" entries)) →
          HasGrounds (pathsWith ".safetensors" entries)) := by
  subst hrun
  cases hresolve : resolveHfRepo hub repo format quant tagOverride with
  | error e =>
    constructor
    · intro h
      refine ⟨fun f hok => (by cases hok), fun herror => h.refused ?_⟩
      rw [hresolve]
      cases herror
      rfl
    · intro h
      refine ⟨fun m hok => ?_, fun herror => h.2 ?_⟩
      · rw [hresolve] at hok
        cases hok
      · rw [hresolve] at herror
        cases herror
        rfl
  | ok m =>
    constructor
    · intro h
      refine ⟨fun f hok => ?_, fun herror => (by cases herror)⟩
      cases hok
      exact h.whole m hresolve
    · intro h
      refine ⟨fun m' hok => ?_, fun herror => ?_⟩
      · rw [hresolve] at hok
        cases hok
        exact h.1 _ rfl
      · rw [hresolve] at herror
        cases herror

theorem selectionOf_whole_iff (files : List String) (quant : Option String) :
    (∀ f, selectionOf files quant = .ok f → ¬ IsPart f) ↔
      ∀ before f after, files = before ++ f :: after → IsPart f →
        rank (quantCriteria quant) f < (quantCriteria quant).length →
        (∃ g ∈ files, ¬ IsPart g ∧ rank (quantCriteria quant) g < rank (quantCriteria quant) f) ∨
          ∃ g ∈ before, ¬ IsPart g ∧ rank (quantCriteria quant) g = rank (quantCriteria quant) f := by
  rw [← pick_good_iff IsPart, selectionOf]
  refine forall_congr' fun f => ?_
  cases pick (quantCriteria quant) files with
  | some g => simp only [Except.ok.injEq, Option.some.injEq]
  | none => simp only [reduceCtorEq]

theorem picksWhole_safetensors {hub : HfHub} {repo format : String} {quant tagOverride : Option String}
    {entries : List HfTreeEntry} (htree : hub.tree repo = .ok entries)
    (hformat : Text.eqIgnoreAsciiCase format "safetensors" = true) :
    PicksWhole hub repo format quant tagOverride entries ↔
      ((∃ f ∈ pathsWith ".safetensors" entries, Text.contains f "-of-" = true) →
        HasGrounds (pathsWith ".safetensors" entries)) := by
  have hrun := resolveHfRepo_filename htree format quant tagOverride
  rw [matchedFiles, if_pos hformat] at hrun
  by_cases hrefused : IsRefused (pathsWith ".safetensors" entries)
  · rw [safetensorsFiles_refused hrefused] at hrun
    rw [picksWhole_iff hrun]
    constructor
    · intro h _
      exact h.2 rfl
    · intro h
      refine ⟨fun f hok => (by cases hok), fun _ => ?_⟩
      rcases hrefused with hof | hothers
      · exact h hof
      · exact .inr hothers
  · have hnone : ¬ ∃ f ∈ pathsWith ".safetensors" entries, Text.contains f "-of-" = true :=
      fun hof => hrefused (.inl hof)
    simp only [hnone, false_imp_iff, iff_true]
    rw [safetensorsFiles_not_refused hrefused] at hrun
    rw [picksWhole_iff hrun]
    split_ifs with hempty
    · refine ⟨fun f hok => (by cases hok), fun herror => ?_⟩
      refine absurd (Except.error.inj herror) (ne_shardedText_of_head ?_)
      exact head_append (head_append (by decide) _) _
    · refine ⟨fun f hok hpart => hnone ⟨f, ?_, hpart.contains⟩, fun herror => ?_⟩
      · exact @mem_of_selectFile (pathsWith ".safetensors" entries) _ _ _ hok
      · exact absurd herror selectFile_ne_shardedText

theorem picksWhole_gguf {hub : HfHub} {repo format : String} {quant tagOverride : Option String}
    {entries : List HfTreeEntry} (htree : hub.tree repo = .ok entries)
    (hformat : Text.eqIgnoreAsciiCase format "safetensors" = false) :
    PicksWhole hub repo format quant tagOverride entries ↔
      (SelectsInBounds (pathsWith ".gguf" entries) quant →
        ∀ f, selectionOf (pathsWith ".gguf" entries) quant = .ok f → ¬ IsPart f) := by
  have hrun := resolveHfRepo_filename htree format quant tagOverride
  have hne : format ≠ "safetensors" := by
    rintro rfl
    exact absurd hformat (by decide)
  have hgguf : ggufFiles repo entries = if pathsWith ".gguf" entries = [] then
      .error ("No .gguf files found in repository '" ++ repo ++ "'")
    else .ok (pathsWith ".gguf" entries) := rfl
  rw [matchedFiles, hformat, if_neg Bool.false_ne_true, hgguf] at hrun
  rw [picksWhole_iff hrun]
  split_ifs with hempty
  · constructor
    · intro _ _ f hok hpart
      have hmem : f ∈ pathsWith ".gguf" entries := by
        rcases selectionOf_cases (pathsWith ".gguf" entries) quant with ⟨g, hg, hg'⟩ | herror
        · rw [hg'] at hok
          cases hok
          exact hg
        · rw [herror] at hok
          cases hok
      rw [hempty] at hmem
      cases hmem
    · intro _
      refine ⟨fun f hok => (by cases hok), fun herror => ?_⟩
      refine absurd (Except.error.inj herror) (ne_shardedText_of_head ?_)
      exact head_append (head_append (by decide) _) _
  · have hbind : (Except.ok (pathsWith ".gguf" entries)).bind
        (fun files => selectFile files format quant) =
          selectFile (pathsWith ".gguf" entries) format quant := rfl
    rw [hbind]
    have hnever : selectFile (pathsWith ".gguf" entries) format quant ≠
        .error (shardedText repo (pathsWith ".safetensors" entries)) := selectFile_ne_shardedText
    simp only [hnever, false_imp_iff, and_true]
    rcases selectFile_cases quant hempty hne with ⟨hstays, hselect⟩ | ⟨hleaves, msg, -, hselect⟩
    · simp only [hselect, hstays, forall_true_left]
    · simp only [hselect, hleaves, false_imp_iff, reduceCtorEq, implies_true]

/-- What a pull resolves to is a whole file, and a listing is refused for a reason only, exactly when in
SafeTensors every `-of-` stands beside a reason and in GGUF every part is outdone by a whole file. -/
theorem picksWhole_iff_partsOutdone (hub : HfHub) (repo format : String)
    (quant tagOverride : Option String) (entries : List HfTreeEntry)
    (htree : hub.tree repo = .ok entries) :
    PicksWhole hub repo format quant tagOverride entries ↔ PartsOutdone format quant entries := by
  cases hformat : Text.eqIgnoreAsciiCase format "safetensors" with
  | true =>
    rw [picksWhole_safetensors htree hformat]
    constructor
    · intro h
      refine ⟨fun _ => h, fun hnot => ?_⟩
      rw [hformat] at hnot
      cases hnot
    · intro h
      exact h.safetensors hformat
  | false =>
    rw [picksWhole_gguf htree hformat]
    constructor
    · intro h
      refine ⟨fun hnot => ?_, fun _ hstays => (selectionOf_whole_iff _ _).1 (h hstays)⟩
      rw [hformat] at hnot
      cases hnot
    · intro h hstays
      exact (selectionOf_whole_iff _ _).2 (h.gguf hformat hstays)

/-- A hub with one listing. -/
def listingHub (paths : List String) : HfHub where
  tree _ := .ok (paths.map fun p => ⟨p, "file"⟩)

/-- The name of a part has a digit in it. -/
theorem IsPart.any_isDigit {f : String} (h : IsPart f) : f.toList.any Char.isDigit = true := by
  obtain ⟨stem, i, n, ext, hname, -, hn, -⟩ := h
  obtain ⟨c, rest, rfl⟩ := List.exists_cons_of_ne_nil hn.1
  have hc : c.isDigit = true := List.all_eq_true.1 hn.2 c (List.mem_cons_self ..)
  rw [List.any_eq_true]
  refine ⟨c, ?_, hc⟩
  rw [hname]
  simp

/-- The first part of a split GGUF model is selected, and a whole SafeTensors file is refused. -/
theorem parts_picked :
    (∃ m, resolveHfRepo (listingHub ["m-1-of-2.gguf", "m-2-of-2.gguf"]) "o/m" "gguf" none none = .ok m ∧
        IsPart m.filename) ∧
      resolveHfRepo (listingHub ["best-of-both.safetensors"]) "o/m" "safetensors" none none =
        .error (shardedText "o/m" ["best-of-both.safetensors"]) ∧
      ¬ HasGrounds ["best-of-both.safetensors"] := by
  refine ⟨⟨_, rfl, ?_⟩, rfl, ?_⟩
  · exact ⟨['m'], ['1'], ['2'], "gguf".toList, rfl, ⟨by decide, by decide⟩, ⟨by decide, by decide⟩,
      by decide, .inl rfl⟩
  · intro h
    rcases h with ⟨f, hf, hpart⟩ | ⟨f, hf, hcontains⟩ | ⟨hseveral, -⟩
    · rw [List.mem_singleton] at hf
      have hdigit := hpart.any_isDigit
      rw [hf] at hdigit
      exact absurd hdigit (by decide)
    · rw [List.mem_singleton] at hf
      rw [hf] at hcontains
      exact absurd hcontains (by decide)
    · exact absurd hseveral (by decide)

theorem picksWhole_best_of_both :
    PicksWhole (listingHub ["best-of-both.safetensors"]) "o/m" "safetensors" none none
        [⟨"best-of-both.safetensors", "file"⟩] ↔
      PartsOutdone "safetensors" none [⟨"best-of-both.safetensors", "file"⟩] :=
  picksWhole_iff_partsOutdone (listingHub ["best-of-both.safetensors"]) "o/m" "safetensors" none none
    [⟨"best-of-both.safetensors", "file"⟩] rfl

end Modeld
