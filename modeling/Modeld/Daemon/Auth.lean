import Modeld.Host.Delimited
import Modeld.Host.Text

/-!
# Who may ask for descriptors

The group of a name is looked up in a group file, line by line. Which group that is depends on the lines
of the name alone.
-/

namespace Modeld

open Host

/-- A line without the carriage return before its line feed. -/
def stripCarriageReturn (line : List Char) : List Char :=
  if line.getLast? = some '\r' then line.dropLast else line

/-- `str::lines`. -/
def textLines (text : String) : List (List Char) :=
  (Delimited.frames '\n' text.toList).map stripCarriageReturn ++
    if Delimited.rest '\n' text.toList = [] then [] else [Delimited.rest '\n' text.toList]

/-- The number of the group, if the line is an entry of the wanted name that has one. -/
def groupLine (wanted : String) (line : List Char) : Option Nat :=
  if line = [] ∨ line.head? = some '#' then none
  else if (line.splitOn ':').head? ≠ some wanted.toList then none
  else ((line.splitOn ':')[2]?).bind fun gid => Text.parseUnsigned 32 (String.ofList gid)

/-- `parse_group_file`, on what reading the file comes to. -/
def parseGroupFile (file : Except IoError Bytes) (wanted : String) : Option Nat :=
  match file with
  | .error _ => none
  | .ok bytes =>
    match Text.ofBytes? bytes with
    | none => none
    | some contents => (textLines contents).findSome? (groupLine wanted)

/-- Authorization policy applied to incoming connections. -/
structure TrustedGroupConfig where
  trustedGroup : String
  trustedGidOverride : Option Nat

/-! ### What the file says -/

/-- A line of the group: no comment, and its first field is the name. -/
def IsLineOf (wanted : String) (line : List Char) : Prop :=
  line.head? ≠ some '#' ∧ (line.splitOn ':').head? = some wanted.toList

instance (wanted : String) (line : List Char) : Decidable (IsLineOf wanted line) :=
  inferInstanceAs (Decidable (_ ∧ _))

/-- A line of the group whose third field is a number of 32 bits. -/
def IsEntry (wanted : String) (line : List Char) (gid : Nat) : Prop :=
  IsLineOf wanted line ∧
    ∃ field, (line.splitOn ':')[2]? = some field ∧ Text.parseUnsigned 32 (String.ofList field) = some gid

/-- The number in the first entry of the group. -/
def FirstEntry (wanted text : String) (gid : Nat) : Prop :=
  ∃ before line after, textLines text = before ++ line :: after ∧ IsEntry wanted line gid ∧
    ∀ other ∈ before, ∀ g, ¬ IsEntry wanted other g

/-- The lines of the group, in order. -/
def linesOf (wanted text : String) : List (List Char) := (textLines text).filter (IsLineOf wanted)

variable {wanted text text' : String} {line : List Char} {gid : Nat}

theorem groupLine_eq_some : groupLine wanted line = some gid ↔ IsEntry wanted line gid := by
  unfold groupLine IsEntry IsLineOf
  by_cases hempty : line = []
  · subst hempty
    simp [List.splitOn_nil]
  by_cases hcomment : line.head? = some '#'
  · simp [hcomment]
  rw [if_neg (not_or.2 ⟨hempty, hcomment⟩)]
  by_cases hname : (line.splitOn ':').head? = some wanted.toList
  · rw [if_neg (not_not.2 hname), Option.bind_eq_some_iff]
    exact ⟨fun h => ⟨⟨hcomment, hname⟩, h⟩, fun h => h.2⟩
  · rw [if_pos hname]
    simp [hname]

/-- The number that is found is that of the first entry. -/
theorem findSome?_groupLine :
    (textLines text).findSome? (groupLine wanted) = some gid ↔ FirstEntry wanted text gid := by
  rw [List.findSome?_eq_some_iff]
  unfold FirstEntry
  simp only [groupLine_eq_some]
  have hnone : ∀ other : List Char,
      groupLine wanted other = none ↔ ∀ g, ¬ IsEntry wanted other g := by
    intro other
    rw [Option.eq_none_iff_forall_ne_some]
    exact forall_congr' fun g => not_congr groupLine_eq_some
  simp only [hnone]

/-- Other lines do not matter. -/
theorem findSome?_linesOf :
    (textLines text).findSome? (groupLine wanted) = (linesOf wanted text).findSome? (groupLine wanted) := by
  rw [linesOf]
  induction textLines text with
  | nil => rfl
  | cons line lines ih =>
    by_cases hline : IsLineOf wanted line
    · rw [List.filter_cons_of_pos (by simpa using hline), List.findSome?_cons, List.findSome?_cons, ih]
    · have hnone : groupLine wanted line = none := by
        rw [Option.eq_none_iff_forall_ne_some]
        exact fun g hg => hline (groupLine_eq_some.1 hg).1
      rw [List.filter_cons_of_neg (by simpa using hline), List.findSome?_cons, hnone, ih]

/-- The first entry is the same for texts with the same lines of the group. -/
theorem firstEntry_congr (h : linesOf wanted text = linesOf wanted text') :
    FirstEntry wanted text gid ↔ FirstEntry wanted text' gid := by
  rw [← findSome?_groupLine, ← findSome?_groupLine, findSome?_linesOf, findSome?_linesOf, h]

theorem parseGroupFile_eq_some {file : Except IoError Bytes} :
    parseGroupFile file wanted = some gid ↔
      ∃ text, file = .ok (Text.toBytes text) ∧ FirstEntry wanted text gid := by
  constructor
  · intro h
    unfold parseGroupFile at h
    split at h
    · cases h
    rename_i bytes
    split at h
    · cases h
    rename_i contents hcontents
    exact ⟨contents, by rw [Text.toBytes_of_ofBytes? hcontents], findSome?_groupLine.1 h⟩
  · rintro ⟨text, rfl, h⟩
    rw [parseGroupFile, Text.ofBytes?_toBytes]
    exact findSome?_groupLine.2 h

/-- A peer that may have descriptors: root, or a member of the group by its own number. -/
def TrustedGroupConfig.Trusts (policy : TrustedGroupConfig) (file : Except IoError Bytes)
    (uid gid : Nat) : Prop :=
  uid = 0 ∨ policy.trustedGidOverride = some gid ∨ (policy.trustedGidOverride = none ∧
    ∃ text, file = .ok (Text.toBytes text) ∧ FirstEntry policy.trustedGroup text gid)

/-- Group files that are text are told apart by the lines of the group only. -/
theorem TrustedGroupConfig.trusts_congr {policy : TrustedGroupConfig} {uid : Nat}
    (h : linesOf policy.trustedGroup text = linesOf policy.trustedGroup text') :
    policy.Trusts (.ok (Text.toBytes text)) uid gid ↔ policy.Trusts (.ok (Text.toBytes text')) uid gid := by
  have hfile : ∀ t : String, (∃ u, (Except.ok (Text.toBytes t) : Except IoError Bytes) =
      .ok (Text.toBytes u) ∧ FirstEntry policy.trustedGroup u gid) ↔
        FirstEntry policy.trustedGroup t gid := by
    intro t
    constructor
    · rintro ⟨u, heq, hu⟩
      rw [Text.toBytes_injective (Except.ok.inj heq)]
      exact hu
    · exact fun ht => ⟨t, rfl, ht⟩
  rw [Trusts, Trusts, hfile, hfile, firstEntry_congr h]

end Modeld
