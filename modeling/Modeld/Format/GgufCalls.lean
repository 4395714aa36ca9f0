import Modeld.Format.GgufSoundness

/-!
# How many values the parser reads

The counts in a header are what the stream says they are, and an array in an array is a loop in a
loop. But a call of `skip_or_read_value` that succeeds has consumed a byte of the stream, and the
first one that fails is the last. So there are no more calls than bytes, whatever the counts.
-/

namespace Modeld

open Host Cursor

/-- A call of `skip_or_read_value`. -/
structure ValueCall where
  start : Cursor
  valType : Nat

/-- Where the call leaves the stream, if it succeeds. -/
def ValueCall.stop (call : ValueCall) : Option Cursor :=
  match skipOrReadValue call.start call.valType with
  | .ok (_, ⟨c', _⟩) => some c'
  | .error _ => none

mutual

/-- The calls that are made by `skipOrReadValue c valType`, this one and those for elements. -/
def valueCalls (c : Cursor) (valType : Nat) : List ValueCall :=
  ⟨c, valType⟩ ::
    if valType = 9 then
      match c.readLe 3 with
      | .error _ => []
      | .ok (itemType, ⟨c₁, _⟩) =>
        match c₁.readLe 7 with
        | .error _ => []
        | .ok (count, ⟨c₂, _⟩) =>
          match itemByteSize itemType with
          | some _ => []
          | none => itemCalls c₂ itemType (min count maxSkippedItems)
    else []
termination_by (c.left, 0)

/-- Those made for the elements of an array, up to the one that cannot be read. -/
def itemCalls (c : Cursor) (itemType : Nat) : Nat → List ValueCall
  | 0 => []
  | n + 1 =>
    valueCalls c itemType ++
      match skipOrReadValue c itemType with
      | .error _ => []
      | .ok (_, ⟨c', _⟩) => itemCalls c' itemType n
termination_by n => (c.left, n + 1)

end

/-- Those made for the key-value pairs. -/
def pairCalls (c : Cursor) : Nat → List ValueCall
  | 0 => []
  | n + 1 =>
    match readString c with
    | .error _ => []
    | .ok (_, ⟨c₁, _⟩) =>
      match c₁.readLe 3 with
      | .error _ => []
      | .ok (valType, ⟨c₂, _⟩) =>
        valueCalls c₂ valType ++
          match skipOrReadValue c₂ valType with
          | .error _ => []
          | .ok (_, ⟨c₃, _⟩) => pairCalls c₃ n

/-- All those made by `parseGgufHeader`. -/
def parseCalls (stream : Bytes) : List ValueCall :=
  match Cursor.readExact ⟨stream, 0⟩ 4 with
  | .error _ => []
  | .ok (magic, ⟨c₀, _⟩) =>
    if magic ≠ [0x47, 0x47, 0x55, 0x46] then []
    else
      match c₀.readLe 3 with
      | .error _ => []
      | .ok (version, ⟨c₁, _⟩) =>
        if version < 2 ∨ 3 < version then []
        else
          match c₁.readLe 7 with
          | .error _ => []
          | .ok (_, ⟨c₂, _⟩) =>
            match c₂.readLe 7 with
            | .error _ => []
            | .ok (kvCount, ⟨c₃, _⟩) => if 4096 < kvCount then [] else pairCalls c₃ kvCount

/-! ### Calls and bytes -/

/-- Calls from one position on, and where they leave the stream if all of them succeed: each of them
has a byte of its own, but for the last when it fails. -/
structure Paid (c : Cursor) (calls : List ValueCall) (stop : Option Cursor) : Prop where
  bytes : ∀ call ∈ calls, call.start.bytes = c.bytes
  length : calls.length ≤ c.left + 1
  stopped : ∀ c', stop = some c' → c'.bytes = c.bytes ∧ calls.length + c'.left ≤ c.left
  success : stop.isSome = true → ∀ call ∈ calls, call.stop.isSome = true

variable {c c' : Cursor} {calls calls' : List ValueCall} {stop : Option Cursor} {valType n : Nat}

theorem Paid.nil (hstop : ∀ c', stop = some c' → c'.bytes = c.bytes ∧ c'.left ≤ c.left) :
    Paid c [] stop := by
  refine ⟨by simp, Nat.zero_le _, ?_, by simp⟩
  intro c' hc'
  rw [List.length_nil, Nat.zero_add]
  exact hstop c' hc'

/-- What follows goes on where the calls before have stopped. -/
theorem Paid.append (h : Paid c calls (some c')) (h' : Paid c' calls' stop) :
    Paid c (calls ++ calls') stop := by
  obtain ⟨hbytes, hpaid⟩ := h.stopped c' rfl
  have hlength := h'.length
  constructor
  · intro call hcall
    rcases List.mem_append.1 hcall with hmem | hmem
    · exact h.bytes call hmem
    · exact (h'.bytes call hmem).trans hbytes
  · rw [List.length_append]
    omega
  · intro c'' hc''
    obtain ⟨hbytes', hpaid'⟩ := h'.stopped c'' hc''
    refine ⟨hbytes'.trans hbytes, ?_⟩
    rw [List.length_append]
    omega
  · intro hstop call hcall
    rcases List.mem_append.1 hcall with hmem | hmem
    · exact h.success rfl call hmem
    · exact h'.success hstop call hmem

/-- A call that makes others has read something before. -/
theorem Paid.cons {call : ValueCall} (hcall : call.start = c) (hbytes : c'.bytes = c.bytes)
    (hleft : c'.left < c.left) (h : Paid c' calls call.stop) :
    Paid c (call :: calls) call.stop := by
  have hlength := h.length
  constructor
  · intro call' hmem
    rcases List.mem_cons.1 hmem with rfl | hmem
    · rw [hcall]
    · exact (h.bytes call' hmem).trans hbytes
  · rw [List.length_cons]
    omega
  · intro c'' hc''
    obtain ⟨hbytes', hpaid⟩ := h.stopped c'' hc''
    refine ⟨hbytes'.trans hbytes, ?_⟩
    rw [List.length_cons]
    omega
  · intro hstop call' hmem
    rcases List.mem_cons.1 hmem with rfl | hmem
    · exact hstop
    · exact h.success hstop call' hmem

theorem Paid.of_imp {stop' : Option Cursor} (h : Paid c calls stop)
    (himp : ∀ c', stop' = some c' → stop = some c') : Paid c calls stop' := by
  refine ⟨h.bytes, h.length, fun c' hc' => h.stopped c' (himp c' hc'), fun hstop => ?_⟩
  obtain ⟨c', hc'⟩ := Option.isSome_iff_exists.1 hstop
  apply h.success
  rw [himp c' hc']
  rfl

/-- Where a value ends. -/
theorem ValueCall.stop_spec {call : ValueCall} (h : call.stop = some c') :
    c'.bytes = call.start.bytes ∧ c'.left < call.start.left := by
  unfold ValueCall.stop at h
  split at h
  · rename_i val c'' hlt hread
    obtain rfl : c'' = c' := Option.some.inj h
    obtain ⟨v, -, -, -, -, hspan⟩ := skipOrReadValue_sound _ _ _ _ hread
    exact ⟨hspan.bytes, hlt⟩
  · cases h

theorem paid_singleton (call : ValueCall) : Paid call.start [call] call.stop := by
  constructor
  · intro call' hmem
    rw [List.mem_singleton.1 hmem]
  · rw [List.length_singleton]
    omega
  · intro c' hstop
    obtain ⟨hbytes, hlt⟩ := call.stop_spec hstop
    refine ⟨hbytes, ?_⟩
    rw [List.length_singleton]
    omega
  · intro hstop call' hmem
    rwa [List.mem_singleton.1 hmem]

/-- Where the elements of an array end. -/
def itemsStop (c : Cursor) (itemType n : Nat) : Option Cursor :=
  match skipItems c itemType n with
  | .ok ⟨c', _⟩ => some c'
  | .error _ => none

/-- An array ends where its elements end, if it is not too long. -/
theorem stop_array {itemType count : Nat} {c₁ c₂ : Cursor} {h₁ : c₁.left < c.left}
    {h₂ : c₂.left < c₁.left} (htype : c.readLe 3 = .ok (itemType, ⟨c₁, h₁⟩))
    (hcount : c₁.readLe 7 = .ok (count, ⟨c₂, h₂⟩)) (hwidth : itemByteSize itemType = none)
    (hstop : ValueCall.stop ⟨c, 9⟩ = some c') :
    itemsStop c₂ itemType (min count maxSkippedItems) = some c' := by
  unfold ValueCall.stop at hstop
  rw [skipOrReadValue] at hstop
  simp only [htype, hcount, hwidth] at hstop
  unfold itemsStop
  cases hskip : skipItems c₂ itemType (min count maxSkippedItems) with
  | error e =>
    rw [hskip] at hstop
    cases hstop
  | ok p =>
    obtain ⟨c₃, h₃⟩ := p
    rw [hskip] at hstop
    dsimp only at hstop
    by_cases hlong : maxSkippedItems < count
    · rw [if_pos hlong] at hstop
      cases hstop
    · rw [if_neg hlong] at hstop
      exact hstop

theorem itemsStop_succ {itemType : Nat} {val : String} {hlt : c'.left < c.left}
    (hread : skipOrReadValue c itemType = .ok (val, ⟨c', hlt⟩)) (n : Nat) :
    itemsStop c itemType (n + 1) = itemsStop c' itemType n := by
  rw [itemsStop, itemsStop, skipItems, hread]
  dsimp only
  cases skipItems c' itemType n <;> rfl

mutual

theorem paid_valueCalls (c : Cursor) (valType : Nat) :
    Paid c (valueCalls c valType) (ValueCall.stop ⟨c, valType⟩) := by
  have hone := paid_singleton ⟨c, valType⟩
  rw [valueCalls]
  by_cases harray : valType = 9
  · subst harray
    rw [if_pos rfl]
    split
    · exact hone
    rename_i itemType c₁ h₁ htype
    split
    · exact hone
    rename_i count c₂ h₂ hcount
    split
    · exact hone
    rename_i hwidth
    obtain ⟨-, hspan₁⟩ := readLe_sound htype
    obtain ⟨-, hspan₂⟩ := readLe_sound hcount
    have hitems := paid_itemCalls c₂ itemType (min count maxSkippedItems)
    have hinner : Paid c₂ (itemCalls c₂ itemType (min count maxSkippedItems))
        (ValueCall.stop ⟨c, 9⟩) := by
      refine hitems.of_imp fun c' hstop => ?_
      exact stop_array htype hcount hwidth hstop
    exact hinner.cons rfl (hspan₂.bytes.trans hspan₁.bytes) (h₂.trans h₁)
  · rw [if_neg harray]
    exact hone
termination_by (c.left, 0)

theorem paid_itemCalls (c : Cursor) (itemType n : Nat) :
    Paid c (itemCalls c itemType n) (itemsStop c itemType n) := by
  match n with
  | 0 =>
    rw [itemCalls, itemsStop, skipItems]
    exact .nil fun c' hc' => by
      obtain rfl : c = c' := Option.some.inj hc'
      exact ⟨rfl, le_rfl⟩
  | n + 1 =>
    have hfirst := paid_valueCalls c itemType
    rw [itemCalls]
    cases hread : skipOrReadValue c itemType with
    | error e =>
      rw [List.append_nil]
      have hnone : itemsStop c itemType (n + 1) = none := by
        rw [itemsStop, skipItems, hread]
      rw [hnone]
      exact hfirst.of_imp nofun
    | ok p =>
      obtain ⟨val, c', hlt⟩ := p
      have hstop : ValueCall.stop ⟨c, itemType⟩ = some c' := by
        rw [ValueCall.stop, hread]
      have hrest := paid_itemCalls c' itemType n
      rw [hstop] at hfirst
      rw [itemsStop_succ hread]
      exact hfirst.append hrest
termination_by (c.left, n + 1)

end

/-- The keys pay for a last value that cannot be read. -/
theorem pairCalls_le (n : Nat) (c : Cursor) :
    (∀ call ∈ pairCalls c n, call.start.bytes = c.bytes) ∧ (pairCalls c n).length ≤ c.left := by
  induction n generalizing c with
  | zero => exact ⟨by simp [pairCalls], Nat.zero_le _⟩
  | succ n ih =>
    rw [pairCalls]
    split
    · exact ⟨by simp, Nat.zero_le _⟩
    rename_i key c₁ h₁ hkey
    split
    · exact ⟨by simp, Nat.zero_le _⟩
    rename_i valType c₂ h₂ htype
    obtain ⟨-, hspan₁⟩ := readString_sound hkey
    obtain ⟨-, hspan₂⟩ := readLe_sound htype
    have hbytes : c₂.bytes = c.bytes := hspan₂.bytes.trans hspan₁.bytes
    have hvalue := paid_valueCalls c₂ valType
    cases hread : skipOrReadValue c₂ valType with
    | error e =>
      have hlength := hvalue.length
      rw [List.append_nil]
      exact ⟨fun call hcall => (hvalue.bytes call hcall).trans hbytes, by omega⟩
    | ok p =>
      obtain ⟨val, c₃, h₃⟩ := p
      have hstop : ValueCall.stop ⟨c₂, valType⟩ = some c₃ := by
        rw [ValueCall.stop, hread]
      obtain ⟨hbytes₃, hpaid⟩ := hvalue.stopped c₃ hstop
      obtain ⟨hrest, hlength⟩ := ih c₃
      constructor
      · intro call hcall
        rcases List.mem_append.1 hcall with hmem | hmem
        · exact (hvalue.bytes call hmem).trans hbytes
        · exact ((hrest call hmem).trans hbytes₃).trans hbytes
      · rw [List.length_append]
        dsimp only
        omega

/-- In a header that is accepted every value could be read. -/
theorem pairCalls_success {found result : GgufMetadata} (n : Nat) (c : Cursor)
    (h : readPairs c found n = .ok result) : ∀ call ∈ pairCalls c n, call.stop.isSome = true := by
  induction n generalizing c found with
  | zero => simp [pairCalls]
  | succ n ih =>
    rw [readPairs] at h
    rw [pairCalls]
    split
    · simp
    rename_i key c₁ h₁ hkey
    split
    · simp
    rename_i valType c₂ h₂ htype
    simp only [hkey, htype] at h
    cases hread : skipOrReadValue c₂ valType with
    | error e =>
      rw [hread] at h
      cases h
    | ok p =>
      obtain ⟨val, c₃, h₃⟩ := p
      rw [hread] at h
      have hstop : ValueCall.stop ⟨c₂, valType⟩ = some c₃ := by
        rw [ValueCall.stop, hread]
      intro call hcall
      rcases List.mem_append.1 hcall with hmem | hmem
      · exact (paid_valueCalls c₂ valType).success (by rw [hstop]; rfl) call hmem
      · exact ih c₃ h call hmem

/-! ### The calls of a parse -/

/-- The calls are those for the pairs behind the head, if there are any. -/
theorem parseCalls_cases (stream : Bytes) : parseCalls stream = [] ∨
    ∃ c n, c.bytes = stream ∧ parseCalls stream = pairCalls c n ∧
      ∀ result, parseGgufHeader stream = .ok result → ∃ found, readPairs c found n = .ok result := by
  unfold parseCalls
  split
  · exact .inl rfl
  rename_i magic c₀ h₀ hmagic
  split
  · exact .inl rfl
  rename_i hmagiceq
  split
  · exact .inl rfl
  rename_i version c₁ h₁ hversion
  split
  · exact .inl rfl
  rename_i hrange
  split
  · exact .inl rfl
  rename_i tensorCount c₂ h₂ htensors
  split
  · exact .inl rfl
  rename_i kvCount c₃ h₃ hcount
  split
  · exact .inl rfl
  rename_i hmax
  obtain rfl := Decidable.not_not.1 hmagiceq
  obtain ⟨-, hspan⟩ := readHead_sound hmagic hversion htensors hcount
  refine .inr ⟨c₃, kvCount, hspan.bytes, rfl, fun result h => ?_⟩
  refine ⟨⟨version, tensorCount, none, none, none, ∅⟩, ?_⟩
  unfold parseGgufHeader at h
  simp only [hmagic, hversion, htensors, hcount, ne_eq, not_true_eq_false, if_false, if_neg hrange,
    if_neg hmax] at h
  cases hpairs : readPairs c₃ ⟨version, tensorCount, none, none, none, ∅⟩ kvCount with
  | error e =>
    rw [hpairs] at h
    cases h
  | ok found =>
    rw [hpairs] at h
    obtain rfl : found = result := Except.ok.inj h
    rfl

theorem parseCalls_success {stream : Bytes} {result : GgufMetadata}
    (h : parseGgufHeader stream = .ok result) :
    ∀ call ∈ parseCalls stream, call.stop.isSome = true := by
  rcases parseCalls_cases stream with hnil | ⟨c, n, -, hcalls, hresult⟩
  · simp [hnil]
  · obtain ⟨found, hpairs⟩ := hresult result h
    rw [hcalls]
    exact pairCalls_success n c hpairs

/-- Each call that succeeds consumes a byte that is there, and there are no more calls than bytes,
whether they succeed or not. -/
theorem parseCalls_le (stream : Bytes) :
    (∀ call ∈ parseCalls stream, call.start.bytes = stream ∧ ∀ c', call.stop = some c' →
        call.start.pos < stream.length ∧ call.start.pos < c'.pos) ∧
      (parseCalls stream).countP (·.stop.isSome) ≤ stream.length ∧
      (parseCalls stream).length ≤ stream.length := by
  have hcalls : (∀ call ∈ parseCalls stream, call.start.bytes = stream) ∧
      (parseCalls stream).length ≤ stream.length := by
    rcases parseCalls_cases stream with hnil | ⟨c, n, hbytes, hcalls, -⟩
    · simp [hnil]
    · obtain ⟨hstarts, hlength⟩ := pairCalls_le n c
      rw [left, hbytes] at hlength
      rw [hcalls]
      exact ⟨fun call hcall => (hstarts call hcall).trans hbytes, by omega⟩
  refine ⟨fun call hcall => ⟨hcalls.1 call hcall, fun c' hstop => ?_⟩, ?_, hcalls.2⟩
  · obtain ⟨hbytes, hlt⟩ := call.stop_spec hstop
    rw [left, left, hbytes, hcalls.1 call hcall] at hlt
    omega
  · exact List.countP_le_length.trans hcalls.2

end Modeld
