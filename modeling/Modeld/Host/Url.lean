import Modeld.Host.Text

/-!
# URLs

A URL with an authority, by its parts. The characters that end a part do not stand in it, so the
text of a URL has one reading, and text without those characters stands in a URL only where it
stands in one of the parts.
-/

namespace Host

/-- The characters that end the authority of a URL. -/
def isAuthorityEnd (c : Char) : Bool := c = '/' || c = '\\' || c = '?' || c = '#'

/-- A URL as it is written: `scheme://userinfo@host:port/path?query#fragment`. A host with colons is
an address in brackets. -/
@[ext]
structure Url where
  scheme : String
  userinfo : Option String
  host : String
  port : Option String
  path : String
  query : Option String
  fragment : Option String
  scheme_ends : ':' ∉ scheme.toList
  userinfo_ends : ∀ s, userinfo = some s → ∀ c ∈ s.toList, isAuthorityEnd c = false
  host_ends : ∀ c ∈ host.toList, isAuthorityEnd c = false ∧ c ≠ '@'
  host_colon : ':' ∈ host.toList → host.toList.getLast? = some ']'
  port_digits : ∀ s, port = some s → ∀ c ∈ s.toList, c.isDigit = true
  path_starts : ∀ c, path.toList.head? = some c → isAuthorityEnd c = true
  path_ends : ∀ c ∈ path.toList, c ≠ '?' ∧ c ≠ '#'
  query_ends : ∀ s, query = some s → '#' ∉ s.toList

namespace Url

/-- An optional part that a character introduces. -/
def opened (c : Char) : Option String → List Char
  | none => []
  | some s => c :: s.toList

/-- An optional part that a character ends. -/
def closed (c : Char) : Option String → List Char
  | none => []
  | some s => s.toList ++ [c]

def hostPort (u : Url) : List Char := u.host.toList ++ opened ':' u.port

def authority (u : Url) : List Char := closed '@' u.userinfo ++ u.hostPort

/-- What comes after the authority. -/
def tail (u : Url) : List Char :=
  u.path.toList ++ (opened '?' u.query ++ opened '#' u.fragment)

def text (u : Url) : String :=
  String.ofList (u.scheme.toList ++ ':' :: '/' :: '/' :: (u.authority ++ u.tail))

def parts (u : Url) : List String :=
  u.scheme :: (u.userinfo.toList ++ u.host :: (u.port.toList ++ u.path ::
    (u.query.toList ++ u.fragment.toList)))

/-! ### Text in a URL -/

variable {w l r l' r' : List Char} {c : Char}

theorem infix_cons_of_not_mem (hc : c ∉ w) : w <:+: c :: r ↔ w <:+: r := by
  rw [List.infix_cons_iff, List.prefix_cons_iff]
  constructor
  · rintro ((rfl | ⟨t, rfl, -⟩) | h)
    · exact List.nil_infix
    · exact absurd (List.mem_cons_self ..) hc
    · exact h
  · exact .inr

/-- Text does not reach behind a character that it does not have. -/
theorem infix_append_of_head (hr : ∀ c, r.head? = some c → c ∉ w) :
    w <:+: l ++ r ↔ w <:+: l ∨ w <:+: r := by
  rw [List.infix_append_iff_ne_nil]
  constructor
  · rintro (h | h | ⟨w₁, w₂, -, hne, rfl, -, t, rfl⟩)
    · exact .inl h
    · exact .inr h
    · obtain ⟨c, w₂, rfl⟩ := List.exists_cons_of_ne_nil hne
      exact absurd (List.mem_append_right _ (List.mem_cons_self ..)) (hr c rfl)
  · rintro (h | h)
    · exact .inl h
    · exact .inr (.inl h)

variable {o : Option String} {a : Char}

theorem head_opened (h : (opened c o).head? = some a) : a = c := by
  cases o with
  | none => cases h
  | some s => exact (Option.some.inj h).symm

theorem head_append (h : (l ++ r).head? = some a) : l.head? = some a ∨ r.head? = some a := by
  cases l with
  | nil => exact .inr h
  | cons b l => exact .inl h

theorem infix_opened (hw : w ≠ []) (hc : c ∉ w) :
    w <:+: opened c o ↔ ∃ s ∈ o, w <:+: s.toList := by
  cases o with
  | none => simp [opened, hw]
  | some s => simp [opened, infix_cons_of_not_mem hc]

theorem infix_closed (hc : c ∉ w) :
    w <:+: closed c o ++ r ↔ (∃ s ∈ o, w <:+: s.toList) ∨ w <:+: r := by
  cases o with
  | none => simp [closed]
  | some s =>
    have hend : ∀ a, (c :: r).head? = some a → a ∉ w := fun a ha => Option.some.inj ha ▸ hc
    rw [closed, List.append_assoc, List.singleton_append, infix_append_of_head hend,
      infix_cons_of_not_mem hc]
    simp

/-- Text without the characters between the parts stands in a URL where it stands in a part. -/
theorem contains_text (u : Url) {name : String} (hne : name ≠ "")
    (hname : ∀ c ∈ name.toList, c ≠ ':' ∧ c ≠ '@' ∧ isAuthorityEnd c = false) :
    Text.contains u.text name = true ↔ ∃ part ∈ u.parts, Text.contains part name = true := by
  have hw : name.toList ≠ [] := fun hnil => hne (String.toList_eq_nil_iff.1 hnil)
  have hcolon : ':' ∉ name.toList := fun h => (hname _ h).1 rfl
  have hat : '@' ∉ name.toList := fun h => (hname _ h).2.1 rfl
  have hends : ∀ c, isAuthorityEnd c = true → c ∉ name.toList := by
    intro c hc h
    rw [(hname c h).2.2] at hc
    cases hc
  have hopened : ∀ a, a ∉ name.toList → ∀ o c, (opened a o).head? = some c → c ∉ name.toList := by
    intro a ha o c hc
    rwa [head_opened hc]
  have hfragment := hopened '#' (hends _ rfl) u.fragment
  have hquery : ∀ c, (opened '?' u.query ++ opened '#' u.fragment).head? = some c →
      c ∉ name.toList :=
    fun c hc => (head_append hc).elim (hopened '?' (hends _ rfl) u.query c) (hfragment c)
  have hpath : ∀ c, (u.path.toList ++ (opened '?' u.query ++ opened '#' u.fragment)).head? =
      some c → c ∉ name.toList :=
    fun c hc => (head_append hc).elim (fun hc => hends c (u.path_starts c hc)) (hquery c)
  have hport : ∀ c, (opened ':' u.port ++ (u.path.toList ++ (opened '?' u.query ++
      opened '#' u.fragment))).head? = some c → c ∉ name.toList :=
    fun c hc => (head_append hc).elim (hopened ':' hcolon u.port c) (hpath c)
  have hscheme : ∀ c, (':' :: '/' :: '/' :: (u.authority ++ u.tail)).head? = some c →
      c ∉ name.toList := fun c hc => Option.some.inj hc ▸ hcolon
  simp only [Text.contains, decide_eq_true_eq, text, String.toList_ofList]
  rw [infix_append_of_head hscheme, infix_cons_of_not_mem hcolon,
    infix_cons_of_not_mem (hends _ rfl), infix_cons_of_not_mem (hends _ rfl), authority, tail,
    List.append_assoc, infix_closed hat, hostPort, List.append_assoc, infix_append_of_head hport,
    infix_append_of_head hpath, infix_append_of_head hquery, infix_append_of_head hfragment,
    infix_opened hw hcolon, infix_opened hw (hends _ rfl), infix_opened hw (hends _ rfl)]
  simp only [parts, List.mem_cons, List.mem_append, Option.mem_toList, Option.mem_def,
    or_and_right, exists_or, exists_eq_left]

/-! ### One reading -/

/-- Text is split in one way where a character of a kind comes for the first time. -/
theorem append_inj_of_head {p : Char → Bool} (hl : ∀ c ∈ l, p c = false)
    (hl' : ∀ c ∈ l', p c = false) (hr : ∀ c, r.head? = some c → p c = true)
    (hr' : ∀ c, r'.head? = some c → p c = true) (h : l ++ r = l' ++ r') : l = l' ∧ r = r' := by
  induction l generalizing l' with
  | nil =>
    cases l' with
    | nil => exact ⟨rfl, h⟩
    | cons c l' =>
      have hstarts := hr c (by rw [← List.nil_append r, h]; rfl)
      rw [hl' c (List.mem_cons_self ..)] at hstarts
      cases hstarts
  | cons c l ih =>
    cases l' with
    | nil =>
      have hstarts := hr' c (by rw [← List.nil_append r', ← h]; rfl)
      rw [hl c (List.mem_cons_self ..)] at hstarts
      cases hstarts
    | cons c' l' =>
      obtain ⟨rfl, hrest⟩ := List.cons.inj h
      obtain ⟨rfl, rfl⟩ := ih (fun a ha => hl a (List.mem_cons_of_mem _ ha))
        (fun a ha => hl' a (List.mem_cons_of_mem _ ha)) hrest
      exact ⟨rfl, rfl⟩

theorem opened_injective : Function.Injective (opened c) := by
  intro o o' h
  cases o with
  | none =>
    cases o' with
    | none => rfl
    | some s => cases h
  | some s =>
    cases o' with
    | none => cases h
    | some s' => rw [String.toList_inj.1 (List.cons.inj h).2]

theorem closed_injective : Function.Injective (closed c) := by
  intro o o' h
  cases o with
  | none =>
    cases o' with
    | none => rfl
    | some s => exact absurd h.symm (List.append_ne_nil_of_right_ne_nil _ (List.cons_ne_nil _ _))
  | some s =>
    cases o' with
    | none => exact absurd h (List.append_ne_nil_of_right_ne_nil _ (List.cons_ne_nil _ _))
    | some s' => rw [String.toList_inj.1 (List.append_inj_left' h rfl)]

/-- A digit is none of the characters between parts. -/
theorem ends_of_isDigit (h : c.isDigit = true) :
    isAuthorityEnd c = false ∧ c ≠ '@' ∧ c ≠ ':' := by
  refine ⟨?_, ?_, ?_⟩
  · by_contra hc
    simp only [isAuthorityEnd, Bool.not_eq_false, Bool.or_eq_true, decide_eq_true_eq] at hc
    rcases hc with ((rfl | rfl) | rfl) | rfl <;> exact absurd h (by decide)
  · rintro rfl
    exact absurd h (by decide)
  · rintro rfl
    exact absurd h (by decide)

theorem head_reverse_closed (h : (closed c o).reverse.head? = some a) : a = c := by
  cases o with
  | none => cases h
  | some s =>
    rw [closed, List.reverse_append] at h
    exact (Option.some.inj h).symm

variable (u v : Url)

theorem hostPort_ends : ∀ c ∈ u.hostPort, isAuthorityEnd c = false ∧ c ≠ '@' := by
  intro c hc
  rcases List.mem_append.1 hc with hc | hc
  · exact u.host_ends c hc
  · cases hport : u.port with
    | none => simp [hport, opened] at hc
    | some s =>
      rw [hport] at hc
      rcases List.mem_cons.1 hc with rfl | hc
      · decide
      · obtain ⟨hend, hat, -⟩ := ends_of_isDigit (u.port_digits s hport c hc)
        exact ⟨hend, hat⟩

theorem authority_ends : ∀ c ∈ u.authority, isAuthorityEnd c = false := by
  intro c hc
  rcases List.mem_append.1 hc with hc | hc
  · cases huser : u.userinfo with
    | none => simp [huser, closed] at hc
    | some s =>
      rw [huser] at hc
      rcases List.mem_append.1 hc with hc | hc
      · exact u.userinfo_ends s huser c hc
      · rw [List.mem_singleton.1 hc]
        rfl
  · exact (u.hostPort_ends c hc).1

theorem tail_starts : ∀ c, u.tail.head? = some c → isAuthorityEnd c = true := by
  intro c hc
  rcases head_append hc with hc | hc
  · exact u.path_starts c hc
  rcases head_append hc with hc | hc
  · rw [head_opened hc]
    rfl
  · rw [head_opened hc]
    rfl

variable {u v}

/-- A host without port that ends in one has its colon in brackets. -/
theorem port_ne_none {s : String} (hu : u.port = some s) (h : u.hostPort = v.hostPort) :
    v.port ≠ none := by
  intro hv
  rw [hostPort, hostPort, hu, hv, opened, opened, List.append_nil] at h
  have hcolon : ':' ∈ v.host.toList := by
    rw [← h]
    simp
  have hlast := v.host_colon hcolon
  rw [← h, List.getLast?_append_cons] at hlast
  cases hs : s.toList with
  | nil =>
    rw [hs] at hlast
    cases hlast
  | cons c l =>
    rw [hs, List.getLast?_cons_cons] at hlast
    have hdigit := u.port_digits s hu ']' (by
      rw [hs]
      exact List.mem_of_getLast? hlast)
    exact absurd hdigit (by decide)

theorem hostPort_inj (h : u.hostPort = v.hostPort) : u.host = v.host ∧ u.port = v.port := by
  cases hu : u.port with
  | none =>
    cases hv : v.port with
    | none =>
      rw [hostPort, hostPort, hu, hv, opened, List.append_nil, List.append_nil] at h
      exact ⟨String.toList_inj.1 h, rfl⟩
    | some s => exact absurd hu (port_ne_none hv h.symm)
  | some s =>
    cases hv : v.port with
    | none => exact absurd hv (port_ne_none hu h)
    | some s' =>
      have hreverse := congrArg List.reverse h
      rw [hostPort, hostPort, hu, hv, opened, opened, List.reverse_append, List.reverse_append,
        List.reverse_cons, List.reverse_cons, List.append_assoc, List.append_assoc] at hreverse
      have hdigits : ∀ {w : Url} {s : String}, w.port = some s →
          ∀ c ∈ s.toList.reverse, decide (c = ':') = false := fun hw c hc =>
        decide_eq_false (ends_of_isDigit (Url.port_digits _ _ hw c (List.mem_reverse.1 hc))).2.2
      have hcolon : ∀ {l : List Char} (c : Char), ([':'] ++ l).head? = some c →
          decide (c = ':') = true := fun c hc => decide_eq_true (Option.some.inj hc).symm
      obtain ⟨hport, hhost⟩ := append_inj_of_head (hdigits hu) (hdigits hv) hcolon hcolon hreverse
      constructor
      · exact String.toList_inj.1 (List.reverse_injective (List.cons.inj hhost).2)
      · rw [String.toList_inj.1 (List.reverse_injective hport)]

theorem authority_inj (h : u.authority = v.authority) :
    u.userinfo = v.userinfo ∧ u.host = v.host ∧ u.port = v.port := by
  have hreverse := congrArg List.reverse h
  rw [authority, authority, List.reverse_append, List.reverse_append] at hreverse
  have hat : ∀ (w : Url), ∀ c ∈ w.hostPort.reverse, decide (c = '@') = false := fun w c hc =>
    decide_eq_false (w.hostPort_ends c (List.mem_reverse.1 hc)).2
  have hclosed : ∀ (o : Option String) (c : Char), (closed '@' o).reverse.head? = some c →
      decide (c = '@') = true := fun o c hc => decide_eq_true (head_reverse_closed hc)
  obtain ⟨hhost, huser⟩ :=
    append_inj_of_head (hat u) (hat v) (hclosed u.userinfo) (hclosed v.userinfo) hreverse
  exact ⟨closed_injective (List.reverse_injective huser),
    hostPort_inj (List.reverse_injective hhost)⟩

theorem tail_inj (h : u.tail = v.tail) :
    u.path = v.path ∧ u.query = v.query ∧ u.fragment = v.fragment := by
  have hpath : ∀ (w : Url), ∀ c ∈ w.path.toList,
      (decide (c = '?') || decide (c = '#')) = false := by
    intro w c hc
    obtain ⟨hquery, hfragment⟩ := w.path_ends c hc
    rw [decide_eq_false hquery, decide_eq_false hfragment]
    rfl
  have hrest : ∀ (w : Url) (c : Char),
      (opened '?' w.query ++ opened '#' w.fragment).head? = some c →
      (decide (c = '?') || decide (c = '#')) = true := by
    intro w c hc
    rcases head_append hc with hc | hc
    · rw [head_opened hc]
      rfl
    · rw [head_opened hc]
      rfl
  have hquery : ∀ (w : Url), ∀ c ∈ opened '?' w.query, decide (c = '#') = false := by
    intro w c hc
    cases hquery : w.query with
    | none => simp [hquery, opened] at hc
    | some s =>
      rw [hquery] at hc
      rcases List.mem_cons.1 hc with rfl | hc
      · rfl
      · apply decide_eq_false
        rintro rfl
        exact w.query_ends s hquery hc
  have hfragment : ∀ (w : Url) (c : Char), (opened '#' w.fragment).head? = some c →
      decide (c = '#') = true := fun w c hc => decide_eq_true (head_opened hc)
  obtain ⟨hpath, hrest⟩ := append_inj_of_head (hpath u) (hpath v) (hrest u) (hrest v) h
  obtain ⟨hquery, hfragment⟩ :=
    append_inj_of_head (hquery u) (hquery v) (hfragment u) (hfragment v) hrest
  exact ⟨String.toList_inj.1 hpath, opened_injective hquery, opened_injective hfragment⟩

/-- The text of a URL has one reading. -/
theorem text_injective : Function.Injective text := by
  intro u v h
  have hchars := congrArg String.toList h
  rw [text, text, String.toList_ofList, String.toList_ofList] at hchars
  have hscheme : ∀ (w : Url), ∀ c ∈ w.scheme.toList, decide (c = ':') = false := by
    intro w c hc
    apply decide_eq_false
    rintro rfl
    exact w.scheme_ends hc
  have hcolon : ∀ {l : List Char} (c : Char), (':' :: l).head? = some c →
      decide (c = ':') = true := fun c hc => decide_eq_true (Option.some.inj hc).symm
  obtain ⟨hscheme, hrest⟩ := append_inj_of_head (hscheme u) (hscheme v) hcolon hcolon hchars
  have hparts := (List.cons.inj (List.cons.inj (List.cons.inj hrest).2).2).2
  obtain ⟨hauthority, htail⟩ := append_inj_of_head u.authority_ends v.authority_ends u.tail_starts
    v.tail_starts hparts
  obtain ⟨huser, hhost, hport⟩ := authority_inj hauthority
  obtain ⟨hpath, hquery, hfragment⟩ := tail_inj htail
  exact Url.ext (String.toList_inj.1 hscheme) huser hhost hport hpath hquery hfragment

end Url

end Host
