import Mathlib
import Modeld.Host.Url

/-!
# The Hugging Face token

`apply_hf_auth` is to send the token of the user to Hugging Face. It looks for the name of the host
in the whole text of the URL, so another host gets the token when any part of the URL has the name,
and the host itself does not get it where the URL does not have the name in lower case.
-/

namespace Modeld

open Host

/-- What the process can read: the variables of its environment and files, by their path. -/
structure Surroundings where
  var : String → Option String
  readToString : String → Option String

/-- A token without the white space around it, unless nothing is left. -/
def trimmedToken (content : String) : Option String :=
  let trimmed := Text.trim content
  if trimmed = "" then none else some trimmed

/-- `PathBuf::join` with a relative path. -/
def joinText (base path : String) : String :=
  if base = "" ∨ Text.endsWith base "/" then base ++ path else base ++ "/" ++ path

/-- `token_from_cache`. -/
def tokenFromCache (env : Surroundings) : Option String := do
  let home ← env.var "HOME"
  let content ← env.readToString (joinText home ".cache/huggingface/token")
  trimmedToken content

/-- `resolve_hf_token`. -/
def resolveHfToken (env : Surroundings) : Option String :=
  match (env.var "HF_TOKEN").bind trimmedToken with
  | some token => some token
  | none =>
    match (env.var "HUGGING_FACE_HUB_TOKEN").bind trimmedToken with
    | some token => some token
    | none => tokenFromCache env

/-- A request, by the tokens that `bearer_auth` was called with. -/
structure RequestBuilder where
  bearerTokens : List String

/-- `RequestBuilder::bearer_auth`. -/
def RequestBuilder.bearerAuth (builder : RequestBuilder) (token : String) : RequestBuilder :=
  ⟨builder.bearerTokens ++ [token]⟩

def huggingFace : String := "huggingface.co"

/-- `apply_hf_auth`. -/
def applyHfAuth (env : Surroundings) (builder : RequestBuilder) (url : String) : RequestBuilder :=
  if Text.contains url huggingFace then
    match resolveHfToken env with
    | some token => builder.bearerAuth token
    | none => builder
  else builder

/-! ### What the token is for -/

/-- The host of Hugging Face, or one below it. -/
def IsHub (host : String) : Prop :=
  host = huggingFace ∨ Text.endsWith host ("." ++ huggingFace) = true

instance (host : String) : Decidable (IsHub host) :=
  inferInstanceAs (Decidable (host = huggingFace ∨ Text.endsWith host ("." ++ huggingFace) = true))

/-- The URL is one of Hugging Face, where `canonical` is what a client takes a written host for. -/
def TargetsHub (canonical : String → String) (url : String) : Prop :=
  ∃ u : Url, u.text = url ∧ IsHub (canonical u.host)

/-- The request gets the token if there is one and the URL is one of Hugging Face, and is left as it
is otherwise. -/
structure AuthorizesHub (canonical : String → String) (env : Surroundings) (url : String) :
    Prop where
  hub : TargetsHub canonical url → ∀ token, resolveHfToken env = some token →
    ∀ builder, applyHfAuth env builder url = builder.bearerAuth token
  other : ¬ (TargetsHub canonical url ∧ (resolveHfToken env).isSome = true) →
    ∀ builder, applyHfAuth env builder url = builder

/-- Some part of the URL has the name of the host in it. -/
def NamesHub (u : Url) : Prop := ∃ part ∈ u.parts, Text.contains part huggingFace = true

theorem targetsHub_text {canonical : String → String} {u : Url} :
    TargetsHub canonical u.text ↔ IsHub (canonical u.host) := by
  constructor
  · rintro ⟨v, htext, hhub⟩
    rwa [Url.text_injective htext] at hhub
  · intro hhub
    exact ⟨u, rfl, hhub⟩

theorem contains_huggingFace (u : Url) : Text.contains u.text huggingFace = true ↔ NamesHub u :=
  u.contains_text (by decide) (List.all_iff_forall_prop.1 rfl)

theorem bearerAuth_ne (builder : RequestBuilder) (token : String) :
    builder.bearerAuth token ≠ builder := by
  intro h
  have hlength := congrArg (fun b => b.bearerTokens.length) h
  rw [RequestBuilder.bearerAuth, List.length_append] at hlength
  exact absurd hlength (by simp)

/-- The token goes where it should exactly when there is none, or the URL has the name of the host
in it exactly when it is one of Hugging Face. -/
theorem authorizesHub_iff (canonical : String → String) (env : Surroundings) (u : Url) :
    AuthorizesHub canonical env u.text ↔
      resolveHfToken env = none ∨ (NamesHub u ↔ IsHub (canonical u.host)) := by
  cases htoken : resolveHfToken env with
  | none =>
    refine iff_of_true ⟨fun _ token hsome => ?_, fun _ builder => ?_⟩ (.inl rfl)
    · rw [htoken] at hsome
      cases hsome
    · rw [applyHfAuth, htoken]
      split <;> rfl
  | some token =>
    have hnone : ¬ some token = none := Option.some_ne_none token
    rw [or_iff_right hnone]
    by_cases hnames : NamesHub u
    · have happly : ∀ builder, applyHfAuth env builder u.text = builder.bearerAuth token := by
        intro builder
        rw [applyHfAuth, if_pos ((contains_huggingFace u).2 hnames), htoken]
      constructor
      · intro h
        refine iff_of_true hnames ?_
        by_contra hother
        have hkept := h.other (fun hhub => hother (targetsHub_text.1 hhub.1)) ⟨[]⟩
        exact bearerAuth_ne _ _ ((happly ⟨[]⟩).symm.trans hkept)
      · intro h
        refine ⟨fun _ token' htoken' builder => ?_, fun hother => ?_⟩
        · obtain rfl : token = token' := Option.some.inj (htoken.symm.trans htoken')
          exact happly builder
        · refine absurd ⟨targetsHub_text.2 (h.1 hnames), ?_⟩ hother
          rw [htoken]
          rfl
    · have happly : ∀ builder, applyHfAuth env builder u.text = builder := by
        intro builder
        rw [applyHfAuth, if_neg fun hcontains => hnames ((contains_huggingFace u).1 hcontains)]
      constructor
      · intro h
        refine iff_of_false hnames fun hhub => ?_
        have hsent := h.hub (targetsHub_text.2 hhub) token htoken ⟨[]⟩
        exact bearerAuth_ne _ _ (hsent.symm.trans (happly ⟨[]⟩))
      · intro h
        refine ⟨fun hhub => ?_, fun _ => happly⟩
        exact absurd (h.2 (targetsHub_text.1 hhub)) hnames

/-! ### Sample URLs -/

/-- A URL of another host with the name in its query. -/
def queryUrl : Url where
  scheme := "https"
  userinfo := none
  host := "evil.example"
  port := none
  path := "/"
  query := some "x=huggingface.co"
  fragment := none
  scheme_ends := by decide
  userinfo_ends := nofun
  host_ends := List.all_iff_forall_prop.1 rfl
  host_colon := by decide
  port_digits := nofun
  path_starts _ hc := by
    rw [← Option.some.inj hc]
    rfl
  path_ends := List.all_iff_forall_prop.1 rfl
  query_ends := by decide

/-- A URL of Hugging Face in upper case. -/
def shoutedUrl : Url where
  scheme := "https"
  userinfo := none
  host := "HUGGINGFACE.CO"
  port := none
  path := "/m"
  query := none
  fragment := none
  scheme_ends := by decide
  userinfo_ends := nofun
  host_ends := List.all_iff_forall_prop.1 rfl
  host_colon := by decide
  port_digits := nofun
  path_starts _ hc := by
    rw [← Option.some.inj hc]
    rfl
  path_ends := List.all_iff_forall_prop.1 rfl
  query_ends := nofun

/-- A user with a token. -/
def tokenUser : Surroundings where
  var name := if name = "HF_TOKEN" then some "hf_secret" else none
  readToString _ := none

/-- The other host gets the token, and Hugging Face does not. -/
theorem token_misdirected :
    ¬ AuthorizesHub Text.toAsciiLowercase tokenUser queryUrl.text ∧
      ¬ AuthorizesHub Text.toAsciiLowercase tokenUser shoutedUrl.text := by
  have htoken : resolveHfToken tokenUser = some "hf_secret" := by decide
  constructor
  · intro h
    have hother : ¬ TargetsHub Text.toAsciiLowercase queryUrl.text := by
      rw [targetsHub_text]
      decide
    have hkept := h.other (fun hhub => hother hhub.1) ⟨[]⟩
    rw [applyHfAuth, if_pos (by decide), htoken] at hkept
    exact bearerAuth_ne _ _ hkept
  · intro h
    have hhub : TargetsHub Text.toAsciiLowercase shoutedUrl.text := by
      rw [targetsHub_text]
      decide
    have hsent := h.hub hhub "hf_secret" htoken ⟨[]⟩
    rw [applyHfAuth, if_neg (by decide)] at hsent
    exact bearerAuth_ne _ _ hsent.symm

end Modeld
