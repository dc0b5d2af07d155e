import LolStreams.Ruby
import LolStreams.Runs

/-! Signing in through Twitch, by any number of browsers. `GET /auth` sends a browser to
Twitch, which issues a code for that authorisation; `GET /auth/callback` exchanges the code
that it is given and sets the cookie of whoever sent it. Neither handler keeps anything in
between. -/
namespace LolStreams

open Ruby

/-- The query of the URL that `GET /auth` redirects to. -/
def authorizeParams (clientId : Option String) : List (String × Option String) :=
  [("response_type", some "code"), ("client_id", clientId),
    ("redirect_uri", some "http://lolstreams.tv/auth/callback"),
    ("scope", some "user_read user_follows_edit")]

/-- An authorisation request at Twitch, from a browser that followed the redirect. -/
structure Authorisation (ι : Type) where
  browser : ι
  params : List (String × Option String)
  deriving DecidableEq, Repr

/-- A code, what it was issued for and the account that granted it. -/
structure Grant (ι α : Type) where
  code : String
  authorisation : Authorisation ι
  account : α
  deriving DecidableEq, Repr

/-- `params[:code]`, as far as it can be a code. -/
def codeParam (params : Hash) : Option String :=
  match params.lookup "code" with
  | some (.str code) => some code
  | _ => none

/-- What `GET /auth/callback` makes of the cookie of its sender. Without a token, whether
`get_token` raises or returns nothing, the browser is sent back as it came. -/
def authCallback (token cookie : Option String) : Option String :=
  match token with
  | some token => some token
  | none => cookie

/-- The cookies of the browsers, and what Twitch keeps: the authorisations that have been
started, the codes issued for them and the tokens handed out. -/
structure SignIn (ι α : Type) where
  cookie : ι → Option String
  started : List (Authorisation ι)
  grants : List (Grant ι α)
  tokens : List (String × α)

/-- The parameters of a callback are whatever its sender likes, be it what Twitch has put
into the redirect or not. -/
inductive SignInEvent (ι α : Type)
  | auth (browser : ι)
  | grant (code : String) (authorisation : Authorisation ι) (account : α)
  | callback (browser : ι) (params : Hash) (token : Option String)

namespace SignIn

variable {ι α : Type} [DecidableEq ι]

def start (cookie : ι → Option String) : SignIn ι α := ⟨cookie, [], [], []⟩

def findGrant (s : SignIn ι α) (params : Hash) : Option (Grant ι α) :=
  (codeParam params).bind fun code => s.grants.find? fun g => g.code = code

/-- Twitch issues a code once, and exchanges an issued code for a new token of the account
that granted it, or refuses. -/
def step (clientId : Option String) (s : SignIn ι α) : SignInEvent ι α → Option (SignIn ι α)
  | .auth browser =>
    some { s with started := ⟨browser, authorizeParams clientId⟩ :: s.started }
  | .grant code authorisation account =>
    if authorisation ∈ s.started ∧ ∀ g ∈ s.grants, g.code ≠ code then
      some { s with grants := ⟨code, authorisation, account⟩ :: s.grants }
    else none
  | .callback browser _ none =>
    some { s with
      cookie := Function.update s.cookie browser (authCallback none (s.cookie browser)) }
  | .callback browser params (some token) =>
    match s.findGrant params with
    | none => none
    | some g =>
      if ∀ p ∈ s.tokens, p.1 ≠ token then
        some { s with
          cookie := Function.update s.cookie browser
            (authCallback (some token) (s.cookie browser))
          tokens := (token, g.account) :: s.tokens }
      else none

/-- Codes are issued for authorisations that have been started, each for one. -/
structure Issued (s : SignIn ι α) : Prop where
  started : ∀ g ∈ s.grants, g.authorisation ∈ s.started
  once : ∀ g ∈ s.grants, ∀ h ∈ s.grants, h.code = g.code → h = g

omit [DecidableEq ι] in
theorem issued_start (cookie : ι → Option String) : Issued (start (α := α) cookie) := by
  constructor
  · intro g hg
    cases hg
  · intro g hg
    cases hg

omit [DecidableEq ι] in
theorem Issued.grant {s : SignIn ι α} (h : s.Issued) {g : Grant ι α}
    (hs : g.authorisation ∈ s.started) (hnew : ∀ h ∈ s.grants, h.code ≠ g.code) :
    Issued { s with grants := g :: s.grants } := by
  constructor
  · intro h' hm
    rcases List.mem_cons.mp hm with rfl | hm
    · exact hs
    · exact h.started h' hm
  · intro g₁ h₁ g₂ h₂ hc
    rcases List.mem_cons.mp h₁ with he₁ | hm₁
    · rcases List.mem_cons.mp h₂ with he₂ | hm₂
      · exact he₂.trans he₁.symm
      · exact absurd (hc.trans (congrArg Grant.code he₁)) (hnew g₂ hm₂)
    · rcases List.mem_cons.mp h₂ with he₂ | hm₂
      · exact absurd (hc.symm.trans (congrArg Grant.code he₂)) (hnew g₁ hm₁)
      · exact h.once g₁ hm₁ g₂ hm₂ hc

theorem issued_step {clientId : Option String} {s t : SignIn ι α} {e : SignInEvent ι α}
    (h : s.Issued) (ht : s.step clientId e = some t) : t.Issued := by
  cases e with
  | auth browser =>
    obtain rfl := Option.some.inj ht
    exact ⟨fun g hg => List.mem_cons_of_mem _ (h.started g hg), h.once⟩
  | grant code authorisation account =>
    simp only [step, Option.ite_none_right_eq_some, Option.some.injEq] at ht
    obtain ⟨⟨hs, hnew⟩, rfl⟩ := ht
    exact h.grant hs hnew
  | callback browser params token =>
    cases token with
    | none =>
      obtain rfl := Option.some.inj ht
      exact ⟨h.started, h.once⟩
    | some token =>
      cases hg : s.findGrant params with
      | none => simp [step, hg] at ht
      | some g =>
        simp only [step, hg, Option.ite_none_right_eq_some, Option.some.injEq] at ht
        obtain ⟨_, rfl⟩ := ht
        exact ⟨h.started, h.once⟩

omit [DecidableEq ι] in
theorem findGrant_spec {s : SignIn ι α} {params : Hash} {g : Grant ι α}
    (h : s.findGrant params = some g) : g ∈ s.grants ∧ codeParam params = some g.code := by
  obtain ⟨code, hcode, hfind⟩ := Option.bind_eq_some_iff.mp h
  have hg : g.code = code := by simpa using List.find?_some hfind
  exact ⟨List.mem_of_find?_eq_some hfind, hg ▸ hcode⟩

/-- The code was issued for an authorisation that this browser has started. -/
def OwnCode (s : SignIn ι α) (browser : ι) (params : Hash) : Prop :=
  ∃ g ∈ s.grants, codeParam params = some g.code ∧ g.authorisation ∈ s.started ∧
    g.authorisation.browser = browser

end SignIn

/-- Whenever the callback sets a cookie, it is a token of the account that granted the code,
and the code was issued for one authorisation, which some browser has started. A code that
was not issued leaves the cookie alone, and so does the callback of another browser. -/
theorem callback_sets_granted_token {ι α : Type} [DecidableEq ι] (clientId : Option String)
    (cookie : ι → Option String) {s t : SignIn ι α}
    (h : Runs.Reaches (SignIn.step clientId) (.start cookie) s) {browser : ι} {params : Hash}
    {token : Option String} (ht : s.step clientId (.callback browser params token) = some t) :
    (∀ value, token = some value → t.cookie browser = some value ∧
      ∃ g ∈ s.grants, codeParam params = some g.code ∧ g.authorisation ∈ s.started ∧
        (∀ g' ∈ s.grants, g'.code = g.code → g' = g) ∧ (value, g.account) ∈ t.tokens) ∧
    ((∀ g ∈ s.grants, codeParam params ≠ some g.code) → t.cookie browser = s.cookie browser) ∧
    ∀ other, other ≠ browser → t.cookie other = s.cookie other := by
  have hi : s.Issued := Runs.Reaches.invariant (SignIn.issued_start cookie)
    (fun _ _ _ hi he => SignIn.issued_step hi he) h
  cases token with
  | none =>
    obtain rfl := Option.some.inj ht
    refine ⟨?_, ?_, ?_⟩
    · intro value hv
      cases hv
    · intro _
      exact Function.update_self ..
    · intro other ho
      exact Function.update_of_ne ho ..
  | some token =>
    cases hg : s.findGrant params with
    | none => simp [SignIn.step, hg] at ht
    | some g =>
      simp only [SignIn.step, hg, Option.ite_none_right_eq_some, Option.some.injEq] at ht
      obtain ⟨_, rfl⟩ := ht
      obtain ⟨hm, hcode⟩ := SignIn.findGrant_spec hg
      refine ⟨?_, ?_, ?_⟩
      · intro value hv
        obtain rfl := Option.some.inj hv
        have hcookie : Function.update s.cookie browser (some token) browser = some token :=
          Function.update_self ..
        exact ⟨hcookie, g, hm, hcode, hi.started g hm, hi.once g hm, List.mem_cons_self⟩
      · intro hother
        exact absurd hcode (hother g hm)
      · intro other ho
        exact Function.update_of_ne ho ..

/-! ### Two browsers -/

/-- One browser has started an authorisation and keeps the code to itself. -/
def sharedCode : SignIn String String where
  cookie _ := none
  started := [⟨"imaqtpie", authorizeParams none⟩]
  grants := [⟨"code", ⟨"imaqtpie", authorizeParams none⟩, "imaqtpie"⟩]
  tokens := []

theorem reaches_sharedCode :
    Runs.Reaches (SignIn.step none) (.start fun _ => none) sharedCode := by
  have hrun : Runs.run (SignIn.step none) (.start fun _ => none)
      [.auth "imaqtpie", .grant "code" ⟨"imaqtpie", authorizeParams none⟩ "imaqtpie"] =
        some sharedCode := by
    simp [Runs.run, SignIn.step, SignIn.start, sharedCode]
  exact Runs.reaches_of_run hrun

/-- The other browser presents the code. -/
def signedInAs : SignIn String String :=
  { sharedCode with
    cookie := Function.update (fun _ => none) "dyrus" (some "token")
    tokens := [("token", "imaqtpie")] }

theorem step_sharedCode :
    sharedCode.step none (.callback "dyrus" [("code", .str "code")] (some "token")) =
      some signedInAs := by
  simp [SignIn.step, SignIn.findGrant, codeParam, sharedCode, signedInAs, authCallback]

theorem callback_sets_granted_token_dyrus :
    signedInAs.cookie "dyrus" = some "token" ∧
      ∃ g ∈ sharedCode.grants, codeParam [("code", .str "code")] = some g.code ∧
        g.authorisation ∈ sharedCode.started ∧
        (∀ g' ∈ sharedCode.grants, g'.code = g.code → g' = g) ∧
        ("token", g.account) ∈ signedInAs.tokens :=
  (callback_sets_granted_token none _ reaches_sharedCode step_sharedCode).1 "token" rfl

/-- A code that was issued for one browser signs in another one, under the account of the
first. -/
theorem callback_accepts_foreign_code :
    ¬ ∀ (clientId : Option String) (s t : SignIn String String) (browser : String)
      (params : Hash) (token : Option String),
      Runs.Reaches (SignIn.step clientId) (.start fun _ => none) s →
      s.step clientId (.callback browser params token) = some t →
      (token.isSome → s.OwnCode browser params) ∧
        (¬ s.OwnCode browser params → t.cookie browser = s.cookie browser) := by
  intro h
  obtain ⟨hown, _⟩ := h none sharedCode signedInAs "dyrus" [("code", .str "code")]
    (some "token") reaches_sharedCode step_sharedCode
  obtain ⟨g, hg, _, _, hb⟩ := hown rfl
  obtain rfl := List.mem_singleton.mp hg
  exact absurd hb (by decide)

end LolStreams
