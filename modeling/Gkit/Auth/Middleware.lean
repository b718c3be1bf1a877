import Gkit.Lib.Errors
import Gkit.Lib.Texts

/-!
# Package `auth`: who reaches a handler

The middlewares are functions on handlers.  What a handler answers with is left
open, up to the answer of `http.Error`; so a handler that is not called cannot
have any influence.  The library that checks signatures and times is a
parameter.  A header is looked up under its canonical name.
-/

namespace Gkit.Auth

open Gkit.Lib

variable {R σ : Type}

/-- The claims of a token, with the registered ones. -/
structure Claims (R : Type) where
  userID : Text
  roles : List Text
  registered : R
  deriving DecidableEq

def Claims.hasRole (c : Claims R) (role : Text) : Bool := c.roles.any fun r => r = role

def Claims.hasAnyRole (c : Claims R) (roles : List Text) : Bool := roles.any c.hasRole

/-- What the middlewares read of a request: its headers, its cookies, and the
claims in its context. -/
structure Request (R : Type) where
  header : String → List Text
  cookies : List (String × Text)
  claims : Option (Claims R)

/-- `r.Header.Get`. -/
def Request.get (r : Request R) (name : String) : Text := (r.header name).headD []

/-- `r.Cookie`. -/
def Request.cookie (r : Request R) (name : String) : Option Text :=
  (r.cookies.find? fun c => c.1 = name).map Prod.snd

def contextWithClaims (r : Request R) (c : Claims R) : Request R := { r with claims := some c }

def claimsFromContext (r : Request R) : Option (Claims R) := r.claims

def bearer : Text := ['B', 'e', 'a', 'r', 'e', 'r', ' ']

def bearerToken (r : Request R) : Except GoError Text :=
  let hdr := r.get "Authorization"
  if hdr = [] then
    match r.cookie "access_token" with
    | some value => .ok value
    | none => .error (.new "missing Authorization header")
  else if ¬ hdr.startsWith bearer then
    .error (.new "Authorization header must start with 'Bearer '")
  else
    let tok := (hdr.withoutStart bearer).trimSpace
    if tok = [] then .error (.new "empty token") else .ok tok

/-- `jwt.ErrTokenExpired`. -/
def errTokenExpired : GoError := .new "token is expired"

/-- `jwt.ParseWithClaims` with the key function and the option of `parseToken`. -/
abbrev Verifier (R σ : Type) := Text → σ → ℤ → Except GoError (Claims R)

def parseToken (verify : Verifier R σ) (raw : Text) (secret : σ) (now : ℤ) :
    Except GoError (Claims R) :=
  match verify raw secret now with
  | .error err => .error err
  | .ok c => .ok c

abbrev Handler (R ρ : Type) := Request R → ρ

section Middlewares

variable {ρ : Type} (httpError : String → ℕ → ρ) (verify : Verifier R σ)

def jwt (secret : σ) (now : ℤ) (next : Handler R ρ) : Handler R ρ := fun r =>
  match bearerToken r with
  | .error err => httpError ("unauthorized: " ++ err.error) 401
  | .ok raw =>
      match parseToken verify raw secret now with
      | .error err =>
          if err.is errTokenExpired then httpError "token expired" 403
          else httpError "unauthorized: invalid token" 401
      | .ok claims => next (contextWithClaims r claims)

def require (roles : List Text) (next : Handler R ρ) : Handler R ρ := fun r =>
  match claimsFromContext r with
  | none => httpError "forbidden: no claims" 403
  | some claims =>
      if roles.length > 0 ∧ ¬ claims.hasAnyRole roles then
        httpError "forbidden: insufficient role" 403
      else next r

/-- `Require(rs1...)(...Require(rsn...)(h))`. -/
def requireAll (rs : List (List Text)) (h : Handler R ρ) : Handler R ρ :=
  rs.foldr (require httpError) h

end Middlewares

/-! ## The policy -/

/-- The token of a request: what follows `Bearer ` in the header unless that is
blank, or the cookie where the header is empty. -/
def carried (r : Request R) : Option Text :=
  if r.get "Authorization" = [] then r.cookie "access_token"
  else if r.get "Authorization" = bearer ++ (r.get "Authorization").drop 7 then
    let tok := Text.trimSpace ((r.get "Authorization").drop 7)
    if tok = [] then none else some tok
  else none

/-- The claims allow it to pass all the lists of roles. -/
def Entitled (rs : List (List Text)) (c : Claims R) : Prop :=
  ∀ roles ∈ rs, roles = [] ∨ ∃ role ∈ roles, role ∈ c.roles

/-- The request carries a valid token with these claims, and they suffice. -/
def Admitted (verify : Verifier R σ) (secret : σ) (now : ℤ) (rs : List (List Text))
    (r : Request R) (c : Claims R) : Prop :=
  (∃ tok, carried r = some tok ∧ verify tok secret now = .ok c) ∧ Entitled rs c

theorem bearerToken_eq_ok {r : Request R} {tok : Text} :
    bearerToken r = .ok tok ↔ carried r = some tok := by
  unfold bearerToken carried
  by_cases hempty : r.get "Authorization" = []
  · simp only [hempty, if_true]
    cases r.cookie "access_token" <;> simp
  · have hstart : (r.get "Authorization").startsWith bearer = true ↔
        r.get "Authorization" = bearer ++ (r.get "Authorization").drop 7 := by
      rw [Text.startsWith, List.isPrefixOf_iff_prefix, List.prefix_iff_eq_append]
      exact eq_comm
    by_cases hbearer : (r.get "Authorization").startsWith bearer = true
    · have hdrop : (r.get "Authorization").withoutStart bearer =
          (r.get "Authorization").drop 7 := if_pos hbearer
      rw [if_neg hempty, if_neg (not_not.mpr hbearer), if_neg hempty, if_pos (hstart.mp hbearer),
        hdrop]
      dsimp only
      split_ifs <;> simp
    · rw [if_neg hempty, if_pos hbearer, if_neg hempty, if_neg fun h => hbearer (hstart.mpr h)]
      simp

theorem hasAnyRole_iff {c : Claims R} {roles : List Text} :
    c.hasAnyRole roles = true ↔ ∃ role ∈ roles, role ∈ c.roles := by
  simp [Claims.hasAnyRole, Claims.hasRole]

section Stack

variable {ρ : Type} {httpError : String → ℕ → ρ} {rs : List (List Text)} {r : Request R}
  {c : Claims R}

theorem require_pass {roles : List Text} (hc : claimsFromContext r = some c)
    (h : roles = [] ∨ ∃ role ∈ roles, role ∈ c.roles) (next : Handler R ρ) :
    require httpError roles next r = next r := by
  have hpass : ¬(roles.length > 0 ∧ ¬c.hasAnyRole roles = true) := by
    rw [hasAnyRole_iff, gt_iff_lt, List.length_pos_iff]
    rintro ⟨hne, hnone⟩
    exact h.elim hne hnone
  simp only [require, hc, if_neg hpass]

theorem require_refuse {roles : List Text} (hc : claimsFromContext r = some c)
    (h : ¬(roles = [] ∨ ∃ role ∈ roles, role ∈ c.roles)) (next : Handler R ρ) :
    require httpError roles next r = httpError "forbidden: insufficient role" 403 := by
  have hstop : roles.length > 0 ∧ ¬c.hasAnyRole roles = true := by
    rw [hasAnyRole_iff, gt_iff_lt, List.length_pos_iff]
    exact not_or.mp h
  simp only [require, hc, if_pos hstop]

/-- Where the claims are in the context the stack lets pass exactly those who are
entitled, and refuses everybody else with 403. -/
theorem requireAll_eq (hc : claimsFromContext r = some c) (h : Handler R ρ) :
    (Entitled rs c → requireAll httpError rs h r = h r) ∧
      (¬Entitled rs c →
        requireAll httpError rs h r = httpError "forbidden: insufficient role" 403) := by
  induction rs with
  | nil => exact ⟨fun _ => rfl, fun hnot => absurd (fun roles hr => nomatch hr) hnot⟩
  | cons roles rs ih =>
      have hcons : Entitled (roles :: rs) c ↔
          (roles = [] ∨ ∃ role ∈ roles, role ∈ c.roles) ∧ Entitled rs c := by
        simp [Entitled]
      change (_ → require httpError roles (requireAll httpError rs h) r = _) ∧
        (_ → require httpError roles (requireAll httpError rs h) r = _)
      rw [hcons]
      by_cases hroles : roles = [] ∨ ∃ role ∈ roles, role ∈ c.roles
      · rw [require_pass hc hroles]
        exact ⟨fun h' => ih.1 h'.2, fun h' => ih.2 fun hrest => h' ⟨hroles, hrest⟩⟩
      · rw [require_refuse hc hroles]
        exact ⟨fun h' => absurd h'.1 hroles, fun _ => rfl⟩

end Stack

/-- The handler behind `JWT` and any stack of `Require` is called exactly for
admitted requests, with the claims of the token in the context; all others get
401 or 403 from `http.Error`, whatever the handler is. -/
theorem guarded_reached_iff (verify : Verifier R σ) (secret : σ) (now : ℤ) (rs : List (List Text))
    (r : Request R) :
    (∀ c, Admitted verify secret now rs r c →
      claimsFromContext (contextWithClaims r c) = some c ∧
      ∀ (ρ : Type) (httpError : String → ℕ → ρ) (h : Handler R ρ),
        jwt httpError verify secret now (requireAll httpError rs h) r =
          h (contextWithClaims r c)) ∧
    ((∀ c, ¬Admitted verify secret now rs r c) →
      ∃ body status, (status = 401 ∨ status = 403) ∧
        ∀ (ρ : Type) (httpError : String → ℕ → ρ) (h : Handler R ρ),
          jwt httpError verify secret now (requireAll httpError rs h) r =
            httpError body status) := by
  refine ⟨fun c ⟨⟨tok, htok, hverify⟩, hent⟩ => ⟨rfl, fun ρ httpError h => ?_⟩, fun hnot => ?_⟩
  · simp only [jwt, bearerToken_eq_ok.mpr htok, parseToken, hverify]
    exact (requireAll_eq rfl h).1 hent
  · cases htok : bearerToken r with
    | error err =>
        exact ⟨"unauthorized: " ++ err.error, 401, .inl rfl, fun _ _ _ => by simp only [jwt, htok]⟩
    | ok tok =>
        cases hverify : verify tok secret now with
        | error err =>
            by_cases hexpired : err.is errTokenExpired = true
            · refine ⟨"token expired", 403, .inr rfl, fun _ _ _ => ?_⟩
              simp only [jwt, htok, parseToken, hverify, if_pos hexpired]
            · refine ⟨"unauthorized: invalid token", 401, .inl rfl, fun _ _ _ => ?_⟩
              simp only [jwt, htok, parseToken, hverify, if_neg hexpired]
        | ok c =>
            have hent : ¬Entitled rs c := fun hent =>
              hnot c ⟨⟨tok, bearerToken_eq_ok.mp htok, hverify⟩, hent⟩
            refine ⟨"forbidden: insufficient role", 403, .inr rfl, fun ρ httpError h => ?_⟩
            simp only [jwt, htok, parseToken, hverify]
            exact (requireAll_eq rfl h).2 hent

/-- A header that is there but empty does not keep the cookie from being used. -/
def blankHeader : Request Unit :=
  ⟨fun name => if name = "Authorization" then [[]] else [], [("access_token", ['t'])], none⟩

def acceptAll : Verifier Unit Unit := fun _ _ _ => .ok ⟨['u'], [], ()⟩

theorem blank_header_falls_back :
    blankHeader.header "Authorization" ≠ [] ∧
      ¬(∃ v ∈ blankHeader.header "Authorization", bearer <+: v) ∧
      jwt (fun _ _ => none) acceptAll () 0 (requireAll (fun _ _ => none) [] fun r => some r.claims)
        blankHeader = some (some ⟨['u'], [], ()⟩) := by
  decide

end Gkit.Auth
