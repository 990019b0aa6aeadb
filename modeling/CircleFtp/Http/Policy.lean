import CircleFtp.Http.App

/-! Who may do what: the policy of the application call by call, told from what the request has done
before, and the guards that the stack puts before each handler. -/
namespace CircleFtp.Http
open Concurrent Routing Strings
open Auth (Runtime Store Err Role User Session PasswordReset UpdateUserOptions RedeemInput)

section
variable {site : Site} (req : HttpRequest site) (t : Nat) (trace : List (HttpEvent site))

/-- The request has found the session that its cookie names, with its account. -/
def Found (i : Nat) (x : Session) (u : User) : Prop :=
  ∃ token s s', req.cookie = some token ∧ x.tokenHash = site.rt.sha256 token ∧
    s.store.sessions.rows i = some x ∧ s.store.users.rows x.userId = some u ∧
    .did t (.request req) (.auth (.findSession x.tokenHash)) (.ok (some (i, x, u))) s s' ∈ trace

/-- The request has found the session that its cookie names, with its account, which is not disabled,
and after that the session had not expired. -/
def Presents (id : Nat) (u : User) : Prop :=
  ∃ token i x now s s' v v', req.cookie = some token ∧ x.tokenHash = site.rt.sha256 token ∧
    s.store.sessions.rows i = some x ∧ x.userId = id ∧ s.store.users.rows id = some u ∧
    u.disabled = false ∧ now < x.expiresAt ∧
    [.did t (.request req) (.auth .now) (.ok now) v v',
      .did t (.request req) (.auth (.findSession x.tokenHash)) (.ok (some (i, x, u))) s s'].Sublist trace

def ByUser (id : Nat) : Prop := ∃ u, Presents req t trace id u

def ByAdmin : Prop := ∃ id u, Presents req t trace id u ∧ u.role = .ADMIN

/-- The request has read the account. -/
def Reads (id : Nat) (u : User) : Prop :=
  ∃ s s', .did t (.request req) (.auth (.findUser id)) (.ok (some u)) s s' ∈ trace

/-- The request has sent the email and the password of an account that is not disabled. -/
def ByPassword (id : Nat) : Prop :=
  ∃ body email password u s s', req.body = some body ∧ site.schemas.login body = .ok (email, password) ∧
    s.store.users.rows id = some u ∧ u.email = email ∧ u.disabled = false ∧
    site.rt.bcryptCompare password u.passwordHash = true ∧
    .did t (.request req) (.auth (.findUserByEmail email)) (.ok (some (id, u))) s s' ∈ trace

/-- The request has opened the account with an invite. -/
def ByInvite (id : Nat) : Prop :=
  ∃ i input s s', .did t (.request req) (.auth (.redeemInvite input)) (.ok (i, id)) s s' ∈ trace

/-- The request has redeemed a reset link of the account. -/
def ByReset (id : Nat) : Prop :=
  ∃ body token new hash s s', req.body = some body ∧
    site.schemas.redeemPasswordReset body = .ok (token, new) ∧
    .did t (.request req) (.auth (.redeemPasswordReset (site.rt.sha256 token) hash)) (.ok id) s s' ∈ trace

/-- The grounds on which a session is opened. -/
def Earned (id : Nat) : Prop :=
  ByUser req t trace id ∨ ByPassword req t trace id ∨ ByInvite req t trace id ∨ ByReset req t trace id

/-- The request has been let through by the limiter. -/
def Admitted (limiter : Limiter) : Prop :=
  ∃ n ≤ limiter.limit, ∃ s s',
    .did t (.request req) (.increment limiter req.ip) (.ok n) s s' ∈ trace

/-- The request has opened a session. -/
def SignsIn : Prop :=
  ∃ x i s s', .did t (.request req) (.auth (.createSession x)) (.ok i) s s' ∈ trace

/-- What a request must have shown for a call. -/
def Permitted : Op → Prop
  | .auth .now | .auth .randomBytes | .auth (.hashPassword _) => True
  | .auth (.findSession tokenHash) | .deleteSessionsByToken tokenHash =>
    ∃ token, req.cookie = some token ∧ tokenHash = site.rt.sha256 token
  | .auth (.deleteSession i) => ∃ x u, Found req t trace i x u
  | .auth (.createUser _) | .auth (.deleteUser _) | .auth (.createInvite _) | .auth (.deleteInvite _)
  | .auth (.createPasswordReset _) | .auth (.activeAdminCount _) | .auth (.findInvite _)
  | .listUsers | .listInvites => ByAdmin req t trace
  | .auth (.findUser id) => ByAdmin req t trace ∨ ByUser req t trace id ∨ ByReset req t trace id
  | .auth (.findUserByEmail _) => ByAdmin req t trace ∨ Admitted req t trace .login
  | .auth (.updateUser id changes) => ByAdmin req t trace ∨
      ByUser req t trace id ∧ changes.role = none ∧ changes.disabled = none
  | .auth (.deleteSessions id) => ByAdmin req t trace ∨ ByUser req t trace id
  | .auth (.setPasswordHash id _) | .auth (.countSessions id) | .listSessions id => ByUser req t trace id
  | .auth (.createSession x) => Earned req t trace x.userId
  | .auth .fakeVerify | .auth (.redeemInvite _) | .auth (.redeemPasswordReset _ _) =>
    Admitted req t trace .login
  | .auth (.verifyPassword _ hash) => Admitted req t trace .login ∨
      .endpoint .password ∈ req.chain ∧
        ∃ id u, ByUser req t trace id ∧ Reads req t trace id u ∧ hash = u.passwordHash
  | .findReset tokenHash => .endpoint .resetCheck ∈ req.chain ∧
      tokenHash = site.rt.sha256 req.queryToken ∧ Admitted req t trace .api
  | .elsewhere _ => ∃ id, ByUser req t trace id
  | .increment _ ip => ip = req.ip
  | .decrement limiter ip => limiter = .login ∧ ip = req.ip ∧ SignsIn req t trace
  | .pruneExpiredSessions | .auth .pruneExpiredResets => False

end

def Elsewhere.changes : Elsewhere → Bool
  | .createDownload | .cancel _ | .retry _ | .deleteDownload _ => true
  | _ => false

/-- The calls that change something at the request of the user. -/
def Op.changes : Op → Bool
  | .auth (.createUser _) | .auth (.updateUser _ _) | .auth (.deleteUser _) | .auth (.setPasswordHash _ _)
  | .auth (.createSession _) | .auth (.deleteSessions _) | .auth (.createInvite _)
  | .auth (.deleteInvite _) | .auth (.redeemInvite _) | .auth (.createPasswordReset _)
  | .auth (.redeemPasswordReset _ _) | .deleteSessionsByToken _ => true
  | .elsewhere e => e.changes
  | _ => false

/-- A call of a task keeps to the policy; one that changes something comes from the application's own
pages. -/
def Obeys {site : Site} (t : Nat) (trace : List (HttpEvent site)) (o : Op) : Task site → Prop
  | .request req => Permitted req t trace o ∧
      (o.changes = true → req.requestedWith = some "circleftp-jellyfin")
  | .prune => o = .pruneExpiredSessions ∨ o = .auth .pruneExpiredResets

namespace Endpoint

/-- Handlers of the administration. -/
def admin : Endpoint → Bool
  | .listUsers | .createUser | .updateUser _ | .deleteUser _ | .revokeSessions _ | .resetLink _
  | .listInvites | .createInvite | .revokeInvite _ => true
  | _ => false

/-- Handlers for any user that is signed in. -/
def personal : Endpoint → Bool
  | .profile | .password | .sessions | .revokeOthers | .elsewhere _ => true
  | _ => false

/-- Handlers that take a secret and sign in. -/
def signsIn : Endpoint → Bool
  | .login | .redeem | .reset => true
  | _ => false

/-- Handlers that every request for is counted. -/
def counted : Endpoint → Bool
  | .health => false
  | _ => true

/-- Handlers that only `GET` and `HEAD` come to. -/
def reads : Endpoint → Bool
  | .health | .me | .sessions | .resetCheck | .listUsers | .listInvites => true
  | .elsewhere e => !e.changes
  | _ => false

end Endpoint

/-- What a handler may need to come after. -/
inductive Guard where
  | admin | user | limit (limiter : Limiter) | origin
deriving DecidableEq

def Guard.middleware : Guard → Handler
  | .admin => .requireAdmin
  | .user => .requireAuth
  | .limit limiter => .rateLimit limiter
  | .origin => .requireSameOrigin

def Guard.is : Guard → Handler → Bool
  | .admin, .requireAdmin | .user, .requireAuth | .limit .login, .rateLimit .login
  | .limit .api, .rateLimit .api | .origin, .requireSameOrigin => true
  | _, _ => false

theorem Guard.is_eq {g : Guard} {h : Handler} (hg : g.is h = true) : h = g.middleware := by
  rcases g with _ | _ | (_ | _) | _ <;> rcases h with _ | (_ | _) | _ <;> first | rfl | cases hg

/-- The handlers before which the guard belongs. -/
def Guard.covers (e : Endpoint) : Guard → Bool
  | .admin => e.admin
  | .user => e.personal
  | .limit .login => e.signsIn
  | .limit .api => e.counted
  | .origin => !e.reads

def Guard.needs (g : Guard) : Handler → Bool
  | .endpoint e => g.covers e
  | _ => false

/-- What holds of the handlers of a route, for `OPTIONS` and for none holds of what it does. -/
theorem Method.answers_cases {φ : List Handler → Prop} {method asked : Method} {hs : List Handler}
    (options : φ [.options]) (mine : asked = method ∨ method = .GET ∧ asked = .HEAD → φ hs) (none : φ []) :
    φ (method.answers hs asked) := by
  rw [Method.answers.eq_def]
  split
  · exact options
  · split
    · exact mine ‹_›
    · exact none

section
variable (site : Site)

/-- Every guard stands where it belongs. -/
theorem createApp_guarded (g : Guard) :
    (createApp site).Guarded g.is g.needs false [] := by
  have plain {sure : Bool} {method : Method} {hs : List Handler} (h : ledBy g.is g.needs sure hs = true)
      (asked : Method) : ledBy g.is g.needs sure (method.answers hs asked) = true :=
    Method.answers_cases (φ := fun l => ledBy g.is g.needs sure l = true) rfl (fun _ => h) rfl
  have param {sure : Bool} {method : Method} {hs : Str → List Handler}
      (h : ∀ arg, ledBy g.is g.needs sure (hs arg) = true) (asked : Method) (args : List Str) :
      ledBy g.is g.needs sure (decoded site method hs asked args) = true := by
    rw [decoded]
    split
    · rfl
    · exact plain (h _) asked
  have none (h : Handler) (sure : Prop) (hn : g.needs h = false) : g.needs h = true → sure := by
    intro hy
    rw [hn] at hy
    cases hy
  rcases g with _ | _ | (_ | _) | _
  all_goals
    simp only [createApp, limited, healthRouter, authRouter, accountRouter, adminRouter, libraryRouter,
      downloadsRouter, eventsRouter, route, routeWith, Stack.Guarded]
    repeat' apply And.intro
    all_goals first
      | exact trivial
      | exact fun _ => rfl
      | exact none _ _ rfl
      | exact fun asked _ => plain rfl asked
      | exact param fun _ => rfl

/-- A handler that changes something is not for `GET`, and a limit on sign-ins comes right before the
handler that signs in. -/
structure Placed (method : Method) (l : List Handler) : Prop where
  reads : ∀ e, .endpoint e ∈ l → e.reads = false → method.safe = false
  limit : ∀ pre post, l = pre ++ .rateLimit .login :: post →
    ∃ e rest, post = .endpoint e :: rest ∧ e.signsIn = true

theorem Placed.append {method : Method} (l l' : List Handler) (h : Placed method l) (h' : Placed method l') :
    Placed method (l ++ l') where
  reads e he hr := (List.mem_append.mp he).elim (h.reads e · hr) (h'.reads e · hr)
  limit pre post e := by
    rcases List.append_eq_append_iff.mp e with ⟨mid, rfl, rfl⟩ | ⟨mid, rfl, hmid⟩
    · exact h'.limit mid post rfl
    · rcases List.cons_eq_append_iff.mp hmid with ⟨rfl, rfl⟩ | ⟨mid', rfl, rfl⟩
      · exact h'.limit [] post rfl
      · obtain ⟨x, rest, rfl, hs⟩ := h.limit pre mid' rfl
        exact ⟨x, rest ++ l', rfl, hs⟩

/-- A handler goes well with those after it. -/
def Handler.fits (method : Method) : Handler → List Handler → Bool
  | .endpoint e, _ => e.reads || !method.safe
  | .rateLimit .login, .endpoint e :: _ => e.signsIn
  | .rateLimit .login, _ => false
  | _, _ => true

def placed (method : Method) : List Handler → Bool
  | [] => true
  | h :: l => h.fits method l && placed method l

theorem Placed.of_placed {method : Method} {l : List Handler} (h : placed method l = true) :
    Placed method l := by
  induction l with
  | nil => exact ⟨fun e he => absurd he List.not_mem_nil, fun pre post he => by simp at he⟩
  | cons x l ih =>
    obtain ⟨hx, hl⟩ := Bool.and_eq_true_iff.mp h
    refine ⟨fun e he hr => ?_, fun pre post hp => ?_⟩
    · rcases List.mem_cons.mp he with rfl | he
      · simpa [Handler.fits, hr] using hx
      · exact (ih hl).reads e he hr
    · rcases List.cons_eq_append_iff.mp hp with ⟨rfl, hp⟩ | ⟨pre', rfl, rfl⟩
      · cases hp
        cases l with
        | nil => cases hx
        | cons y rest =>
          cases y with
          | endpoint e => exact ⟨e, rest, rfl, hx⟩
          | _ => cases hx
      · exact (ih hl).limit pre' post rfl

theorem createApp_placed : (createApp site).Each fun method l => placed method l = true := by
  have plain {method : Method} {hs : List Handler} (h : placed method hs = true)
      (head : method = .GET → placed .HEAD hs = true) (asked : Method) :
      placed asked (method.answers hs asked) = true := by
    refine Method.answers_cases (φ := fun l => placed asked l = true) rfl ?_ rfl
    rintro (rfl | ⟨hm, rfl⟩)
    · exact h
    · exact head hm
  have param {method : Method} {hs : Str → List Handler} (h : ∀ arg, placed method (hs arg) = true)
      (head : method = .GET → ∀ arg, placed .HEAD (hs arg) = true) (asked : Method) (args : List Str) :
      placed asked (decoded site method hs asked args) = true := by
    rw [decoded]
    split
    · rfl
    · exact plain (h _) (fun hm => head hm _) asked
  simp only [createApp, limited, healthRouter, authRouter, accountRouter, adminRouter, libraryRouter,
    downloadsRouter, eventsRouter, route, routeWith, Stack.Each]
  repeat' apply And.intro
  all_goals first
    | exact trivial
    | exact fun _ => rfl
    | exact fun asked _ => plain rfl (fun _ => rfl) asked
    | exact fun asked _ => plain rfl (fun h => by cases h) asked
    | exact param (fun _ => rfl) fun _ _ => rfl
    | exact param (fun _ => rfl) fun h => by cases h

end

section
variable {site : Site} (req : HttpRequest site)

/-- No handler is come to before its guards. -/
theorem HttpRequest.led (g : Guard) : Led (· = g.middleware) (g.needs · = true) [] req.chain := by
  have start : Passed g.is site.matcher req.path [] false [] :=
    ⟨fun h => absurd h Bool.false_ne_true, fun _ h => absurd h List.not_mem_nil⟩
  have h : Led (g.is · = true) (g.needs · = true) [] req.chain := (createApp_guarded site g).led start
  intro pre x post e hx
  obtain ⟨y, hy, hg⟩ := h pre x post e hx
  exact ⟨y, hy, Guard.is_eq hg⟩

theorem HttpRequest.placed : Placed req.method req.chain :=
  ((createApp_placed site).mono fun _ _ => Placed.of_placed).chain (Placed.of_placed rfl) Placed.append

end

end CircleFtp.Http
