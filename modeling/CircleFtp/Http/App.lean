import CircleFtp.Auth.Requests
import CircleFtp.Concurrent.Lift
import CircleFtp.Concurrent.Triple
import CircleFtp.Http.Routing
import CircleFtp.Strings.Basic

/-! The HTTP application: the stack of `app.ts` with the routers of `routes/`, the middleware of
`auth/middleware.ts` and the handlers that work on the accounts. -/
namespace CircleFtp.Http
open Concurrent Routing Strings
open Auth (Runtime Store Err Role User Session PasswordReset UpdateUserOptions RedeemInput)

/-! ### Requests -/

/-- The methods that the application tells apart, and the rest. -/
inductive Method where
  | GET | HEAD | OPTIONS | POST | PATCH | DELETE | other
deriving DecidableEq

structure AdminCreateUserInput where
  name : String
  email : String
  role : Role
  password : Option String

structure CreateInviteInput where
  role : Role
  expiresInDays : Nat
  note : Option String

abbrev Details := List (String × List String)

/-- The schemas of the request bodies: the input, or what is wrong with the fields. -/
structure Schemas (Body : Type) where
  login : Body → Except Details (String × String)
  redeemInvite : Body → Except Details RedeemInput
  changePassword : Body → Except Details (String × String)
  updateProfile : Body → Except Details String
  redeemPasswordReset : Body → Except Details (String × String)
  adminCreateUser : Body → Except Details AdminCreateUserInput
  updateUser : Body → Except Details UpdateUserOptions
  createPasswordReset : Body → Except Details Nat
  createInvite : Body → Except Details CreateInviteInput

/-- What the application takes from its libraries; rows have numbers here for their ids. -/
structure Site where
  rt : Runtime
  Path : Type
  Body : Type
  matcher : Matcher Path
  schemas : Schemas Body
  decodeURIComponent : Str → Option Str
  idOf : Str → Nat

/-- The cookie is the session token whose signature was good; a body may not be readable. -/
structure HttpRequest (site : Site) where
  method : Method
  path : site.Path
  requestedWith : Option String
  cookie : Option String
  ip : String
  body : Option site.Body
  queryToken : String

/-! ### The calls -/

inductive Limiter where
  | login | api
deriving DecidableEq

def Limiter.limit : Limiter → Nat
  | .login => 10
  | .api => 240

/-- The handlers of the other routers, which do not touch the accounts. -/
inductive Elsewhere where
  | search
  | title (postId : Str)
  | image (filename : Str)
  | listDownloads
  | getDownload (id : Str)
  | createDownload
  | cancel (id : Str)
  | retry (id : Str)
  | deleteDownload (id : Str)
  | events
deriving DecidableEq

inductive Op where
  | auth (o : Auth.Op)
  | increment (limiter : Limiter) (ip : String)
  | decrement (limiter : Limiter) (ip : String)
  | deleteSessionsByToken (tokenHash : String)
  | pruneExpiredSessions
  | findReset (tokenHash : String)
  | listSessions (userId : Nat)
  | listUsers
  | listInvites
  | elsewhere (e : Elsewhere)
deriving DecidableEq

abbrev Val : Op → Type
  | .auth o => Auth.Val o
  | .increment _ _ => Nat
  | .findReset _ => Option (Nat × PasswordReset × User)
  | _ => Unit

abbrev Reply (o : Op) : Type := Except Err (Val o)

/-- The account tables and the counters of the rate limiters. -/
structure State where
  store : Store
  hits : Limiter → String → Nat

/-- What the surroundings decide about a call. -/
structure Choice where
  auth : Auth.Choice := {}
  elsewhere : Except Err Unit := .ok ()

namespace State

def count (s : State) (limiter : Limiter) (ip : String) (n : Nat) : State :=
  { s with hits := Function.update s.hits limiter (Function.update (s.hits limiter) ip n) }

/-- A call to the database, which may fail. -/
def query {α : Type} (s : State) (c : Choice) (a : α) (store : Store) : Except Err α × State :=
  match c.auth.failure with
  | some message => (.error (.database message), s)
  | none => (.ok a, { s with store })

end State

def call (rt : Runtime) (s : State) (c : Choice) : (o : Op) → Reply o × State
  | .auth o => ((Auth.call rt s.store o c.auth).1, { s with store := (Auth.call rt s.store o c.auth).2 })
  | .increment limiter ip => (.ok (s.hits limiter ip + 1), s.count limiter ip (s.hits limiter ip + 1))
  | .decrement limiter ip => (.ok (), s.count limiter ip (s.hits limiter ip - 1))
  | .deleteSessionsByToken tokenHash =>
    s.query c () { s.store with sessions := s.store.sessions.deleteMany (·.tokenHash = tokenHash) }
  | .pruneExpiredSessions =>
    s.query c () { s.store with sessions := s.store.sessions.deleteMany (·.expiresAt ≤ c.auth.now) }
  | .findReset tokenHash => s.query c (s.store.findResetByToken tokenHash) s.store
  | .listSessions _ => s.query c () s.store
  | .listUsers => s.query c () s.store
  | .listInvites => s.query c () s.store
  | .elsewhere _ => (c.elsewhere, s)

abbrev Flow := ExceptT Err (Program Op Reply)

def op (o : Op) : Flow (Val o) := Program.invoke o

def fail {α : Type} (e : ApiError) : Flow α := throw (.api e)

/-- The account code as part of the application. -/
def account {α : Type} (f : Auth.Flow α) : Flow α := ExceptT.mk (f.run.lift Op.auth fun _ r => r)

/-! ### Middleware -/

structure SessionUser where
  id : Nat
  email : String
  name : String
  role : Role

/-- What is known of a request on its way: who is signed in, and whether a success is to be taken
off the attempts again. -/
structure Context where
  user : Option SessionUser := none
  attempt : Bool := false

section
variable {site : Site} (req : HttpRequest site)

def resolveSession : Flow (Option SessionUser) := do
  match req.cookie with
  | none => pure none
  | some token =>
    if token = "" then pure none
    else
      match ← account (Auth.resolveSession site.rt token) with
      | none => pure none
      | some (id, user) => pure (some ⟨id, user.email, user.name, user.role⟩)

def attachUser (ctx : Context) : Flow Context := do
  match ← resolveSession req with
  | none => pure ctx
  | some user => pure { ctx with user := some user }

def requireAuth (ctx : Context) : Flow SessionUser :=
  match ctx.user with
  | none => fail .unauthorized
  | some user => pure user

def requireAdmin (ctx : Context) : Flow SessionUser :=
  match ctx.user with
  | none => fail .unauthorized
  | some user =>
    if user.role ≠ .ADMIN then fail (.forbidden "That action is restricted to administrators")
    else pure user

def Method.safe : Method → Bool
  | .GET | .HEAD | .OPTIONS => true
  | _ => false

def requireSameOrigin : Flow Unit :=
  if req.method.safe then pure ()
  else if req.requestedWith ≠ some "circleftp-jellyfin" then
    fail (.forbidden "Missing request header. Reload the page and try again.")
  else pure ()

/-- Sign-ins that succeed are taken off the count at the end. -/
def rateLimit (limiter : Limiter) (ctx : Context) : Flow Context := do
  let totalHits ← op (.increment limiter req.ip)
  if limiter.limit < totalHits then
    match limiter with
    | .login => fail (.tooManyRequests "Too many sign-in attempts. Try again in 15 minutes.")
    | .api => fail .tooManyRequests
  else
    match limiter with
    | .login => pure { ctx with attempt := true }
    | .api => pure ctx

def parseBody {α : Type} (schema : site.Body → Except Details α) : Flow α :=
  match req.body with
  | none => fail .internal
  | some body =>
    match schema body with
    | .error details => fail (.badRequest "Check the highlighted fields" details)
    | .ok input => pure input

end

/-! ### Handlers -/

structure ResetTokenCheck where
  valid : Bool
  reason : Option String := none
  userName : Option String := none
  userEmail : Option String := none
deriving DecidableEq

/-- What is shown of a reset link, for the row and the time. -/
def ResetTokenCheck.of (reset : Option (Nat × PasswordReset × User)) (now : Nat) : ResetTokenCheck :=
  match reset with
  | none => { valid := false, reason := "That reset link is not valid." }
  | some (_, reset, user) =>
    if reset.usedAt.isSome then { valid := false, reason := "That reset link has already been used." }
    else if reset.expiresAt ≤ now then { valid := false, reason := "That reset link has expired." }
    else if user.disabled then { valid := false, reason := "That account is disabled." }
    else { valid := true, userName := user.name, userEmail := user.email }

def inspectPasswordReset (rt : Runtime) (token : String) : Flow ResetTokenCheck := do
  let reset ← op (.findReset (rt.sha256 token))
  let now ← op (.auth .now)
  pure (.of reset now)

/-- `POST /account/password` for the user of the session. -/
def changePassword (rt : Runtime) (id : Nat) (currentPassword newPassword : String) : Auth.Flow Nat := do
  match ← Auth.op (.findUser id) with
  | none => Auth.fail .unauthorized
  | some user => do
    let valid ← Auth.op (.verifyPassword currentPassword user.passwordHash)
    if !valid then
      Auth.fail (.badRequest "Current password is incorrect"
        [("currentPassword", ["Current password is incorrect"])])
    else if currentPassword = newPassword then
      Auth.fail (.badRequest "That is already your password"
        [("newPassword", ["Choose a password you are not already using"])])
    else do
      Auth.setPassword id newPassword
      let _ ← Auth.op (.deleteSessions id)
      Auth.issueSession rt id

theorem changePassword_eq (rt : Runtime) (token currentPassword newPassword : String) :
    Auth.changePassword rt token currentPassword newPassword =
      Auth.requireAuth rt token >>= fun id => changePassword rt id currentPassword newPassword := rfl

/-- `POST /account/sessions/revoke-others` for the user of the session. -/
def revokeOthers (rt : Runtime) (id : Nat) : Auth.Flow Nat := do
  let before ← Auth.op (.countSessions id)
  let _ ← Auth.op (.deleteSessions id)
  let _ ← Auth.issueSession rt id
  pure (before - 1)

theorem revokeOthers_eq (rt : Runtime) (token : String) :
    Auth.revokeOthers rt token = Auth.requireAuth rt token >>= fun id => revokeOthers rt id := rfl

inductive Endpoint where
  | health
  | login | logout | me | redeem
  | profile | password | sessions | revokeOthers | resetCheck | reset
  | listUsers | createUser | updateUser (id : Nat) | deleteUser (id : Nat) | revokeSessions (id : Nat)
  | resetLink (id : Nat) | listInvites | createInvite | revokeInvite (id : Nat)
  | elsewhere (e : Elsewhere)
deriving DecidableEq

section
variable {site : Site} (req : HttpRequest site) (ctx : Context)

/-- `req.user!`: the routes below have asked for it. -/
def signedIn : Flow SessionUser :=
  match ctx.user with
  | none => fail .internal
  | some user => pure user

def destroySession : Flow Unit :=
  match req.cookie with
  | none => pure ()
  | some token =>
    if token = "" then pure ()
    else tryCatch (op (.deleteSessionsByToken (site.rt.sha256 token))) fun _ => pure ()

def me : Flow Unit := do
  match ctx.user with
  | none => fail (.unauthorized "Not signed in")
  | some user =>
    match ← op (.auth (.findUser user.id)) with
    | none => fail (.unauthorized "Not signed in")
    | some _ => pure ()

/-- A password is generated unless one was sent. -/
def createUser : Flow Unit := do
  let input ← parseBody req site.schemas.adminCreateUser
  let password ← match input.password with
    | some password => pure password
    | none => op (.auth .randomBytes)
  let id ← account (Auth.createUser site.rt ⟨input.email, input.name, password, some input.role⟩)
  let _ ← account (Auth.getAdminUser id)

def createInvite : Flow Unit := do
  let input ← parseBody req site.schemas.createInvite
  let user ← signedIn ctx
  let note := input.note.filter (· ≠ "")
  let _ ← account (Auth.createInvite
    { role := some input.role, expiresInDays := some input.expiresInDays, note, createdById := some user.id })

def handle : Endpoint → Flow Unit
  | .health => pure ()
  | .login => do
    let (email, password) ← parseBody req site.schemas.login
    let _ ← account (Auth.login site.rt email password)
  | .logout => destroySession req
  | .me => me ctx
  | .redeem => do
    let input ← parseBody req site.schemas.redeemInvite
    let _ ← account (Auth.redeem site.rt input)
  | .profile => do
    let name ← parseBody req site.schemas.updateProfile
    let user ← signedIn ctx
    op (.auth (.updateUser user.id { name := some name }))
  | .password => do
    let (currentPassword, newPassword) ← parseBody req site.schemas.changePassword
    let user ← signedIn ctx
    let _ ← account (changePassword site.rt user.id currentPassword newPassword)
  | .sessions => do
    let user ← signedIn ctx
    op (.listSessions user.id)
  | .revokeOthers => do
    let user ← signedIn ctx
    let _ ← account (Http.revokeOthers site.rt user.id)
  | .resetCheck =>
    if req.queryToken = "" then fail (.badRequest "No reset token supplied")
    else do
      let _ ← inspectPasswordReset site.rt req.queryToken
  | .reset => do
    let (token, newPassword) ← parseBody req site.schemas.redeemPasswordReset
    let _ ← account (Auth.accountReset site.rt token newPassword)
  | .listUsers => op .listUsers
  | .createUser => Http.createUser req
  | .updateUser id => do
    let changes ← parseBody req site.schemas.updateUser
    let user ← signedIn ctx
    let _ ← account (Auth.updateUser id changes user.id)
  | .deleteUser id => do
    let user ← signedIn ctx
    account (Auth.deleteUser id user.id)
  | .revokeSessions id => do
    let _ ← account (Auth.revokeSessions id)
  | .resetLink id => do
    let expiresInHours ← parseBody req site.schemas.createPasswordReset
    let user ← signedIn ctx
    let _ ← account (Auth.createPasswordReset site.rt id (some user.id) expiresInHours)
  | .listInvites => op .listInvites
  | .createInvite => Http.createInvite req ctx
  | .revokeInvite id => account (Auth.revokeInvite id)
  | .elsewhere e => op (.elsewhere e)

end

/-! ### The stack -/

inductive Handler where
  | json
  | rateLimit (limiter : Limiter)
  | requireSameOrigin
  | attachUser
  | requireAuth
  | requireAdmin
  | endpoint (e : Endpoint)
  | options
  | undecodable
  | notFound
deriving DecidableEq

/-- A handler hands the request on, or has answered it. -/
def Handler.run {site : Site} (req : HttpRequest site) (ctx : Context) : Handler → Flow (Option Context)
  | .json => if req.body.isNone then fail .internal else pure (some ctx)
  | .rateLimit limiter => some <$> Http.rateLimit req limiter ctx
  | .requireSameOrigin => (fun _ => some ctx) <$> Http.requireSameOrigin req
  | .attachUser => some <$> Http.attachUser req ctx
  | .requireAuth => (fun _ => some ctx) <$> Http.requireAuth ctx
  | .requireAdmin => (fun _ => some ctx) <$> Http.requireAdmin ctx
  | .endpoint e => (fun _ => none) <$> handle req ctx e
  | .options => pure none
  | .undecodable => fail .internal
  | .notFound => fail (.notFound "No such endpoint")

abbrev AppStack := Stack Method Handler

/-- The pieces of a pattern; a colon begins a parameter. -/
def pattern (s : String) : Pattern :=
  ((split '/' s.toList).filter (· ≠ [])).map fun t =>
    if t.head? = some ':' then .param else .text t

/-- What a route for a method does with a request: `HEAD` counts as `GET` there, and the router answers
`OPTIONS` by itself, with the methods that there are. -/
def Method.answers (method : Method) (hs : List Handler) : Method → List Handler
  | .OPTIONS => [.options]
  | asked => if asked = method ∨ method = .GET ∧ asked = .HEAD then hs else []

section
variable (site : Site)

/-- A route without parameters. -/
def route (method : Method) (path : String) (hs : List Handler) (rest : AppStack) : AppStack :=
  .route (pattern path) (fun asked _ => method.answers hs asked) rest

/-- The parameter of a route is decoded before the method matters. -/
def decoded (method : Method) (hs : Str → List Handler) (asked : Method) (args : List Str) : List Handler :=
  match args.head?.bind site.decodeURIComponent with
  | none => [.undecodable]
  | some arg => method.answers (hs arg) asked

/-- A route with one parameter. -/
def routeWith (method : Method) (path : String) (hs : Str → List Handler) (rest : AppStack) : AppStack :=
  .route (pattern path) (decoded site method hs) rest

def healthRouter : AppStack := route .GET "/health" [.endpoint .health] .done

def authRouter : AppStack :=
  route .POST "/auth/login" [.rateLimit .login, .endpoint .login] <|
  route .POST "/auth/logout" [.endpoint .logout] <|
  route .GET "/auth/me" [.endpoint .me] <|
  route .POST "/auth/redeem" [.rateLimit .login, .endpoint .redeem] .done

def accountRouter : AppStack :=
  route .PATCH "/account/profile" [.requireAuth, .endpoint .profile] <|
  route .POST "/account/password" [.requireAuth, .endpoint .password] <|
  route .GET "/account/sessions" [.requireAuth, .endpoint .sessions] <|
  route .POST "/account/sessions/revoke-others" [.requireAuth, .endpoint .revokeOthers] <|
  route .GET "/account/reset/check" [.endpoint .resetCheck] <|
  route .POST "/account/reset" [.rateLimit .login, .endpoint .reset] .done

def adminRouter : AppStack :=
  .use (pattern "/admin") .requireAdmin <|
  route .GET "/admin/users" [.endpoint .listUsers] <|
  route .POST "/admin/users" [.endpoint .createUser] <|
  routeWith site .PATCH "/admin/users/:id" (fun id => [.endpoint (.updateUser (site.idOf id))]) <|
  routeWith site .DELETE "/admin/users/:id" (fun id => [.endpoint (.deleteUser (site.idOf id))]) <|
  routeWith site .POST "/admin/users/:id/revoke-sessions"
    (fun id => [.endpoint (.revokeSessions (site.idOf id))]) <|
  routeWith site .POST "/admin/users/:id/reset-link"
    (fun id => [.endpoint (.resetLink (site.idOf id))]) <|
  route .GET "/admin/invites" [.endpoint .listInvites] <|
  route .POST "/admin/invites" [.endpoint .createInvite] <|
  routeWith site .DELETE "/admin/invites/:id" (fun id => [.endpoint (.revokeInvite (site.idOf id))]) .done

def libraryRouter : AppStack :=
  route .GET "/library/search" [.requireAuth, .endpoint (.elsewhere .search)] <|
  routeWith site .GET "/library/title/:postId"
    (fun postId => [.requireAuth, .endpoint (.elsewhere (.title postId))]) <|
  routeWith site .GET "/library/image/:filename"
    (fun filename => [.requireAuth, .endpoint (.elsewhere (.image filename))]) .done

def downloadsRouter : AppStack :=
  .use (pattern "/downloads") .requireAuth <|
  route .GET "/downloads" [.endpoint (.elsewhere .listDownloads)] <|
  routeWith site .GET "/downloads/:id" (fun id => [.endpoint (.elsewhere (.getDownload id))]) <|
  route .POST "/downloads" [.endpoint (.elsewhere .createDownload)] <|
  routeWith site .POST "/downloads/:id/cancel" (fun id => [.endpoint (.elsewhere (.cancel id))]) <|
  routeWith site .POST "/downloads/:id/retry" (fun id => [.endpoint (.elsewhere (.retry id))]) <|
  routeWith site .DELETE "/downloads/:id" (fun id => [.endpoint (.elsewhere (.deleteDownload id))]) .done

def eventsRouter : AppStack := route .GET "/events" [.requireAuth, .endpoint (.elsewhere .events)] .done

/-- `app.use('/api', apiRateLimiter, requireSameOrigin, attachUser, router)`. -/
def limited (router rest : AppStack) : AppStack :=
  .use (pattern "/api") (.rateLimit .api) <| .use (pattern "/api") .requireSameOrigin <|
    .use (pattern "/api") .attachUser <| .mount (pattern "/api") router rest

def createApp : AppStack :=
  .use [] .json <| .mount (pattern "/api") healthRouter <|
  limited authRouter <| limited accountRouter <| limited (adminRouter site) <|
  limited (libraryRouter site) <| limited (downloadsRouter site) <|
  .use (pattern "/api") .requireSameOrigin <| .use (pattern "/api") .attachUser <|
  .mount (pattern "/api") eventsRouter <| .use (pattern "/api") .notFound .done

end

section
variable {site : Site} (req : HttpRequest site)

/-- One handler after the other until one answers. -/
def through : List Handler → Context → Flow Context
  | [], _ => fail .notFound
  | h :: hs, ctx => do
    match ← h.run req ctx with
    | none => pure ctx
    | some ctx' => through hs ctx'

def HttpRequest.chain : List Handler := (createApp site).chain site.matcher req.method req.path

/-- The answer has gone out: a sign-in that succeeded does not count as an attempt. -/
def serve : Flow Unit := do
  let ctx ← through req req.chain {}
  if ctx.attempt then op (.decrement .login req.ip)

end

/-! ### The system -/

inductive Task (site : Site) where
  | request (req : HttpRequest site)
  | prune

/-- A request, the end of a limiter's window for an address, a restart, which forgets the counts. -/
inductive Arrival (site : Site) where
  | request (req : HttpRequest site)
  | window (limiter : Limiter) (ip : String)
  | restart

/-- The housekeeping at boot. -/
def prune : Flow Unit := do
  op .pruneExpiredSessions
  let _ ← op (.auth .pruneExpiredResets)

abbrev Answer := Except Err Unit

def arrive {site : Site} (s : State) :
    Arrival site → State × Bool × List (Thread (Task site) Op Reply Answer)
  | .request req => (s, false, [⟨.request req, (serve req).run⟩])
  | .window limiter ip => (s.count limiter ip 0, false, [])
  | .restart => ({ s with hits := fun _ _ => 0 }, true, [⟨.prune, prune.run⟩])

def system (site : Site) : System State (Task site) Op Reply Choice (Arrival site) Answer where
  exec s _ o c := some ((call site.rt s c o).1, (call site.rt s c o).2, [])
  finish s _ _ := (s, [])
  external s x := some (arrive s x)

abbrev HttpPool (site : Site) := Pool State (Task site) Op Reply (Arrival site) Answer
abbrev HttpEvent (site : Site) := Event State (Task site) Op Reply (Arrival site) Answer
abbrev HttpWorld (site : Site) := World State (Task site) Op Reply (Arrival site) Answer

/-- A transparent site, for closed runs: ids are as long as they are high, and the only bodies that are
read are those of sign-ins. -/
def Site.small : Site where
  rt := .plain
  Path := List Str
  Body := List String
  matcher := .pieces (· = ·)
  schemas := {
    login := fun body => match body with
      | [email, password] => .ok (email, password)
      | _ => .error []
    redeemInvite := fun _ => .error []
    changePassword := fun _ => .error []
    updateProfile := fun _ => .error []
    redeemPasswordReset := fun _ => .error []
    adminCreateUser := fun _ => .error []
    updateUser := fun _ => .error []
    createPasswordReset := fun _ => .error []
    createInvite := fun _ => .error [] }
  decodeURIComponent := some
  idOf := List.length

/-- A request from the pages of the application. -/
def pageRequest (method : Method) (path : List String) (cookie : Option String) (body : List String) :
    HttpRequest .small where
  method
  path := path.map String.toList
  requestedWith := some "circleftp-jellyfin"
  cookie
  ip := "ip"
  body := some body
  queryToken := ""

end CircleFtp.Http
