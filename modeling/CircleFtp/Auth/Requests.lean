import CircleFtp.Auth.Store
import CircleFtp.Concurrent.Last

/-! The account requests as programs over the atomic calls: `session.ts`, `users.ts`,
`admin.ts`, `passwordReset.ts` and the routes that use them. -/
namespace CircleFtp.Auth
open Concurrent

abbrev Flow := ExceptT Err (Program Op Reply)

def op (o : Op) : Flow (Val o) := Program.invoke o

def fail {α : Type} (e : ApiError) : Flow α := throw (.api e)

/-! ### Sessions -/

def issueSession (rt : Runtime) (userId : Nat) : Flow Nat := do
  let token ← op .randomBytes
  let now ← op .now
  op (.createSession ⟨rt.sha256 token, userId, now + rt.sessionTtl⟩)

/-- The signed-in user of a request, or none. An expired row is deleted on the way. -/
def resolveSession (rt : Runtime) (token : String) : Flow (Option (Nat × User)) := do
  match ← op (.findSession (rt.sha256 token)) with
  | none => pure none
  | some (id, session, user) => do
    let now ← op .now
    if session.expiresAt ≤ now then do
      tryCatch (op (.deleteSession id)) fun _ => pure ()
      pure none
    else if user.disabled then pure none
    else pure (some (session.userId, user))

def requireAuth (rt : Runtime) (token : String) : Flow Nat := do
  match ← resolveSession rt token with
  | none => fail .unauthorized
  | some (id, _) => pure id

/-! ### Signing in, changing and resetting a password -/

def invalidCredentials : ApiError :=
  ⟨401, "invalid_credentials", "Email or password is incorrect", []⟩

def login (rt : Runtime) (email password : String) : Flow Nat := do
  match ← op (.findUserByEmail email) with
  | none => do
    op .fakeVerify
    fail invalidCredentials
  | some (id, user) => do
    let valid ← op (.verifyPassword password user.passwordHash)
    if !valid then fail invalidCredentials
    else if user.disabled then fail (.forbidden "That account has been disabled")
    else issueSession rt id

def setPassword (userId : Nat) (password : String) : Flow Unit := do
  let hash ← op (.hashPassword password)
  op (.setPasswordHash userId hash)

def changePassword (rt : Runtime) (token currentPassword newPassword : String) : Flow Nat := do
  let id ← requireAuth rt token
  match ← op (.findUser id) with
  | none => fail .unauthorized
  | some user => do
    let valid ← op (.verifyPassword currentPassword user.passwordHash)
    if !valid then
      fail (.badRequest "Current password is incorrect"
        [("currentPassword", ["Current password is incorrect"])])
    else if currentPassword = newPassword then
      fail (.badRequest "That is already your password"
        [("newPassword", ["Choose a password you are not already using"])])
    else do
      setPassword id newPassword
      let _ ← op (.deleteSessions id)
      issueSession rt id

def revokeOthers (rt : Runtime) (token : String) : Flow Nat := do
  let id ← requireAuth rt token
  let before ← op (.countSessions id)
  let _ ← op (.deleteSessions id)
  let _ ← issueSession rt id
  pure (before - 1)

def redeemPasswordReset (rt : Runtime) (token newPassword : String) : Flow Nat := do
  let passwordHash ← op (.hashPassword newPassword)
  op (.redeemPasswordReset (rt.sha256 token) passwordHash)

def accountReset (rt : Runtime) (token newPassword : String) : Flow Nat := do
  let userId ← redeemPasswordReset rt token newPassword
  match ← op (.findUser userId) with
  | none => fail .internal
  | some _ => issueSession rt userId

def createPasswordReset (rt : Runtime) (userId : Nat) (issuedById : Option Nat)
    (expiresInHours : Nat) : Flow Nat := do
  match ← op (.findUser userId) with
  | none => fail (.notFound "No such user")
  | some _ => do
    let token ← op .randomBytes
    let now ← op .now
    op (.createPasswordReset
      ⟨rt.sha256 token, userId, issuedById, now + expiresInHours * 60 * 60 * 1000, none⟩)

/-! ### Administration of users -/

def lastAdmin (action : String) : ApiError :=
  .conflict "last_admin" ("This is the only active administrator — " ++ action ++
    " would lock everyone out. Promote another account to administrator first.")

def assertNotLastAdmin (userId : Nat) (action : String) : Flow Unit := do
  match ← op (.findUser userId) with
  | none => pure ()
  | some user =>
    if user.role ≠ .ADMIN ∨ user.disabled then pure ()
    else do
      let others ← op (.activeAdminCount userId)
      if others = 0 then fail (lastAdmin action) else pure ()

def getAdminUser (id : Nat) : Flow User := do
  match ← op (.findUser id) with
  | none => fail (.notFound "No such user")
  | some user => pure user

/-- The two guards of `updateUser`, for the account as it was first read. -/
def guardUpdate (id : Nat) (user : User) (changes : UpdateUserOptions) (currentUserId : Nat) :
    Flow Unit := do
  if changes.role = some .USER ∧ user.role = .ADMIN then
    assertNotLastAdmin id "demoting them"
  if changes.disabled = some true then
    if id = currentUserId then fail (.badRequest "You cannot disable your own account")
    else assertNotLastAdmin id "disabling them"

def updateUser (id : Nat) (changes : UpdateUserOptions) (currentUserId : Nat) : Flow User := do
  match ← op (.findUser id) with
  | none => fail (.notFound "No such user")
  | some user => do
    guardUpdate id user changes currentUserId
    op (.updateUser id changes)
    if changes.disabled = some true then
      let _ ← op (.deleteSessions id)
    getAdminUser id

def deleteUser (id currentUserId : Nat) : Flow Unit := do
  if id = currentUserId then fail (.badRequest "You cannot delete your own account")
  else
    match ← op (.findUser id) with
    | none => fail (.notFound "No such user")
    | some _ => do
      assertNotLastAdmin id "deleting them"
      op (.deleteUser id)

def revokeSessions (id : Nat) : Flow Nat := do
  match ← op (.findUser id) with
  | none => fail (.notFound "No such user")
  | some _ => op (.deleteSessions id)

structure CreateUserOptions where
  email : String
  name : String
  password : String
  role : Option Role := none
deriving DecidableEq

def createUser (rt : Runtime) (options : CreateUserOptions) : Flow Nat := do
  let email := rt.toLowerCase (rt.trim options.email)
  match ← op (.findUserByEmail email) with
  | some _ => fail (.conflict "email_taken" "An account with that email already exists")
  | none => do
    let passwordHash ← op (.hashPassword options.password)
    op (.createUser ⟨email, rt.trim options.name, passwordHash, options.role.getD .USER, false⟩)

/-! ### Invites -/

structure CreateInviteOptions where
  role : Option Role := none
  expiresInDays : Option Nat := none
  note : Option String := none
  createdById : Option Nat := none
deriving DecidableEq

/-- The random source supplies the code: `generateInviteCode` reads nothing else. -/
def createInvite (options : CreateInviteOptions) : Flow Nat := do
  let expiresInDays := options.expiresInDays.getD 14
  let code ← op .randomBytes
  let now ← op .now
  op (.createInvite
    ⟨code, options.role.getD .USER, options.note, now + expiresInDays * 24 * 60 * 60 * 1000,
      options.createdById, none, none⟩)

structure RedeemInput where
  code : String
  name : String
  email : String
  password : String
deriving DecidableEq

def redeemInvite (rt : Runtime) (input : RedeemInput) : Flow Nat := do
  let passwordHash ← op (.hashPassword input.password)
  let (_, userId) ← op (.redeemInvite
    ⟨rt.toUpperCase (rt.trim input.code), rt.trim input.name,
      rt.toLowerCase (rt.trim input.email), passwordHash⟩)
  pure userId

/-- `POST /auth/redeem`: the new account is signed in. -/
def redeem (rt : Runtime) (input : RedeemInput) : Flow Nat := do
  let userId ← redeemInvite rt input
  issueSession rt userId

def revokeInvite (id : Nat) : Flow Unit := do
  match ← op (.findInvite id) with
  | none => fail (.notFound "No such invite")
  | some invite =>
    if invite.usedById.isSome then
      fail (.conflict "invite_used" "That invite has already been redeemed")
    else op (.deleteInvite id)

/-! ### The system -/

inductive Request where
  | login (email password : String)
  | changePassword (token currentPassword newPassword : String)
  | accountReset (token newPassword : String)
  | revokeOthers (token : String)
  | createPasswordReset (userId : Nat) (issuedById : Option Nat) (expiresInHours : Nat)
  | pruneExpiredResets
  | updateUser (id : Nat) (changes : UpdateUserOptions) (currentUserId : Nat)
  | deleteUser (id currentUserId : Nat)
  | revokeSessions (id : Nat)
  | createUser (options : CreateUserOptions)
  | createInvite (options : CreateInviteOptions)
  | redeem (input : RedeemInput)
  | revokeInvite (id : Nat)
deriving DecidableEq

inductive Result where
  | done
  | number (n : Nat)
  | user (u : User)
deriving DecidableEq

abbrev Response := Except Err Result

def Request.flow (rt : Runtime) : Request → Flow Result
  | .login email password => .number <$> Auth.login rt email password
  | .changePassword token current new => .number <$> Auth.changePassword rt token current new
  | .accountReset token new => .number <$> Auth.accountReset rt token new
  | .revokeOthers token => .number <$> Auth.revokeOthers rt token
  | .createPasswordReset userId issuedById hours =>
    .number <$> Auth.createPasswordReset rt userId issuedById hours
  | .pruneExpiredResets => .number <$> op .pruneExpiredResets
  | .updateUser id changes current => .user <$> Auth.updateUser id changes current
  | .deleteUser id current => (fun _ => .done) <$> Auth.deleteUser id current
  | .revokeSessions id => .number <$> Auth.revokeSessions id
  | .createUser options => .number <$> Auth.createUser rt options
  | .createInvite options => .number <$> Auth.createInvite options
  | .redeem input => .number <$> Auth.redeem rt input
  | .revokeInvite id => (fun _ => .done) <$> Auth.revokeInvite id

def Request.program (rt : Runtime) (r : Request) : Program Op Reply Response := (r.flow rt).run

/-- Requests arrive at any time and run call by call between each other. -/
def system (rt : Runtime) : System Store Request Op Reply Choice Request Response where
  exec s _ o c := some ((call rt s o c).1, (call rt s o c).2, [])
  finish s _ _ := (s, [])
  external s r := some (s, false, [⟨r, r.program rt⟩])

section
variable {rt : Runtime} {s s' : Store} {x : Request} {ths : List (Thread Request Op Reply Response)}

theorem system_exec {o : Op} {c : Choice} {r : Reply o}
    (h : (system rt).exec s x o c = some (r, s', ths)) : call rt s o c = (r, s') ∧ ths = [] := by
  obtain ⟨rfl, rfl, rfl⟩ : (call rt s o c).1 = r ∧ (call rt s o c).2 = s' ∧ [] = ths := by
    simpa [system] using h
  exact ⟨rfl, rfl⟩

theorem system_external {dies : Bool} (h : (system rt).external s x = some (s', dies, ths)) :
    s' = s ∧ ths = [⟨x, x.program rt⟩] := by
  obtain ⟨rfl, rfl, rfl⟩ : s = s' ∧ false = dies ∧ [⟨x, x.program rt⟩] = ths := by
    simpa [system] using h
  exact ⟨rfl, rfl⟩

end

abbrev AuthPool := Pool Store Request Op Reply Request Response
abbrev AuthEvent := Event Store Request Op Reply Request Response
abbrev AuthWorld := World Store Request Op Reply Request Response
abbrev AuthLabel := Label Choice Request

/-! ### Which request makes which write -/

/-- Deleting an account or an invite, changing an account and storing a new password have one
request each, and a session is only created at the end of a few. -/
def Op.plain : Op → Prop
  | .updateUser _ _ | .deleteUser _ | .deleteInvite _ | .createSession _ | .setPasswordHash _ _ => False
  | _ => True

def Op.signsIn : Op → Prop
  | .createSession _ => True
  | _ => False

def Request.signsIn : Request → Prop
  | .login _ _ | .changePassword _ _ _ | .accountReset _ _ | .revokeOthers _ | .redeem _ => True
  | _ => False

def Op.MadeBy : Op → Request → Prop
  | .updateUser id changes, r => ∃ current, r = .updateUser id changes current
  | .deleteUser id, r => ∃ current, r = .deleteUser id current
  | .deleteInvite id, r => r = .revokeInvite id
  | .setPasswordHash _ _, r => ∃ token current new, r = .changePassword token current new
  | .createSession _, r => r.signsIn
  | _, _ => True

theorem Op.plain.madeBy {o : Op} (h : o.plain) (r : Request) : o.MadeBy r := by
  cases o <;> trivial

theorem Op.plain.before {o : Op} (h : o.plain) (r : Request) : ¬ o.signsIn ∧ o.MadeBy r :=
  ⟨by cases o <;> simp_all [Op.plain, Op.signsIn], h.madeBy r⟩

theorem Op.signsIn.madeBy {o : Op} {r : Request} (h : (¬ o.signsIn ∧ o.MadeBy r) ∨ o.signsIn) (hr : r.signsIn) :
    o.MadeBy r := by
  rcases h with h | h
  · exact h.2
  · cases o <;> trivial

section
variable {rt : Runtime}

theorem issueSession_ends (userId : Nat) :
    (issueSession rt userId).run.Ends Op.plain Op.signsIn :=
  .except_bind (.invoke trivial) fun _ => .except_bind (.invoke trivial) fun _ =>
    .inr ⟨trivial, fun r => ⟨r, rfl⟩⟩

theorem resolveSession_uses (token : String) : (resolveSession rt token).run.Uses Op.plain := by
  refine .except_bind (.invoke trivial) ?_
  rintro (_ | ⟨id, session, user⟩)
  · trivial
  refine .except_bind (.invoke trivial) fun now => ?_
  split
  · exact .except_bind (.tryCatch (.invoke trivial) fun _ => trivial) fun _ => trivial
  · split <;> trivial

theorem requireAuth_uses (token : String) : (requireAuth rt token).run.Uses Op.plain := by
  refine .except_bind (resolveSession_uses token) ?_
  rintro (_ | ⟨id, _⟩) <;> trivial

theorem login_ends (email password : String) :
    (login rt email password).run.Ends Op.plain Op.signsIn := by
  refine .except_bind (.invoke trivial) ?_
  rintro (_ | ⟨id, user⟩)
  · exact .except_bind (.invoke trivial) fun _ => trivial
  refine .except_bind (.invoke trivial) fun valid => ?_
  split
  · trivial
  · split
    · trivial
    · exact issueSession_ends id

theorem setPassword_uses (id : Nat) (new : String) {r : Request}
    (hr : ∃ token current new, r = .changePassword token current new) :
    (setPassword id new).run.Uses fun o => ¬ o.signsIn ∧ o.MadeBy r :=
  .except_bind (.invoke ⟨fun h => h, trivial⟩) fun _ => .invoke ⟨fun h => h, hr⟩

theorem changePassword_ends (token current new : String) :
    (changePassword rt token current new).run.Ends
      (fun o => ¬ o.signsIn ∧ o.MadeBy (.changePassword token current new)) Op.signsIn := by
  have plain : ∀ o : Op, o.plain → ¬ o.signsIn ∧ o.MadeBy (.changePassword token current new) :=
    fun _ h => h.before _
  refine .except_bind ((requireAuth_uses token).mono plain) fun id => ?_
  refine .except_bind (.invoke (plain _ trivial)) ?_
  rintro (_ | user)
  · trivial
  refine .except_bind (.invoke (plain _ trivial)) fun valid => ?_
  split
  · trivial
  split
  · trivial
  exact .except_bind (setPassword_uses id new ⟨token, current, new, rfl⟩) fun _ =>
    .except_bind (.invoke (plain _ trivial)) fun _ => (issueSession_ends id).mono plain

theorem revokeOthers_ends (token : String) :
    (revokeOthers rt token).run.Ends Op.plain Op.signsIn :=
  .except_bind (requireAuth_uses token) fun id => .except_bind (.invoke trivial) fun n =>
    .except_bind (.invoke trivial) fun _ =>
      (issueSession_ends id).except_map (f := fun _ => n - 1)

theorem accountReset_ends (token new : String) :
    (accountReset rt token new).run.Ends Op.plain Op.signsIn := by
  refine .except_bind (.except_bind (.invoke trivial) fun _ => .invoke trivial) fun id => ?_
  refine .except_bind (.invoke trivial) ?_
  rintro (_ | user)
  · trivial
  · exact issueSession_ends id

theorem createPasswordReset_uses (userId : Nat) (issuedById : Option Nat) (hours : Nat) :
    (createPasswordReset rt userId issuedById hours).run.Uses Op.plain := by
  refine .except_bind (.invoke trivial) ?_
  rintro (_ | user)
  · trivial
  · exact .except_bind (.invoke trivial) fun _ => .except_bind (.invoke trivial) fun _ =>
      .invoke trivial

theorem revokeSessions_uses (id : Nat) : (revokeSessions id).run.Uses Op.plain := by
  refine .except_bind (.invoke trivial) ?_
  rintro (_ | user)
  · trivial
  · exact .invoke trivial

theorem createUser_uses (options : CreateUserOptions) :
    (createUser rt options).run.Uses Op.plain := by
  refine .except_bind (.invoke trivial) ?_
  rintro (_ | user)
  · exact .except_bind (.invoke trivial) fun _ => .invoke trivial
  · trivial

theorem createInvite_uses (options : CreateInviteOptions) :
    (createInvite options).run.Uses Op.plain :=
  .except_bind (.invoke trivial) fun _ => .except_bind (.invoke trivial) fun _ => .invoke trivial

theorem redeemInvite_uses (input : RedeemInput) : (redeemInvite rt input).run.Uses Op.plain :=
  .except_bind (.invoke trivial) fun _ => .except_bind (.invoke trivial) fun _ => trivial

theorem redeem_ends (input : RedeemInput) : (redeem rt input).run.Ends Op.plain Op.signsIn :=
  .except_bind (redeemInvite_uses input) fun id => issueSession_ends id

theorem assertNotLastAdmin_uses (id : Nat) (action : String) :
    (assertNotLastAdmin id action).run.Uses Op.plain := by
  refine .except_bind (.invoke trivial) ?_
  rintro (_ | user)
  · trivial
  simp only
  split
  · trivial
  · refine .except_bind (.invoke trivial) fun n => ?_
    split <;> trivial

theorem getAdminUser_uses (id : Nat) : (getAdminUser id).run.Uses Op.plain := by
  refine .except_bind (.invoke trivial) ?_
  rintro (_ | user) <;> trivial

theorem guardUpdate_uses (id : Nat) (user : User) (changes : UpdateUserOptions) (current : Nat) :
    (guardUpdate id user changes current).run.Uses Op.plain := by
  have second : ((if changes.disabled = some true then
      if id = current then fail (.badRequest "You cannot disable your own account")
      else assertNotLastAdmin id "disabling them"
    else pure () : Flow Unit)).run.Uses Op.plain := by
    split
    · split
      · trivial
      · exact assertNotLastAdmin_uses id _
    · trivial
  rw [guardUpdate]
  split
  · exact .except_bind (assertNotLastAdmin_uses id _) fun _ => second
  · exact second

theorem updateUser_uses (id : Nat) (changes : UpdateUserOptions) (current : Nat) :
    (updateUser id changes current).run.Uses (Op.MadeBy · (.updateUser id changes current)) := by
  have plain : ∀ o : Op, o.plain → o.MadeBy (.updateUser id changes current) := fun _ h => h.madeBy _
  refine .except_bind (.invoke trivial) ?_
  rintro (_ | user)
  · trivial
  refine .except_bind ((guardUpdate_uses id user changes current).mono plain) fun _ => ?_
  refine .except_bind (.invoke ⟨current, rfl⟩) fun _ => ?_
  split
  · exact .except_bind (.invoke trivial) fun _ => (getAdminUser_uses id).mono plain
  · exact (getAdminUser_uses id).mono plain

theorem deleteUser_uses (id current : Nat) :
    (deleteUser id current).run.Uses (Op.MadeBy · (.deleteUser id current)) := by
  rw [deleteUser]
  split
  · trivial
  refine .except_bind (.invoke trivial) ?_
  rintro (_ | user)
  · trivial
  · exact .except_bind ((assertNotLastAdmin_uses id _).mono fun _ h => h.madeBy _) fun _ =>
      .invoke ⟨current, rfl⟩

theorem revokeInvite_uses (id : Nat) :
    (revokeInvite id).run.Uses (Op.MadeBy · (.revokeInvite id)) := by
  refine .except_bind (.invoke trivial) ?_
  rintro (_ | invite)
  · trivial
  simp only
  split
  · trivial
  · exact .invoke rfl

/-- A request that signs in does so once, at its end. -/
theorem Request.signsIn_ends (rt : Runtime) {r : Request} (h : r.signsIn) :
    (r.program rt).Ends (fun o => ¬ o.signsIn ∧ o.MadeBy r) Op.signsIn := by
  have plain : ∀ o : Op, o.plain → ¬ o.signsIn ∧ o.MadeBy r := fun _ h => h.before r
  cases r with
  | login email password => exact .except_map ((login_ends email password).mono plain)
  | changePassword token current new => exact .except_map (changePassword_ends token current new)
  | accountReset token new => exact .except_map ((accountReset_ends token new).mono plain)
  | revokeOthers token => exact .except_map ((revokeOthers_ends token).mono plain)
  | redeem input => exact .except_map ((redeem_ends input).mono plain)
  | _ => exact h.elim

theorem Request.uses (rt : Runtime) (r : Request) : (r.program rt).Uses (Op.MadeBy · r) := by
  have plain : ∀ o : Op, o.plain → o.MadeBy r := fun _ h => h.madeBy r
  have signing (hr : r.signsIn) : (r.program rt).Uses (Op.MadeBy · r) :=
    (Request.signsIn_ends rt hr).uses.mono fun _ h => Op.signsIn.madeBy h hr
  cases r with
  | createPasswordReset userId issuedById hours =>
    exact .except_map ((createPasswordReset_uses userId issuedById hours).mono plain)
  | pruneExpiredResets => exact .except_map (.invoke trivial)
  | updateUser id changes current => exact .except_map (updateUser_uses id changes current)
  | deleteUser id current => exact .except_map (deleteUser_uses id current)
  | revokeSessions id => exact .except_map ((revokeSessions_uses id).mono plain)
  | createUser options => exact .except_map ((createUser_uses options).mono plain)
  | createInvite options => exact .except_map ((createInvite_uses options).mono plain)
  | revokeInvite id => exact .except_map (revokeInvite_uses id)
  | _ => exact signing trivial

/-- Every request creates at most one session, and that is its last call. -/
theorem Request.ends (rt : Runtime) (r : Request) :
    (r.program rt).Ends (¬ Op.signsIn ·) Op.signsIn := by
  by_cases h : r.signsIn
  · exact (Request.signsIn_ends rt h).mono fun _ ho => ho.1
  · refine (r.uses rt).ends.mono fun o ho hs => ?_
    cases o <;> first | exact hs | exact h ho

end

end CircleFtp.Auth
