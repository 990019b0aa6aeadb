import CircleFtp.ApiError
import CircleFtp.Concurrent.Pool
import CircleFtp.Concurrent.Table

/-! The account tables of the Prisma schema, with their foreign keys, and the atomic calls the
account code makes: single database calls, interactive transactions, password hashing. -/
namespace CircleFtp.Auth
open Concurrent

inductive Role where
  | ADMIN | USER
deriving DecidableEq

structure User where
  email : String
  name : String
  passwordHash : String
  role : Role
  disabled : Bool
deriving DecidableEq

structure Session where
  tokenHash : String
  userId : Nat
  expiresAt : Nat
deriving DecidableEq

structure Invite where
  code : String
  role : Role
  note : Option String
  expiresAt : Nat
  createdById : Option Nat
  usedById : Option Nat
  usedAt : Option Nat
deriving DecidableEq

structure PasswordReset where
  tokenHash : String
  userId : Nat
  issuedById : Option Nat
  expiresAt : Nat
  usedAt : Option Nat
deriving DecidableEq

structure Store where
  users : Table User
  sessions : Table Session
  invites : Table Invite
  resets : Table PasswordReset

/-- What the code takes from bcrypt, SHA-256 and the string library. -/
structure Runtime where
  bcryptHash : String → String → String
  bcryptCompare : String → String → Bool
  sha256 : String → String
  trim : String → String
  toLowerCase : String → String
  toUpperCase : String → String
  sessionTtl : Nat

/-- A transparent runtime, for closed runs. -/
def Runtime.plain : Runtime where
  bcryptHash password _ := password
  bcryptCompare password hash := password = hash
  sha256 := id
  trim := id
  toLowerCase := id
  toUpperCase := id
  sessionTtl := 1000

inductive Err where
  | api (e : ApiError)
  | database (message : String)
deriving DecidableEq

structure UpdateUserOptions where
  name : Option String := none
  role : Option Role := none
  disabled : Option Bool := none
deriving DecidableEq

structure RedeemInviteInput where
  code : String
  name : String
  email : String
  passwordHash : String
deriving DecidableEq

inductive Op where
  | now
  | randomBytes
  | hashPassword (plain : String)
  | verifyPassword (plain hash : String)
  | fakeVerify
  | findUser (id : Nat)
  | findUserByEmail (email : String)
  | activeAdminCount (exceptUserId : Nat)
  | createUser (user : User)
  | updateUser (id : Nat) (changes : UpdateUserOptions)
  | setPasswordHash (id : Nat) (hash : String)
  | deleteUser (id : Nat)
  | findSession (tokenHash : String)
  | createSession (session : Session)
  | deleteSession (id : Nat)
  | deleteSessions (userId : Nat)
  | countSessions (userId : Nat)
  | findInvite (id : Nat)
  | createInvite (invite : Invite)
  | deleteInvite (id : Nat)
  | redeemInvite (input : RedeemInviteInput)
  | createPasswordReset (reset : PasswordReset)
  | redeemPasswordReset (tokenHash passwordHash : String)
  | pruneExpiredResets
deriving DecidableEq

abbrev Val : Op → Type
  | .now => Nat
  | .randomBytes => String
  | .hashPassword _ => String
  | .verifyPassword _ _ => Bool
  | .fakeVerify => Unit
  | .findUser _ => Option User
  | .findUserByEmail _ => Option (Nat × User)
  | .activeAdminCount _ => Nat
  | .createUser _ => Nat
  | .updateUser _ _ => Unit
  | .setPasswordHash _ _ => Unit
  | .deleteUser _ => Unit
  | .findSession _ => Option (Nat × Session × User)
  | .createSession _ => Nat
  | .deleteSession _ => Unit
  | .deleteSessions _ => Nat
  | .countSessions _ => Nat
  | .findInvite _ => Option Invite
  | .createInvite _ => Nat
  | .deleteInvite _ => Unit
  | .redeemInvite _ => Nat × Nat
  | .createPasswordReset _ => Nat
  | .redeemPasswordReset _ _ => Nat
  | .pruneExpiredResets => Nat

abbrev Reply (op : Op) : Type := Except Err (Val op)

/-- What the surroundings decide about one call: the clock, the random source, a failure. -/
structure Choice where
  now : Nat := 0
  random : String := ""
  failure : Option String := none

def User.activeAdmin (u : User) : Bool := u.role = .ADMIN && !u.disabled

def User.apply (changes : UpdateUserOptions) (u : User) : User :=
  { u with
    name := changes.name.getD u.name
    role := changes.role.getD u.role
    disabled := changes.disabled.getD u.disabled }

namespace Store

def findUserByEmail (s : Store) (email : String) : Option (Nat × User) :=
  (s.users.findFirst fun _ u => u.email = email).bind fun i => (s.users.rows i).map (i, ·)

def findSession (s : Store) (tokenHash : String) : Option (Nat × Session × User) :=
  (s.sessions.findFirst fun _ x => x.tokenHash = tokenHash).bind fun i =>
    (s.sessions.rows i).bind fun x => (s.users.rows x.userId).map (i, x, ·)

def findInviteByCode (s : Store) (code : String) : Option (Nat × Invite) :=
  (s.invites.findFirst fun _ v => v.code = code).bind fun i => (s.invites.rows i).map (i, ·)

def findResetByToken (s : Store) (tokenHash : String) : Option (Nat × PasswordReset × User) :=
  (s.resets.findFirst fun _ r => r.tokenHash = tokenHash).bind fun i =>
    (s.resets.rows i).bind fun r => (s.users.rows r.userId).map (i, r, ·)

/-- A reference to a user that does not exist. -/
def dangling (s : Store) (userId : Option Nat) : Bool :=
  userId.any fun i => (s.users.rows i).isNone

/-- Deleting a user: its sessions and resets go with it, the other references become null. -/
def deleteUser (s : Store) (id : Nat) : Store where
  users := s.users.erase id
  sessions := s.sessions.deleteMany (·.userId = id)
  invites := s.invites.updateMany (fun _ => true) fun v =>
    { v with
      createdById := if v.createdById = some id then none else v.createdById
      usedById := if v.usedById = some id then none else v.usedById }
  resets := (s.resets.deleteMany (·.userId = id)).updateMany (fun _ => true) fun r =>
    { r with issuedById := if r.issuedById = some id then none else r.issuedById }

/-- The body of the transaction in `redeemInvite`; an error rolls everything back. -/
def redeemInvite (s : Store) (input : RedeemInviteInput) (now : Nat) :
    Except Err (Nat × Nat) × Store :=
  match s.findInviteByCode input.code with
  | none => (.error (.api (.badRequest "That invite code is not valid")), s)
  | some (inviteId, invite) =>
    if invite.usedById.isSome then
      (.error (.api (.badRequest "That invite code has already been used")), s)
    else if invite.expiresAt ≤ now then
      (.error (.api (.badRequest "That invite code has expired")), s)
    else if (s.findUserByEmail input.email).isSome then
      (.error (.api (.conflict "email_taken" "An account with that email already exists")), s)
    else
      let userId := s.users.next
      let claims := fun (i : Nat) (v : Invite) => decide (i = inviteId) && v.usedById.isNone
      if s.invites.count claims = 0 then
        (.error (.api (.conflict "invite_used" "That invite code has already been used")), s)
      else
        (.ok (inviteId, userId),
          { s with
            users := s.users.insert ⟨input.email, input.name, input.passwordHash, invite.role, false⟩
            invites := s.invites.mapMany fun i v =>
              some (if claims i v then { v with usedById := some userId, usedAt := some now } else v) })

/-- The body of the transaction in `redeemPasswordReset`. -/
def redeemPasswordReset (s : Store) (tokenHash passwordHash : String) (now : Nat) :
    Except Err Nat × Store :=
  match s.findResetByToken tokenHash with
  | none => (.error (.api (.badRequest "That reset link is not valid")), s)
  | some (resetId, reset, user) =>
    if reset.usedAt.isSome then
      (.error (.api (.badRequest "That reset link has already been used")), s)
    else if reset.expiresAt ≤ now then
      (.error (.api (.badRequest "That reset link has expired")), s)
    else if user.disabled then (.error (.api (.forbidden "That account is disabled")), s)
    else
      let claims := fun (i : Nat) (r : PasswordReset) => decide (i = resetId) && r.usedAt.isNone
      if s.resets.count claims = 0 then
        (.error (.api (.conflict "reset_used" "That reset link has already been used")), s)
      else
        (.ok reset.userId,
          { s with
            resets := s.resets.mapMany fun i r =>
              some (if claims i r then { r with usedAt := some now } else r)
            users := s.users.modify reset.userId fun u => { u with passwordHash }
            sessions := s.sessions.deleteMany (·.userId = reset.userId) })

end Store

/-- A write to one row throws when the row does not exist. -/
def onRow {α β : Type} (row : Option α) (s : Store) (f : β × Store) : Except Err β × Store :=
  match row with
  | none => (.error (.database "Record to update not found."), s)
  | some _ => (.ok f.1, f.2)

/-- An insert throws when it would break a unique index or a foreign key. -/
def ifFree {β : Type} (taken : Bool) (s : Store) (f : β × Store) : Except Err β × Store :=
  if taken then (.error (.database "Unique constraint failed"), s) else (.ok f.1, f.2)

/-- The effect of a call that the database carries out. -/
def perform (rt : Runtime) (s : Store) (c : Choice) : (op : Op) → Reply op × Store
  | .now => (.ok c.now, s)
  | .randomBytes => (.ok c.random, s)
  | .hashPassword plain => (.ok (rt.bcryptHash plain c.random), s)
  | .verifyPassword plain hash => (.ok (rt.bcryptCompare plain hash), s)
  | .fakeVerify => (.ok (), s)
  | .findUser id => (.ok (s.users.rows id), s)
  | .findUserByEmail email => (.ok (s.findUserByEmail email), s)
  | .activeAdminCount id => (.ok (s.users.count fun i u => i ≠ id && u.activeAdmin), s)
  | .createUser u =>
    ifFree (s.findUserByEmail u.email).isSome s (s.users.next, { s with users := s.users.insert u })
  | .updateUser id changes =>
    onRow (s.users.rows id) s ((), { s with users := s.users.modify id (.apply changes) })
  | .setPasswordHash id passwordHash =>
    onRow (s.users.rows id) s
      ((), { s with users := s.users.modify id fun u => { u with passwordHash } })
  | .deleteUser id => onRow (s.users.rows id) s ((), s.deleteUser id)
  | .findSession tokenHash => (.ok (s.findSession tokenHash), s)
  | .createSession x =>
    ifFree ((s.sessions.findFirst fun _ y => y.tokenHash = x.tokenHash).isSome ||
        (s.users.rows x.userId).isNone) s
      (s.sessions.next, { s with sessions := s.sessions.insert x })
  | .deleteSession id =>
    onRow (s.sessions.rows id) s ((), { s with sessions := s.sessions.erase id })
  | .deleteSessions userId =>
    (.ok (s.sessions.count fun _ x => x.userId = userId),
      { s with sessions := s.sessions.deleteMany (·.userId = userId) })
  | .countSessions userId => (.ok (s.sessions.count fun _ x => x.userId = userId), s)
  | .findInvite id => (.ok (s.invites.rows id), s)
  | .createInvite v =>
    ifFree ((s.findInviteByCode v.code).isSome || s.dangling v.createdById) s
      (s.invites.next, { s with invites := s.invites.insert v })
  | .deleteInvite id =>
    onRow (s.invites.rows id) s ((), { s with invites := s.invites.erase id })
  | .redeemInvite input => s.redeemInvite input c.now
  | .createPasswordReset r =>
    ifFree ((s.resets.findFirst fun _ x => x.tokenHash = r.tokenHash &&
          !(x.userId = r.userId && x.usedAt.isNone)).isSome ||
        (s.users.rows r.userId).isNone || s.dangling r.issuedById) s
      (s.resets.next,
        { s with resets :=
            (s.resets.deleteMany fun x => x.userId = r.userId && x.usedAt.isNone).insert r })
  | .redeemPasswordReset tokenHash passwordHash =>
    s.redeemPasswordReset tokenHash passwordHash c.now
  | .pruneExpiredResets =>
    (.ok (s.resets.count fun _ r => r.expiresAt ≤ c.now || r.usedAt.isSome),
      { s with resets := s.resets.deleteMany fun r => r.expiresAt ≤ c.now || r.usedAt.isSome })

def Op.local : Op → Bool
  | .now | .randomBytes | .verifyPassword _ _ => true
  | _ => false

/-- Any call that leaves the process may fail instead, and then nothing has happened. -/
def call (rt : Runtime) (s : Store) (op : Op) (c : Choice) : Reply op × Store :=
  match c.failure with
  | some message => if op.local then perform rt s c op else (.error (.database message), s)
  | none => perform rt s c op

theorem call_cases (rt : Runtime) (s : Store) (o : Op) (c : Choice) :
    (∃ message, call rt s o c = (.error (.database message), s)) ∨
    call rt s o c = perform rt s c o := by
  simp only [call]
  split
  · split
    · exact .inr rfl
    · exact .inl ⟨_, rfl⟩
  · exact .inr rfl

theorem call_ok {rt : Runtime} {s s' : Store} {o : Op} {c : Choice} {a : Val o}
    (h : call rt s o c = (.ok a, s')) : perform rt s c o = (.ok a, s') := by
  rcases call_cases rt s o c with ⟨m, hm⟩ | hp
  · rw [hm] at h
    simp at h
  · rwa [hp] at h

/-- What every effect keeps, a call keeps: a failed call does nothing. -/
theorem call_keep {rt : Runtime} {s : Store} {o : Op} {φ : Store → Prop}
    (h : ∀ c, φ (perform rt s c o).2) (hs : φ s) (c : Choice) : φ (call rt s o c).2 := by
  rcases call_cases rt s o c with ⟨m, hm⟩ | hp
  · rwa [hm]
  · rw [hp]
    exact h c

/-- What a redeemed reset link finds and leaves. -/
structure SpendsReset (s s' : Store) (tokenHash passwordHash : String) (now i : Nat)
    (reset : PasswordReset) : Prop where
  row : s.resets.rows i = some reset
  token : reset.tokenHash = tokenHash
  unused : reset.usedAt = none
  unexpired : now < reset.expiresAt
  enabled : ∃ user, s.users.rows reset.userId = some user ∧ user.disabled = false
  resets : s'.resets.rows = Function.update s.resets.rows i (some { reset with usedAt := some now })
  users : s'.users = s.users.modify reset.userId fun u => { u with passwordHash }
  sessions : s'.sessions = s.sessions.deleteMany (·.userId = reset.userId)

theorem findResetByToken_some {s : Store} {tokenHash : String} {i : Nat} {reset : PasswordReset}
    {user : User} (h : s.findResetByToken tokenHash = some (i, reset, user)) :
    s.resets.rows i = some reset ∧ reset.tokenHash = tokenHash ∧
      s.users.rows reset.userId = some user := by
  obtain ⟨hf, hr, hu⟩ : _ ∧ s.resets.rows i = some reset ∧ s.users.rows reset.userId = some user := by
    simpa [Store.findResetByToken, Option.bind_eq_some_iff] using h
  obtain ⟨x, hx, ht⟩ := Table.findFirst_some hf
  rw [hr] at hx
  cases hx
  exact ⟨hr, by simpa using ht, hu⟩

/-- Everything a redemption of a reset link can do. -/
theorem redeemPasswordReset_cases (s : Store) (tokenHash passwordHash : String) (now : Nat) :
    (∃ e, s.redeemPasswordReset tokenHash passwordHash now = (.error e, s)) ∨
    ∃ i reset, (s.redeemPasswordReset tokenHash passwordHash now).1 = .ok reset.userId ∧
      SpendsReset s (s.redeemPasswordReset tokenHash passwordHash now).2 tokenHash passwordHash now
        i reset := by
  rw [Store.redeemPasswordReset]
  split
  · exact .inl ⟨_, rfl⟩
  rename_i i reset user hf
  obtain ⟨hr, ht, hu⟩ := findResetByToken_some hf
  split
  · exact .inl ⟨_, rfl⟩
  split
  · exact .inl ⟨_, rfl⟩
  split
  · exact .inl ⟨_, rfl⟩
  simp only
  split
  · exact .inl ⟨_, rfl⟩
  have hn : reset.usedAt = none := by simpa using ‹¬ reset.usedAt.isSome = true›
  refine .inr ⟨i, reset, rfl, hr, ht, hn, by omega, ⟨user, hu, by simpa using ‹¬ user.disabled = true›⟩,
    ?_, rfl, rfl⟩
  funext j
  by_cases hj : j = i
  · subst hj
    simp [Table.mapMany, hr, hn]
  · simp [Table.mapMany, hj, Function.update_of_ne]

end CircleFtp.Auth
