import CircleFtp.Concurrent.Threads
import CircleFtp.Http.Policy

/-! Complete mediation: every call that the application makes for a request is one that the policy
permits, at that moment and for that request. -/
namespace CircleFtp.Http
open Concurrent Routing Strings
open Auth (Runtime Store Err Role User Session PasswordReset UpdateUserOptions RedeemInput)

/-- Every call obeys the policy when it is made. -/
def policies (site : Site) : Ledger State (Task site) Op Reply (Arrival site) Answer where
  admits _ _ _ _ := True
  may _ _ w o r s := ∃ c, call site.rt w.state c o = (r, s)
  guar t k w o _ _ := Obeys t w.trace o k
  post _ _ _ _ := True

abbrev policyContract (site : Site) (t : Nat) (k : Task site) : Contract (HttpWorld site) Op Reply :=
  (policies site).discipline.contract t k

/-- What further events do not undo. -/
def Lasting {site : Site} (P : List (HttpEvent site) → Prop) : Prop := ∀ e trace, P trace → P (e :: trace)

section
variable {site : Site} {req : HttpRequest site} {t : Nat} {id : Nat}

theorem Lasting.and {P Q : List (HttpEvent site) → Prop} (hP : Lasting P) (hQ : Lasting Q) :
    Lasting fun trace => P trace ∧ Q trace := fun e trace h => ⟨hP e trace h.1, hQ e trace h.2⟩

theorem Presents.lasting (u : User) : Lasting (Presents req t · id u) := by
  rintro e trace ⟨token, i, x, now, s, s', v, v', h₁, h₂, h₃, h₄, h₅, h₆, h₇, hs⟩
  exact ⟨token, i, x, now, s, s', v, v', h₁, h₂, h₃, h₄, h₅, h₆, h₇, hs.cons e⟩

theorem ByUser.lasting : Lasting (ByUser req t · id) :=
  fun e trace h => h.imp fun u hu => Presents.lasting u e trace hu

theorem ByAdmin.lasting : Lasting (ByAdmin req t) :=
  fun e trace h => h.imp fun _ hid => hid.imp fun u hu => ⟨Presents.lasting u e trace hu.1, hu.2⟩

theorem Admitted.lasting (limiter : Limiter) : Lasting (Admitted req t · limiter) := by
  rintro e trace ⟨n, hn, s, s', h⟩
  exact ⟨n, hn, s, s', List.mem_cons_of_mem e h⟩

theorem Reads.lasting (u : User) : Lasting (Reads req t · id u) := by
  rintro e trace ⟨s, s', h⟩
  exact ⟨s, s', List.mem_cons_of_mem e h⟩

theorem SignsIn.lasting : Lasting (SignsIn req t) := by
  rintro e trace ⟨x, i, s, s', h⟩
  exact ⟨x, i, s, s', List.mem_cons_of_mem e h⟩

/-- From `P` the program obeys the policy, and its result satisfies `Q`. -/
abbrev Serves {α : Type} (req : HttpRequest site) (t : Nat) (P : List (HttpEvent site) → Prop)
    (m : Flow α) (Q : α → List (HttpEvent site) → Prop) : Prop :=
  (policyContract site t (.request req)).Does (fun w => P w.trace) m (fun a w => Q a w.trace)
    fun _ _ => True

/-- A change that comes from the application's own pages. -/
def FromPages (req : HttpRequest site) : Prop := req.requestedWith = some "circleftp-jellyfin"

variable {P P' : List (HttpEvent site) → Prop} {α β : Type} {Q Q' : α → List (HttpEvent site) → Prop}
  {R : β → List (HttpEvent site) → Prop}

theorem lasting_stable (hP : Lasting P) :
    (policyContract site t (.request req)).Stable fun w => P w.trace :=
  fun _ _ hr hw => History.rely_induct (φ := fun v => P v.trace) (fun _ _ hv _ _ _ => hP _ _ hv) hr hw

theorem policy_true (t : Nat) (k : Task site) : (policyContract site t k).Stable fun _ => True := .true _

namespace Serves

theorem mono {m : Flow α} (h : Serves req t P m Q) (hP : ∀ trace, P' trace → P trace)
    (hQ : ∀ a trace, Q a trace → Q' a trace) : Serves req t P' m Q' :=
  h.conseq (fun _ => hP _) (fun a _ => hQ a _) fun _ _ => id

theorem bind {m : Flow α} {f : α → Flow β} (hm : Serves req t P m Q)
    (hf : ∀ a, Serves req t (Q a) (f a) R) : Serves req t P (m >>= f) R :=
  Contract.Does.bind (fun _ => policy_true _ _) hm hf

theorem pure {a : α} (hP : Lasting P) (h : ∀ trace, P trace → Q a trace) :
    Serves req t P (Pure.pure a) Q :=
  Contract.Does.pure (lasting_stable hP) fun _ => h _

theorem throw {e : Err} (hP : Lasting P) : Serves req t P (throw e) Q :=
  Contract.Does.throw (lasting_stable hP) fun _ _ => trivial

/-- A call, with what its reply tells. -/
theorem call {o : Op} {Q : Val o → List (HttpEvent site) → Prop} (hP : Lasting P) (hQ : ∀ a, Lasting (Q a))
    (ho : ∀ trace, P trace → Permitted req t trace o) (hc : o.changes = true → FromPages req)
    (h : ∀ trace s c a s', P trace → Http.call site.rt s c o = (.ok a, s') →
      Q a (.did t (.request req) o (.ok a) s s' :: trace)) : Serves req t P (op o) Q := by
  refine Contract.Does.leads_last (lasting_stable hP) (fun a => lasting_stable (hQ a))
    (fun _ => policy_true _ _) ⟨fun w r w' hw _ => ⟨ho _ hw, hc⟩, ?_, fun _ _ _ _ _ => trivial⟩
  rintro w a w' hw ⟨htrace, c, hcall⟩
  rw [htrace]
  exact h w.trace w.state c a w'.state hw hcall

/-- A program all of whose calls are permitted anyway. -/
theorem uses {m : Flow α} {allowed : Op → Prop} (hP : Lasting P)
    (ho : ∀ o, allowed o → (∀ trace, P trace → Permitted req t trace o) ∧ (o.changes = true → FromPages req))
    (hm : m.run.Uses allowed) : Serves req t P m fun _ => P := by
  refine (Contract.Does.of_uses (lasting_stable hP) (fun o h => ?_) hm).conseq (fun _ h => h)
    (fun _ _ h => h) fun _ _ _ => trivial
  refine ⟨fun w r w' hw _ => ⟨(ho o h).1 _ hw, (ho o h).2⟩, ?_, ?_⟩
  all_goals
    rintro w a w' hw ⟨htrace, -⟩
    rw [htrace]
    exact hP _ _ hw

end Serves

theorem account_bind (m : Auth.Flow α) (f : α → Auth.Flow β) :
    account (m >>= f) = account m >>= fun a => account (f a) := by
  show ExceptT.mk _ = ExceptT.mk _
  rw [ExceptT.mk, ExceptT.mk]
  refine (Program.lift_bind m.run _).trans (congrArg _ (funext fun r => ?_))
  cases r <;> rfl

/-- A call of the account code, and the rest of it. -/
theorem Serves.account_call {o : Auth.Op} {f : Auth.Val o → Auth.Flow β}
    {Q : Auth.Val o → List (HttpEvent site) → Prop} (hP : Lasting P) (hQ : ∀ a, Lasting (Q a))
    (ho : ∀ trace, P trace → Permitted req t trace (.auth o))
    (hc : (Op.auth o).changes = true → FromPages req)
    (h : ∀ trace (s : State) c a s', P trace → Auth.perform site.rt s.store c o = (.ok a, s') →
      Q a (.did t (.request req) (.auth o) (.ok a) s { s with store := s' } :: trace))
    (hf : ∀ a, Serves req t (Q a) (account (f a)) R) : Serves req t P (account (Auth.op o >>= f)) R := by
  rw [account_bind]
  refine .bind (Serves.call hP hQ ho hc fun trace s c a s' ht hcall => ?_) hf
  obtain ⟨hr, rfl⟩ := Prod.mk.inj hcall
  exact h trace s c.auth a _ ht (Auth.call_ok (Prod.ext hr rfl))

theorem account_uses {f : Auth.Flow α} {allowed : Op → Prop} (hf : f.run.Uses fun o => allowed (.auth o)) :
    (account f).run.Uses allowed := Program.Uses.lift hf

theorem findSession_some {s : Store} {tokenHash : String} {i : Nat} {x : Session} {u : User}
    (h : s.findSession tokenHash = some (i, x, u)) :
    s.sessions.rows i = some x ∧ x.tokenHash = tokenHash ∧ s.users.rows x.userId = some u := by
  obtain ⟨hf, hr, hu⟩ : _ ∧ s.sessions.rows i = some x ∧ s.users.rows x.userId = some u := by
    simpa [Store.findSession, Option.bind_eq_some_iff] using h
  obtain ⟨y, hy, ht⟩ := Table.findFirst_some hf
  rw [hr] at hy
  cases hy
  exact ⟨hr, by simpa using ht, hu⟩

theorem findUserByEmail_some {s : Store} {email : String} {i : Nat} {u : User}
    (h : s.findUserByEmail email = some (i, u)) : s.users.rows i = some u ∧ u.email = email := by
  obtain ⟨hf, hr⟩ : _ ∧ s.users.rows i = some u := by
    simpa [Store.findUserByEmail, Option.bind_eq_some_iff] using h
  obtain ⟨v, hv, he⟩ := Table.findFirst_some hf
  rw [hr] at hv
  cases hv
  exact ⟨hr, by simpa using he⟩

theorem Found.lasting (i : Nat) (x : Session) (u : User) : Lasting (Found req t · i x u) := by
  rintro e trace ⟨token, s, s', h₁, h₂, h₃, h₄, hm⟩
  exact ⟨token, s, s', h₁, h₂, h₃, h₄, List.mem_cons_of_mem e hm⟩

/-- Whoever is named has presented a good session. -/
def Names (req : HttpRequest site) (t : Nat) (P : List (HttpEvent site) → Prop) (r : Option (Nat × User))
    (trace : List (HttpEvent site)) : Prop :=
  P trace ∧ ∀ id u, r = some (id, u) → Presents req t trace id u

theorem Names.lasting (hP : Lasting P) (r : Option (Nat × User)) : Lasting (Names req t P r) :=
  fun _ _ h => ⟨hP _ _ h.1, fun id u hr => Presents.lasting u _ _ (h.2 id u hr)⟩

theorem Names.none (hP : Lasting P) (h : ∀ trace, P trace → P' trace) :
    Serves req t P (account (Pure.pure none)) (Names req t P') :=
  .pure hP fun trace ht => ⟨h trace ht, fun id u hr => by cases hr⟩

/-- A session that has been found: whether it is still good. -/
theorem current_serves (hP : Lasting P) (i : Nat) (x : Session) (u : User) :
    Serves req t (fun trace => P trace ∧ Found req t trace i x u) (account do
      let now ← Auth.op .now
      if x.expiresAt ≤ now then do
        tryCatch (Auth.op (.deleteSession i)) fun _ => Pure.pure ()
        Pure.pure none
      else if u.disabled then Pure.pure none
      else Pure.pure (some (x.userId, u))) (Names req t P) := by
  let read (now : Nat) (trace : List (HttpEvent site)) : Prop := (P trace ∧ Found req t trace i x u) ∧
    (now < x.expiresAt → u.disabled = false → Presents req t trace x.userId u)
  have found : Lasting fun trace => P trace ∧ Found req t trace i x u := hP.and (Found.lasting i x u)
  have lasting (now : Nat) : Lasting (read now) :=
    fun e trace h => ⟨found _ _ h.1, fun hn hd => Presents.lasting u _ _ (h.2 hn hd)⟩
  refine .account_call (Q := read) found lasting (fun _ _ => trivial) (fun h => by cases h) ?_ fun now => ?_
  · rintro trace s c now s' hf -
    refine ⟨found _ _ hf, fun hn hd => ?_⟩
    obtain ⟨token, v, v', hc, hh, hx, hu, hm⟩ := hf.2
    exact ⟨token, i, x, now, v, v', _, _, hc, hh, hx, rfl, hu, hd, hn,
      (List.singleton_sublist.mpr hm).cons_cons _⟩
  split
  · rw [account_bind]
    have uses : (account (tryCatch (Auth.op (.deleteSession i)) fun _ => Pure.pure ())).run.Uses
        (· = .auth (.deleteSession i)) := account_uses (.tryCatch (.invoke rfl) fun _ => trivial)
    refine .bind (.uses (lasting now) ?_ uses) fun _ => Names.none (lasting now) fun _ h => h.1.1
    rintro _ rfl
    exact ⟨fun trace h => ⟨x, u, h.1.2⟩, fun h => by cases h⟩
  split
  · exact Names.none (lasting now) fun _ h => h.1.1
  · rename_i hn hd
    refine .pure (lasting now) fun trace h => ⟨h.1.1, fun id v hr => ?_⟩
    cases hr
    exact h.2 (Nat.lt_of_not_le hn) (by simpa using hd)

theorem authSession_serves (hP : Lasting P) {token : String} (hcookie : req.cookie = some token) :
    Serves req t P (account (Auth.resolveSession site.rt token)) (Names req t P) := by
  refine .account_call (Q := fun r trace => P trace ∧ ∀ i x u, r = some (i, x, u) → Found req t trace i x u)
    hP (fun r e trace h => ⟨hP _ _ h.1, fun i x u hr => Found.lasting i x u _ _ (h.2 i x u hr)⟩)
    (fun _ _ => ⟨token, hcookie, rfl⟩) (fun h => by cases h) ?_ ?_
  · intro trace s c r s' ht hp
    refine ⟨hP _ _ ht, ?_⟩
    rintro i x u rfl
    have hr : s.store.findSession (site.rt.sha256 token) = some (i, x, u) :=
      Except.ok.inj (congrArg Prod.fst hp)
    obtain ⟨hx, hh, hu⟩ := findSession_some hr
    exact ⟨token, s, { s with store := s' }, hcookie, hh, hx, hu, by rw [hh]; exact List.mem_cons_self⟩
  · rintro (_ | ⟨i, x, u⟩)
    · exact Names.none (fun e trace h => ⟨hP _ _ h.1, fun i x u hr => by cases hr⟩) fun _ h => h.1
    · exact (current_serves hP i x u).mono (fun trace h => ⟨h.1, h.2 i x u rfl⟩) fun _ _ => id

/-- Whoever is signed in has presented a good session. -/
def Attached (req : HttpRequest site) (t : Nat) (user : Option SessionUser)
    (trace : List (HttpEvent site)) : Prop :=
  ∀ su, user = some su → ∃ u, Presents req t trace su.id u ∧ su.role = u.role

theorem Attached.lasting (user : Option SessionUser) : Lasting (Attached req t user) :=
  fun _ _ h su hu => (h su hu).imp fun u hp => ⟨Presents.lasting u _ _ hp.1, hp.2⟩

theorem resolveSession_serves (hP : Lasting P) : Serves req t P (resolveSession req)
    fun user trace => P trace ∧ Attached req t user trace := by
  have nobody : Serves req t P (Pure.pure none) fun user trace => P trace ∧ Attached req t user trace :=
    .pure hP fun trace h => ⟨h, fun su e => by cases e⟩
  rw [resolveSession]
  split
  · exact nobody
  split
  · exact nobody
  refine .bind (authSession_serves hP ‹_›) ?_
  rintro (_ | ⟨id, u⟩)
  · exact .pure (Names.lasting hP _) fun trace h => ⟨h.1, fun su hr => by cases hr⟩
  · refine .pure (Names.lasting hP _) fun trace h => ⟨h.1, fun su hr => ?_⟩
    cases hr
    exact ⟨u, h.2 id u rfl, rfl⟩

theorem attachUser_serves (hP : Lasting P) {ctx : Context} (hctx : ∀ trace, P trace → Attached req t ctx.user trace) :
    Serves req t P (attachUser req ctx) fun ctx' trace => P trace ∧ Attached req t ctx'.user trace ∧
      ctx'.attempt = ctx.attempt ∧ (ctx.user.isSome → ctx'.user.isSome) := by
  refine .bind (resolveSession_serves hP) ?_
  rintro (_ | su)
  · exact .pure (hP.and (Attached.lasting _)) fun trace h => ⟨h.1, hctx trace h.1, rfl, id⟩
  · exact .pure (hP.and (Attached.lasting _)) fun trace h => ⟨h.1, h.2, rfl, fun _ => rfl⟩

theorem parseBody_serves (hP : Lasting P) (schema : site.Body → Except Details α) :
    Serves req t P (parseBody req schema)
      fun a trace => P trace ∧ ∃ body, req.body = some body ∧ schema body = .ok a := by
  rw [parseBody]
  split
  · exact .throw hP
  · split
    · exact .throw hP
    · exact .pure hP fun trace h => ⟨h, _, ‹_›, ‹_›⟩

theorem issueSession_serves (hP : Lasting P) (hearned : ∀ trace, P trace → Earned req t trace id)
    (hpages : FromPages req) : Serves req t P (account (Auth.issueSession site.rt id))
      fun _ => SignsIn req t := by
  refine .account_call (Q := fun _ => P) hP (fun _ => hP) (fun _ _ => trivial) (fun _ => hpages)
    (fun trace s c a s' h _ => hP _ _ h) fun token => ?_
  refine .account_call (Q := fun _ => P) hP (fun _ => hP) (fun _ _ => trivial) (fun _ => hpages)
    (fun trace s c a s' h _ => hP _ _ h) fun (now : Nat) => ?_
  exact Serves.call hP (fun _ => SignsIn.lasting) hearned (fun _ => hpages)
    fun trace s c i s' _ _ => ⟨_, i, s, s', List.mem_cons_self⟩

theorem login_serves (hpages : FromPages req) {body : site.Body} {email password : String}
    (hbody : req.body = some body) (hinput : site.schemas.login body = .ok (email, password)) :
    Serves req t (Admitted req t · .login) (account (Auth.login site.rt email password))
      fun _ => SignsIn req t := by
  /- what the account that was found is worth, once its password has been compared -/
  let read (r : Option (Nat × User)) (trace : List (HttpEvent site)) : Prop :=
    Admitted req t trace .login ∧ ∀ i u, r = some (i, u) → u.disabled = false →
      site.rt.bcryptCompare password u.passwordHash = true → ByPassword req t trace i
  have proves (i : Nat) : Lasting (ByPassword req t · i) := by
    rintro e trace ⟨body, email, password, u, s, s', h₁, h₂, h₃, h₄, h₅, h₆, hm⟩
    exact ⟨body, email, password, u, s, s', h₁, h₂, h₃, h₄, h₅, h₆, List.mem_cons_of_mem e hm⟩
  have hread (r : Option (Nat × User)) : Lasting (read r) := fun e trace h =>
    ⟨Admitted.lasting _ _ _ h.1, fun i u hr hd hv => proves i _ _ (h.2 i u hr hd hv)⟩
  refine .account_call (Admitted.lasting _) hread (fun _ => .inr) (fun _ => hpages) ?_ ?_
  · intro trace s c r s' h hp
    refine ⟨Admitted.lasting _ _ _ h, ?_⟩
    rintro i u rfl hd hv
    have hr : s.store.findUserByEmail email = some (i, u) := Except.ok.inj (congrArg Prod.fst hp)
    obtain ⟨hu, he⟩ := findUserByEmail_some hr
    exact ⟨body, email, password, u, s, _, hbody, hinput, hu, he, hd, hv, List.mem_cons_self⟩
  rintro (_ | ⟨i, u⟩)
  · refine .account_call (Q := fun _ => read none) (hread _) (fun _ => hread _) (fun _ h => h.1)
      (fun _ => hpages) (fun _ _ _ _ _ h _ => hread _ _ _ h) fun _ => .throw (hread _)
  refine .account_call (Q := fun valid trace => read (some (i, u)) trace ∧
      valid = site.rt.bcryptCompare password u.passwordHash) (hread _) (fun _ => ?_) (fun _ h => .inl h.1)
    (fun _ => hpages) (fun trace s c valid s' h hp => ⟨hread _ _ _ h, ?_⟩) fun (valid : Bool) => ?_
  · exact fun e trace h => ⟨hread _ _ _ h.1, h.2⟩
  · exact (Except.ok.inj (congrArg Prod.fst hp)).symm
  have last : Lasting fun trace => read (some (i, u)) trace ∧
      valid = site.rt.bcryptCompare password u.passwordHash := fun e trace h => ⟨hread _ _ _ h.1, h.2⟩
  split
  · exact .throw last
  split
  · exact .throw last
  · rename_i hv hd
    refine issueSession_serves last (fun trace h => .inr (.inl ?_)) hpages
    exact h.1.2 i u rfl (by simpa using hd) (h.2 ▸ by simpa using hv)

theorem redeem_serves (hpages : FromPages req) (input : RedeemInput) :
    Serves req t (Admitted req t · .login) (account (Auth.redeem site.rt input)) fun _ => SignsIn req t := by
  have proves (r : Nat × Nat) : Lasting (ByInvite req t · r.2) := by
    rintro e trace ⟨i, input, s, s', hm⟩
    exact ⟨i, input, s, s', List.mem_cons_of_mem e hm⟩
  rw [Auth.redeem, account_bind]
  refine .bind (Q := fun id trace => ByInvite req t trace id) ?_ fun id =>
    issueSession_serves (proves (0, id)) (fun _ h => .inr (.inr (.inl h))) hpages
  have admitted : Lasting (Admitted req t · .login) := Admitted.lasting _
  refine .account_call (Q := fun _ => (Admitted req t · .login)) admitted (fun _ => admitted)
    (fun _ _ => trivial) (fun _ => hpages) (fun _ _ _ _ _ h _ => admitted _ _ h) fun hash => ?_
  refine .account_call (Q := fun r trace => ByInvite req t trace r.2) admitted proves
    (fun _ h => h) (fun _ => hpages) (fun trace s c r s' _ _ => ?_) fun r => ?_
  · exact ⟨r.1, _, s, _, List.mem_cons_self⟩
  · exact .pure (proves r) fun _ h => h

theorem accountReset_serves (hpages : FromPages req) {body : site.Body} {token new : String}
    (hbody : req.body = some body) (hinput : site.schemas.redeemPasswordReset body = .ok (token, new)) :
    Serves req t (Admitted req t · .login) (account (Auth.accountReset site.rt token new))
      fun _ => SignsIn req t := by
  have proves (id : Nat) : Lasting (ByReset req t · id) := by
    rintro e trace ⟨body, token, new, hash, s, s', h₁, h₂, hm⟩
    exact ⟨body, token, new, hash, s, s', h₁, h₂, List.mem_cons_of_mem e hm⟩
  rw [Auth.accountReset, account_bind]
  refine .bind (Q := fun id trace => ByReset req t trace id) ?_ fun id => ?_
  · have admitted : Lasting (Admitted req t · .login) := Admitted.lasting _
    refine .account_call (Q := fun _ => (Admitted req t · .login)) admitted (fun _ => admitted)
      (fun _ _ => trivial) (fun _ => hpages) (fun _ _ _ _ _ h _ => admitted _ _ h) fun hash => ?_
    exact Serves.call admitted proves (fun _ h => h) (fun _ => hpages)
      fun trace s c id s' _ _ => ⟨body, token, new, hash, s, s', hbody, hinput, List.mem_cons_self⟩
  · refine .account_call (Q := fun _ trace => ByReset req t trace id) (proves id) (fun _ => proves id)
      (fun _ h => .inr (.inr h)) (fun _ => hpages) (fun _ _ _ _ _ h _ => proves id _ _ h) ?_
    rintro (_ | user)
    · exact .throw (proves id)
    · exact issueSession_serves (proves id) (fun _ h => .inr (.inr (.inr h))) hpages

end

/-- The calls of the administration. -/
def Administers : Auth.Op → Prop
  | .now | .randomBytes | .hashPassword _ | .findUser _ | .findUserByEmail _ | .activeAdminCount _
  | .createUser _ | .updateUser _ _ | .deleteUser _ | .deleteSessions _ | .findInvite _ | .createInvite _
  | .deleteInvite _ | .createPasswordReset _ => True
  | _ => False

/-- The calls of a user about the own account. -/
def Concerns (id : Nat) : Auth.Op → Prop
  | .now | .randomBytes | .hashPassword _ => True
  | .setPasswordHash i _ | .deleteSessions i | .countSessions i => i = id
  | .createSession x => x.userId = id
  | _ => False

section
variable {rt : Runtime} {id : Nat}

theorem getAdminUser_administers : (Auth.getAdminUser id).run.Uses Administers := by
  refine .except_bind (.invoke trivial) ?_
  rintro (_ | user) <;> trivial

theorem assertNotLastAdmin_administers (action : String) :
    (Auth.assertNotLastAdmin id action).run.Uses Administers := by
  refine .except_bind (.invoke trivial) ?_
  rintro (_ | user)
  · trivial
  simp only
  split
  · trivial
  · refine .except_bind (.invoke trivial) fun n => ?_
    split <;> trivial

theorem guardUpdate_administers (user : User) (changes : UpdateUserOptions) (current : Nat) :
    (Auth.guardUpdate id user changes current).run.Uses Administers := by
  have disabling : ((if changes.disabled = some true then
      if id = current then Auth.fail (.badRequest "You cannot disable your own account")
      else Auth.assertNotLastAdmin id "disabling them"
    else pure () : Auth.Flow Unit)).run.Uses Administers := by
    split
    · split
      · trivial
      · exact assertNotLastAdmin_administers _
    · trivial
  rw [Auth.guardUpdate]
  split
  · exact .except_bind (assertNotLastAdmin_administers _) fun _ => disabling
  · exact disabling

theorem updateUser_administers (changes : UpdateUserOptions) (current : Nat) :
    (Auth.updateUser id changes current).run.Uses Administers := by
  refine .except_bind (.invoke trivial) ?_
  rintro (_ | user)
  · trivial
  refine .except_bind (guardUpdate_administers user changes current) fun _ =>
    .except_bind (.invoke trivial) fun _ => ?_
  split
  · exact .except_bind (.invoke trivial) fun _ => getAdminUser_administers
  · exact getAdminUser_administers

theorem deleteUser_administers (current : Nat) : (Auth.deleteUser id current).run.Uses Administers := by
  rw [Auth.deleteUser]
  split
  · trivial
  refine .except_bind (.invoke trivial) ?_
  rintro (_ | user)
  · trivial
  · exact .except_bind (assertNotLastAdmin_administers _) fun _ => .invoke trivial

theorem revokeSessions_administers : (Auth.revokeSessions id).run.Uses Administers := by
  refine .except_bind (.invoke trivial) ?_
  rintro (_ | user)
  · trivial
  · exact .invoke trivial

theorem createUser_administers (options : Auth.CreateUserOptions) :
    (Auth.createUser rt options).run.Uses Administers := by
  refine .except_bind (.invoke trivial) ?_
  rintro (_ | user)
  · exact .except_bind (.invoke trivial) fun _ => .invoke trivial
  · trivial

theorem createPasswordReset_administers (issuedById : Option Nat) (hours : Nat) :
    (Auth.createPasswordReset rt id issuedById hours).run.Uses Administers := by
  refine .except_bind (.invoke trivial) ?_
  rintro (_ | user)
  · trivial
  · exact .except_bind (.invoke trivial) fun _ => .except_bind (.invoke trivial) fun _ => .invoke trivial

theorem createInvite_administers (options : Auth.CreateInviteOptions) :
    (Auth.createInvite options).run.Uses Administers :=
  .except_bind (.invoke trivial) fun _ => .except_bind (.invoke trivial) fun _ => .invoke trivial

theorem revokeInvite_administers : (Auth.revokeInvite id).run.Uses Administers := by
  refine .except_bind (.invoke trivial) ?_
  rintro (_ | invite)
  · trivial
  simp only
  split
  · trivial
  · exact .invoke trivial

theorem issueSession_concerns : (Auth.issueSession rt id).run.Uses (Concerns id) :=
  .except_bind (.invoke trivial) fun _ => .except_bind (.invoke trivial) fun _ => .invoke rfl

theorem renewPassword_concerns (rt : Runtime) (newPassword : String) : (do
    Auth.setPassword id newPassword
    let _ ← Auth.op (.deleteSessions id)
    Auth.issueSession rt id : Auth.Flow Nat).run.Uses (Concerns id) :=
  .except_bind (.except_bind (.invoke trivial) fun _ => .invoke rfl) fun _ =>
    .except_bind (.invoke rfl) fun _ => issueSession_concerns

theorem revokeOthers_concerns : (revokeOthers rt id).run.Uses (Concerns id) :=
  .except_bind (.invoke rfl) fun _ => .except_bind (.invoke rfl) fun _ =>
    .except_bind issueSession_concerns fun _ => trivial

end

section
variable {site : Site} {req : HttpRequest site} {t : Nat} {e : Endpoint} {ctx : Context}

/-- What the guards before a handler have seen to. -/
structure Cleared (req : HttpRequest site) (t : Nat) (e : Endpoint) (ctx : Context)
    (trace : List (HttpEvent site)) : Prop where
  reached : .endpoint e ∈ req.chain
  user : Attached req t ctx.user trace
  admin : e.admin = true → ByAdmin req t trace
  personal : e.personal = true → ∃ id, ByUser req t trace id
  limit : ∀ limiter, (Guard.limit limiter).covers e = true → Admitted req t trace limiter

theorem Cleared.lasting : Lasting (Cleared req t e ctx) := fun _ _ h =>
  ⟨h.reached, Attached.lasting _ _ _ h.user, fun he => ByAdmin.lasting _ _ (h.admin he),
    fun he => (h.personal he).imp fun _ hid => ByUser.lasting _ _ hid,
    fun limiter he => Admitted.lasting limiter _ _ (h.limit limiter he)⟩

/-- The calls that a handler may make then. -/
def Endpoint.Allows (req : HttpRequest site) (t : Nat) (e : Endpoint) (ctx : Context) (o : Op) : Prop :=
  (∀ trace, Cleared req t e ctx trace → Permitted req t trace o) ∧ (o.changes = true → FromPages req)

theorem parseBody_uses {α : Type} {allowed : Op → Prop} (schema : site.Body → Except Details α) :
    (parseBody req schema).run.Uses allowed := by
  rw [parseBody]
  split
  · trivial
  · split <;> trivial

theorem Administers.allowed {o : Auth.Op} (h : Administers o) (he : e.admin = true) (hpages : FromPages req) :
    e.Allows req t ctx (.auth o) := by
  refine ⟨fun trace hc => ?_, fun _ => hpages⟩
  have := hc.admin he
  cases o <;> first | trivial | exact this | exact .inl this

theorem Cleared.byUser {su : SessionUser} {trace : List (HttpEvent site)} (h : Cleared req t e ctx trace)
    (hctx : ctx.user = some su) : ByUser req t trace su.id := (h.user su hctx).imp fun _ hu => hu.1

theorem Concerns.allowed {o : Auth.Op} {su : SessionUser} (hctx : ctx.user = some su) (h : Concerns su.id o)
    (hpages : FromPages req) : e.Allows req t ctx (.auth o) := by
  refine ⟨fun trace hc => ?_, fun _ => hpages⟩
  have hu : ByUser req t trace su.id := hc.byUser hctx
  cases o <;> first | trivial | exact h.elim | skip
  case setPasswordHash => exact h ▸ hu
  case createSession => exact .inl (h ▸ hu)
  case deleteSessions => exact .inr (h ▸ hu)
  case countSessions => exact h ▸ hu

/-- A handler that does not take a password makes only calls that its guards allow. -/
theorem handle_uses (hs : e.signsIn = false) (hp : e ≠ .password) (hpages : e.reads = false → FromPages req) :
    (handle req ctx e).run.Uses (e.Allows req t ctx) := by
  have signed {f : SessionUser → Flow Unit} (h : ∀ su, ctx.user = some su → (f su).run.Uses (e.Allows req t ctx)) :
      (signedIn ctx >>= f).run.Uses (e.Allows req t ctx) := by
    rw [signedIn]
    cases hu : ctx.user with
    | none => trivial
    | some su => exact h su hu
  have free {o : Op} (h : ∀ trace, Permitted req t trace o) (hc : o.changes = false) : e.Allows req t ctx o :=
    ⟨fun trace _ => h trace, fun ho => by rw [hc] at ho; cases ho⟩
  have administers {α : Type} {f : Auth.Flow α} (he : e.admin = true) (hr : e.reads = false)
      (h : f.run.Uses Administers) : (account f).run.Uses (e.Allows req t ctx) :=
    account_uses (h.mono fun _ ho => ho.allowed he (hpages hr))
  have concerns {α : Type} {f : Auth.Flow α} {su : SessionUser} (hu : ctx.user = some su) (hr : e.reads = false)
      (h : f.run.Uses (Concerns su.id)) : (account f).run.Uses (e.Allows req t ctx) :=
    account_uses (h.mono fun _ ho => ho.allowed hu (hpages hr))
  cases e with
  | login => cases hs
  | redeem => cases hs
  | reset => cases hs
  | health => trivial
  | logout =>
    show (destroySession req).run.Uses _
    rw [destroySession]
    split
    · trivial
    split
    · trivial
    · exact .tryCatch (.invoke ⟨fun _ _ => ⟨_, ‹_›, rfl⟩, fun _ => hpages rfl⟩) fun _ => trivial
  | me =>
    show (me ctx).run.Uses _
    rw [me]
    split
    · trivial
    · refine .except_bind (.invoke ⟨fun _ hc => .inr (.inl (hc.byUser ‹_›)), fun h => by cases h⟩) ?_
      rintro (_ | user) <;> trivial
  | profile =>
    refine .except_bind (parseBody_uses _) fun name => signed fun su hu => .invoke ?_
    exact ⟨fun trace hc => .inr ⟨hc.byUser hu, rfl, rfl⟩, fun _ => hpages rfl⟩
  | password => exact absurd rfl hp
  | sessions =>
    exact signed fun su hu => .invoke ⟨fun trace hc => hc.byUser hu, fun h => by cases h⟩
  | revokeOthers =>
    exact signed fun su hu => .except_bind (concerns hu rfl revokeOthers_concerns) fun _ => trivial
  | resetCheck =>
    show Program.Uses _ (ExceptT.run (if req.queryToken = "" then _ else _))
    split
    · trivial
    · have check : Endpoint.resetCheck.Allows req t ctx (.findReset (site.rt.sha256 req.queryToken)) :=
        ⟨fun trace hc => ⟨hc.reached, rfl, hc.limit .api rfl⟩, fun h => by cases h⟩
      exact .except_bind (.except_bind (.invoke check) fun _ =>
        .except_bind (.invoke (free (fun _ => trivial) rfl)) fun _ => trivial) fun _ => trivial
  | listUsers => exact .invoke ⟨fun trace hc => hc.admin rfl, fun h => by cases h⟩
  | createUser =>
    refine .except_bind (parseBody_uses _) fun input => ?_
    have rest (password : String) : (do
        let id ← account (Auth.createUser site.rt ⟨input.email, input.name, password, some input.role⟩)
        let _ ← account (Auth.getAdminUser id) : Flow Unit).run.Uses (Endpoint.createUser.Allows req t ctx) :=
      .except_bind (administers rfl rfl (createUser_administers _)) fun _ =>
        .except_bind (administers rfl rfl getAdminUser_administers) fun _ => trivial
    split
    · exact rest _
    · exact .except_bind (.invoke (free (fun _ => trivial) rfl)) rest
  | updateUser id =>
    refine .except_bind (parseBody_uses _) fun changes => signed fun su _ => ?_
    exact .except_bind (administers rfl rfl (updateUser_administers _ _)) fun _ => trivial
  | deleteUser id => exact signed fun su _ => administers rfl rfl (deleteUser_administers _)
  | revokeSessions id => exact .except_bind (administers rfl rfl revokeSessions_administers) fun _ => trivial
  | resetLink id =>
    refine .except_bind (parseBody_uses _) fun hours => signed fun su _ => ?_
    exact .except_bind (administers rfl rfl (createPasswordReset_administers _ _)) fun _ => trivial
  | listInvites => exact .invoke ⟨fun trace hc => hc.admin rfl, fun h => by cases h⟩
  | createInvite =>
    refine .except_bind (parseBody_uses _) fun input => signed fun su _ => ?_
    exact .except_bind (administers rfl rfl (createInvite_administers _)) fun _ => trivial
  | revokeInvite id => exact administers rfl rfl revokeInvite_administers
  | elsewhere x =>
    refine .invoke ⟨fun trace hc => hc.personal rfl, fun (h : x.changes = true) => hpages ?_⟩
    rw [Endpoint.reads, h]
    rfl

/-- A change of the password asks for the password that was read for the own account. -/
theorem changePassword_serves (hpages : FromPages req) {su : SessionUser} (hu : ctx.user = some su)
    (currentPassword newPassword : String) :
    Serves req t (Cleared req t .password ctx)
      (account (changePassword site.rt su.id currentPassword newPassword)) fun _ _ => True := by
  let read (r : Option User) (trace : List (HttpEvent site)) : Prop :=
    Cleared req t .password ctx trace ∧ ∀ u, r = some u → Reads req t trace su.id u
  have hread (r : Option User) : Lasting (read r) := fun e trace h =>
    ⟨Cleared.lasting _ _ h.1, fun u hr => Reads.lasting u _ _ (h.2 u hr)⟩
  refine .account_call (Q := read) Cleared.lasting hread (fun _ h => .inr (.inl (h.byUser hu)))
    (fun _ => hpages) ?_ ?_
  · intro trace s c r s' h _
    refine ⟨Cleared.lasting _ _ h, ?_⟩
    rintro u rfl
    exact ⟨s, _, List.mem_cons_self⟩
  rintro (_ | u)
  · exact .throw (hread none)
  refine .account_call (Q := fun _ => Cleared req t .password ctx) (hread _) (fun _ => Cleared.lasting)
    (fun _ h => .inr ⟨h.1.reached, su.id, u, h.1.byUser hu, h.2 u rfl, rfl⟩) (fun _ => hpages)
    (fun _ _ _ _ _ h _ => Cleared.lasting _ _ h.1) fun valid => ?_
  split
  · exact .throw Cleared.lasting
  split
  · exact .throw Cleared.lasting
  · have uses := account_uses ((renewPassword_concerns site.rt newPassword).mono
      fun _ ho => ho.allowed (e := .password) (t := t) hu hpages)
    exact (Serves.uses Cleared.lasting (fun _ h => h) uses).mono (fun _ h => h) fun _ _ _ => trivial

/-- Every handler obeys the policy, and one that signs in has opened a session when it answers. -/
theorem handle_serves (hpages : e.reads = false → FromPages req) :
    Serves req t (Cleared req t e ctx) (handle req ctx e)
      fun _ trace => e.signsIn = true → SignsIn req t trace := by
  cases hs : e.signsIn with
  | false =>
    by_cases hp : e = .password
    · subst hp
      refine .bind ((parseBody_serves Cleared.lasting _).mono (fun _ h => h) fun _ _ h => h.1) fun input => ?_
      refine .bind (Q := fun su trace => Cleared req t .password ctx trace ∧ ctx.user = some su) ?_ fun su => ?_
      · rw [signedIn]
        split
        · exact .throw Cleared.lasting
        · exact .pure Cleared.lasting fun _ h => ⟨h, ‹_›⟩
      · rintro w ⟨hw, hu⟩
        have changed := changePassword_serves (t := t) (hpages rfl) hu input.1 input.2
        have done : Serves req t (fun _ => True) (pure () : Flow Unit)
            fun _ trace => false = true → SignsIn req t trace :=
          .pure (fun _ _ _ => trivial) fun _ _ h => by cases h
        exact (Serves.bind changed fun _ => done) w hw
    · refine (Serves.uses Cleared.lasting (fun o h => h) (handle_uses hs hp hpages)).mono (fun _ h => h) ?_
      exact fun _ _ _ h => by cases h
  | true =>
    have signing {α : Type} {P : List (HttpEvent site) → Prop} (hP : Lasting P) {m : Flow α}
        (h : Serves req t P m fun _ => SignsIn req t) :
        Serves req t P (m >>= fun _ => pure ()) fun _ trace => true = true → SignsIn req t trace :=
      .bind h fun _ => .pure SignsIn.lasting fun _ h _ => h
    have admitted : Lasting (Admitted req t · .login) := Admitted.lasting _
    have parsed {α : Type} {schema : site.Body → Except Details α} {m : α → Flow Unit}
        {Q : Unit → List (HttpEvent site) → Prop}
        (h : ∀ body a, req.body = some body → schema body = .ok a →
          Serves req t (Admitted req t · .login) (m a) Q) :
        Serves req t (Cleared req t e ctx) (parseBody req schema >>= m) Q := by
      refine .bind (Q := fun a trace => Admitted req t trace .login ∧
          ∃ body, req.body = some body ∧ schema body = .ok a)
        ((parseBody_serves Cleared.lasting schema).mono (fun _ h => h)
          fun _ _ h => ⟨h.1.limit .login hs, h.2⟩) fun a => ?_
      rintro w ⟨hw, body, hb, ha⟩
      exact h body a hb ha w hw
    cases e with
    | login => exact parsed fun body a hb ha => signing admitted (login_serves (hpages rfl) hb ha)
    | redeem => exact parsed fun _ _ _ _ => signing admitted (redeem_serves (hpages rfl) _)
    | reset => exact parsed fun body a hb ha => signing admitted (accountReset_serves (hpages rfl) hb ha)
    | _ => cases hs

/-- Where a request stands after the handlers `past`, all of which have handed it on. -/
structure Standing (req : HttpRequest site) (t : Nat) (past : List Handler) (ctx : Context)
    (trace : List (HttpEvent site)) : Prop where
  user : Attached req t ctx.user trace
  signedIn : .requireAuth ∈ past → ctx.user.isSome
  admin : .requireAdmin ∈ past → ByAdmin req t trace
  limit : ∀ limiter, .rateLimit limiter ∈ past → Admitted req t trace limiter
  origin : .requireSameOrigin ∈ past → req.method.safe = true ∨ FromPages req
  attempt : ctx.attempt = true → .rateLimit .login ∈ past
  unanswered : ∀ e, .endpoint e ∉ past

theorem Standing.lasting {past : List Handler} : Lasting (Standing req t past ctx) := fun _ _ h =>
  { h with
    user := Attached.lasting _ _ _ h.user
    admin := fun hm => ByAdmin.lasting _ _ (h.admin hm)
    limit := fun limiter hm => Admitted.lasting limiter _ _ (h.limit limiter hm) }

theorem Standing.start (trace : List (HttpEvent site)) : Standing req t [] {} trace := by
  refine ⟨fun su h => ?_, ?_, ?_, ?_, ?_, ?_, ?_⟩
  · cases h
  all_goals simp

/-- What a handler has seen to when it hands the request on. -/
def Handler.Settles (req : HttpRequest site) (t : Nat) (ctx : Context) (trace : List (HttpEvent site)) :
    Handler → Prop
  | .requireAuth => ctx.user.isSome
  | .requireAdmin => ByAdmin req t trace
  | .rateLimit limiter => Admitted req t trace limiter
  | .requireSameOrigin => req.method.safe = true ∨ FromPages req
  | .endpoint _ => False
  | _ => True

theorem Standing.next {past : List Handler} {h : Handler} {ctx' : Context} {trace : List (HttpEvent site)}
    (hs : Standing req t past ctx trace) (user : Attached req t ctx'.user trace)
    (keeps : ctx.user.isSome → ctx'.user.isSome)
    (attempt : ctx'.attempt = true → ctx.attempt = true ∨ h = .rateLimit .login)
    (settles : h.Settles req t ctx' trace) : Standing req t (past ++ [h]) ctx' trace where
  user := user
  signedIn hm := (List.mem_append.mp hm).elim (fun hm => keeps (hs.signedIn hm)) fun hm => by
    obtain rfl := List.mem_singleton.mp hm
    exact settles
  admin hm := (List.mem_append.mp hm).elim hs.admin fun hm => by
    obtain rfl := List.mem_singleton.mp hm
    exact settles
  limit limiter hm := (List.mem_append.mp hm).elim (hs.limit limiter) fun hm => by
    obtain rfl := List.mem_singleton.mp hm
    exact settles
  origin hm := (List.mem_append.mp hm).elim hs.origin fun hm => by
    obtain rfl := List.mem_singleton.mp hm
    exact settles
  attempt ha := List.mem_append.mpr ((attempt ha).imp hs.attempt fun e => List.mem_singleton.mpr e.symm)
  unanswered e hm := (List.mem_append.mp hm).elim (hs.unanswered e) fun hm => by
    obtain rfl := List.mem_singleton.mp hm
    exact settles

/-- A handler that hands on what it was given. -/
theorem Standing.same {past : List Handler} {h : Handler} {trace : List (HttpEvent site)}
    (hs : Standing req t past ctx trace) (settles : h.Settles req t ctx trace) :
    Standing req t (past ++ [h]) ctx trace := hs.next hs.user id .inl settles

theorem Serves.map {α β : Type} {P : List (HttpEvent site) → Prop} {m : Flow α} {f : α → β}
    {Q : β → List (HttpEvent site) → Prop} (hQ : ∀ b, Lasting (Q b))
    (h : Serves req t P m fun a => Q (f a)) : Serves req t P (f <$> m) Q := by
  intro w hw
  refine Program.Safe.bind (p := m.run) ((h w hw).mono ?_)
  rintro (e | a) v hv
  · exact fun _ _ => trivial
  · exact fun u hu => lasting_stable (hQ _) v u hu hv

/-- Where the request stands after a handler, or that it has been answered. -/
def After (req : HttpRequest site) (t : Nat) (past : List Handler) (ctx : Context) (h : Handler)
    (r : Option Context) (trace : List (HttpEvent site)) : Prop := match r with
  | some ctx' => Standing req t (past ++ [h]) ctx' trace
  | none => ctx.attempt = true → SignsIn req t trace

theorem After.lasting {past : List Handler} {h : Handler} (r : Option Context) :
    Lasting (After req t past ctx h r) := fun e trace ha => by
  cases r with
  | none => exact fun hc => SignsIn.lasting _ _ (ha hc)
  | some ctx' => exact Standing.lasting e trace ha

/-- Where an attempt is on, the limit on sign-ins came just before, and so a handler that signs in is
next. -/
theorem Standing.next_signsIn {past rest : List Handler} {h : Handler} {trace : List (HttpEvent site)}
    (hs : Standing req t past ctx trace) (hchain : req.chain = past ++ h :: rest) (ha : ctx.attempt = true) :
    ∃ e, h = .endpoint e ∧ e.signsIn = true := by
  obtain ⟨pre, mid, rfl⟩ := List.append_of_mem (hs.attempt ha)
  obtain ⟨e, tail, he, hsigns⟩ := req.placed.limit pre (mid ++ h :: rest) (by simpa using hchain)
  cases mid with
  | nil =>
    cases he
    exact ⟨e, rfl, hsigns⟩
  | cons x mid =>
    obtain ⟨rfl, -⟩ := List.cons.inj he
    exact absurd (by simp) (hs.unanswered e)

/-- The endpoint of a chain finds its guards settled. -/
theorem endpoint_serves {past rest : List Handler} {e : Endpoint}
    (hchain : req.chain = past ++ .endpoint e :: rest) :
    Serves req t (Standing req t past ctx) ((Handler.endpoint e).run req ctx)
      (After req t past ctx (.endpoint e)) := by
  have guarded (g : Guard) (hg : g.covers e = true) : g.middleware ∈ past := by
    obtain ⟨x, hx, rfl⟩ := req.led g past _ rest hchain hg
    simpa using hx
  intro w hw
  have cleared : Cleared req t e ctx w.trace := by
    refine ⟨by simp [hchain], hw.user, fun he => hw.admin (guarded .admin he), fun he => ?_,
      fun limiter he => hw.limit limiter (guarded (.limit limiter) he)⟩
    obtain ⟨su, hsu⟩ := Option.isSome_iff_exists.mp (hw.signedIn (guarded .user he))
    exact (hw.user su hsu).elim fun u hu => ⟨su.id, u, hu.1⟩
  have pages (he : e.reads = false) : FromPages req := by
    refine (hw.origin (guarded .origin (by simpa [Guard.covers] using he))).resolve_left fun hm => ?_
    have := req.placed.reads e (by simp [hchain]) he
    rw [hm] at this
    cases this
  have attempted (ha : ctx.attempt = true) : e.signsIn = true := by
    obtain ⟨x, hx, hs⟩ := hw.next_signsIn hchain ha
    cases hx
    exact hs
  have served : Serves req t (Cleared req t e ctx) ((Handler.endpoint e).run req ctx)
      (After req t past ctx (.endpoint e)) := by
    refine .map After.lasting ((handle_serves pages).mono (fun _ h => h) ?_)
    exact fun _ _ h ha => h (attempted ha)
  exact served w cleared

/-- A handler of the chain, from where the ones before it leave the request. -/
theorem handler_serves {past rest : List Handler} {h : Handler} (hchain : req.chain = past ++ h :: rest) :
    Serves req t (Standing req t past ctx) (h.run req ctx) (After req t past ctx h) := by
  have lasting : Lasting (Standing req t past ctx) := Standing.lasting
  cases h with
  | json =>
    show Serves req t _ (if req.body.isNone then _ else _) _
    split
    · exact .throw lasting
    · exact .pure lasting fun trace h => h.same trivial
  | rateLimit limiter =>
    refine .map After.lasting ?_
    let counted (n : Nat) (trace : List (HttpEvent site)) : Prop :=
      Standing req t past ctx trace ∧ (n ≤ limiter.limit → Admitted req t trace limiter)
    have hcounted (n : Nat) : Lasting (counted n) := fun e trace h =>
      ⟨lasting e trace h.1, fun hn => Admitted.lasting limiter e trace (h.2 hn)⟩
    refine .bind (Q := counted)
      (Serves.call lasting hcounted (fun _ _ => rfl) (fun h => by cases h) ?_) fun n => ?_
    · exact fun trace s c n s' h _ => ⟨lasting _ _ h, fun hn => ⟨n, hn, s, s', List.mem_cons_self⟩⟩
    split
    · cases limiter <;> exact .throw (hcounted n)
    · have hn : n ≤ limiter.limit := Nat.le_of_not_lt ‹_›
      cases limiter with
      | login => exact .pure (hcounted n) fun trace h => h.1.next h.1.user id (fun _ => .inr rfl) (h.2 hn)
      | api => exact .pure (hcounted n) fun trace h => h.1.same (h.2 hn)
  | requireSameOrigin =>
    refine .map After.lasting ?_
    rw [requireSameOrigin]
    split
    · exact .pure lasting fun trace h => h.same (.inl ‹_›)
    split
    · exact .throw lasting
    · exact .pure lasting fun trace h => h.same (.inr (Classical.not_not.mp ‹_›))
  | attachUser =>
    refine .map After.lasting ((attachUser_serves lasting fun _ h => h.user).mono (fun _ h => h) ?_)
    exact fun ctx' trace h => h.1.next h.2.1 h.2.2.2 (fun ha => .inl (h.2.2.1 ▸ ha)) trivial
  | requireAuth =>
    refine .map After.lasting ?_
    rw [requireAuth]
    split
    · exact .throw lasting
    · rename_i su hu
      exact .pure lasting fun trace h => h.same (Option.isSome_iff_exists.mpr ⟨su, hu⟩)
  | requireAdmin =>
    refine .map After.lasting ?_
    rw [requireAdmin]
    split
    · exact .throw lasting
    split
    · exact .throw lasting
    · rename_i su hu hrole
      refine .pure lasting fun trace h => h.same ?_
      obtain ⟨u, hu, hr⟩ := h.user su hu
      exact ⟨su.id, u, hu, hr ▸ Classical.not_not.mp hrole⟩
  | endpoint e => exact endpoint_serves hchain
  | options =>
    refine .pure lasting fun trace h ha => ?_
    obtain ⟨e, he, -⟩ := h.next_signsIn hchain ha
    cases he
  | undecodable => exact .throw lasting
  | notFound => exact .throw lasting

/-- The rest of the chain: an attempt that is still on when the answer is there has signed in. -/
theorem through_serves {past rest : List Handler} (hchain : req.chain = past ++ rest) :
    Serves req t (Standing req t past ctx) (through req rest ctx)
      fun ctx' trace => ctx'.attempt = true → SignsIn req t trace := by
  induction rest generalizing past ctx with
  | nil => exact .throw Standing.lasting
  | cons h rest ih =>
    refine .bind (handler_serves hchain) ?_
    rintro (_ | ctx')
    · exact .pure (After.lasting none) fun trace ha => ha
    · have hnext : req.chain = (past ++ [h]) ++ rest := by simpa using hchain
      exact ih hnext

/-- The whole request. -/
theorem serve_serves : Serves req t (fun _ => True) (serve req) fun _ _ => True := by
  have always : Lasting fun _ : List (HttpEvent site) => True := fun _ _ _ => trivial
  have whole : Serves req t (Standing req t [] {}) (through req req.chain {})
      fun ctx trace => ctx.attempt = true → SignsIn req t trace := through_serves rfl
  refine .bind (whole.mono (fun trace _ => .start trace) fun _ _ h => h) fun ctx => ?_
  have signed : Lasting fun trace : List (HttpEvent site) => ctx.attempt = true → SignsIn req t trace :=
    fun e trace h ha => SignsIn.lasting e trace (h ha)
  split
  · exact Serves.call signed (fun _ => always) (fun trace h => ⟨rfl, rfl, h ‹_›⟩) (fun h => by cases h)
      fun _ _ _ _ _ _ _ => trivial
  · exact .pure signed fun _ _ => trivial

end

section
variable {site : Site}

/-- Threads as the application starts them. -/
inductive Begins (site : Site) : Thread (Task site) Op Reply Answer → Prop
  | request (req : HttpRequest site) : Begins site ⟨.request req, (serve req).run⟩
  | prune : Begins site ⟨.prune, prune.run⟩

theorem system_exec {s s' : State} {k : Task site} {o : Op} {c : Choice} {r : Reply o}
    {ths : List (Thread (Task site) Op Reply Answer)}
    (h : (system site).exec s k o c = some (r, s', ths)) : call site.rt s c o = (r, s') ∧ ths = [] := by
  obtain ⟨hr, hs, ht⟩ := by simpa [system] using h
  exact ⟨Prod.ext hr hs, ht⟩

theorem arrive_begins {s s' : State} {x : Arrival site} {dies : Bool}
    {ths : List (Thread (Task site) Op Reply Answer)}
    (h : (system site).external s x = some (s', dies, ths)) : ∀ th ∈ ths, Begins site th := by
  obtain rfl : ths = (arrive s x).2.2 := by rw [Option.some.inj h]
  intro th hth
  cases x with
  | request req =>
    obtain rfl := List.mem_singleton.mp hth
    exact .request req
  | window limiter ip => cases hth
  | restart =>
    obtain rfl := List.mem_singleton.mp hth
    exact .prune

theorem system_begins (site : Site) : (system site).Spawns (Begins site) where
  exec he _ hth := by
    obtain ⟨-, rfl⟩ := system_exec he
    cases hth
  finish _ _ _ _ hth := by cases hth
  external he := arrive_begins he

theorem policies_safe {th : Thread (Task site) Op Reply Answer} (h : Begins site th) (t : Nat)
    (w : HttpWorld site) : (policies site).discipline.SafeThread t th w := by
  cases h with
  | request req => exact (serve_serves (t := t) w trivial).mono fun _ _ _ => trivial
  | prune =>
    have uses : prune.run.Uses fun o => o = .pruneExpiredSessions ∨ o = .auth .pruneExpiredResets :=
      .except_bind (.invoke (.inl rfl)) fun _ => .except_bind (.invoke (.inr rfl)) fun _ => trivial
    exact (Program.Safe.of_uses (fun w o r w' ho _ => ho) uses).mono fun _ _ _ => trivial

/-- Every call was permitted at its moment. -/
def Obeyed (trace : List (HttpEvent site)) : Prop :=
  ∀ new t k o r s s' old, trace = new ++ .did t k o r s s' :: old → Obeys t old o k

theorem Obeyed.nil : Obeyed ([] : List (HttpEvent site)) := fun new t k o r s s' old h => by simp at h

theorem Obeyed.cons {e : HttpEvent site} {trace : List (HttpEvent site)} (h : Obeyed trace)
    (he : ∀ t k o r s s', e = .did t k o r s s' → Obeys t trace o k) : Obeyed (e :: trace) := by
  intro new t k o r s s' old hd
  rcases List.cons_eq_append_iff.mp hd with ⟨rfl, hd⟩ | ⟨new', rfl, htrace⟩
  · obtain ⟨rfl, rfl⟩ := List.cons.inj hd
    exact he t k o r s s' rfl
  · exact h new' t k o r s s' old htrace

theorem policies_keeps : (policies site).Keeps (system site) (fun _ _ => True) fun p => Obeyed p.trace where
  may _ _ _ he := ⟨_, (system_exec he).1⟩
  exec hI _ _ he hg := by
    obtain ⟨-, rfl⟩ := system_exec he
    refine ⟨?_, fun _ _ _ _ => trivial, fun th hth => by cases hth⟩
    rw [Pool.didCall_trace]
    refine hI.cons fun t k o r s s' e => ?_
    cases e
    exact hg
  finish hI _ _ _ := by
    refine ⟨?_, fun _ _ _ _ => trivial, fun th hth => by cases hth⟩
    rw [Pool.didEnd_trace]
    exact hI.cons fun t k o r s s' e => by cases e
  external hI _ he := by
    refine ⟨?_, fun _ _ _ _ => trivial, fun th hth t _ => policies_safe (arrive_begins he th hth) t _⟩
    rw [Pool.didOuter_trace]
    exact hI.cons fun t k o r s s' e => by cases e

theorem obeyed_run {s : State} {p : HttpPool site}
    (hr : (system site).Runs (fun _ _ => True) (.initial s) p) : Obeyed p.trace :=
  (policies_keeps.keeps.safe .nil (Discipline.allSafe_initial _ s) hr).1

end

/-- An administrator with a session, and a user. -/
def adminAndUser : Store where
  users := (Table.empty.insert ⟨"a", "A", "pw", .ADMIN, false⟩).insert ⟨"b", "B", "pw", .USER, false⟩
  sessions := Table.empty.insert ⟨"token", 0, 100⟩
  invites := .empty
  resets := .empty

/-- The newest event is the call `o` of thread `t`, for a request that satisfies `f`. -/
def newest {site : Site} (t : Nat) (o : Op) (f : HttpRequest site → Bool) : List (HttpEvent site) → Bool
  | .did u (.request req) a _ _ _ :: _ => u = t && a = o && f req
  | _ => false

theorem newest_did {site : Site} {t : Nat} {o : Op} {f : HttpRequest site → Bool}
    {trace : List (HttpEvent site)} (h : newest t o f trace = true) :
    ∃ req r s s' old, trace = .did t (.request req) o r s s' :: old ∧ f req = true := by
  rw [newest.eq_def] at h
  split at h
  · rename_i u req a r s s' old
    obtain ⟨hua, hf⟩ := Bool.and_eq_true_iff.mp h
    obtain ⟨hu, ha⟩ := Bool.and_eq_true_iff.mp hua
    obtain rfl := of_decide_eq_true hu
    obtain rfl := of_decide_eq_true ha
    exact ⟨req, r, s, s', old, rfl, hf⟩
  · cases h

end CircleFtp.Http
