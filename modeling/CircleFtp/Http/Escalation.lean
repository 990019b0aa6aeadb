import CircleFtp.Auth.Invites
import CircleFtp.Auth.Lockout
import CircleFtp.Http.Mediation

/-! No escalation: administrators only come from administrators. -/
namespace CircleFtp.Http
open Concurrent
open Auth (Runtime Store User Invite HasActiveAdmin activeAdmin)

/-- No active administrator, and no invite that would make one. -/
structure Sealed (s : Store) : Prop where
  users : ¬ HasActiveAdmin s
  invites : ∀ i v, s.invites.rows i = some v → v.role = .ADMIN → v.usedById.isSome

/-- The calls that reach for who is an administrator. -/
def governs : Auth.Op → Bool
  | .createUser _ | .deleteUser _ | .createInvite _ => true
  | .updateUser _ changes => changes.role.isSome || changes.disabled.isSome
  | _ => false

theorem modify_without {s : Store} {users : Table User} {id : Nat} {f : User → User}
    (h : ¬ HasActiveAdmin s) (hf : ∀ u, (f u).activeAdmin = u.activeAdmin)
    (hu : users = s.users.modify id f) : ¬ ∃ i u, users.rows i = some u ∧ u.activeAdmin = true := by
  subst hu
  rintro ⟨i, u, hu, ha⟩
  obtain ⟨v, hv, rfl⟩ := Table.modify_rows.mp hu
  refine h ⟨i, v, hv, ?_⟩
  split at ha
  · rwa [hf] at ha
  · exact ha

theorem apply_name {changes : Auth.UpdateUserOptions}
    (h : (changes.role.isSome || changes.disabled.isSome) = false) (u : User) :
    (u.apply changes).activeAdmin = u.activeAdmin := by
  obtain ⟨name, role, disabled⟩ := changes
  obtain ⟨hr, hd⟩ := Bool.or_eq_false_iff.mp h
  obtain rfl : role = none := by simpa using hr
  obtain rfl : disabled = none := by simpa using hd
  rfl

/-- An invite that can be redeemed is not for an administrator. -/
theorem redeem_sealed {s : Store} (h : Sealed s) (input : Auth.RedeemInviteInput) (now : Nat) :
    Sealed (s.redeemInvite input now).2 := by
  rw [Store.redeemInvite]
  split
  · exact h
  rename_i i v hf
  obtain ⟨hv, -⟩ := Auth.findInviteByCode_some hf
  split
  · exact h
  rename_i hused
  have hrole : v.role ≠ .ADMIN := fun hr => hused (h.invites i v hv hr)
  split
  · exact h
  split
  · exact h
  simp only
  split
  · exact h
  refine ⟨?_, fun j w hw hr => ?_⟩
  · rintro ⟨j, u, hu, ha⟩
    rcases Table.insert_rows hu with ⟨-, rfl⟩ | ⟨-, hu⟩
    · simp [User.activeAdmin, hrole] at ha
    · exact h.users ⟨j, u, hu, ha⟩
  · obtain ⟨x, hx, he⟩ := Table.mapMany_rows.mp hw
    obtain rfl := Option.some.inj he
    split
    · rfl
    · rename_i hn
      rw [if_neg hn] at hr
      exact h.invites j x hx hr

/-- The other calls that write accounts. -/
def writesUser : Auth.Op → Bool
  | .updateUser _ _ | .setPasswordHash _ _ | .redeemInvite _ | .redeemPasswordReset _ _ => true
  | _ => false

theorem perform_users (rt : Runtime) (s : Store) (c : Auth.Choice) {o : Auth.Op} (ho : governs o = false)
    (hw : writesUser o = false) : (Auth.perform rt s c o).2.users = s.users := by
  cases o <;> simp only [governs, writesUser, Bool.true_eq_false] at ho hw <;> try rfl
  all_goals simp only [Auth.perform, Auth.onRow, Auth.ifFree]
  all_goals repeat' split
  all_goals rfl

theorem perform_without (rt : Runtime) {s : Store} (c : Auth.Choice) {o : Auth.Op} (ho : governs o = false)
    (h : Sealed s) : ¬ HasActiveAdmin (Auth.perform rt s c o).2 := by
  by_cases hw : writesUser o = false
  · rw [HasActiveAdmin]
    simp only [activeAdmin, perform_users rt s c ho hw]
    exact h.users
  cases o <;> simp only [writesUser, not_true_eq_false, Bool.true_eq_false] at hw
  case updateUser id changes =>
    simp only [Auth.perform, Auth.onRow]
    split
    · exact h.users
    · exact modify_without h.users (apply_name ho) rfl
  case setPasswordHash id passwordHash =>
    simp only [Auth.perform, Auth.onRow]
    split
    · exact h.users
    · exact modify_without (f := fun u => { u with passwordHash }) h.users (fun _ => rfl) rfl
  case redeemInvite input => exact (redeem_sealed h input c.now).users
  case redeemPasswordReset tokenHash passwordHash =>
    rw [Auth.perform]
    rcases Auth.redeemPasswordReset_cases s tokenHash passwordHash c.now with ⟨e, he⟩ | ⟨i, r, -, hr⟩
    · rw [he]
      exact h.users
    · refine modify_without h.users ?_ hr.users
      exact fun _ => rfl

theorem perform_sealed (rt : Runtime) {s : Store} (c : Auth.Choice) {o : Auth.Op} (ho : governs o = false)
    (h : Sealed s) : Sealed (Auth.perform rt s c o).2 := by
  refine ⟨perform_without rt c ho h, ?_⟩
  by_cases hi : o.invites = false
  · rw [Auth.perform_invites rt s c hi]
    exact h.invites
  cases o <;> simp only [Auth.Op.invites, not_true_eq_false, Bool.true_eq_false] at hi
  case createInvite => cases ho
  case deleteUser => cases ho
  case deleteInvite id =>
    simp only [Auth.perform, Auth.onRow]
    split
    · exact h.invites
    · exact fun i v hv => h.invites i v (Table.erase_rows.mp hv).2
  case redeemInvite input => exact (redeem_sealed h input c.now).invites

/-- Calls of the application that are not for administrators. -/
theorem call_sealed {rt : Runtime} {s s' : State} {c : Choice} {o : Op} {r : Reply o}
    (h : Sealed s.store) (hc : call rt s c o = (r, s')) (ho : ∀ a, o = .auth a → governs a = false) :
    Sealed s'.store := by
  obtain rfl : (call rt s c o).2 = s' := congrArg Prod.snd hc
  cases o with
  | auth a => exact Auth.call_keep (fun c => perform_sealed rt c (ho a rfl) h) h c.auth
  | increment | decrement | elsewhere => exact h
  | _ =>
    simp only [call, State.query]
    split
    · exact h
    · exact ⟨h.users, h.invites⟩

section
variable {site : Site} {s : State} {p : HttpPool site}

/-- Nobody presents an administrator where there has been none. -/
theorem no_admin_presented {req : HttpRequest site} {t : Nat} {trace : List (HttpEvent site)}
    (h : ∀ e ∈ trace, Sealed e.before.store) : ¬ ByAdmin req t trace := by
  rintro ⟨id, u, ⟨token, i, x, now, v, v', w, w', -, -, -, -, hu, hd, -, hs⟩, hr⟩
  have hm := hs.subset (List.mem_cons_of_mem _ List.mem_cons_self)
  exact (h _ hm).users ⟨id, u, hu, by simp [User.activeAdmin, hr, hd]⟩

theorem governs_admin {req : HttpRequest site} {t : Nat} {trace : List (HttpEvent site)} {a : Auth.Op}
    (h : Permitted req t trace (.auth a)) (ha : governs a = true) : ByAdmin req t trace := by
  cases a <;> simp only [governs, Bool.false_eq_true] at ha
  case updateUser id changes =>
    refine h.resolve_right fun h => ?_
    simp [h.2.1, h.2.2] at ha
  all_goals exact h

/-- The accounts of a pool are sealed, and have been all along. -/
def Always (p : HttpPool site) : Prop := Sealed p.state.store ∧ ∀ e ∈ p.trace, Sealed e.before.store

theorem always_step {p p' : HttpPool site} {l : Label Choice (Arrival site)} (h : Always p)
    (ho : Obeyed p'.trace) (hst : (system site).step p l = some p') : Always p' := by
  rcases (system site).step_cases hst with
    ⟨t, k, o, rest, c, r, s, ths, -, -, he, rfl⟩ | ⟨t, k, a, -, -, rfl⟩ | ⟨x, s, dies, ths, -, he, rfl⟩
  · rw [Pool.didCall_trace] at ho
    have obeys : Obeys t p.trace o k := ho [] t k o r p.state s p.trace rfl
    refine ⟨?_, ?_⟩
    · rw [Pool.didCall_state]
      refine call_sealed h.1 (system_exec he).1 ?_
      rintro a rfl
      cases k with
      | request req => exact Bool.eq_false_iff.mpr fun ha => no_admin_presented h.2 (governs_admin obeys.1 ha)
      | prune =>
        obtain rfl : a = .pruneExpiredResets := by simpa [Obeys] using obeys
        rfl
    · rw [Pool.didCall_trace]
      exact List.forall_mem_cons.mpr ⟨h.1, h.2⟩
  · refine ⟨by rw [Pool.didEnd_state]; exact h.1, ?_⟩
    rw [Pool.didEnd_trace]
    exact List.forall_mem_cons.mpr ⟨h.1, h.2⟩
  · obtain rfl : (arrive p.state x).1 = s := congrArg Prod.fst (Option.some.inj he)
    refine ⟨?_, ?_⟩
    · rw [Pool.didOuter_state]
      cases x <;> exact h.1
    · rw [Pool.didOuter_trace]
      exact List.forall_mem_cons.mpr ⟨h.1, h.2⟩

/-- Where nobody is an active administrator and no open invite is for one, it stays so: no requests, in
whatever order, make one, enable one again or open such an invite. -/
theorem stays_sealed (site : Site) {s : State} {p : HttpPool site} (hs : Sealed s.store)
    (hr : (system site).Runs (fun _ _ => True) (.initial s) p) : Sealed p.state.store := by
  have start : Always (.initial s : HttpPool site) := ⟨hs, fun e he => absurd he List.not_mem_nil⟩
  suffices Always p from this.1
  induction hr with
  | refl => exact start
  | tail hr hst ih =>
    have ho := obeyed_run (hr.tail hst)
    obtain ⟨l, -, hst⟩ := hst
    exact always_step ih ho hst

end

/-- A disabled administrator who still has a session, and a user. -/
def lockedOut : Store where
  users := (Table.empty.insert ⟨"a", "A", "pw", .ADMIN, true⟩).insert ⟨"b", "B", "pw", .USER, false⟩
  sessions := (Table.empty.insert ⟨"token", 0, 100⟩).insert ⟨"other", 1, 100⟩
  invites := Table.empty.insert ⟨"code", .USER, none, 100, some 0, none, none⟩
  resets := .empty

theorem lockedOut_sealed : Sealed lockedOut := by
  refine ⟨by decide, fun i v hv hr => ?_⟩
  rcases Table.insert_rows hv with ⟨-, rfl⟩ | ⟨-, hv⟩
  · cases hr
  · cases hv

/-- The one is refused, the other signs out elsewhere. -/
theorem stays_sealed_refused : ∃ p,
    (system .small).Runs (fun _ _ => True) (.initial ⟨lockedOut, fun _ _ => 0⟩) p ∧
      p.state.store.sessions.rows 2 = some ⟨"new", 1, 1000⟩ ∧ Sealed p.state.store := by
  have hrun : ((system .small).replay (fun _ _ => true) (.initial ⟨lockedOut, fun _ _ => 0⟩)
      ([.external (.request (pageRequest .DELETE ["api", "admin", "users", "b"] (some "token") []))] ++
        List.replicate 9 (.exec 0 {}) ++ [.finish 0] ++
        [.external (.request (pageRequest .POST ["api", "account", "sessions", "revoke-others"]
          (some "other") []))] ++
        List.replicate 11 (.exec 1 { auth := { random := "new" } }))).any (fun p =>
          p.state.store.sessions.rows 2 = some ⟨"new", 1, 1000⟩) = true := by decide
  obtain ⟨p, hp, hn⟩ := Option.any_eq_true _ _ |>.mp hrun
  have hr := (system .small).replay_runs (C := fun _ _ => True) (fun _ _ _ => trivial) hp
  exact ⟨p, hr, of_decide_eq_true hn, stays_sealed .small lockedOut_sealed hr⟩

end CircleFtp.Http
