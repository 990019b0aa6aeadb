import CircleFtp.Auth.Requests
import CircleFtp.Concurrent.History

/-! Lock-out protection: the guard of `updateUser` and `deleteUser` is a count, read in one call
and acted on in a later one. -/
namespace CircleFtp.Auth
open Concurrent

def activeAdmin (s : Store) (i : Nat) : Prop := ∃ u, s.users.rows i = some u ∧ u.activeAdmin = true

def HasActiveAdmin (s : Store) : Prop := ∃ i, activeAdmin s i

instance (s : Store) : Decidable (HasActiveAdmin s) :=
  decidable_of_iff (s.users.count (fun _ u => u.activeAdmin) ≠ 0) Table.count_ne_zero

/-- An event that takes an account out of the active administrators, or makes the target one. -/
def Disturbs (target : Nat) (e : AuthEvent) : Prop :=
  (∃ i, activeAdmin e.before i ∧ ¬ activeAdmin e.after i) ∨
  (¬ activeAdmin e.before target ∧ activeAdmin e.after target)

/-- Since the first event of request `t`, no other request disturbed the target. -/
def Undisturbed (trace : List AuthEvent) (t target : Nat) : Prop :=
  History.Since (¬ Disturbs target ·) trace t

def UpdateUserOptions.demotes (changes : UpdateUserOptions) : Bool :=
  changes.role = some .USER || changes.disabled = some true

/-- The account that a call may take out of the active administrators. -/
def Op.demotes : Op → Option Nat
  | .updateUser id changes => if changes.demotes then some id else none
  | .deleteUser id => some id
  | _ => none

/-- No request demotes, disables or deletes its target after another one disturbed it since the
request's first read. -/
def NoOverlap (p : AuthPool) : AuthLabel → Prop
  | .exec t _ => ∀ k o rest id, p.threads t = some ⟨k, .call o rest⟩ → o.demotes = some id →
      Undisturbed p.trace t id
  | _ => True

/-- Writing to the account `id` cannot leave nobody: it is no active administrator, or
another account is one. -/
def Covered (id : Nat) (s : Store) : Prop :=
  ¬ activeAdmin s id ∨ ∃ j, j ≠ id ∧ activeAdmin s j

/-- The request has begun, and as long as it is undisturbed its target is covered. -/
def Guarded (t id : Nat) (w : AuthWorld) : Prop :=
  History.Guarded (¬ Disturbs id ·) (fun v => Covered id v.state) t w

theorem covered_keep {id : Nat} {e : AuthEvent} (hd : ¬ Disturbs id e)
    (h : Covered id e.before) : Covered id e.after := by
  rcases h with h | ⟨j, hj, ha⟩
  · exact .inl fun hn => hd (.inr ⟨h, hn⟩)
  · refine .inr ⟨j, hj, ?_⟩
    by_contra hn
    exact hd (.inl ⟨j, ha, hn⟩)

/-- What the others do in the meantime keeps a guarded request guarded. -/
theorem Guarded.stable {P : AuthWorld → AuthEvent → Prop} {t id : Nat} {w w' : AuthWorld}
    (h : Guarded t id w) (hr : History.rely P t w w') : Guarded t id w' :=
  History.Guarded.stable (fun _ e hc hb hd => covered_keep hd (by rwa [hb])) h hr

theorem activeAdmin_modify {s : Store} {i id : Nat} {f : User → User}
    (hf : ∀ u, u.activeAdmin = true → i = id → (f u).activeAdmin = true) (h : activeAdmin s i) :
    activeAdmin { s with users := s.users.modify id f } i := by
  obtain ⟨u, hu, ha⟩ := h
  refine ⟨if i = id then f u else u, Table.modify_rows.mpr ⟨u, hu, rfl⟩, ?_⟩
  split
  · exact hf u ha ‹_›
  · exact ha

theorem apply_activeAdmin {changes : UpdateUserOptions} (hc : changes.demotes = false) {u : User}
    (h : u.activeAdmin = true) : (u.apply changes).activeAdmin = true := by
  obtain ⟨name, role, disabled⟩ := changes
  simp only [UpdateUserOptions.demotes, Bool.or_eq_false_iff, decide_eq_false_iff_not] at hc
  simp only [User.activeAdmin, User.apply, Bool.and_eq_true, decide_eq_true_eq,
    Bool.not_eq_true'] at h ⊢
  constructor
  · rcases role with _ | _ | _
    · simp [h.1]
    · rfl
    · exact absurd rfl hc.1
  · rcases disabled with _ | _ | _
    · simpa using h.2
    · rfl
    · exact absurd rfl hc.2

theorem perform_activeAdmin (rt : Runtime) (s : Store) (c : Choice) {o : Op} {i : Nat}
    (ho : o.demotes ≠ some i) (h : activeAdmin s i) : activeAdmin (perform rt s c o).2 i := by
  have ⟨u, hu, ha⟩ := h
  cases o <;> try exact h
  case createUser v =>
    simp only [perform, ifFree]
    split
    · exact h
    · exact ⟨u, Table.insert_rows_old hu, ha⟩
  case updateUser id changes =>
    simp only [perform, onRow]
    split
    · exact h
    · refine activeAdmin_modify ?_ h
      rintro u hu rfl
      exact apply_activeAdmin (by simpa [Op.demotes] using ho) hu
  case setPasswordHash id hash =>
    simp only [perform, onRow]
    split
    · exact h
    · exact activeAdmin_modify (fun u hu _ => hu) h
  case deleteUser id =>
    simp only [perform, onRow]
    split
    · exact h
    · exact ⟨u, Table.erase_rows.mpr ⟨fun e => ho (by rw [e]; rfl), hu⟩, ha⟩
  case createSession x => simp only [perform, ifFree]; split <;> exact h
  case deleteSession x => simp only [perform, onRow]; split <;> exact h
  case createInvite v => simp only [perform, ifFree]; split <;> exact h
  case deleteInvite v => simp only [perform, onRow]; split <;> exact h
  case createPasswordReset r => simp only [perform, ifFree]; split <;> exact h
  case redeemInvite input =>
    simp only [perform, Store.redeemInvite]
    repeat' split
    all_goals first | exact h | exact ⟨u, Table.insert_rows_old hu, ha⟩
  case redeemPasswordReset tokenHash hash =>
    simp only [perform, Store.redeemPasswordReset]
    repeat' split
    all_goals first | exact h | exact activeAdmin_modify (fun u hu _ => hu) h

/-- A call keeps every active administrator except the account it demotes. -/
theorem call_activeAdmin (rt : Runtime) (s : Store) (c : Choice) {o : Op} {i : Nat}
    (ho : o.demotes ≠ some i) (h : activeAdmin s i) : activeAdmin (call rt s o c).2 i :=
  call_keep (φ := fun s => activeAdmin s i) (fun c => perform_activeAdmin rt s c ho h) h c

theorem call_quiet (rt : Runtime) (s : Store) (c : Choice) {o : Op} (ho : o.demotes = none)
    (h : HasActiveAdmin s) : HasActiveAdmin (call rt s o c).2 :=
  h.imp fun _ hi => call_activeAdmin rt s c (by simp [ho]) hi

theorem call_covered (rt : Runtime) (s : Store) (c : Choice) {o : Op} {id : Nat}
    (ho : o.demotes = some id) (hc : Covered id s) (h : HasActiveAdmin s) :
    HasActiveAdmin (call rt s o c).2 := by
  have others : ∀ j, j ≠ id → activeAdmin s j → HasActiveAdmin (call rt s o c).2 := fun j hj ha =>
    ⟨j, call_activeAdmin rt s c (by simpa [ho] using fun e => hj e.symm) ha⟩
  rcases hc with hn | ⟨j, hj, ha⟩
  · obtain ⟨i, hi⟩ := h
    exact others i (fun e => hn (e ▸ hi)) hi
  · exact others j hj ha

def lockout (rt : Runtime) : Ledger Store Request Op Reply Request Response where
  admits _ _ _ _ := True
  may t _ w o r s := (∃ c, call rt w.state o c = (r, s)) ∧
    ∀ id, o.demotes = some id → Undisturbed w.trace t id
  guar _ _ w _ _ w' := HasActiveAdmin w.state → HasActiveAdmin w'.state
  post _ _ _ _ := True

section
variable {rt : Runtime} {t : Nat} {k : Request} {id : Nat} {w w' w'' : AuthWorld}

abbrev lockoutContract (rt : Runtime) (t : Nat) (k : Request) : Contract AuthWorld Op Reply :=
  (lockout rt).discipline.contract t k

abbrev anyError : Err → AuthWorld → Prop := fun _ _ => True

theorem lockout_quiet {o : Op} {r : Reply o} (ho : o.demotes = none)
    (ha : (lockoutContract rt t k).act w o r w') : (lockoutContract rt t k).guar w o r w' := by
  obtain ⟨-, ⟨c, hc⟩, -⟩ := ha
  intro h
  have := call_quiet rt w.state c ho h
  rwa [hc] at this

/-- A guarded request may write. -/
theorem lockout_guarded {o : Op} {r : Reply o} (ho : o.demotes = none ∨ o.demotes = some id)
    (hg : o.demotes = some id → Guarded t id w) (ha : (lockoutContract rt t k).act w o r w') :
    (lockoutContract rt t k).guar w o r w' := by
  rcases ho with ho | ho
  · exact lockout_quiet ho ha
  · obtain ⟨-, ⟨c, hc⟩, hu⟩ := ha
    intro h
    have := call_covered rt w.state c ho ((hg ho).2 (hu id ho)) h
    rwa [hc] at this

/-- A reading call that finds the target covered makes the request guarded. -/
theorem guarded_read {o : Op} {r : Reply o} (ha : (lockoutContract rt t k).act w o r w')
    (hs : w'.state = w.state) (hc : Covered id w.state) : Guarded t id w' :=
  History.Guarded.read ha.1 (by simpa only [hs] using hc)

theorem act_perform {o : Op} {a : Val o} (ha : (lockoutContract rt t k).act w o (.ok a) w') :
    ∃ c, perform rt w.state c o = (.ok a, w'.state) := ha.2.1.imp fun _ hc => call_ok hc

theorem act_findUser {u : Option User}
    (ha : (lockoutContract rt t k).act w (.findUser id) (.ok u) w') :
    u = w.state.users.rows id ∧ w'.state = w.state := by
  obtain ⟨c, hc⟩ := act_perform ha
  simp only [perform, Prod.mk.injEq, Except.ok.injEq] at hc
  exact ⟨hc.1.symm, hc.2.symm⟩

theorem act_count {n : Nat} (ha : (lockoutContract rt t k).act w (.activeAdminCount id) (.ok n) w')
    (hn : n ≠ 0) : Covered id w.state ∧ w'.state = w.state := by
  obtain ⟨c, hc⟩ := act_perform ha
  simp only [perform, Prod.mk.injEq, Except.ok.injEq] at hc
  obtain ⟨j, u, hu, hp⟩ := Table.count_ne_zero.mp (hc.1 ▸ hn)
  simp only [Bool.and_eq_true, decide_eq_true_eq] at hp
  exact ⟨.inr ⟨j, hp.1, u, hu, hp.2⟩, hc.2.symm⟩

theorem covered_row {s : Store} {u : User} (hu : s.users.rows id = some u)
    (h : u.activeAdmin = false) : Covered id s := by
  left
  rintro ⟨v, hv, ha⟩
  rw [hu] at hv
  cases hv
  simp [h] at ha

theorem assertNotLastAdmin_safe (action : String) : (assertNotLastAdmin id action).run.Safe
    (lockoutContract rt t k) (Program.split (fun _ => Guarded t id) anyError) w := by
  refine Program.Safe.invoke_bind fun w₁ hw₁ r w₂ ha => ⟨lockout_quiet rfl ha, ?_⟩
  rcases r with e | _ | u
  · exact fun _ _ => trivial
  · obtain ⟨hu, hs⟩ := act_findUser ha
    refine fun v hv => (guarded_read ha hs ?_).stable hv
    exact .inl fun ⟨u, h, _⟩ => by rw [← hu] at h; cases h
  · obtain ⟨hu, hs⟩ := act_findUser ha
    simp only
    split
    · rename_i hr
      refine fun v hv => (guarded_read ha hs (covered_row hu.symm ?_)).stable hv
      rcases hr with hr | hr
      · simp [User.activeAdmin, hr]
      · simp [User.activeAdmin, hr]
    · refine Program.Safe.invoke_bind fun w₃ hw₃ r w₄ ha => ⟨lockout_quiet rfl ha, ?_⟩
      rcases r with e | n
      · exact fun _ _ => trivial
      · simp only
        split
        · exact fun _ _ => trivial
        · obtain ⟨hc, hs⟩ := act_count ha ‹_›
          exact fun v hv => (guarded_read ha hs hc).stable hv

/-- Once the guards have passed, a demoting update is guarded. -/
theorem guardUpdate_safe {u : User} {changes : UpdateUserOptions} {current : Nat}
    (hu : u.activeAdmin = false → Guarded t id w) : (guardUpdate id u changes current).run.Safe
      (lockoutContract rt t k)
      (Program.split (fun _ v => changes.demotes = true → Guarded t id v) anyError) w := by
  have second : ∀ v, (changes.role = some .USER → Guarded t id v) →
      ((if changes.disabled = some true then
          if id = current then fail (.badRequest "You cannot disable your own account")
          else assertNotLastAdmin id "disabling them"
        else pure () : Flow Unit)).run.Safe (lockoutContract rt t k)
      (Program.split (fun _ v => changes.demotes = true → Guarded t id v) anyError) v := by
    intro v hv
    split
    · split
      · exact fun _ _ => trivial
      · refine (assertNotLastAdmin_safe _).mono ?_
        rintro (e | _) v' hv'
        · trivial
        · exact fun _ => hv'
    · intro v' hr hd
      exact (hv (by simp_all [UpdateUserOptions.demotes])).stable hr
  rw [guardUpdate]
  split
  · refine Program.Safe.except_bind (fun _ _ _ _ _ => trivial) ?_
    refine (assertNotLastAdmin_safe _).mono ?_
    rintro (e | _) v hv
    · trivial
    · exact second v fun _ => hv
  · rename_i hr
    refine second w fun hrole => hu ?_
    simp only [not_and, hrole, forall_const] at hr
    simp [User.activeAdmin, hr]

theorem getAdminUser_safe {post : User → AuthWorld → Prop} (hp : ∀ u v, post u v) :
    (getAdminUser id).run.Safe (lockoutContract rt t k) (Program.split post anyError) w := by
  refine Program.Safe.invoke_bind fun w₁ _ r w₂ ha => ⟨lockout_quiet rfl ha, ?_⟩
  rcases r with e | _ | u
  · exact fun _ _ => trivial
  · exact fun _ _ => trivial
  · exact fun v _ => hp u v

theorem updateUser_safe (changes : UpdateUserOptions) (current : Nat) :
    (updateUser id changes current).run.Safe (lockoutContract rt t k)
      (Program.split (fun _ _ => True) anyError) w := by
  refine Program.Safe.invoke_bind fun w₁ _ r w₂ ha => ⟨lockout_quiet rfl ha, ?_⟩
  rcases r with e | _ | u
  · exact fun _ _ => trivial
  · exact fun _ _ => trivial
  obtain ⟨hu, hs⟩ := act_findUser ha
  refine Program.Safe.except_bind (fun _ _ _ _ _ => trivial) ?_
  refine (guardUpdate_safe fun h => guarded_read ha hs (covered_row hu.symm h)).mono ?_
  rintro (e | _) v hv
  · trivial
  refine Program.Safe.invoke_bind fun w₃ hw₃ r w₄ ha => ⟨?_, ?_⟩
  · by_cases hd : changes.demotes = true
    · have ho : (Op.updateUser id changes).demotes = some id := by simp [Op.demotes, hd]
      refine lockout_guarded (.inr ho) ?_ ha
      exact fun _ => (hv hd).stable hw₃
    · exact lockout_quiet (by simp [Op.demotes, hd]) ha
  rcases r with e | _
  · exact fun _ _ => trivial
  simp only
  split
  · refine Program.Safe.invoke_bind fun w₅ _ r w₆ ha => ⟨lockout_quiet rfl ha, ?_⟩
    rcases r with e | n
    · exact fun _ _ => trivial
    · exact getAdminUser_safe fun _ _ => trivial
  · exact getAdminUser_safe fun _ _ => trivial

theorem deleteUser_safe (current : Nat) :
    (deleteUser id current).run.Safe (lockoutContract rt t k)
      (Program.split (fun _ _ => True) anyError) w := by
  rw [deleteUser]
  split
  · exact fun _ _ => trivial
  refine Program.Safe.invoke_bind fun w₁ _ r w₂ ha => ⟨lockout_quiet rfl ha, ?_⟩
  rcases r with e | _ | u
  · exact fun _ _ => trivial
  · exact fun _ _ => trivial
  refine Program.Safe.except_bind (fun _ _ _ _ _ => trivial) ?_
  refine (assertNotLastAdmin_safe "deleting them").mono ?_
  rintro (e | _) v hv
  · trivial
  · refine Program.Safe.invoke fun w₃ hw₃ r w₄ ha => ⟨?_, fun _ _ => ?_⟩
    · exact lockout_guarded (.inr rfl) (fun _ => hv.stable hw₃) ha
    · cases r <;> trivial

theorem Op.MadeBy.quiet {o : Op} {r : Request} (ho : o.MadeBy r)
    (hu : ∀ id changes current, r ≠ .updateUser id changes current)
    (hd : ∀ id current, r ≠ .deleteUser id current) : o.demotes = none := by
  cases o with
  | updateUser id changes =>
    obtain ⟨current, h⟩ := ho
    exact absurd h (hu id changes current)
  | deleteUser id =>
    obtain ⟨current, h⟩ := ho
    exact absurd h (hd id current)
  | _ => rfl

theorem program_safe (r : Request) :
    (r.program rt).Safe (lockoutContract rt t k) (fun _ _ => True) w := by
  have quiet : ∀ v (o : Op) (reply : Reply o) v', o.demotes = none →
      (lockoutContract rt t k).act v o reply v' → (lockoutContract rt t k).guar v o reply v' :=
    fun _ _ _ _ ho ha => lockout_quiet ho ha
  have other (h : ∀ o : Op, o.MadeBy r → o.demotes = none) :
      (r.program rt).Safe (lockoutContract rt t k) (fun _ _ => True) w :=
    .of_uses (fun v o reply v' => quiet v o reply v') ((r.uses rt).mono h)
  cases r with
  | updateUser id changes current => exact .map_any (updateUser_safe changes current)
  | deleteUser id current => exact .map_any (deleteUser_safe current)
  | _ => exact other fun o ho => ho.quiet nofun nofun

end

theorem lockout_keeps (rt : Runtime) :
    (lockout rt).Keeps (system rt) NoOverlap fun p => HasActiveAdmin p.state where
  may _ hok ht he := by
    obtain ⟨hc, rfl⟩ := system_exec he
    exact ⟨⟨_, hc⟩, fun id ho => hok _ _ _ id ht ho⟩
  exec hI _ _ he hg := by
    obtain ⟨-, rfl⟩ := system_exec he
    exact ⟨by simpa using hg hI, fun _ _ _ _ => trivial, nofun⟩
  finish hI _ _ _ := ⟨by simpa [system] using hI, fun _ _ _ _ => trivial, nofun⟩
  external {p x s dies ths} hI _ he := by
    obtain ⟨rfl, rfl⟩ := system_external he
    refine ⟨by simpa using hI, fun _ _ _ _ => trivial, fun th hth t _ => ?_⟩
    obtain rfl := List.mem_singleton.mp hth
    exact program_safe x

/-- As long as no guarded change overlaps with one that disturbs its target, every run that
starts with an active administrator still has one. -/
theorem active_admin_remains (rt : Runtime) {s : Store} (hs : HasActiveAdmin s) {p : AuthPool}
    (hr : (system rt).Runs NoOverlap (.initial s) p) : HasActiveAdmin p.state :=
  ((lockout_keeps rt).keeps.safe hs (Discipline.allSafe_initial _ s) hr).1

/-- Two administrators, `0` and `1`. -/
def twoAdmins : Store where
  users := (Table.empty.insert ⟨"a", "A", "pw", .ADMIN, false⟩).insert ⟨"b", "B", "pw", .ADMIN, false⟩
  sessions := .empty
  invites := .empty
  resets := .empty

def demoteRequest (id currentUserId : Nat) : AuthLabel :=
  .external (.updateUser id { role := some .USER } currentUserId)

/-- Two administrators who demote each other at the same time leave nobody. -/
theorem two_admins_lock_out : ¬ ∀ (rt : Runtime) (s : Store) (p : AuthPool), HasActiveAdmin s →
    (system rt).Runs (fun _ _ => True) (.initial s) p → HasActiveAdmin p.state := by
  intro h
  have hrun : ((system .plain).replay (fun _ _ => true) (.initial twoAdmins)
      [demoteRequest 1 0, demoteRequest 0 1, .exec 0 {}, .exec 0 {}, .exec 0 {},
        .exec 1 {}, .exec 1 {}, .exec 1 {}, .exec 0 {}, .exec 1 {}]).any
      (fun p => !decide (HasActiveAdmin p.state)) = true := by decide
  obtain ⟨p, hp, hn⟩ := Option.any_eq_true _ _ |>.mp hrun
  have := h .plain twoAdmins p (by decide) ((system .plain).replay_runs (fun _ _ _ => trivial) hp)
  simp [this] at hn

theorem uninterrupted_noOverlap {p : AuthPool} {l : AuthLabel}
    (h : History.uninterrupted p l = true) : NoOverlap p l := by
  cases l with
  | exec t c => exact fun _ _ _ _ _ _ => History.Since.of_consecutive h
  | _ => trivial

theorem active_admin_remains_demotion : ∃ p, (system .plain).Runs NoOverlap (.initial twoAdmins) p ∧
    p.trace.length = 7 ∧ HasActiveAdmin p.state := by
  have hrun : ((system .plain).replay History.uninterrupted (.initial twoAdmins) (demoteRequest 1 0 ::
      List.replicate 5 (.exec 0 {}) ++ [.finish 0])).any (fun p => p.trace.length = 7) = true := by
    decide
  obtain ⟨p, hp, hn⟩ := Option.any_eq_true _ _ |>.mp hrun
  have hr := (system .plain).replay_runs (fun _ _ => uninterrupted_noOverlap) hp
  exact ⟨p, hr, by simpa using hn, active_admin_remains .plain (by decide) hr⟩

end CircleFtp.Auth
