import CircleFtp.Auth.Requests
import CircleFtp.Concurrent.Monitor

/-! Eviction: what a change of credentials leaves of an account's sessions, told from the
history of the calls. -/
namespace CircleFtp.Auth
open Concurrent

/-- The calls a request bases its session on: the account or session as read, the comparison
of a password, the redemption of a reset. -/
def Op.checks : Op → Bool
  | .findUser _ | .findUserByEmail _ | .findSession _ | .verifyPassword _ _
  | .redeemPasswordReset _ _ => true
  | _ => false

/-- The request that checks something in an event. -/
def checkedBy : AuthEvent → Option Nat
  | .did t _ o _ _ _ => if o.checks then some t else none
  | _ => none

/-- The account whose credentials a call changes: a new password, a redeemed reset, a disabling. -/
def Op.changed : (o : Op) → Reply o → Option Nat
  | .setPasswordHash u _, .ok _ => some u
  | .updateUser u changes, .ok _ => if changes.disabled = some true then some u else none
  | .redeemPasswordReset _ _, .ok u => some u
  | _, _ => none

/-- The account whose sessions a call deletes. -/
def Op.evicted : (o : Op) → Reply o → Option Nat
  | .deleteSessions u, .ok _ => some u
  | .redeemPasswordReset _ _, .ok u => some u
  | _, _ => none

/-- The request that changes credentials in an event, and whose. -/
def credentialChange : AuthEvent → Option (Nat × Nat)
  | .did t _ o r _ _ => (o.changed r).map (t, ·)
  | _ => none

/-- The request and the account whose sessions an event deleted. -/
def eviction : AuthEvent → Option (Nat × Nat)
  | .did t _ o r _ _ => (o.evicted r).map (t, ·)
  | _ => none

/-- The request, the account and the row of a new session. -/
def issued : AuthEvent → Option (Nat × Nat × Nat)
  | .did t _ (.createSession x) (.ok i) _ _ => some (t, x.userId, i)
  | _ => none

/-- The request that has ended, not with an error. -/
def succeeded : AuthEvent → Option Nat
  | .ended t _ (.ok _) _ _ => some t
  | _ => none

/-- The event `n` steps ago changed the credentials of `u` for request `t`, which has succeeded
since. -/
def Completed (events : List AuthEvent) (t u n : Nat) : Prop :=
  events[n]?.bind credentialChange = some (t, u) ∧ ∃ e ∈ events.take n, succeeded e = some t

/-- The event `n` steps ago changed the credentials of `u` for request `t`, which has deleted the
sessions of `u` by now. -/
def Swept (events : List AuthEvent) (t u n : Nat) : Prop :=
  events[n]?.bind credentialChange = some (t, u) ∧
  ∃ d ∈ events.take (n + 1), eviction d = some (t, u)

/-- What request `t` has checked, it checked after the event `n` steps ago. -/
def ChecksAfter (events : List AuthEvent) (t n : Nat) : Prop :=
  ∀ e ∈ events.drop (n + 1), checkedBy e ≠ some t

instance (events : List AuthEvent) (t u n : Nat) : Decidable (Completed events t u n) := by
  unfold Completed; infer_instance

instance (events : List AuthEvent) (t n : Nat) : Decidable (ChecksAfter events t n) := by
  unfold ChecksAfter; infer_instance

/-- Every session of the account was created by the changing request or by one that had checked
nothing before the change. -/
def OthersEvicted (change : List AuthEvent → Nat → Nat → Nat → Prop) (w : AuthWorld) : Prop :=
  ∀ t u n, change w.trace t u n → ∀ i x, w.state.sessions.rows i = some x → x.userId = u →
    ∃ t', (∃ e ∈ w.trace, issued e = some (t', u, i)) ∧ (t' = t ∨ ChecksAfter w.trace t' n)

/-- A completed change evicts everyone else, and no request creates two sessions. -/
structure Evicted (w : AuthWorld) : Prop where
  others : OthersEvicted Completed w
  own : ∀ e ∈ w.trace, ∀ e' ∈ w.trace, ∀ t u v i j, issued e = some (t, u, i) →
    issued e' = some (t, v, j) → i = j

/-- No request creates a session for an account after another one has changed its credentials and
deleted its sessions since the first request's first check. -/
def ChecksCurrent (p : AuthPool) : AuthLabel → Prop
  | .exec t' _ => ∀ k x rest, p.threads t' = some ⟨k, .call (.createSession x) rest⟩ →
      ∀ t n, Swept p.trace t x.userId n → t' = t ∨ ChecksAfter p.trace t' n
  | _ => True

/-- Has the request changed the credentials of `u` and not deleted the sessions since? -/
def owes (u : Nat) (owed : Bool) (o : Op) (r : Reply o) : Bool :=
  if o.evicted r = some u then false else owed || o.changed r = some u

/-- A call after which nothing is owed that was not owed before. -/
def Op.light (o : Op) : Prop := ∀ u r, owes u false o r = false

theorem light_of_evicted {o : Op} (h : ∀ r, o.changed r = none ∨ o.evicted r = o.changed r) : o.light := by
  intro u r
  rcases h r with h | h
  · simp [owes, h]
  · simp [owes, h]

/-- Storing a new password and disabling are all that a request can owe something for. -/
theorem Op.MadeBy.light {o : Op} {q : Request} (h : o.MadeBy q)
    (hc : ∀ token current new, q ≠ .changePassword token current new)
    (hu : ∀ id changes current, q ≠ .updateUser id changes current) : o.light := by
  cases o with
  | setPasswordHash id hash =>
    obtain ⟨token, current, new, e⟩ := h
    exact absurd e (hc token current new)
  | updateUser id changes =>
    obtain ⟨current, e⟩ := h
    exact absurd e (hu id changes current)
  | redeemPasswordReset tokenHash passwordHash =>
    refine light_of_evicted fun r => .inr ?_
    cases r <;> rfl
  | _ =>
    refine light_of_evicted fun r => .inl ?_
    cases r <;> rfl

theorem Op.plain.light {o : Op} (h : o.plain) : o.light := (h.madeBy .pruneExpiredResets).light nofun nofun

/-- A request that succeeds owes nothing. -/
def Settled {α : Type} (a : Except Err α) (owed : Bool) : Prop := owed = false ∨ ∃ e, a = .error e

theorem settled_error {α : Type} {owed : Bool} (e : Err) : Settled (.error e : Except Err α) owed := .inr ⟨e, rfl⟩

section
variable {rt : Runtime} {u : Nat}

theorem light_settles {α : Type} {m : Flow α} (hm : m.run.Uses Op.light) :
    m.run.Tracks (owes u) Settled false :=
  (hm.tracks fun _ ho r => ho u r).mono fun _ _ h => .inl h

theorem light_then {α β : Type} {m : Flow α} {f : α → Flow β} (hm : m.run.Uses Op.light)
    (hf : ∀ a, (f a).run.Tracks (owes u) Settled false) : (m >>= f).run.Tracks (owes u) Settled false := by
  refine .except_bind ((hm.tracks fun _ ho r => ho u r).mono ?_)
  rintro (e | a) n rfl
  · exact settled_error e
  · exact hf a

theorem map_settles {α β : Type} {m : Flow α} {f : α → β} (hm : m.run.Tracks (owes u) Settled false) :
    (f <$> m).run.Tracks (owes u) Settled false := by
  refine .bind (p := m.run) (hm.mono ?_)
  rintro (e | a) n (hn | ⟨e', h⟩)
  · exact settled_error e
  · exact settled_error e
  · exact .inl hn
  · cases h

/-- Whatever was owed, it is not after the sessions have been deleted. -/
theorem owes_deleted {owed : Bool} {id n : Nat} (h : owed = true → id = u) :
    owes u owed (.deleteSessions id) (.ok n) = false := by
  cases owed with
  | false => exact light_of_evicted (fun r => .inl (by cases r <;> rfl)) u _
  | true =>
    obtain rfl := h rfl
    simp [owes, Op.evicted]

theorem changePassword_settles (token current new : String) :
    (changePassword rt token current new).run.Tracks (owes u) Settled false := by
  have plain : ∀ o : Op, o.plain → o.light := fun _ h => h.light
  refine light_then ((requireAuth_uses token).mono plain) fun id => ?_
  refine light_then (.invoke (plain _ trivial)) ?_
  rintro (_ | user)
  · exact settled_error _
  refine light_then (.invoke (plain _ trivial)) fun valid => ?_
  split
  · exact settled_error _
  split
  · exact settled_error _
  refine .except_bind (.invoke_bind (fun hash => ?_) settled_error)
  rintro (e | _)
  · exact settled_error e
  refine .invoke_bind (fun n => ?_) fun _ => settled_error _
  rw [owes_deleted fun h => by simpa [owes, Op.evicted, Op.changed] using h]
  refine light_settles ((issueSession_ends id).uses.mono ?_)
  rintro o (ho | ho)
  · exact plain o ho
  · exact Op.MadeBy.light (Op.signsIn.madeBy (.inr ho) (r := .revokeOthers token) trivial) nofun nofun

theorem updateUser_settles (id : Nat) (changes : UpdateUserOptions) (current : Nat) :
    (updateUser id changes current).run.Tracks (owes u) Settled false := by
  have plain : ∀ o : Op, o.plain → o.light := fun _ h => h.light
  refine light_then (.invoke (plain _ trivial)) ?_
  rintro (_ | user)
  · exact settled_error _
  refine light_then ((guardUpdate_uses id user changes current).mono plain) fun _ => ?_
  refine .invoke_bind (fun _ => ?_) fun _ => settled_error _
  split
  · refine .invoke_bind (fun n => ?_) fun _ => settled_error _
    rw [owes_deleted fun h => by simp_all [owes, Op.evicted, Op.changed]]
    exact light_settles ((getAdminUser_uses id).mono plain)
  · rename_i hd
    have light : owes u false (.updateUser id changes) (.ok ()) = false := by simp [owes, Op.changed, Op.evicted, hd]
    rw [light]
    exact light_settles ((getAdminUser_uses id).mono plain)

theorem program_settles (r : Request) : (r.program rt).Tracks (owes u) Settled false := by
  have other (hc : ∀ token current new, r ≠ .changePassword token current new)
      (hu : ∀ id changes current, r ≠ .updateUser id changes current) :
      (r.program rt).Tracks (owes u) Settled false :=
    light_settles ((r.uses rt).mono fun o ho => ho.light hc hu)
  cases r with
  | changePassword token current new => exact map_settles (changePassword_settles token current new)
  | updateUser id changes current => exact map_settles (updateUser_settles id changes current)
  | _ => exact other nofun nofun

end

theorem credentialChange_did {t t' u : Nat} {k : Request} {o : Op} {r : Reply o} {s s' : Store}
    (h : credentialChange (.did t' k o r s s') = some (t, u)) : t' = t ∧ o.changed r = some u := by
  obtain ⟨v, hv, e⟩ := Option.map_eq_some_iff.mp h
  cases e
  exact ⟨rfl, hv⟩

/-- As long as it has not deleted the sessions, a request owes its change. -/
theorem monitor_owes {t u n : Nat} {events : List AuthEvent}
    (h : events[n]?.bind credentialChange = some (t, u))
    (hd : ∀ d ∈ events.take (n + 1), eviction d ≠ some (t, u)) : monitor (owes u) false t events = true := by
  induction events generalizing n with
  | nil => simp at h
  | cons e events ih =>
    have hne : eviction e ≠ some (t, u) := hd e (by simp)
    have kept (o : Op) (r : Reply o) (k : Request) (s s' : Store) (he : e = .did t k o r s s') :
        o.evicted r ≠ some u := fun hv => hne (by rw [he, eviction, hv]; rfl)
    cases n with
    | zero =>
      cases e with
      | did t' k o r s s' =>
        obtain ⟨rfl, hc⟩ := credentialChange_did (by simpa using h)
        rw [monitor_own, owes, if_neg (kept o r k s s' rfl)]
        simp [hc]
      | _ => cases h
    | succ n =>
      have owed := ih (n := n) (by simpa using h) fun d hm => hd d (by
        rw [List.take_succ_cons]
        exact List.mem_cons_of_mem e hm)
      by_cases hb : e.By t
      · cases e with
        | did t' k o r s s' =>
          obtain rfl : t' = t := hb
          rw [monitor_own, owed, owes, if_neg (kept o r k s s' rfl)]
          rfl
        | _ => exact owed
      · rw [monitor_other hb, owed]

/-- A request that has succeeded after a change has deleted the sessions of the account. -/
theorem Completed.swept {rt : Runtime} {ok : AuthPool → AuthLabel → Prop} {s : Store} {p : AuthPool}
    (hr : (system rt).Runs ok (.initial s) p) {t u n : Nat} (h : Completed p.trace t u n) :
    Swept p.trace t u n := by
  obtain ⟨hc, e, he, hs⟩ := h
  refine ⟨hc, ?_⟩
  by_contra hnone
  have unswept : ∀ d ∈ p.trace.take (n + 1), eviction d ≠ some (t, u) := fun d hd h => hnone ⟨d, hd, h⟩
  have settled : Monitored (owes u) false (fun _ => Settled) p := by
    refine monitored_run ⟨fun he th hth => ?_, fun _ _ _ th hth => ?_, fun he th hth => ?_⟩ hr
    · obtain ⟨-, rfl⟩ := system_exec he
      cases hth
    · cases hth
    · obtain ⟨-, rfl⟩ := system_external he
      obtain rfl := List.mem_singleton.mp hth
      exact program_settles _
  cases e with
  | ended t' k a v v' =>
    obtain ⟨x, rfl, rfl⟩ : ∃ x, a = .ok x ∧ t' = t := by
      cases a with
      | error e => cases hs
      | ok x => exact ⟨x, rfl, Option.some.inj hs⟩
    obtain ⟨i, hi, hat⟩ := List.mem_take_iff_getElem.mp he
    have hsplit : p.trace = p.trace.take i ++ .ended t' k (.ok x) v v' :: p.trace.drop (i + 1) := by
      rw [← hat, ← List.drop_eq_getElem_cons, List.take_append_drop]
    -- the change and what follows it up to the end of the request
    obtain ⟨m, rfl⟩ : ∃ m, n = i + 1 + m := ⟨n - (i + 1), by omega⟩
    have owed : monitor (owes u) false t' (p.trace.drop (i + 1)) = true := by
      refine monitor_owes (n := m) (by rw [List.getElem?_drop]; exact hc) fun d hd => unswept d ?_
      rw [List.take_drop] at hd
      exact List.mem_of_mem_drop hd
    rcases settled.came _ t' k (.ok x) v v' _ hsplit with h | ⟨e, h⟩
    · rw [owed] at h
      cases h
    · cases h
  | _ => cases hs

def Op.sessions : Op → Bool
  | .createSession _ | .deleteSession _ | .deleteSessions _ | .deleteUser _
  | .redeemPasswordReset _ _ => true
  | _ => false

theorem perform_sessions (rt : Runtime) (s : Store) (c : Choice) {o : Op}
    (ho : o.sessions = false) : (perform rt s c o).2.sessions = s.sessions := by
  cases o <;> simp only [Op.sessions, Bool.true_eq_false] at ho <;> try rfl
  all_goals simp only [perform, onRow, ifFree, Store.redeemInvite]
  all_goals repeat' split
  all_goals rfl

/-- A session row is an old one, or the call has just created it. -/
theorem call_session {rt : Runtime} {s s' : Store} {o : Op} {c : Choice} {r : Reply o} {t : Nat}
    {k : Request} {i : Nat} {x : Session} (h : call rt s o c = (r, s'))
    (hx : s'.sessions.rows i = some x) : s.sessions.rows i = some x ∨
      (o = .createSession x ∧ issued (.did t k o r s s') = some (t, x.userId, i)) := by
  rcases call_cases rt s o c with ⟨m, hm⟩ | hp
  · rw [hm] at h
    cases h
    exact .inl hx
  rw [hp] at h
  by_cases ho : o.sessions = false
  · have := perform_sessions rt s c ho
    rw [h] at this
    exact .inl (this ▸ hx)
  cases o <;> simp only [Op.sessions, not_true_eq_false, Bool.true_eq_false] at ho
  case deleteUser u =>
    simp only [perform, onRow] at h
    split at h <;> cases h
    · exact .inl hx
    · exact .inl (Table.deleteMany_rows.mp hx).1
  case createSession y =>
    simp only [perform, ifFree] at h
    split at h <;> cases h
    · exact .inl hx
    · rcases Table.insert_rows hx with ⟨rfl, rfl⟩ | ⟨-, hx⟩
      · exact .inr ⟨rfl, rfl⟩
      · exact .inl hx
  case deleteSession j =>
    simp only [perform, onRow] at h
    split at h <;> cases h
    · exact .inl hx
    · exact .inl (Table.erase_rows.mp hx).2
  case deleteSessions u =>
    cases h
    exact .inl (Table.deleteMany_rows.mp hx).1
  case redeemPasswordReset tokenHash passwordHash =>
    rw [perform] at h
    rcases redeemPasswordReset_cases s tokenHash passwordHash c.now with ⟨e, he⟩ | ⟨_, _, -, hs⟩
    · rw [he] at h
      cases h
      exact .inl hx
    · rw [h] at hs
      rw [hs.sessions] at hx
      exact .inl (Table.deleteMany_rows.mp hx).1

theorem call_evicted {rt : Runtime} {s s' : Store} {o : Op} {c : Choice} {r : Reply o} {t : Nat}
    {k : Request} {t' u : Nat} (h : call rt s o c = (r, s'))
    (he : eviction (.did t k o r s s') = some (t', u)) {i : Nat} {x : Session}
    (hx : s'.sessions.rows i = some x) : x.userId ≠ u := by
  rcases r with e | a
  · cases o <;> cases he
  have hp := call_ok h
  cases o <;> try cases he
  case deleteSessions.refl =>
    cases hp
    simpa using (Table.deleteMany_rows.mp hx).2
  case redeemPasswordReset.refl tokenHash passwordHash =>
    rw [perform] at hp
    rcases redeemPasswordReset_cases s tokenHash passwordHash c.now with ⟨e, he⟩ | ⟨_, _, hu, hs⟩
    · rw [he] at hp
      cases hp
    · rw [hp] at hu hs
      cases hu
      rw [hs.sessions] at hx
      simpa using (Table.deleteMany_rows.mp hx).2

theorem issued_last {e : AuthEvent} {t u i : Nat} (h : issued e = some (t, u, i)) :
    e.Last Op.signsIn t := by
  cases e with
  | did t' k o r s s' =>
    cases o <;> try cases h
    case createSession x =>
      rcases r with e | j <;> cases h
      exact ⟨rfl, trivial⟩
  | _ => cases h

/-- One call keeps what swept changes have achieved. -/
theorem evicted_exec {rt : Runtime} {w : AuthWorld} {t₀ : Nat} {k : Request} {o : Op}
    {c : Choice} {r : Reply o} {s : Store} (hc : call rt w.state o c = (r, s))
    (h : OthersEvicted Swept w)
    (hok : ∀ x, o = .createSession x → ∀ t n, Swept w.trace t x.userId n →
      t₀ = t ∨ ChecksAfter w.trace t₀ n) :
    OthersEvicted Swept ⟨s, .did t₀ k o r w.state s :: w.trace⟩ := by
  rintro t u n ⟨hn, d, hd, hde⟩ i x hx rfl
  have hne : d ≠ .did t₀ k o r w.state s := fun e => call_evicted hc (e ▸ hde) hx rfl
  cases n with
  | zero =>
    rw [List.take_succ_cons, List.take_zero] at hd
    exact absurd (List.mem_singleton.mp hd) hne
  | succ n =>
    have hC : Swept w.trace t x.userId n :=
      ⟨hn, d, (List.mem_cons.mp hd).resolve_left hne, hde⟩
    rcases call_session (t := t₀) (k := k) hc hx with hx | ⟨ho, hi⟩
    · obtain ⟨t', ⟨e, he, hi⟩, hs⟩ := h t x.userId n hC i x hx rfl
      exact ⟨t', ⟨e, List.mem_cons_of_mem _ he, hi⟩, hs⟩
    · exact ⟨t₀, ⟨_, List.mem_cons_self, hi⟩, hok x ho t n hC⟩

/-- An event that is no call keeps it too. -/
theorem evicted_silent {w : AuthWorld} {e : AuthEvent} (hc : credentialChange e = none)
    (he : eviction e = none) (h : OthersEvicted Swept w) : OthersEvicted Swept ⟨w.state, e :: w.trace⟩ := by
  rintro t u n ⟨hn, d, hd, hde⟩ i x hx hu
  cases n with
  | zero => simp [hc] at hn
  | succ n =>
    have hd : d ∈ w.trace.take (n + 1) := by
      refine (List.mem_cons.mp hd).resolve_left ?_
      rintro rfl
      simp [he] at hde
    obtain ⟨t', ⟨e', he', hi⟩, hs⟩ := h t u n ⟨hn, d, hd, hde⟩ i x hx hu
    exact ⟨t', ⟨e', List.mem_cons_of_mem e he', hi⟩, hs⟩

theorem program_ends (rt : Runtime) {ok : AuthPool → AuthLabel → Prop} {s : Store} {p : AuthPool}
    (hr : (system rt).Runs ok (.initial s) p) : LastOnce Op.signsIn p := by
  refine lastOnce_run ?_ ?_ ?_ hr
  · intro s k o c r s' ths he th hth
    obtain ⟨-, rfl⟩ := system_exec he
    cases hth
  · intro s k a th hth
    cases hth
  · intro s x s' dies ths he th hth
    obtain ⟨-, rfl⟩ := system_external he
    obtain rfl := List.mem_singleton.mp hth
    exact x.ends rt

theorem othersEvicted_run (rt : Runtime) {s : Store} {p : AuthPool}
    (hr : (system rt).Runs ChecksCurrent (.initial s) p) : OthersEvicted Swept p.toWorld := by
  refine (system rt).invariant (I := fun p => OthersEvicted Swept p.toWorld) ?_ ?_ hr
  · intro p l p' h hok hst
    rcases (system rt).step_cases hst with
      ⟨t, k, o, rest, c, r, s, ths, rfl, ht, he, rfl⟩ | ⟨t, k, a, rfl, ht, rfl⟩ |
      ⟨x, s, dies, ths, rfl, he, rfl⟩
    · obtain ⟨hc, rfl⟩ := system_exec he
      rw [Pool.didCall_world]
      refine evicted_exec (w := p.toWorld) hc h ?_
      rintro x rfl
      exact hok k x rest ht
    · rw [Pool.didEnd_world]
      exact evicted_silent (w := p.toWorld) rfl rfl h
    · obtain ⟨rfl, rfl⟩ := system_external he
      rw [Pool.didOuter_world]
      exact evicted_silent (w := p.toWorld) rfl rfl h
  · rintro t u n ⟨hn, -⟩
    cases hn

/-- As long as no request creates a session on an overtaken check, a completed change of
credentials has evicted everyone else, then and at any later time. -/
theorem sessions_evicted (rt : Runtime) {s : Store} {p : AuthPool}
    (hr : (system rt).Runs ChecksCurrent (.initial s) p) : Evicted p.toWorld := by
  refine ⟨fun t u n hc => othersEvicted_run rt hr t u n (hc.swept hr), ?_⟩
  intro e he e' he' t u v i j hi hj
  obtain rfl := (program_ends rt hr).same he he' (issued_last hi) (issued_last hj)
  rw [hi] at hj
  cases hj
  rfl

/-- One account with one session. -/
def oneSession : Store where
  users := Table.empty.insert ⟨"a", "A", "old", .USER, false⟩
  sessions := Table.empty.insert ⟨"token", 0, 100⟩
  invites := .empty
  resets := .empty

/-- A login reads the old password hash, the password is changed, and the login goes on. -/
def overtakenLogin : List AuthLabel :=
  [.external (.login "a" "old"), .external (.changePassword "token" "old" "new"), .exec 0 {}] ++
    List.replicate 10 (.exec 1 { random := "1" }) ++ [.finish 1] ++
    List.replicate 4 (.exec 0 { random := "0" })

theorem login_survives_change : ¬ ∀ (rt : Runtime) (s : Store) (p : AuthPool),
    (system rt).Runs (fun _ _ => True) (.initial s) p → Evicted p.toWorld := by
  intro h
  have hrun : ((system .plain).replay (fun _ _ => true) (.initial oneSession) overtakenLogin).any
      (fun p => Completed p.trace 1 0 9 ∧ p.state.sessions.rows 2 = some ⟨"0", 0, 1000⟩ ∧
        p.trace.filterMap issued = [(0, 0, 2), (1, 0, 1)] ∧ ¬ ChecksAfter p.trace 0 9) = true := by
    decide
  obtain ⟨p, hp, hn⟩ := Option.any_eq_true _ _ |>.mp hrun
  obtain ⟨hc, hx, hi, hk⟩ := of_decide_eq_true hn
  obtain ⟨t', ⟨e, he, hie⟩, ht⟩ := (h .plain oneSession p
    ((system .plain).replay_runs (fun _ _ _ => trivial) hp)).others 1 0 9 hc 2 _ hx rfl
  have : (t', 0, 2) ∈ p.trace.filterMap issued := List.mem_filterMap.mpr ⟨e, he, hie⟩
  rw [hi] at this
  simp only [List.mem_cons, Prod.mk.injEq, List.not_mem_nil, or_false] at this
  rcases this with ⟨rfl, -⟩ | ⟨-, -, h⟩
  · exact ht.elim (by decide) hk
  · cases h

/-- The request that moves has checked nothing before another one's change. -/
def notOvertaken (p : AuthPool) : AuthLabel → Bool
  | .exec t' _ => (List.range p.trace.length).all fun n =>
      (p.trace[n]?.bind credentialChange).all fun x => x.1 = t' ∨ ChecksAfter p.trace t' n
  | _ => true

theorem notOvertaken_current {p : AuthPool} {l : AuthLabel} (h : notOvertaken p l = true) :
    ChecksCurrent p l := by
  cases l with
  | exec t' c =>
    rintro k x rest - t n ⟨hn, -⟩
    obtain ⟨e, he, -⟩ := Option.bind_eq_some_iff.mp hn
    have hlt : n < p.trace.length := (List.getElem?_eq_some_iff.mp he).1
    have := List.all_eq_true.mp h n (List.mem_range.mpr hlt)
    rw [hn] at this
    exact (of_decide_eq_true this).imp_left Eq.symm
  | _ => trivial

/-- Signing in, changing the password and signing in with the new one. -/
theorem sessions_evicted_sequence : ∃ p,
    (system .plain).Runs ChecksCurrent (.initial oneSession) p ∧ Completed p.trace 1 0 11 ∧
      (p.state.sessions.matching fun _ _ => true) = [2, 3] ∧ Evicted p.toWorld := by
  have hrun : ((system .plain).replay notOvertaken (.initial oneSession)
      ([.external (.login "a" "old")] ++ List.replicate 5 (.exec 0 { random := "0" }) ++
        [.external (.changePassword "token" "old" "new")] ++
        List.replicate 10 (.exec 1 { random := "1" }) ++ [.finish 1, .external (.login "a" "new")] ++
        List.replicate 5 (.exec 2 { random := "2" }))).any
      (fun p => Completed p.trace 1 0 11 ∧
        (p.state.sessions.matching fun _ _ => true) = [2, 3]) = true := by
    decide
  obtain ⟨p, hp, hn⟩ := Option.any_eq_true _ _ |>.mp hrun
  obtain ⟨hc, hm⟩ := of_decide_eq_true hn
  have hr := (system .plain).replay_runs (fun _ _ => notOvertaken_current) hp
  exact ⟨p, hr, hc, hm, sessions_evicted .plain hr⟩

end CircleFtp.Auth
