import CircleFtp.Auth.Requests
import CircleFtp.Concurrent.History

/-! Spent invites: the mark that an invite was redeemed is a reference to the new account, which
the deletion of that account clears, and a revocation reads it before it deletes. -/
namespace CircleFtp.Auth
open Concurrent

/-- The invite and the code that an event redeemed. -/
def redemption : AuthEvent → Option (Nat × String)
  | .did _ _ (.redeemInvite input) (.ok (i, _)) _ _ => some (i, input.code)
  | _ => none

/-- The invite that an event deleted. -/
def revocation : AuthEvent → Option Nat
  | .did _ _ (.deleteInvite i) (.ok _) _ _ => some i
  | _ => none

/-- The later event does not delete what the earlier one redeemed, and redeems neither that
invite nor its code again. -/
def Respects (later earlier : AuthEvent) : Prop :=
  ∀ x ∈ redemption earlier, revocation later ≠ some x.1 ∧
    ∀ y ∈ redemption later, y.1 ≠ x.1 ∧ y.2 ≠ x.2

instance : DecidableRel Respects := fun _ _ => by unfold Respects; infer_instance

def Redeems (i : Nat) (e : AuthEvent) : Prop := ∃ c, redemption e = some (i, c)

def CodesUnique (s : Store) : Prop := ∀ i j v v', s.invites.rows i = some v →
  s.invites.rows j = some v' → v.code = v'.code → i = j

/-- No account that an invite created is deleted, and no invite is deleted by a request that
another one's redemption of it overtook. -/
def SpentKept (p : AuthPool) : AuthLabel → Prop
  | .exec t _ => ∀ k o rest, p.threads t = some ⟨k, .call o rest⟩ →
      (∀ u, o = .deleteUser u → ∀ i v, p.state.invites.rows i = some v → v.usedById ≠ some u) ∧
      ∀ i, o = .deleteInvite i → History.Since (¬ Redeems i ·) p.trace t
  | _ => True

/-- A redeemed invite stays in its table, marked as used. -/
def Spent (s : Store) (x : Nat × String) : Prop :=
  ∃ v, s.invites.rows x.1 = some v ∧ v.code = x.2 ∧ v.usedById.isSome

structure InviteInvariant (w : AuthWorld) : Prop where
  unique : CodesUnique w.state
  spent : ∀ e ∈ w.trace, ∀ x ∈ redemption e, Spent w.state x
  forever : w.trace.Pairwise Respects

/-- An event that touches no table. -/
theorem InviteInvariant.silent {w : AuthWorld} (h : InviteInvariant w) {e : AuthEvent}
    (hr : redemption e = none) (hd : revocation e = none) :
    InviteInvariant ⟨w.state, e :: w.trace⟩ where
  unique := h.unique
  spent d hm x hx := by
    rcases List.mem_cons.mp hm with rfl | hm
    · simp [hr] at hx
    · exact h.spent d hm x hx
  forever := List.pairwise_cons.mpr ⟨fun d _ x _ => by simp [hr, hd], h.forever⟩

def Op.invites : Op → Bool
  | .createInvite _ | .deleteInvite _ | .redeemInvite _ | .deleteUser _ => true
  | _ => false

theorem perform_invites (rt : Runtime) (s : Store) (c : Choice) {o : Op} (ho : o.invites = false) :
    (perform rt s c o).2.invites = s.invites := by
  cases o <;> simp only [Op.invites, Bool.true_eq_false] at ho <;> try rfl
  all_goals simp only [perform, onRow, ifFree, Store.redeemPasswordReset]
  all_goals repeat' split
  all_goals rfl

theorem findInviteByCode_some {s : Store} {code : String} {i : Nat} {v : Invite}
    (h : s.findInviteByCode code = some (i, v)) : s.invites.rows i = some v ∧ v.code = code := by
  obtain ⟨hf, hv⟩ : _ ∧ s.invites.rows i = some v := by
    simpa [Store.findInviteByCode, Option.bind_eq_some_iff] using h
  obtain ⟨v', hv', hc⟩ := Table.findFirst_some hf
  rw [hv] at hv'
  cases hv'
  exact ⟨hv, by simpa using hc⟩

theorem findInviteByCode_none {s : Store} {code : String} (h : s.findInviteByCode code = none)
    {i : Nat} {v : Invite} (hv : s.invites.rows i = some v) : v.code ≠ code := by
  cases hf : s.invites.findFirst fun _ v => v.code = code with
  | none => simpa using Table.findFirst_none hf hv
  | some j =>
    obtain ⟨v', hv', -⟩ := Table.findFirst_some hf
    simp [Store.findInviteByCode, hf, hv'] at h

/-- Everything a redemption can do to the invites. -/
theorem redeemInvite_cases (s : Store) (input : RedeemInviteInput) (now : Nat) :
    (∃ e, s.redeemInvite input now = (.error e, s)) ∨
    ∃ i v u, s.invites.rows i = some v ∧ v.code = input.code ∧ v.usedById = none ∧
      (s.redeemInvite input now).1 = .ok (i, u) ∧
      (s.redeemInvite input now).2.invites.rows =
        Function.update s.invites.rows i (some { v with usedById := some u, usedAt := some now }) := by
  rw [Store.redeemInvite]
  split
  · exact .inl ⟨_, rfl⟩
  rename_i i v hf
  obtain ⟨hv, hc⟩ := findInviteByCode_some hf
  split
  · exact .inl ⟨_, rfl⟩
  split
  · exact .inl ⟨_, rfl⟩
  split
  · exact .inl ⟨_, rfl⟩
  simp only
  split
  · exact .inl ⟨_, rfl⟩
  have hn : v.usedById = none := by simpa using ‹¬ v.usedById.isSome = true›
  refine .inr ⟨i, v, s.users.next, hv, hc, hn, rfl, ?_⟩
  funext j
  by_cases hj : j = i
  · subst hj
    simp [Table.mapMany, hv, hn]
  · simp [Table.mapMany, hj, Function.update_of_ne]

/-- A spent invite stays spent when the account it created stays and it is not deleted. -/
theorem perform_spent (rt : Runtime) (s : Store) (c : Choice) {o : Op} {x : Nat × String}
    (h : Spent s x) (hd : o ≠ .deleteInvite x.1)
    (hu : ∀ u, o = .deleteUser u → ∀ i v, s.invites.rows i = some v → v.usedById ≠ some u) :
    Spent (perform rt s c o).2 x := by
  by_cases ho : o.invites = false
  · rwa [Spent, perform_invites rt s c ho]
  obtain ⟨v, hv, hc, hs⟩ := h
  cases o <;> simp only [Op.invites, not_true_eq_false, Bool.true_eq_false] at ho
  case createInvite w =>
    simp only [perform, ifFree]
    split
    · exact ⟨v, hv, hc, hs⟩
    · exact ⟨v, Table.insert_rows_old hv, hc, hs⟩
  case deleteInvite i =>
    simp only [perform, onRow]
    split
    · exact ⟨v, hv, hc, hs⟩
    · exact ⟨v, Table.erase_rows.mpr ⟨fun e => hd (by rw [e]), hv⟩, hc, hs⟩
  case deleteUser u =>
    simp only [perform, onRow]
    split
    · exact ⟨v, hv, hc, hs⟩
    · refine ⟨_, Table.updateMany_rows.mpr ⟨v, hv, rfl⟩, ?_⟩
      simpa [hu u rfl _ v hv] using ⟨hc, hs⟩
  case redeemInvite input =>
    rcases redeemInvite_cases s input c.now with ⟨e, he⟩ | ⟨i, w, u, hw, -, hn, -, hr⟩
    · exact ⟨v, by rw [perform, he]; exact hv, hc, hs⟩
    · have hi : x.1 ≠ i := fun e => by rw [e, hw] at hv; cases hv; simp [hn] at hs
      exact ⟨v, by rw [perform, hr, Function.update_of_ne hi]; exact hv, hc, hs⟩

theorem perform_unique (rt : Runtime) (s : Store) (c : Choice) (o : Op) (h : CodesUnique s) :
    CodesUnique (perform rt s c o).2 := by
  by_cases ho : o.invites = false
  · rwa [CodesUnique, perform_invites rt s c ho]
  cases o <;> simp only [Op.invites, not_true_eq_false, Bool.true_eq_false] at ho
  case createInvite w =>
    simp only [perform, ifFree]
    split
    · exact h
    rename_i hf
    simp only [Bool.or_eq_true, not_or, Option.not_isSome_iff_eq_none] at hf
    intro i j v v' hv hv' he
    rcases Table.insert_rows hv with ⟨rfl, rfl⟩ | ⟨-, hx⟩
    · rcases Table.insert_rows hv' with ⟨rfl, -⟩ | ⟨-, hy⟩
      · rfl
      · exact absurd he.symm (findInviteByCode_none hf.1 hy)
    · rcases Table.insert_rows hv' with ⟨-, rfl⟩ | ⟨-, hy⟩
      · exact absurd he (findInviteByCode_none hf.1 hx)
      · exact h _ _ _ _ hx hy he
  case deleteInvite i =>
    simp only [perform, onRow]
    split
    · exact h
    · exact fun i j v v' hv hv' => h i j v v' (Table.erase_rows.mp hv).2 (Table.erase_rows.mp hv').2
  case deleteUser u =>
    simp only [perform, onRow]
    split
    · exact h
    intro i j v v' hv hv' he
    obtain ⟨x, hx, rfl⟩ := Table.updateMany_rows.mp hv
    obtain ⟨y, hy, rfl⟩ := Table.updateMany_rows.mp hv'
    exact h _ _ _ _ hx hy (by simpa using he)
  case redeemInvite input =>
    rcases redeemInvite_cases s input c.now with ⟨e, he⟩ | ⟨k, w, u, hw, -, hn, -, hr⟩
    · rwa [perform, he]
    have old : ∀ {i v}, (s.redeemInvite input c.now).2.invites.rows i = some v →
        ∃ v₀, s.invites.rows i = some v₀ ∧ v₀.code = v.code := by
      intro i v hv
      rw [hr] at hv
      by_cases hi : i = k
      · subst hi
        rw [Function.update_self] at hv
        exact ⟨w, hw, by rw [← Option.some.inj hv]⟩
      · rw [Function.update_of_ne hi] at hv
        exact ⟨v, hv, rfl⟩
    intro i j v v' hv hv' he
    obtain ⟨x, hx, ex⟩ := old hv
    obtain ⟨y, hy, ey⟩ := old hv'
    exact h _ _ _ _ hx hy (by rw [ex, ey, he])

/-- A redemption finds an unspent invite and spends it. -/
theorem call_redeem {rt : Runtime} {s s' : Store} {input : RedeemInviteInput} {c : Choice}
    {i u : Nat} (h : call rt s (.redeemInvite input) c = (.ok (i, u), s')) :
    (∃ v, s.invites.rows i = some v ∧ v.code = input.code ∧ v.usedById = none) ∧
    Spent s' (i, input.code) := by
  have hp := call_ok h
  rw [perform] at hp
  rcases redeemInvite_cases s input c.now with ⟨e, he⟩ | ⟨j, v, u', hv, hc, hn, hr, hs⟩
  · rw [he] at hp
    cases hp
  · rw [hp] at hr hs
    cases hr
    refine ⟨⟨v, hv, hc, hn⟩, { v with usedById := some u, usedAt := some c.now }, ?_, hc, rfl⟩
    exact (congrFun hs i).trans (Function.update_self _ _ _)

theorem redemption_call {rt : Runtime} {s s' : Store} {o : Op} {c : Choice} {r : Reply o} {t : Nat}
    {k : Request} {x : Nat × String} (h : call rt s o c = (r, s'))
    (hx : redemption (.did t k o r s s') = some x) :
    (∃ v, s.invites.rows x.1 = some v ∧ v.code = x.2 ∧ v.usedById = none) ∧ Spent s' x := by
  cases o <;> try cases hx
  case redeemInvite input =>
    rcases r with e | ⟨i, u⟩ <;> cases hx
    exact call_redeem h

theorem revocation_call {s s' : Store} {o : Op} {r : Reply o} {t i : Nat} {k : Request}
    (h : revocation (.did t k o r s s') = some i) : o = .deleteInvite i := by
  cases o <;> try cases h
  case deleteInvite j => rcases r with e | _ <;> cases h; rfl

def inviteLedger (rt : Runtime) : Ledger Store Request Op Reply Request Response where
  admits _ _ _ _ := True
  may t _ w o r s := InviteInvariant w ∧ (∃ c, call rt w.state o c = (r, s)) ∧
    ∀ i, o = .deleteInvite i → History.Since (¬ Redeems i ·) w.trace t
  guar _ _ w o _ _ := ∀ i, o = .deleteInvite i → ∀ e ∈ w.trace, ¬ Redeems i e
  post _ _ _ _ := True

abbrev inviteContract (rt : Runtime) (t : Nat) (k : Request) : Contract AuthWorld Op Reply :=
  (inviteLedger rt).discipline.contract t k

section
variable {rt : Runtime} {t : Nat} {k : Request} {w : AuthWorld}

theorem revokeInvite_safe (id : Nat) : (revokeInvite id).run.Safe (inviteContract rt t k)
    (fun _ _ => True) w := by
  refine Program.Safe.invoke_bind fun w₁ _ r w₂ ha => ⟨nofun, ?_⟩
  rcases r with e | _ | invite
  · exact fun _ _ => trivial
  · exact fun _ _ => trivial
  simp only
  split
  · exact fun _ _ => trivial
  rename_i hn
  obtain ⟨hw, hI, ⟨c, hc⟩, -⟩ := ha
  have hrow : w₁.state.invites.rows id = some invite := by
    have hp := call_ok hc
    simpa [perform] using congrArg (·.1) hp
  have hg : History.Guarded (¬ Redeems id ·) (fun v => ∀ e ∈ v.trace, ¬ Redeems id e) t w₂ := by
    rw [hw]
    refine ⟨⟨_, List.mem_cons_self, rfl⟩, fun _ e he => ?_⟩
    rcases List.mem_cons.mp he with rfl | he
    · rintro ⟨c, ⟨⟩⟩
    · rintro ⟨c, hr⟩
      obtain ⟨v, hv, -, hs⟩ := hI.spent e he _ hr
      rw [hrow] at hv
      cases hv
      exact hn hs
  refine Program.Safe.invoke fun w₃ hw₃ r w₄ ha => ⟨?_, fun _ _ => trivial⟩
  rintro i ⟨⟩
  refine (History.Guarded.stable ?_ hg hw₃).2 (ha.2.2.2 id rfl)
  intro v e hv _ he d hd
  rcases List.mem_cons.mp hd with rfl | hd
  · exact he
  · exact hv d hd

theorem inviteProgram_safe (r : Request) :
    (r.program rt).Safe (inviteContract rt t k) (fun _ _ => True) w := by
  have other (h : ∀ o : Op, o.MadeBy r → ∀ i, o ≠ .deleteInvite i) :
      (r.program rt).Safe (inviteContract rt t k) (fun _ _ => True) w :=
    .of_uses (fun _ _ _ _ ho _ i hi => absurd hi (ho i)) ((r.uses rt).mono h)
  cases r with
  | revokeInvite id => exact .map_any (revokeInvite_safe id)
  | _ => exact other fun o ho i hi => by subst hi; cases ho

end

theorem inviteInvariant_exec {rt : Runtime} {w : AuthWorld} {t : Nat} {k : Request} {o : Op}
    {c : Choice} {r : Reply o} {s : Store} (hI : InviteInvariant w) (hc : call rt w.state o c = (r, s))
    (hu : ∀ u, o = .deleteUser u → ∀ i v, w.state.invites.rows i = some v → v.usedById ≠ some u)
    (hd : ∀ i, o = .deleteInvite i → ∀ e ∈ w.trace, ¬ Redeems i e) :
    InviteInvariant ⟨s, .did t k o r w.state s :: w.trace⟩ := by
  obtain rfl : (call rt w.state o c).2 = s := by rw [hc]
  have kept : ∀ e ∈ w.trace, ∀ x ∈ redemption e, Spent (call rt w.state o c).2 x := by
    intro e he x hx
    refine call_keep (φ := fun s => Spent s x) (fun c => ?_) (hI.spent e he x hx) c
    exact perform_spent rt w.state c (hI.spent e he x hx) (fun h => hd _ h e he ⟨_, hx⟩) hu
  refine ⟨call_keep (fun c => perform_unique rt w.state c o hI.unique) hI.unique c, ?_, ?_⟩
  · intro e he x hx
    rcases List.mem_cons.mp he with rfl | he
    · exact (redemption_call hc hx).2
    · exact kept e he x hx
  · refine List.pairwise_cons.mpr ⟨fun e he x hx => ⟨fun hr => ?_, fun y hy => ?_⟩, hI.forever⟩
    · exact hd _ (revocation_call hr) e he ⟨_, hx⟩
    obtain ⟨v, hv, hvc, hvs⟩ := hI.spent e he x hx
    obtain ⟨v', hv', hc', hn⟩ := (redemption_call hc hy).1
    have hne : y.1 ≠ x.1 := by
      intro h
      rw [h, hv] at hv'
      cases hv'
      simp [hn] at hvs
    exact ⟨hne, fun h => hne (hI.unique _ _ _ _ hv' hv (by rw [hc', hvc, h]))⟩

theorem inviteLedger_keeps (rt : Runtime) :
    (inviteLedger rt).Keeps (system rt) SpentKept fun p => InviteInvariant p.toWorld where
  may hI hok ht he := by
    obtain ⟨hc, rfl⟩ := system_exec he
    exact ⟨hI, ⟨_, hc⟩, (hok _ _ _ ht).2⟩
  exec hI hok ht he hg := by
    obtain ⟨hc, rfl⟩ := system_exec he
    rw [Pool.didCall_world]
    exact ⟨inviteInvariant_exec hI hc (hok _ _ _ ht).1 hg, fun _ _ _ _ => trivial, nofun⟩
  finish hI _ _ _ := by
    rw [Pool.didEnd_world]
    exact ⟨hI.silent rfl rfl, fun _ _ _ _ => trivial, nofun⟩
  external {p x s dies ths} hI _ he := by
    obtain ⟨rfl, rfl⟩ := system_external he
    rw [Pool.didOuter_world]
    refine ⟨hI.silent rfl rfl, fun _ _ _ _ => trivial, fun th hth t _ => ?_⟩
    obtain rfl := List.mem_singleton.mp hth
    exact inviteProgram_safe x

/-- As long as no account that an invite created is deleted and no revocation is overtaken by a
redemption, every redeemed invite stays redeemed and is never deleted. -/
theorem redeemed_forever (rt : Runtime) {s : Store} (hs : CodesUnique s) {p : AuthPool}
    (hr : (system rt).Runs SpentKept (.initial s) p) : p.trace.Pairwise Respects := by
  have h0 : InviteInvariant (Pool.initial s : AuthPool).toWorld :=
    ⟨hs, fun _ he => absurd he List.not_mem_nil, List.Pairwise.nil⟩
  exact ((inviteLedger_keeps rt).keeps.safe h0 (Discipline.allSafe_initial _ s) hr).1.forever

/-- One administrator and one open invite. -/
def oneInvite : Store where
  users := Table.empty.insert ⟨"a", "A", "pw", .ADMIN, false⟩
  sessions := .empty
  invites := Table.empty.insert ⟨"code", .USER, none, 100, some 0, none, none⟩
  resets := .empty

theorem oneInvite_unique : CodesUnique oneInvite := by
  intro i j v v' hv hv' _
  rcases Table.insert_rows hv with ⟨rfl, -⟩ | ⟨-, hv⟩
  · rcases Table.insert_rows hv' with ⟨rfl, -⟩ | ⟨-, hv'⟩
    · rfl
    · cases hv'
  · cases hv

def redeemAs (email : String) : AuthLabel := .external (.redeem ⟨"code", "name", email, "pw"⟩)

/-- Deleting the account that an invite created makes the invite redeemable again. -/
theorem invite_redeemed_twice : ¬ ∀ (rt : Runtime) (s : Store) (p : AuthPool), CodesUnique s →
    (system rt).Runs (fun _ _ => True) (.initial s) p → p.trace.Pairwise Respects := by
  intro h
  have hrun : ((system .plain).replay (fun _ _ => true) (.initial oneInvite)
      ([redeemAs "b", .exec 0 {}, .exec 0 {}, .external (.deleteUser 1 0)] ++
        List.replicate 3 (.exec 1 {}) ++ [redeemAs "c", .exec 2 {}, .exec 2 {}])).any
      (fun p => !decide (p.trace.Pairwise Respects)) = true := by decide
  obtain ⟨p, hp, hn⟩ := Option.any_eq_true _ _ |>.mp hrun
  have := h .plain oneInvite p oneInvite_unique
    ((system .plain).replay_runs (fun _ _ _ => trivial) hp)
  simp [this] at hn

/-- No account is deleted, and the requests run one after another. -/
def oneByOne (p : AuthPool) : AuthLabel → Bool
  | .exec t c => History.uninterrupted p (.exec t c : AuthLabel) &&
      match p.threads t with
      | some ⟨_, .call (.deleteUser _) _⟩ => false
      | _ => true
  | _ => true

theorem oneByOne_spentKept {p : AuthPool} {l : AuthLabel} (h : oneByOne p l = true) :
    SpentKept p l := by
  cases l with
  | exec t c =>
    intro k o rest ht
    simp only [oneByOne, ht, Bool.and_eq_true] at h
    refine ⟨?_, fun _ _ => History.Since.of_consecutive h.1⟩
    rintro u rfl
    cases h.2
  | _ => trivial

theorem redeemed_forever_refused : ∃ p, (system .plain).Runs SpentKept (.initial oneInvite) p ∧
    p.trace.filterMap redemption = [(0, "code")] ∧ p.trace.length = 10 ∧
    p.trace.Pairwise Respects := by
  have hrun : ((system .plain).replay oneByOne (.initial oneInvite)
      ([redeemAs "b"] ++ List.replicate 4 (.exec 0 {}) ++ [.external (.revokeInvite 0), .exec 1 {},
        redeemAs "c", .exec 2 {}, .exec 2 {}])).any
      (fun p => p.trace.filterMap redemption = [(0, "code")] ∧ p.trace.length = 10) = true := by
    decide
  obtain ⟨p, hp, hn⟩ := Option.any_eq_true _ _ |>.mp hrun
  have hr := (system .plain).replay_runs (fun _ _ => oneByOne_spentKept) hp
  obtain ⟨h1, h2⟩ := of_decide_eq_true hn
  exact ⟨p, hr, h1, h2, redeemed_forever .plain oneInvite_unique hr⟩

end CircleFtp.Auth
