import CircleFtp.Auth.Requests
import CircleFtp.Concurrent.History

/-! Reset links over a whole run: one open link per account, each redeemed once, none after its
expiry, after a newer link or for a disabled account. -/
namespace CircleFtp.Auth
open Concurrent

/-- The link that an event issued. -/
def issuedReset : AuthEvent → Option PasswordReset
  | .did _ _ (.createPasswordReset r) (.ok _) _ _ => some r
  | _ => none

/-- The token hash that an event redeemed. -/
def redeemedReset : AuthEvent → Option String
  | .did _ _ (.redeemPasswordReset tokenHash _) (.ok _) _ _ => some tokenHash
  | _ => none

/-- The link last issued to an account. -/
def newestReset (trace : List AuthEvent) (userId : Nat) : Option PasswordReset :=
  (trace.filterMap issuedReset).find? (·.userId = userId)

/-- The later event does not redeem what the earlier one has. -/
def RedeemsOther (later earlier : AuthEvent) : Prop :=
  ∀ h ∈ redeemedReset earlier, h ∉ redeemedReset later

structure ResetsSound (s : Store) : Prop where
  unique : ∀ i j x y, s.resets.rows i = some x → s.resets.rows j = some y →
    x.tokenHash = y.tokenHash → i = j
  single : ∀ i j x y, s.resets.rows i = some x → s.resets.rows j = some y →
    x.userId = y.userId → x.usedAt = none → y.usedAt = none → i = j

/-- The hash of a token that was issued before or during the run. -/
def KnownToken (s₀ : Store) (trace : List AuthEvent) (tokenHash : String) : Prop :=
  (∃ i x, s₀.resets.rows i = some x ∧ x.tokenHash = tokenHash) ∨
  ∃ e ∈ trace, ∃ r ∈ issuedReset e, r.tokenHash = tokenHash

/-- Tokens are drawn at random: the hash of a new one is none of the earlier ones. -/
def TokensFresh (s₀ : Store) (p : AuthPool) : AuthLabel → Prop
  | .exec t _ => ∀ k r rest, p.threads t = some ⟨k, .call (.createPasswordReset r) rest⟩ →
      ¬ KnownToken s₀ p.trace r.tokenHash
  | _ => True

/-- A successful redemption in `p` at the time `now`, which leaves `s'`. -/
structure ResetRedeemed (rt : Runtime) (p : AuthPool) (k : Request) (tokenHash passwordHash : String)
    (now userId : Nat) (s' : Store) : Prop where
  asked : ∀ token newPassword, k = .accountReset token newPassword →
    tokenHash = rt.sha256 token ∧ ∃ salt, passwordHash = rt.bcryptHash newPassword salt
  unused : ∀ e ∈ p.trace, tokenHash ∉ redeemedReset e
  issued : ∀ e ∈ p.trace, ∀ r ∈ issuedReset e, r.tokenHash = tokenHash →
    r.userId = userId ∧ now < r.expiresAt
  newest : ∀ r ∈ newestReset p.trace userId, r.tokenHash = tokenHash
  enabled : ∃ user, p.state.users.rows userId = some user ∧ user.disabled = false
  password : ∃ user, s'.users.rows userId = some user ∧ user.passwordHash = passwordHash
  evicted : ∀ i x, s'.sessions.rows i = some x → x.userId ≠ userId

structure LinksKept (s₀ : Store) (w : AuthWorld) : Prop where
  sound : ResetsSound w.state
  known : ∀ i x, w.state.resets.rows i = some x → KnownToken s₀ w.trace x.tokenHash
  issued : ∀ i x, w.state.resets.rows i = some x → ∀ e ∈ w.trace, ∀ r ∈ issuedReset e,
    r.tokenHash = x.tokenHash → r.userId = x.userId ∧ r.expiresAt = x.expiresAt
  newest : ∀ i x, w.state.resets.rows i = some x → x.usedAt = none →
    ∀ r ∈ newestReset w.trace x.userId, r.tokenHash = x.tokenHash
  spent : ∀ e ∈ w.trace, ∀ h ∈ redeemedReset e, KnownToken s₀ w.trace h ∧
    ∀ i x, w.state.resets.rows i = some x → x.tokenHash = h → x.usedAt ≠ none
  once : w.trace.Pairwise RedeemsOther

theorem LinksKept.initial {s : Store} (h : ResetsSound s) :
    LinksKept s (Pool.initial s : AuthPool).toWorld where
  sound := h
  known i x hx := .inl ⟨i, x, hx, rfl⟩
  issued _ _ _ _ he := absurd he List.not_mem_nil
  newest _ _ _ _ _ hr := by cases hr
  spent _ he := absurd he List.not_mem_nil
  once := List.Pairwise.nil

theorem KnownToken.cons {s₀ : Store} {trace : List AuthEvent} {h : String}
    (hk : KnownToken s₀ trace h) (e : AuthEvent) : KnownToken s₀ (e :: trace) h :=
  hk.imp_right fun ⟨d, hd, hr⟩ => ⟨d, List.mem_cons_of_mem e hd, hr⟩

theorem newestReset_cons {e : AuthEvent} (he : issuedReset e = none) (trace : List AuthEvent)
    (u : Nat) : newestReset (e :: trace) u = newestReset trace u := by
  simp [newestReset, he]

/-- The links of `s'` are links of `s`; a used one stays used. -/
def ResetsFrom (s s' : Store) : Prop := ∀ i x', s'.resets.rows i = some x' →
  ∃ x, s.resets.rows i = some x ∧ x.tokenHash = x'.tokenHash ∧ x.userId = x'.userId ∧
    x.expiresAt = x'.expiresAt ∧ (x'.usedAt = none → x.usedAt = none)

/-- A new link takes the place of the account's open ones. -/
structure IssuesReset (s s' : Store) (r : PasswordReset) : Prop where
  row : s'.resets.rows s.resets.next = some r
  rows : ∀ i x, s'.resets.rows i = some x → (i = s.resets.next ∧ x = r) ∨
    (s.resets.rows i = some x ∧ (x.userId = r.userId → x.usedAt ≠ none))

theorem ResetsFrom.refl (s : Store) : ResetsFrom s s := fun _ x hx => ⟨x, hx, rfl, rfl, rfl, id⟩

theorem ResetsFrom.of_eq {s s' : Store} (h : s'.resets = s.resets) : ResetsFrom s s' :=
  fun _ x hx => ⟨x, h ▸ hx, rfl, rfl, rfl, id⟩

theorem SpendsReset.resetsFrom {s s' : Store} {h hash : String} {now i : Nat} {x : PasswordReset}
    (hs : SpendsReset s s' h hash now i x) : ResetsFrom s s' := by
  intro j y hy
  rw [hs.resets] at hy
  by_cases hj : j = i
  · subst hj
    rw [Function.update_self] at hy
    cases hy
    exact ⟨x, hs.row, rfl, rfl, rfl, fun _ => hs.unused⟩
  · rw [Function.update_of_ne hj] at hy
    exact ⟨y, hy, rfl, rfl, rfl, id⟩

theorem deleteMany_resetsFrom {s s' : Store} {q : PasswordReset → Bool}
    (h : s'.resets = s.resets.deleteMany q) : ResetsFrom s s' := by
  intro i x hx
  rw [h] at hx
  exact ⟨x, (Table.deleteMany_rows.mp hx).1, rfl, rfl, rfl, id⟩

theorem deleteUser_resetsFrom (s : Store) (id : Nat) : ResetsFrom s (s.deleteUser id) := by
  intro i x hx
  obtain ⟨y, hy, rfl⟩ := Table.updateMany_rows.mp hx
  exact ⟨y, (Table.deleteMany_rows.mp hy).1, rfl, rfl, rfl, fun h => h⟩

theorem createPasswordReset_cases (rt : Runtime) (s : Store) (c : Choice) (r : PasswordReset) :
    (∃ e, perform rt s c (.createPasswordReset r) = (.error e, s)) ∨
    ∃ s', perform rt s c (.createPasswordReset r) = (.ok s.resets.next, s') ∧
      IssuesReset s s' r := by
  simp only [perform, ifFree]
  split
  · exact .inl ⟨_, rfl⟩
  refine .inr ⟨_, rfl, Table.insert_rows_self _ r, fun i x hx => ?_⟩
  rcases Table.insert_rows hx with hx | ⟨-, hx⟩
  · exact .inl hx
  · obtain ⟨hx, hn⟩ := Table.deleteMany_rows.mp hx
    exact .inr ⟨hx, fun hu => by simpa [hu, Option.isSome_iff_ne_none] using hn⟩

/-- Only the issuing call adds a link. -/
theorem perform_resets (rt : Runtime) (s : Store) (c : Choice) (o : Op)
    (ho : ∀ r, o ≠ .createPasswordReset r) : ResetsFrom s (perform rt s c o).2 := by
  cases o
  case createPasswordReset r => exact absurd rfl (ho r)
  case redeemPasswordReset h hash =>
    rcases redeemPasswordReset_cases s h hash c.now with ⟨e, he⟩ | ⟨i, x, -, hs⟩
    · rw [perform, he]
      exact .refl s
    · exact hs.resetsFrom
  case pruneExpiredResets => exact deleteMany_resetsFrom rfl
  case deleteUser id =>
    simp only [perform, onRow]
    split
    · exact .refl s
    · exact deleteUser_resetsFrom s id
  all_goals
    refine .of_eq ?_
    simp only [perform, onRow, ifFree, Store.redeemInvite]
    repeat' split
    all_goals rfl

/-- Everything a call can do to the links. -/
theorem call_resets {rt : Runtime} {s s' : Store} {o : Op} {c : Choice} {r : Reply o} (t : Nat)
    (k : Request) (h : call rt s o c = (r, s')) :
    (issuedReset (.did t k o r s s') = none ∧ ResetsFrom s s') ∨
    ∃ x, o = .createPasswordReset x ∧ issuedReset (.did t k o r s s') = some x ∧
      IssuesReset s s' x := by
  rcases call_cases rt s o c with ⟨m, hm⟩ | hp
  · rw [hm] at h
    cases h
    exact .inl ⟨by cases o <;> rfl, .refl s⟩
  rw [hp] at h
  by_cases ho : ∃ x, o = .createPasswordReset x
  · obtain ⟨x, rfl⟩ := ho
    rcases createPasswordReset_cases rt s c x with ⟨e, he⟩ | ⟨s₁, he, hi⟩
    · rw [he] at h
      cases h
      exact .inl ⟨rfl, .refl s⟩
    · rw [he] at h
      cases h
      exact .inr ⟨x, rfl, rfl, hi⟩
  · have ho : ∀ x, o ≠ .createPasswordReset x := fun x hx => ho ⟨x, hx⟩
    have hs := perform_resets rt s c o ho
    rw [h] at hs
    refine .inl ⟨?_, hs⟩
    cases o <;> first | rfl | exact absurd rfl (ho _)

theorem call_redeemPasswordReset {rt : Runtime} {s s' : Store} {h hash : String} {c : Choice}
    {r : Reply (.redeemPasswordReset h hash)} (hc : call rt s (.redeemPasswordReset h hash) c = (r, s')) :
    (∃ e, r = .error e ∧ s' = s) ∨
    ∃ i x, r = .ok x.userId ∧ SpendsReset s s' h hash c.now i x := by
  rcases call_cases rt s (.redeemPasswordReset h hash) c with ⟨m, hm⟩ | hp
  · rw [hm] at hc
    cases hc
    exact .inl ⟨_, rfl, rfl⟩
  rw [hp, perform] at hc
  rcases redeemPasswordReset_cases s h hash c.now with ⟨e, he⟩ | ⟨i, x, hr, hs⟩
  · rw [he] at hc
    cases hc
    exact .inl ⟨e, rfl, rfl⟩
  · rw [hc] at hr hs
    exact .inr ⟨i, x, hr, hs⟩

theorem call_redeemed {rt : Runtime} {s s' : Store} {o : Op} {c : Choice} {r : Reply o} {t : Nat}
    {k : Request} {h : String} (hc : call rt s o c = (r, s'))
    (hr : h ∈ redeemedReset (.did t k o r s s')) : ∃ hash i x, SpendsReset s s' h hash c.now i x := by
  cases o <;> try cases hr
  case redeemPasswordReset h' hash =>
    rcases call_redeemPasswordReset hc with ⟨e, rfl, -⟩ | ⟨i, x, rfl, hs⟩
    · cases hr
    · obtain rfl := Option.mem_some_iff.mp hr
      exact ⟨hash, i, x, hs⟩

theorem ResetsFrom.sound {s s' : Store} (h : ResetsFrom s s') (hs : ResetsSound s) :
    ResetsSound s' where
  unique i j x' y' hx' hy' he := by
    obtain ⟨x, hx, hxt, -⟩ := h i x' hx'
    obtain ⟨y, hy, hyt, -⟩ := h j y' hy'
    exact hs.unique i j x y hx hy (by rw [hxt, hyt, he])
  single i j x' y' hx' hy' he hxn hyn := by
    obtain ⟨x, hx, -, hxu, -, hxo⟩ := h i x' hx'
    obtain ⟨y, hy, -, hyu, -, hyo⟩ := h j y' hy'
    exact hs.single i j x y hx hy (by rw [hxu, hyu, he]) (hxo hxn) (hyo hyn)

theorem IssuesReset.sound {s s' : Store} {r : PasswordReset} (h : IssuesReset s s' r)
    (hs : ResetsSound s) (hf : ∀ i x, s.resets.rows i = some x → x.tokenHash ≠ r.tokenHash) :
    ResetsSound s' where
  unique i j x y hx hy he := by
    rcases h.rows i x hx with ⟨rfl, rfl⟩ | ⟨hx, -⟩
    · rcases h.rows j y hy with ⟨rfl, -⟩ | ⟨hy, -⟩
      · rfl
      · exact absurd he.symm (hf j y hy)
    · rcases h.rows j y hy with ⟨-, rfl⟩ | ⟨hy, -⟩
      · exact absurd he (hf i x hx)
      · exact hs.unique i j x y hx hy he
  single i j x y hx hy he hxn hyn := by
    rcases h.rows i x hx with ⟨rfl, rfl⟩ | ⟨hx, hxo⟩
    · rcases h.rows j y hy with ⟨rfl, -⟩ | ⟨-, hyo⟩
      · rfl
      · exact absurd hyn (hyo he.symm)
    · rcases h.rows j y hy with ⟨-, rfl⟩ | ⟨hy, -⟩
      · exact absurd hxn (hxo he)
      · exact hs.single i j x y hx hy he hxn hyn

/-- What was redeemed stays so and is not redeemed again. -/
theorem LinksKept.redeems_other {s₀ : Store} {w : AuthWorld} (h : LinksKept s₀ w) {e : AuthEvent}
    {s' : Store} (hr : ∀ y ∈ redeemedReset e, ∃ hash now i x, SpendsReset w.state s' y hash now i x) :
    ∀ d ∈ w.trace, RedeemsOther e d := by
  intro d hd y hy hy'
  obtain ⟨hash, now, i, x, hs⟩ := hr y hy'
  exact (h.spent d hd y hy).2 i x hs.row hs.token hs.unused

/-- An event that issues no link. -/
theorem LinksKept.changes {s₀ : Store} {w : AuthWorld} (h : LinksKept s₀ w) {e : AuthEvent}
    {s' : Store} (hi : issuedReset e = none) (hf : ResetsFrom w.state s')
    (hr : ∀ y ∈ redeemedReset e, ∃ hash now i x, SpendsReset w.state s' y hash now i x) :
    LinksKept s₀ ⟨s', e :: w.trace⟩ where
  sound := hf.sound h.sound
  known i x' hx' := by
    obtain ⟨x, hx, ht, -⟩ := hf i x' hx'
    exact ht ▸ (h.known i x hx).cons _
  issued i x' hx' d hd y hy hye := by
    obtain ⟨x, hx, ht, hu, hexp, -⟩ := hf i x' hx'
    rw [← hu, ← hexp]
    rcases List.mem_cons.mp hd with rfl | hd
    · rw [hi] at hy
      cases hy
    · exact h.issued i x hx d hd y hy (by rw [ht, hye])
  newest i x' hx' hn y hy := by
    obtain ⟨x, hx, ht, hu, -, ho⟩ := hf i x' hx'
    rw [newestReset_cons hi, ← hu] at hy
    rw [← ht]
    exact h.newest i x hx (ho hn) y hy
  spent d hd y hy := by
    rcases List.mem_cons.mp hd with rfl | hd
    · obtain ⟨hash, now, i, x, hs⟩ := hr y hy
      refine ⟨hs.token ▸ (h.known i x hs.row).cons _, fun j z hz hzy => ?_⟩
      have hx : s'.resets.rows i = some { x with usedAt := some now } := by
        rw [hs.resets]
        exact Function.update_self _ _ _
      obtain rfl := (hf.sound h.sound).unique i j _ z hx hz (hs.token.trans hzy.symm)
      rw [hx] at hz
      cases hz
      exact Option.some_ne_none _
    · obtain ⟨hk, hu⟩ := h.spent d hd y hy
      refine ⟨hk.cons _, fun j z' hz' hzy hzn => ?_⟩
      obtain ⟨z, hz, ht, -, -, ho⟩ := hf j z' hz'
      exact hu j z hz (ht.trans hzy) (ho hzn)
  once := List.pairwise_cons.mpr ⟨h.redeems_other hr, h.once⟩

/-- An event that touches no link. -/
theorem LinksKept.silent {s₀ : Store} {w : AuthWorld} (h : LinksKept s₀ w) {e : AuthEvent}
    (hi : issuedReset e = none) (hr : redeemedReset e = none) :
    LinksKept s₀ ⟨w.state, e :: w.trace⟩ :=
  h.changes hi (.refl _) fun y hy => by rw [hr] at hy; cases hy

theorem LinksKept.issue {s₀ : Store} {w : AuthWorld} (h : LinksKept s₀ w) {e : AuthEvent}
    {x : PasswordReset} {s' : Store} (hi : issuedReset e = some x) (hs : IssuesReset w.state s' x)
    (hr : redeemedReset e = none) (hf : ¬ KnownToken s₀ w.trace x.tokenHash) :
    LinksKept s₀ ⟨s', e :: w.trace⟩ where
  sound := hs.sound h.sound fun i y hy ht => hf (ht ▸ h.known i y hy)
  known i y hy := by
    rcases hs.rows i y hy with ⟨-, rfl⟩ | ⟨hy', -⟩
    · exact .inr ⟨_, List.mem_cons_self, y, hi, rfl⟩
    · exact (h.known i y hy').cons _
  issued i y hy d hd z hz hzy := by
    rcases hs.rows i y hy with ⟨-, rfl⟩ | ⟨hy', -⟩
    · rcases List.mem_cons.mp hd with rfl | hd
      · rw [hi] at hz
        cases hz
        exact ⟨rfl, rfl⟩
      · exact absurd (.inr ⟨d, hd, z, hz, hzy⟩) hf
    · rcases List.mem_cons.mp hd with rfl | hd
      · rw [hi] at hz
        cases hz
        exact absurd (hzy ▸ h.known i y hy') hf
      · exact h.issued i y hy' d hd z hz hzy
  newest i y hy hn z hz := by
    simp only [newestReset, List.filterMap_cons, hi, List.find?_cons] at hz
    rcases hs.rows i y hy with ⟨-, rfl⟩ | ⟨hy, ho⟩
    · simp only [decide_true, Option.mem_some_iff] at hz
      rw [hz]
    · have hu : x.userId ≠ y.userId := fun hu => ho hu.symm hn
      simp only [hu, decide_false] at hz
      exact h.newest i y hy hn z hz
  spent d hd y hy := by
    rcases List.mem_cons.mp hd with rfl | hd
    · rw [hr] at hy
      cases hy
    · obtain ⟨hk, hu⟩ := h.spent d hd y hy
      refine ⟨hk.cons _, fun j z hz hzy => ?_⟩
      rcases hs.rows j z hz with ⟨-, rfl⟩ | ⟨hz, -⟩
      · exact absurd (hzy ▸ hk) hf
      · exact hu j z hz hzy
  once := List.pairwise_cons.mpr ⟨fun d _ y _ hy => by simp [hr] at hy, h.once⟩

theorem linksKept_exec {rt : Runtime} {s₀ : Store} {w : AuthWorld} (h : LinksKept s₀ w) {t : Nat}
    {k : Request} {o : Op} {c : Choice} {r : Reply o} {s' : Store} (hc : call rt w.state o c = (r, s'))
    (hf : ∀ x, o = .createPasswordReset x → ¬ KnownToken s₀ w.trace x.tokenHash) :
    LinksKept s₀ ⟨s', .did t k o r w.state s' :: w.trace⟩ := by
  rcases call_resets t k hc with ⟨hi, hfrom⟩ | ⟨x, rfl, hi, hs⟩
  · refine h.changes hi hfrom fun y hy => ?_
    obtain ⟨hash, i, x, hs⟩ := call_redeemed hc hy
    exact ⟨hash, c.now, i, x, hs⟩
  · exact h.issue hi hs rfl (hf x rfl)

/-- A reset request redeems the token it was given and sets the password it was given. -/
def resetLedger (rt : Runtime) : Ledger Store Request Op Reply Request Response where
  admits _ _ _ _ := True
  may _ _ w o r s := ∃ c, call rt w.state o c = (r, s)
  guar _ k _ o _ _ := ∀ token newPassword tokenHash passwordHash,
    k = .accountReset token newPassword → o = .redeemPasswordReset tokenHash passwordHash →
    tokenHash = rt.sha256 token ∧ ∃ salt, passwordHash = rt.bcryptHash newPassword salt
  post _ _ _ _ := True

abbrev resetContract (rt : Runtime) (t : Nat) (k : Request) : Contract AuthWorld Op Reply :=
  (resetLedger rt).discipline.contract t k

section
variable {rt : Runtime} {t : Nat} {w : AuthWorld}

theorem redeemPasswordReset_safe (token new : String) :
    (redeemPasswordReset rt token new).run.Safe (resetContract rt t (.accountReset token new))
      (fun _ _ => True) w := by
  refine Program.Safe.invoke_bind fun w₁ _ r w₂ ha => ⟨nofun, ?_⟩
  rcases r with e | hash
  · exact fun _ _ => trivial
  obtain ⟨c, hc⟩ := ha.2
  have hh : hash = rt.bcryptHash new c.random := by
    have hp := call_ok hc
    simp only [perform, Prod.mk.injEq, Except.ok.injEq] at hp
    exact hp.1.symm
  refine Program.Safe.invoke fun _ _ _ _ _ => ⟨?_, fun _ _ => trivial⟩
  rintro _ _ _ _ ⟨⟩ ⟨⟩
  exact ⟨rfl, c.random, hh⟩

def Op.redeems : Op → Prop
  | .redeemPasswordReset _ _ => True
  | _ => False

theorem accountReset_safe (token new : String) :
    (accountReset rt token new).run.Safe (resetContract rt t (.accountReset token new))
      (fun _ _ => True) w := by
  have leaves (o : Op) (v v' : AuthWorld) (r : Reply o) (ho : ¬ o.redeems) :
      (resetContract rt t (.accountReset token new)).act v o r v' →
        (resetContract rt t (.accountReset token new)).guar v o r v' := by
    rintro - _ _ h hash - rfl
    exact absurd trivial ho
  have hr : (redeemPasswordReset rt token new).run.Safe (resetContract rt t (.accountReset token new))
      (Program.split (fun _ _ => True) fun _ _ => True) w :=
    (redeemPasswordReset_safe token new).mono (by rintro (_ | _) _ - <;> trivial)
  refine .except_bind_any hr fun userId v _ =>
    .of_uses (fun v o r v' ho => leaves o v v' r ho) (.except_bind (.invoke id) ?_)
  rintro (_ | user)
  · trivial
  · exact .except_bind (.invoke id) fun _ => .except_bind (.invoke id) fun _ => .invoke id

theorem resetProgram_safe (r : Request) :
    (r.program rt).Safe (resetContract rt t r) (fun _ _ => True) w := by
  have other (h : ∀ token new, r ≠ .accountReset token new) :
      (r.program rt).Safe (resetContract rt t r) (fun _ _ => True) w :=
    .of_uses (fun _ _ _ _ (_ : True) _ token new _ _ hr => absurd hr (h token new))
      ((r.uses rt).mono fun _ _ => trivial)
  cases r with
  | accountReset token new => exact .map_any (accountReset_safe token new)
  | _ => exact other nofun

end

theorem resetLedger_keeps (rt : Runtime) (s₀ : Store) :
    (resetLedger rt).Keeps (system rt) (TokensFresh s₀) fun p => LinksKept s₀ p.toWorld where
  may hI hok ht he := ⟨_, (system_exec he).1⟩
  exec hI hok ht he hg := by
    obtain ⟨hc, rfl⟩ := system_exec he
    rw [Pool.didCall_world]
    refine ⟨linksKept_exec hI hc ?_, fun _ _ _ _ => trivial, nofun⟩
    rintro x rfl
    exact hok _ x _ ht
  finish hI _ _ _ := by
    rw [Pool.didEnd_world]
    exact ⟨hI.silent rfl rfl, fun _ _ _ _ => trivial, nofun⟩
  external {p x s dies ths} hI _ he := by
    obtain ⟨rfl, rfl⟩ := system_external he
    rw [Pool.didOuter_world]
    refine ⟨hI.silent rfl rfl, fun _ _ _ _ => trivial, fun th hth t _ => ?_⟩
    obtain rfl := List.mem_singleton.mp hth
    exact resetProgram_safe x

theorem LinksKept.redeems {rt : Runtime} {s₀ : Store} {p : AuthPool} (h : LinksKept s₀ p.toWorld)
    {k : Request} {tokenHash hash : String} {now i : Nat} {x : PasswordReset} {s' : Store}
    (hs : SpendsReset p.state s' tokenHash hash now i x)
    (hk : ∀ token new, k = .accountReset token new →
      tokenHash = rt.sha256 token ∧ ∃ salt, hash = rt.bcryptHash new salt) :
    ResetRedeemed rt p k tokenHash hash now x.userId s' where
  asked := hk
  unused e he hr := (h.spent e he _ hr).2 i x hs.row hs.token hs.unused
  issued e he r hr ht := by
    obtain ⟨hu, hx⟩ := h.issued i x hs.row e he r hr (ht.trans hs.token.symm)
    exact ⟨hu, hx ▸ hs.unexpired⟩
  newest r hr := (h.newest i x hs.row hs.unused r hr).trans hs.token
  enabled := hs.enabled
  password := by
    obtain ⟨user, hu, -⟩ := hs.enabled
    exact ⟨{ user with passwordHash := hash }, by rw [hs.users, Table.modify_rows_self, hu]; rfl, rfl⟩
  evicted j y hy := by
    rw [hs.sessions] at hy
    simpa using (Table.deleteMany_rows.mp hy).2

/-- At most one open link per account, no token redeemed twice, and every redemption either
changes nothing or is of the newest, unexpired link of an enabled account, whose password it sets
and whose sessions it ends. -/
theorem reset_links (rt : Runtime) {s₀ : Store} (h₀ : ResetsSound s₀) {p : AuthPool}
    (hr : (system rt).Runs (TokensFresh s₀) (.initial s₀) p) :
    (∀ i j x y, p.state.resets.rows i = some x → p.state.resets.rows j = some y →
      x.userId = y.userId → x.usedAt = none → y.usedAt = none → i = j) ∧
    p.trace.Pairwise RedeemsOther ∧
    ∀ t k tokenHash passwordHash rest, p.threads t =
        some ⟨k, .call (.redeemPasswordReset tokenHash passwordHash) rest⟩ →
      ∀ c r s' ths, (system rt).exec p.state k (.redeemPasswordReset tokenHash passwordHash) c =
        some (r, s', ths) →
      match r with
      | .error _ => s' = p.state
      | .ok userId => ResetRedeemed rt p k tokenHash passwordHash c.now userId s' := by
  obtain ⟨hI, hsafe⟩ := (resetLedger_keeps rt s₀).keeps.safe (LinksKept.initial h₀)
    (Discipline.allSafe_initial _ s₀) hr
  refine ⟨hI.sound.single, hI.once, fun t k tokenHash hash rest ht c r s' ths he => ?_⟩
  have hk := (hsafe.call ht (w := ⟨s', .did t k _ r p.state s' :: p.trace⟩)
    ⟨rfl, c, (system_exec he).1⟩).1
  rcases call_redeemPasswordReset (system_exec he).1 with ⟨e, rfl, hs⟩ | ⟨i, x, rfl, hs⟩
  · exact hs
  · exact hI.redeems hs fun token new hr => hk token new tokenHash hash hr rfl

/-- Two accounts. -/
def twoAccounts : Store where
  users := (Table.empty.insert ⟨"a", "A", "pw", .ADMIN, false⟩).insert ⟨"b", "B", "pw", .USER, false⟩
  sessions := Table.empty.insert ⟨"session", 1, 100⟩
  invites := .empty
  resets := .empty

theorem twoAccounts_sound : ResetsSound twoAccounts := ⟨nofun, nofun⟩

/-- No hash of a token is issued twice. -/
def drawnOnce (p : AuthPool) : AuthLabel → Bool
  | .exec t _ =>
    match p.threads t with
    | some ⟨_, .call (.createPasswordReset r) _⟩ =>
      p.trace.all fun e => (issuedReset e).all (·.tokenHash ≠ r.tokenHash)
    | _ => true
  | _ => true

theorem drawnOnce_fresh {p : AuthPool} {l : AuthLabel} (h : drawnOnce p l = true) :
    TokensFresh twoAccounts p l := by
  cases l with
  | exec t c =>
    rintro k r rest ht (⟨i, x, hx, -⟩ | ⟨e, he, y, hy, hh⟩)
    · cases hx
    · simp only [drawnOnce, ht, List.all_eq_true] at h
      simpa [Option.mem_def.mp hy, hh] using h e he
  | _ => trivial

/-- Two links for one account: the first is refused, the second sets the password. -/
theorem reset_links_sequence : ∃ p,
    (system .plain).Runs (TokensFresh twoAccounts) (.initial twoAccounts) p ∧
    p.trace.filterMap redeemedReset = ["new"] ∧
    p.state.users.rows 1 = some ⟨"b", "B", "pw2", .USER, false⟩ ∧
    p.trace.Pairwise RedeemsOther := by
  have hrun : ((system .plain).replay drawnOnce (.initial twoAccounts)
      ([.external (.createPasswordReset 1 (some 0) 1)] ++
        List.replicate 4 (.exec 0 { random := "old" }) ++
        [.external (.createPasswordReset 1 (some 0) 1)] ++
        List.replicate 4 (.exec 1 { random := "new" }) ++
        [.external (.accountReset "old" "pw1"), .external (.accountReset "new" "pw2")] ++
        List.replicate 2 (.exec 2 {}) ++ List.replicate 2 (.exec 3 {}))).any
      (fun p => p.trace.filterMap redeemedReset = ["new"] ∧
        p.state.users.rows 1 = some ⟨"b", "B", "pw2", .USER, false⟩) = true := by
    decide
  obtain ⟨p, hp, hn⟩ := Option.any_eq_true _ _ |>.mp hrun
  obtain ⟨h1, h2⟩ := of_decide_eq_true hn
  have hr := (system .plain).replay_runs (fun _ _ => drawnOnce_fresh) hp
  exact ⟨p, hr, h1, h2, (reset_links .plain twoAccounts_sound hr).2.1⟩

end CircleFtp.Auth
