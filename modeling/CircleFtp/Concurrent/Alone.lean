import CircleFtp.Concurrent.Triple
import CircleFtp.Concurrent.Threads

/-! One thread of a pool that runs while all the others wait, with or without arrivals from
outside. -/
namespace Concurrent
variable {σ κ Op : Type} {Reply : Op → Type} {ι χ ρ : Type}

namespace System
variable (sys : System σ κ Op Reply ι χ ρ)

/-- The steps of thread `t` only. -/
def Alone (t : Nat) : Pool σ κ Op Reply χ ρ → Pool σ κ Op Reply χ ρ → Prop :=
  sys.Runs fun _ l => ∃ c, l = .exec t c

/-- Nobody else moves, and a call does what the system does. -/
def alone (k : κ) : Contract σ Op Reply where
  rely s s' := s' = s
  refl _ := rfl
  trans h h' := h'.trans h
  act s op r s' := ∃ c ths, sys.exec s k op c = some (r, s', ths)
  guar _ _ _ _ := True

theorem alone_stable (k : κ) (P : σ → Prop) : (sys.alone k).Stable P := by
  rintro s _ rfl
  exact id

variable {sys}

/-- What the program is safe for holds of its result. -/
theorem Alone.result {t : Nat} {k : κ} {prog : Program Op Reply ρ} {post : ρ → σ → Prop}
    {p q : Pool σ κ Op Reply χ ρ} (hf : p.Fresh) (ht : p.threads t = some ⟨k, prog⟩)
    (hs : prog.Safe (sys.alone k) post p.state) (hr : sys.Alone t p q) {k' : κ} {a : ρ}
    (hq : q.threads t = some ⟨k', .ret a⟩) : post a q.state := by
  obtain ⟨-, prog', hq', hs'⟩ : q.Fresh ∧ ∃ prog', q.threads t = some ⟨k, prog'⟩ ∧
      prog'.Safe (sys.alone k) post q.state := by
    refine sys.invariant (I := fun q => q.Fresh ∧ ∃ prog', q.threads t = some ⟨k, prog'⟩ ∧
      prog'.Safe (sys.alone k) post q.state) ?_ ⟨hf, prog, ht, hs⟩ hr
    rintro p l p' ⟨hf, prog, ht, hs⟩ ⟨c, rfl⟩ hst
    rcases sys.step_cases hst with
      ⟨u, j, op, rest, c, r, s, ths, hl, hu, he, rfl⟩ | ⟨u, j, a, hl, -, -⟩ | ⟨x, s, dies, ths, hl, -, -⟩
    · cases hl
      rw [hu] at ht
      cases ht
      refine ⟨Pool.didCall_fresh hf hu r s ths, rest r, ?_, ?_⟩
      · simp [Pool.didCall_threads hf hu, hf.lt hu]
      · rw [Pool.didCall_state]
        exact (hs _ rfl r s ⟨c, ths, he⟩).2
    · cases hl
    · cases hl
  rw [hq] at hq'
  cases hq'
  exact hs' _ rfl

/-- The check that only thread `t` moves. -/
def only (t : Nat) (_ : Pool σ κ Op Reply χ ρ) : Label ι χ → Bool
  | .exec u _ => u = t
  | _ => false

theorem only_exec {t : Nat} {p : Pool σ κ Op Reply χ ρ} {l : Label ι χ} (h : only t p l = true) :
    ∃ c, l = .exec t c := by
  cases l with
  | exec u c => exact ⟨c, by rw [of_decide_eq_true h]⟩
  | _ => cases h

/-- The steps of thread `t`, with the choices that `calls` leaves it, and arrivals that are
`quiet`. -/
def Undisturbed (sys : System σ κ Op Reply ι χ ρ) (calls : Op → ι → Prop) (quiet : χ → Prop)
    (t : Nat) : Pool σ κ Op Reply χ ρ → Pool σ κ Op Reply χ ρ → Prop :=
  sys.Runs fun p l =>
    (∃ c, l = .exec t c ∧ ∀ k op rest, p.threads t = some ⟨k, .call op rest⟩ → calls op c) ∨
    ∃ x, l = .external x ∧ quiet x

/-- The contract of that thread: the others only record what arrives. -/
def undisturbed (sys : System σ κ Op Reply ι χ ρ) (calls : Op → ι → Prop) (quiet : χ → Prop)
    (t : Nat) (k : κ) : Contract (World σ κ Op Reply χ ρ) Op Reply :=
  History.contract
    (fun w e => ∃ x s ths, quiet x ∧ sys.external w.state x = some (s, false, ths) ∧
      e = .outer x w.state s)
    t k (fun w op r s => ∃ c ths, calls op c ∧ sys.exec w.state k op c = some (r, s, ths))
    fun _ _ _ _ => True

section
variable {calls : Op → ι → Prop} {quiet : χ → Prop} {t : Nat} {k : κ}

theorem Alone.undisturbed (hc : ∀ op c, calls op c) {p q : Pool σ κ Op Reply χ ρ}
    (h : sys.Alone t p q) : sys.Undisturbed calls quiet t p q := by
  refine Runs.mono sys (fun p l hl => ?_) h
  obtain ⟨c, rfl⟩ := hl
  exact .inl ⟨c, rfl, fun _ op _ _ => hc op c⟩

theorem undisturbed_stable {P : World σ κ Op Reply χ ρ → Prop}
    (h : ∀ w x s ths, quiet x → sys.external w.state x = some (s, false, ths) → P w →
      P ⟨s, .outer x w.state s :: w.trace⟩) :
    (sys.undisturbed calls quiet t k).Stable P := by
  intro w w' hr hw
  refine History.rely_induct (fun v e hv _ _ he => ?_) hr hw
  obtain ⟨x, s, ths, hx, hs, rfl⟩ := he
  exact h v x s ths hx hs hv

/-- Along the run the program stays safe, and what arrivals and promised calls keep is kept. -/
theorem Undisturbed.keeps {prog : Program Op Reply ρ} {post : ρ → World σ κ Op Reply χ ρ → Prop}
    {G : World σ κ Op Reply χ ρ → (op : Op) → Reply op → World σ κ Op Reply χ ρ → Prop}
    {I : World σ κ Op Reply χ ρ → Prop} {p q : Pool σ κ Op Reply χ ρ} (hf : p.Fresh)
    (ht : p.threads t = some ⟨k, prog⟩)
    (hs : prog.Safe ((sys.undisturbed calls quiet t k).promising G) post p.toWorld)
    (h0 : I p.toWorld)
    (own : ∀ w op r s, I w → G w op r ⟨s, .did t k op r w.state s :: w.trace⟩ →
      I ⟨s, .did t k op r w.state s :: w.trace⟩)
    (arrival : ∀ w x s dies ths, quiet x → sys.external w.state x = some (s, dies, ths) → I w →
      I ⟨s, .outer x w.state s :: w.trace⟩)
    (hr : sys.Undisturbed calls quiet t p q) :
    (∀ th, q.threads t = some th → th.kind = k ∧
      th.prog.Safe ((sys.undisturbed calls quiet t k).promising G) post q.toWorld) ∧ I q.toWorld := by
  obtain ⟨-, -, hsafe⟩ : q.Fresh ∧ t < q.next ∧ (∀ th, q.threads t = some th → th.kind = k ∧
      th.prog.Safe ((sys.undisturbed calls quiet t k).promising G) post q.toWorld) ∧ I q.toWorld := by
    refine sys.invariant (I := fun q => q.Fresh ∧ t < q.next ∧ (∀ th, q.threads t = some th →
      th.kind = k ∧ th.prog.Safe ((sys.undisturbed calls quiet t k).promising G) post q.toWorld) ∧
      I q.toWorld) ?_
      ⟨hf, hf.lt ht, fun th hth => by cases ht.symm.trans hth; exact ⟨rfl, hs⟩, h0⟩ hr
    rintro p l p' ⟨hf, hlt, hsafe, hI⟩ hl hst
    rcases sys.step_cases hst with
      ⟨u, j, op, rest, c, r, s, ths, rfl, hu, he, rfl⟩ | ⟨u, j, a, rfl, -, -⟩ |
      ⟨x, s, dies, ths, rfl, he, rfl⟩
    · rcases hl with ⟨c', hc, hcalls⟩ | ⟨x, hx, -⟩
      · cases hc
        obtain ⟨hj : j = k, hsu⟩ := hsafe _ hu
        subst hj
        obtain ⟨hG, hrest⟩ := hsu p.toWorld .refl r ⟨s, .did t j op r p.state s :: p.trace⟩
          ⟨rfl, c, ths, hcalls _ _ _ hu, he⟩
        refine ⟨Pool.didCall_fresh hf hu r s ths, ?_, fun th hth => ?_, ?_⟩
        · exact Nat.lt_of_lt_of_le hlt
            (spawn_next_le ((p.log s (.did t j op r p.state s)).set t (some ⟨j, rest r⟩)) ths)
        · rw [Pool.didCall_threads hf hu, if_pos hlt, if_pos rfl] at hth
          cases hth
          rw [Pool.didCall_world]
          exact ⟨rfl, hrest⟩
        · rw [Pool.didCall_world]
          exact own _ _ _ _ hI hG
      · cases hx
    · rcases hl with ⟨c', hc, -⟩ | ⟨x, hx, -⟩ <;> contradiction
    · rcases hl with ⟨c', hc, -⟩ | ⟨x', hx, hquiet⟩
      · cases hc
      · cases hx
        refine ⟨Pool.didOuter_fresh hf _ _ _ _, ?_, fun th hth => ?_, ?_⟩
        · exact Nat.lt_of_lt_of_le hlt (spawn_next_le { p.log s (.outer x p.state s) with
            threads := if dies then fun _ => none else p.threads } ths)
        · rw [Pool.didOuter_threads hf, if_pos hlt] at hth
          cases dies with
          | true => cases hth
          | false =>
            obtain ⟨hk, hsu⟩ := hsafe th hth
            rw [Pool.didOuter_world]
            exact ⟨hk, hsu.stable (History.rely_single (e := .outer x p.state s) rfl id
              ⟨x, s, ths, hquiet, he, rfl⟩)⟩
        · rw [Pool.didOuter_world]
          exact arrival _ _ _ _ _ hquiet he hI
  exact hsafe

/-- What the program is safe for holds of its result. -/
theorem Undisturbed.result {prog : Program Op Reply ρ} {post : ρ → World σ κ Op Reply χ ρ → Prop}
    {p q : Pool σ κ Op Reply χ ρ} (hf : p.Fresh) (ht : p.threads t = some ⟨k, prog⟩)
    (hs : prog.Safe (sys.undisturbed calls quiet t k) post p.toWorld)
    (hr : sys.Undisturbed calls quiet t p q) {k' : κ} {a : ρ}
    (hq : q.threads t = some ⟨k', .ret a⟩) : post a q.toWorld := by
  have hsafe := (Undisturbed.keeps (G := fun _ _ _ _ => True) (I := fun _ => True) hf ht hs trivial
    (fun _ _ _ _ _ _ => trivial) (fun _ _ _ _ _ _ _ _ => trivial) hr).1
  exact (hsafe _ hq).2 _ .refl

/-- A run that goes on and on and gives the thread a turn again and again, until it has returned. -/
structure Endless (sys : System σ κ Op Reply ι χ ρ) (calls : Op → ι → Prop) (quiet : χ → Prop)
    (t : Nat) (run : Nat → Pool σ κ Op Reply χ ρ) (label : Nat → Label ι χ) : Prop where
  ok : ∀ n, (∃ c, label n = .exec t c ∧
      ∀ k op rest, (run n).threads t = some ⟨k, .call op rest⟩ → calls op c) ∨
    ∃ x, label n = .external x ∧ quiet x
  step : ∀ n, sys.step (run n) (label n) = some (run (n + 1))
  fair : ∀ n, ∃ m, n ≤ m ∧
    ((∃ c, label m = .exec t c) ∨ ∃ k a, (run m).threads t = some ⟨k, .ret a⟩)

/-- Arrivals that nobody dies of leave the thread as it is. -/
theorem Endless.waits {run : Nat → Pool σ κ Op Reply χ ρ} {label : Nat → Label ι χ}
    (h : sys.Endless calls quiet t run label)
    (alive : ∀ s x s' dies ths, quiet x → sys.external s x = some (s', dies, ths) → dies = false)
    {n : Nat} (hf : (run n).Fresh) {th : Thread κ Op Reply ρ} (hth : (run n).threads t = some th)
    (hl : ¬ ∃ c, label n = .exec t c) :
    (run (n + 1)).Fresh ∧ (run (n + 1)).threads t = some th := by
  rcases h.ok n with ⟨c, hc, -⟩ | ⟨x, hx, hquiet⟩
  · exact absurd ⟨c, hc⟩ hl
  have hst := h.step n
  rw [hx] at hst
  rcases sys.step_cases hst with ⟨u, j, op, rest, c, r, s, ths, hl, -⟩ | ⟨u, j, a, hl, -⟩ |
    ⟨x', s, dies, ths, hl, he, hp⟩
  · cases hl
  · cases hl
  · cases hl
    obtain rfl := alive _ _ _ _ _ hquiet he
    rw [hp]
    refine ⟨Pool.didOuter_fresh hf _ _ _ _, ?_⟩
    rwa [Pool.didOuter_threads hf, if_pos (hf.lt hth)]

/-- A turn takes the thread past its call. -/
theorem Endless.turns {run : Nat → Pool σ κ Op Reply χ ρ} {label : Nat → Label ι χ}
    (h : sys.Endless calls quiet t run label) {n : Nat} (hf : (run n).Fresh) {op : Op}
    {rest : Reply op → Program Op Reply ρ} (hth : (run n).threads t = some ⟨k, .call op rest⟩)
    {c : ι} (hl : label n = .exec t c) :
    (run (n + 1)).Fresh ∧ ∃ r, (run (n + 1)).threads t = some ⟨k, rest r⟩ := by
  have hst := h.step n
  rw [hl] at hst
  rcases sys.step_cases hst with ⟨u, j, op', rest', c', r, s, ths, hl, hu, he, hp⟩ |
    ⟨u, j, a, hl, -⟩ | ⟨x, s, dies, ths, hl, -⟩
  · cases hl
    cases hth.symm.trans hu
    rw [hp]
    refine ⟨Pool.didCall_fresh hf hth r s ths, r, ?_⟩
    rw [Pool.didCall_threads hf hth, if_pos (hf.lt hth), if_pos rfl]
  · cases hl
  · cases hl

/-- A thread that gets its turns returns. -/
theorem Endless.returns {run : Nat → Pool σ κ Op Reply χ ρ} {label : Nat → Label ι χ}
    (h : sys.Endless calls quiet t run label)
    (alive : ∀ s x s' dies ths, quiet x → sys.external s x = some (s', dies, ths) → dies = false)
    (prog : Program Op Reply ρ) {n : Nat} (hf : (run n).Fresh)
    (hth : (run n).threads t = some ⟨k, prog⟩) :
    ∃ m a, (run m).threads t = some ⟨k, .ret a⟩ := by
  induction prog generalizing n with
  | ret a => exact ⟨n, a, hth⟩
  | call op rest ih =>
    have turn {n : Nat} (hf : (run n).Fresh) (hth : (run n).threads t = some ⟨k, .call op rest⟩)
        {c : ι} (hl : label n = .exec t c) : ∃ m a, (run m).threads t = some ⟨k, .ret a⟩ := by
      obtain ⟨hf', r, hr⟩ := h.turns hf hth hl
      exact ih r hf' hr
    obtain ⟨m, hnm, hturn⟩ := h.fair n
    obtain ⟨d, rfl⟩ := Nat.exists_eq_add_of_le hnm
    clear hnm
    -- the induction is on the number of steps up to the turn
    induction d generalizing n with
    | zero =>
      rcases hturn with ⟨c, hc⟩ | ⟨k', a, ha⟩
      · exact turn hf hth hc
      · cases hth.symm.trans ha
    | succ d ihd =>
      by_cases hl : ∃ c, label n = .exec t c
      · obtain ⟨c, hc⟩ := hl
        exact turn hf hth hc
      · obtain ⟨hf', hth'⟩ := h.waits alive hf hth hl
        refine ihd hf' hth' ?_
        rwa [Nat.add_assoc n 1 d, Nat.add_comm 1 d]

end
end System

section
variable {Val : Op → Type} {ε : Type} {sys : System σ κ Op (fun o => Except ε (Val o)) ι χ ρ}
  {calls : Op → ι → Prop} {quiet : χ → Prop} {t : Nat} {k : κ}

/-- A call in these surroundings is a call of the system. -/
theorem System.undisturbed_calls {P : World σ κ Op (fun o => Except ε (Val o)) χ ρ → Prop} {op : Op}
    {Q : Val op → World σ κ Op (fun o => Except ε (Val o)) χ ρ → Prop}
    (ok : ∀ w c a s ths, P w → calls op c → sys.exec w.state k op c = some (.ok a, s, ths) →
      Q a ⟨s, .did t k op (.ok a) w.state s :: w.trace⟩)
    (error : ∀ w c e s ths, P w → calls op c → sys.exec w.state k op c = some (.error e, s, ths) →
      P ⟨s, .did t k op (.error e) w.state s :: w.trace⟩) :
    (sys.undisturbed calls quiet t k).Calls P op Q where
  guar _ _ _ _ _ := trivial
  ok w a w' hP ha := by
    obtain ⟨hw, c, ths, hc, he⟩ := ha
    rw [hw]
    exact ok w c a _ ths hP hc he
  error w e w' hP ha := by
    obtain ⟨hw, c, ths, hc, he⟩ := ha
    rw [hw]
    exact error w c e _ ths hP hc he

end
end Concurrent
