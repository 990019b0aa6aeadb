import CircleFtp.Downloads.Activation

/-! The books of the queue: one drain at a time, as many slots taken as `running` says, and one
activation for every claim. -/
namespace CircleFtp.Downloads
open Concurrent

/-- The history of the process that is running. -/
def sinceCrash (trace : List DownloadEvent) : List DownloadEvent := trace.takeWhile fun
  | .outer .crash _ _ => false
  | _ => true

@[simp] theorem sinceCrash_did (t : Nat) (k : Task) (o : Op) (r : Reply o) (s s' : State)
    (trace : List DownloadEvent) :
    sinceCrash (.did t k o r s s' :: trace) = .did t k o r s s' :: sinceCrash trace := rfl

@[simp] theorem sinceCrash_ended (t : Nat) (k : Task) (a : Result) (s s' : State)
    (trace : List DownloadEvent) :
    sinceCrash (.ended t k a s s' :: trace) = .ended t k a s s' :: sinceCrash trace := rfl

/-- A drain has claimed the download. -/
def claimed (id : Nat) : DownloadEvent → Bool
  | .did _ .drain (.claim id') (.ok n) _ _ => id' = id && n ≠ 0
  | _ => false

/-- An activation of the download has ended. -/
def activationEnded (id : Nat) : DownloadEvent → Bool
  | .ended _ (.worker id' _) _ _ _ => id' = id
  | _ => false

def Task.activates (id : Nat) : Task → Bool
  | .worker id' _ => id' = id
  | _ => false

/-- The claims of the download by this process. -/
def claims (id : Nat) (p : DownloadPool) : Nat := (sinceCrash p.trace).countP (claimed id)

/-- The activations of the download that this process has started. -/
def activations (id : Nat) (p : DownloadPool) : Nat :=
  p.count (Task.activates id ·.kind) + (sinceCrash p.trace).countP (activationEnded id)

/-- The activations whose slot has not been given back. -/
def live (p : DownloadPool) : Nat := p.count (Task.slot ·.kind)

/-- Drain `t` has claimed the download and not started it yet. -/
def Holds (id : Nat) (p : DownloadPool) (t : Nat) : Prop :=
  p.threads t = some ⟨.drain, .ret (.start id)⟩

structure SlotsExact (env : Env) (p : DownloadPool) : Prop where
  drainOnce : ∀ t t', p.kindAt t = some .drain → p.kindAt t' = some .drain → t = t'
  limit : live p ≤ env.concurrency
  counter : p.state.memory.running = live p
  started : ∀ id, (∀ t, ¬ Holds id p t) → claims id p = activations id p
  held : ∀ id t, Holds id p t → claims id p = activations id p + 1

def DrainShaped (th : DownloadThread) : Prop := th.kind = .drain → DrainShape th.prog

theorem system_drains (env : Env) : (system env).Spawns DrainShaped := by
  have begins {th : DownloadThread} (h : Begins env th) : DrainShaped th := by
    intro hk
    cases h with
    | drain => exact .round
    | _ => cases hk
  exact ⟨fun he th hth => begins ((system_begins env).exec he th hth),
    fun s k a th hth => begins ((system_begins env).finish s k a th hth),
    fun he th hth => begins ((system_begins env).external he th hth)⟩

/-- A claim that goes through is followed by the start of the job. -/
theorem DrainShape.claim_next {id : Nat} {rest : Reply (Op.claim id) → Program Op Reply Result}
    (h : DrainShape (.call (Op.claim id) rest)) {n : Nat} (hn : n ≠ 0) :
    rest (.ok n) = .ret (.start id) := by
  generalize hp : Program.call (Op.claim id) rest = prog at h
  cases h with
  | round =>
    rw [drainProgram_eq] at hp
    cases hp
  | claim id' =>
    cases hp
    simp [hn]
  | ret a => cases hp

structure Accounts (env : Env) (p : DownloadPool) : Prop where
  slots : SlotsKept env p
  drains : p.Each DrainShaped
  started : ∀ id, (∀ t, ¬ Holds id p t) → claims id p = activations id p
  held : ∀ id t, Holds id p t → claims id p = activations id p + 1

section
variable {env : Env} {p p' : DownloadPool} {t : Nat} {k : Task}

theorem Begins.holds_nothing {th : DownloadThread} (h : Begins env th) (id : Nat) :
    th ≠ ⟨.drain, .ret (.start id)⟩ := by
  rintro rfl
  cases h

theorem SlotsKept.holds_once (h : SlotsKept env p) {id u : Nat} (ht : p.kindAt t = some .drain)
    (hu : Holds id p u) : u = t := h.slots.drainOnce u t (kindAt_of hu) ht

theorem didCall_holds (hf : p.Fresh) {o : Op} {rest : Reply o → Program Op Reply Result}
    (ht : p.threads t = some ⟨k, .call o rest⟩) {r : Reply o} {s : State} {c : Choice} (id u : Nat) :
    Holds id (p.didCall t k o rest r s (reported p.state c o)) u ↔
      (u = t ∧ k = .drain ∧ rest r = .ret (.start id)) ∨ Holds id p u := by
  rw [Holds, Pool.didCall_threads hf ht]
  by_cases hu : u < p.next
  · by_cases e : u = t
    · subst e
      simp [hu, Holds, ht]
    · simp [hu, Holds, e]
  · have hn : p.threads u = none := hf u (by omega)
    have hne : u ≠ t := fun e => by simp [← e, hn] at ht
    simp only [hu, if_false, Holds, hn, hne, false_and, or_false, reduceCtorEq, iff_false]
    intro h
    obtain ⟨-, -, hb⟩ := reported_begins (⟨⟨fun _ => none, fun _ => none, fun _ => none⟩, ⟨[], []⟩, 0, 0, 0⟩ : Env)
      (List.mem_of_getElem? h)
    exact hb.holds_nothing id rfl

theorem didEnd_holds (hf : p.Fresh) {a : Result} (ht : p.threads t = some ⟨k, .ret a⟩) (id u : Nat) :
    Holds id (p.didEnd t k a ((system env).finish p.state k a).1 ((system env).finish p.state k a).2) u ↔
      u ≠ t ∧ Holds id p u := by
  rw [Holds, Pool.didEnd_threads hf ht]
  by_cases hu : u < p.next
  · by_cases e : u = t
    · simp [e, hf.lt ht]
    · simp [hu, Holds, e]
  · have hn : p.threads u = none := hf u (by omega)
    simp only [hu, if_false, Holds, hn, reduceCtorEq, and_false, iff_false]
    intro h
    exact ((system_begins env).finish _ _ _ _ (List.mem_of_getElem? h)).holds_nothing id rfl

theorem didOuter_holds (hf : p.Fresh) {x : Arrival} {s : State} {dies : Bool} {ths : List DownloadThread}
    (he : (system env).external p.state x = some (s, dies, ths)) (id u : Nat) :
    Holds id (p.didOuter x s dies ths) u ↔ dies = false ∧ Holds id p u := by
  rw [Holds, Pool.didOuter_threads hf]
  by_cases hu : u < p.next
  · cases dies <;> simp [hu, Holds]
  · have hn : p.threads u = none := hf u (by omega)
    simp only [hu, if_false, Holds, hn, reduceCtorEq, and_false, iff_false]
    intro h
    exact ((system_begins env).external he _ (List.mem_of_getElem? h)).holds_nothing id rfl

/-- The accounts after a step that neither takes a job in hand nor starts one. -/
theorem Accounts.same (h : Accounts env p) (hs : SlotsKept env p') (hd : p'.Each DrainShaped)
    (hh : ∀ id t, Holds id p' t ↔ Holds id p t) (hc : ∀ id, claims id p' = claims id p)
    (ha : ∀ id, activations id p' = activations id p) : Accounts env p' := by
  refine ⟨hs, hd, fun id hn => ?_, fun id t ht => ?_⟩
  · rw [hc, ha]
    exact h.started id fun t ht => hn t ((hh id t).mpr ht)
  · rw [hc, ha]
    exact h.held id t ((hh id t).mp ht)

theorem Accounts.exec (h : Accounts env p) {o : Op} {rest : Reply o → Program Op Reply Result}
    (ht : p.threads t = some ⟨k, .call o rest⟩) {c : Choice} {r : Reply o} {s : State}
    {ths : List DownloadThread} (he : (system env).exec p.state k o c = some (r, s, ths))
    (hs : SlotsKept env (p.didCall t k o rest r s ths))
    (hd : (p.didCall t k o rest r s ths).Each DrainShaped) : Accounts env (p.didCall t k o rest r s ths) := by
  obtain ⟨-, -, rfl⟩ := system_exec he
  have hf := h.slots.fresh
  have acts (id : Nat) : activations id (p.didCall t k o rest r s (reported p.state c o)) = activations id p := by
    have hnew : (reported p.state c o).countP (Task.activates id ·.kind) = 0 := by
      refine List.countP_eq_zero.mpr fun th hth => ?_
      obtain ⟨ticket, hk, -⟩ := reported_begins env hth
      simp [hk, Task.activates]
    rw [activations, Pool.didCall_count hf (Task.activates id) ht, hnew, Pool.didCall_trace,
      sinceCrash_did, List.countP_cons]
    rfl
  have claims_same (hno : ∀ id, claimed id (.did t k o r p.state s) = false) (id : Nat) :
      claims id (p.didCall t k o rest r s (reported p.state c o)) = claims id p := by
    simp [claims, hno]
  by_cases hclaim : ∃ id, claimed id (.did t k o r p.state s) = true
  · obtain ⟨id₀, hid⟩ := hclaim
    obtain ⟨rfl, n, hn, rfl, hr⟩ : k = .drain ∧ ∃ n, n ≠ 0 ∧ o = .claim id₀ ∧
        HEq r (Except.ok n : Reply (.claim id₀)) := by
      cases o <;> try (cases k <;> cases hid)
      rcases r with e | (n : Nat)
      · cases k <;> cases hid
      · cases k <;> try cases hid
        simp only [claimed, Bool.and_eq_true, decide_eq_true_eq] at hid
        obtain ⟨rfl, hn⟩ := hid
        exact ⟨rfl, n, by simpa using hn, rfl, HEq.rfl⟩
    cases hr
    have hnext : rest (.ok n) = .ret (.start id₀) := (h.drains t _ ht rfl).claim_next hn
    have none_held (id u : Nat) : ¬ Holds id p u := fun hu => by
      obtain rfl := h.slots.holds_once (kindAt_of ht) hu
      rw [Holds, ht] at hu
      cases hu
    have holds (id u : Nat) : Holds id (p.didCall t .drain (.claim id₀) rest (.ok n) s
        (reported p.state c (.claim id₀))) u ↔ u = t ∧ id = id₀ := by
      rw [didCall_holds hf ht, hnext]
      simp [none_held, eq_comm]
    have count (id : Nat) : claims id (p.didCall t .drain (.claim id₀) rest (.ok n) s
        (reported p.state c (.claim id₀))) = claims id p + if id₀ = id then 1 else 0 := by
      simp [claims, List.countP_cons, claimed, hn]
    refine ⟨hs, hd, fun id hno => ?_, fun id u hu => ?_⟩
    · have hne : id₀ ≠ id := fun e => hno t ((holds id t).mpr ⟨rfl, e.symm⟩)
      rw [acts, count, if_neg hne]
      exact h.started id (none_held id)
    · obtain ⟨rfl, rfl⟩ := (holds id u).mp hu
      rw [acts, count, if_pos rfl, h.started id (none_held id)]
  · have hno (id : Nat) : claimed id (.did t k o r p.state s) = false := by
      simpa using fun hid => hclaim ⟨id, hid⟩
    refine h.same hs hd (fun id u => ?_) (claims_same hno) acts
    rw [didCall_holds hf ht]
    refine or_iff_right ?_
    rintro ⟨rfl, rfl, hr⟩
    obtain ⟨n, hn, rfl, hrn⟩ := ((h.drains u _ ht rfl).call r).2 id hr
    cases hrn
    simpa [claimed, hn] using hno id

theorem Accounts.finish (h : Accounts env p) {a : Result} (ht : p.threads t = some ⟨k, .ret a⟩)
    (hs : SlotsKept env (p.didEnd t k a ((system env).finish p.state k a).1
      ((system env).finish p.state k a).2))
    (hd : (p.didEnd t k a ((system env).finish p.state k a).1
      ((system env).finish p.state k a).2).Each DrainShaped) :
    Accounts env (p.didEnd t k a ((system env).finish p.state k a).1
      ((system env).finish p.state k a).2) := by
  have hf := h.slots.fresh
  have claims_same (id : Nat) : claims id (p.didEnd t k a ((system env).finish p.state k a).1
      ((system env).finish p.state k a).2) = claims id p := by
    simp [claims, claimed]
  have acts (id : Nat) : activations id (p.didEnd t k a ((system env).finish p.state k a).1
      ((system env).finish p.state k a).2) = activations id p +
        ((system env).finish p.state k a).2.countP (Task.activates id ·.kind) := by
    have hc := Pool.didEnd_count hf (Task.activates id) ht ((system env).finish p.state k a).1
      ((system env).finish p.state k a).2
    have he : activationEnded id (.ended t k a p.state ((system env).finish p.state k a).1) =
        Task.activates id k := by
      cases k <;> rfl
    simp only [activations, Pool.didEnd_trace, sinceCrash_ended, List.countP_cons, he]
    omega
  have quiet {ths : List DownloadThread} (hq : Quiet ths) (id : Nat) :
      ths.countP (Task.activates id ·.kind) = 0 := by
    refine List.countP_eq_zero.mpr fun th hth hk => ?_
    cases hkind : th.kind with
    | worker id' c => exact (hq th hth).1 id' c hkind
    | _ => simp [hkind, Task.activates] at hk
  by_cases hstart : k = .drain ∧ ∃ id, a = .start id
  · obtain ⟨rfl, id₀, rfl⟩ := hstart
    have one (id : Nat) : ((system env).finish p.state .drain (.start id₀)).2.countP
        (Task.activates id ·.kind) = if id₀ = id then 1 else 0 := by
      have hths : ((system env).finish p.state .drain (.start id₀)).2 =
          (p.state.memory.start env id₀).2 :: ((p.state.memory.start env id₀).1.loop env).2 := rfl
      rw [hths, List.countP_cons, quiet loop_quiet.1]
      simp [Memory.start, Task.activates]
    have holds (id u : Nat) : ¬ Holds id (p.didEnd t .drain (.start id₀)
        ((system env).finish p.state .drain (.start id₀)).1
        ((system env).finish p.state .drain (.start id₀)).2) u := by
      rw [didEnd_holds hf ht]
      exact fun hu => hu.1 (h.slots.holds_once (kindAt_of ht) hu.2)
    refine ⟨hs, hd, fun id _ => ?_, fun id u hu => absurd hu (holds id u)⟩
    rw [claims_same, acts, one]
    split
    · subst id
      exact h.held id₀ t ht
    · refine h.started id fun u hu => ?_
      obtain rfl := h.slots.holds_once (kindAt_of ht) hu
      rw [Holds, ht] at hu
      cases hu
      contradiction
  · have hq : Quiet ((system env).finish p.state k a).2 := by
      rcases after_cases env p.state.memory k a with
        ⟨id, more, rfl, rfl, -⟩ | ⟨id, c, rfl, hq, -⟩ | ⟨-, hq, -⟩ | ⟨rfl, hd⟩
      · exact absurd ⟨rfl, id, rfl⟩ hstart
      · exact hq
      · exact hq
      · have hths : ((system env).finish p.state .boot a).2 = [] := congrArg Prod.snd hd
        rw [hths]
        exact quiet_nil
    refine h.same hs hd (fun id u => ?_) claims_same fun id => by rw [acts, quiet hq, Nat.add_zero]
    rw [didEnd_holds hf ht]
    refine and_iff_right_of_imp fun hu e => hstart ?_
    subst e
    rw [Holds, ht] at hu
    cases hu
    exact ⟨rfl, id, rfl⟩

theorem Accounts.external (h : Accounts env p) {x : Arrival} {s : State} {dies : Bool}
    {ths : List DownloadThread} (he : (system env).external p.state x = some (s, dies, ths))
    (hs : SlotsKept env (p.didOuter x s dies ths)) (hd : (p.didOuter x s dies ths).Each DrainShaped) :
    Accounts env (p.didOuter x s dies ths) := by
  have hf := h.slots.fresh
  have new (id : Nat) : ths.countP (Task.activates id ·.kind) = 0 := by
    refine List.countP_eq_zero.mpr fun th hth => ?_
    obtain ⟨r, rfl⟩ | rfl := (arrives he).spawned hth <;> simp [Task.activates]
  by_cases hx : x = .crash
  · have hdies : dies = true := by
      cases arrives he <;> first | rfl | cases hx
    subst hx hdies
    have since : sinceCrash (p.didOuter .crash s true ths).trace = [] := by
      rw [Pool.didOuter_trace]
      rfl
    refine ⟨hs, hd, fun id _ => ?_, fun id u hu => ?_⟩
    · rw [claims, activations, since, Pool.didOuter_count, new]
      rfl
    · simp [didOuter_holds hf he] at hu
  · have hdies : dies = false := by
      cases arrives he <;> trivial
    subst hdies
    have since : sinceCrash (p.didOuter x s false ths).trace = .outer x p.state s :: sinceCrash p.trace := by
      rw [Pool.didOuter_trace]
      cases x <;> first | rfl | contradiction
    refine h.same hs hd (fun id u => by simp [didOuter_holds hf he]) (fun id => ?_) fun id => ?_
    · rw [claims, since]
      rfl
    · rw [activations, since, Pool.didOuter_count, new]
      rfl

theorem Accounts.step (h : Accounts env p) {l : DownloadLabel}
    (hst : (system env).step p l = some p') : Accounts env p' := by
  have hs := h.slots.step hst
  have hd : p'.Each DrainShaped := h.drains.step (system_drains env)
    (fun _ _ _ r hφ hk => ((hφ hk).call r).1) hst
  rcases (system env).step_cases hst with
    ⟨t, k, o, rest, c, r, s, ths, -, ht, he, rfl⟩ | ⟨t, k, a, -, ht, rfl⟩ |
    ⟨x, s, dies, ths, -, he, rfl⟩
  · exact h.exec ht he hs hd
  · exact h.finish ht hs hd
  · exact h.external he hs hd

end

/-- In every state of every run there is at most one drain, the live activations are as many as
`running` says and never more than the concurrency, and each claim has started one activation,
except the one that a drain has in hand. -/
theorem slots_exact (env : Env) {s : State} (hs : s.Down) {p : DownloadPool}
    (hr : (system env).Runs (fun _ _ => True) (.initial s) p) : SlotsExact env p := by
  have h : Accounts env p := by
    refine (system env).invariant (fun _ _ _ h _ hst => h.step hst) ⟨.initial env hs, ?_, ?_, ?_⟩ hr
    · intro t th ht
      cases ht
    · intro id _
      rfl
    · intro id t ht
      cases ht
  have hl := h.slots.slots.limit
  have hn := h.slots.slots.running
  refine ⟨h.slots.slots.drainOnce, ?_, hn, h.started, h.held⟩
  rw [hn] at hl
  exact_mod_cast hl

/-- The first boot, up to the start of the job. -/
theorem slots_exact_boot : ∃ p, (system (.small 2)).Runs (fun _ _ => True) (.initial oneJob) p ∧
    live p = 1 ∧ claims 0 p = 1 ∧ SlotsExact (.small 2) p := by
  have hrun : ((system (.small 2)).replay (fun _ _ => true) (.initial oneJob) bootUp).any
      (fun p => live p = 1 ∧ claims 0 p = 1) = true := by decide
  obtain ⟨p, hp, hn⟩ := Option.any_eq_true _ _ |>.mp hrun
  obtain ⟨hl, hc⟩ := of_decide_eq_true hn
  have hr := (system (.small 2)).replay_runs (C := fun _ _ => True) (fun _ _ _ => trivial) hp
  exact ⟨p, hr, hl, hc, slots_exact (.small 2) oneJob_down hr⟩

end CircleFtp.Downloads
