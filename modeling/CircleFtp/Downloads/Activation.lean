import CircleFtp.Downloads.Slots

/-! One worker per job: two activations of `runJob` for one download overlap only when the
download is claimed again before the first has ended. -/
namespace CircleFtp.Downloads
open Concurrent

/-- At most one activation per job, and its own abort handle is the one on record, so that an
abort interrupts it. -/
structure OneActivation (p : DownloadPool) : Prop where
  once : ∀ t t' id c c', p.kindAt t = some (.worker id c) → p.kindAt t' = some (.worker id c') → t = t'
  abort : ∀ t id c, p.kindAt t = some (.worker id c) →
    p.state.memory.abortJob id = (true, p.state.memory.abort c)

/-- No download is claimed while an activation for it is live. -/
def ClaimsIdle (p : DownloadPool) : DownloadLabel → Prop
  | .exec t _ => ∀ k id rest, p.threads t = some ⟨k, .call (.claim id) rest⟩ →
      (∃ d, p.state.downloads.rows id = some d ∧ d.status = .QUEUED) →
      ∀ u c, p.kindAt u ≠ some (.worker id c)
  | _ => True

/-- What is left of a round of the drain after it has found a job. -/
def claimNext (id : Nat) : Program Op Reply Result := .call (.claim id) fun r =>
  match r with
  | .ok n => if n = 0 then .ret .again else .ret (.start id)
  | .error e => .ret (.ended (.error e))

inductive DrainShape : Program Op Reply Result → Prop where
  | round : DrainShape drainProgram
  | claim (id : Nat) : DrainShape (claimNext id)
  | ret (a : Result) : DrainShape (.ret a)

theorem drainProgram_eq : drainProgram = .call .findQueued fun r =>
    match r with
    | .ok none => .ret .stop
    | .ok (some id) => claimNext id
    | .error e => .ret (.ended (.error e)) := by
  refine congrArg (Program.call Op.findQueued) (funext fun r => ?_)
  rcases r with e | _ | id
  · rfl
  · rfl
  refine congrArg (Program.call (Op.claim id)) (funext fun r => ?_)
  rcases r with e | n
  · rfl
  · cases n <;> rfl

/-- A call of the drain leads to the next shape; a job starts only after its claim has gone
through. -/
theorem DrainShape.call {o : Op} {rest : Reply o → Program Op Reply Result}
    (h : DrainShape (.call o rest)) (r : Reply o) : DrainShape (rest r) ∧
      ∀ id, rest r = .ret (.start id) → ∃ n, n ≠ 0 ∧ o = .claim id ∧ HEq r (Except.ok n : Reply (.claim id)) := by
  generalize hp : Program.call o rest = prog at h
  cases h with
  | round =>
    rw [drainProgram_eq] at hp
    cases hp
    rcases r with e | _ | id
    · exact ⟨.ret _, by simp⟩
    · exact ⟨.ret _, by simp⟩
    · exact ⟨.claim id, by simp [claimNext]⟩
  | claim id =>
    cases hp
    rcases r with e | n
    · exact ⟨.ret _, by simp⟩
    · simp only
      split
      · exact ⟨.ret _, by simp⟩
      · refine ⟨.ret _, fun id' h => ?_⟩
        cases h
        exact ⟨n, ‹_›, rfl, HEq.rfl⟩
  | ret a => cases hp

/-- A claim that goes through finds the download queued. -/
theorem claim_queued {s s' : State} {id n : Nat} {c : Choice}
    (h : call s (.claim id) c = (.ok n, s')) (hn : n ≠ 0) :
    ∃ d, s.downloads.rows id = some d ∧ d.status = .QUEUED := by
  have hp := call_ok h
  simp only [perform, Prod.mk.injEq, Except.ok.injEq] at hp
  obtain ⟨i, d, hd, hq⟩ := Table.count_ne_zero.mp (hp.1 ▸ hn)
  simp only [Bool.and_eq_true, decide_eq_true_eq] at hq
  obtain ⟨rfl, hq⟩ := hq
  exact ⟨d, hd, hq⟩

/-- New tasks that neither run a job nor are about to. -/
def Quiet (ths : List DownloadThread) : Prop :=
  ∀ th ∈ ths, (∀ id c, th.kind ≠ .worker id c) ∧ (th.kind = .drain → th.prog = drainProgram)

theorem quiet_nil : Quiet [] := fun _ h => absurd h List.not_mem_nil

section
variable {env : Env} {m : Memory}

theorem loop_quiet : Quiet (m.loop env).2 ∧ (m.loop env).1.aborts = m.aborts := by
  rw [Memory.loop]
  split
  · refine ⟨fun th hth => ?_, rfl⟩
    obtain rfl := List.mem_singleton.mp hth
    exact ⟨by simp, fun _ => rfl⟩
  · exact ⟨quiet_nil, rfl⟩

theorem wake_quiet : Quiet (m.wake env).2 ∧ (m.wake env).1.aborts = m.aborts := by
  rw [Memory.wake]
  split
  · exact ⟨quiet_nil, rfl⟩
  · exact loop_quiet

theorem quiet_one {k : Task} {prog : Program Op Reply Result} (hw : ∀ id c, k ≠ .worker id c)
    (hd : k ≠ .drain) : Quiet [⟨k, prog⟩] := by
  intro th hth
  obtain rfl := List.mem_singleton.mp hth
  exact ⟨hw, fun h => absurd h hd⟩

/-- The end of a task starts an activation with a handle of its own, or ends one together with
the handle on record, or touches neither; a boot that fails leaves nothing. -/
theorem after_cases (env : Env) (m : Memory) (k : Task) (a : Result) :
    (∃ id more, k = .drain ∧ a = .start id ∧ (m.after env k a).2 = (m.start env id).2 :: more ∧
      Quiet more ∧ (m.after env k a).1.aborts = m.aborts.insert id m.controllers) ∨
    (∃ id c, k = .worker id c ∧ Quiet (m.after env k a).2 ∧
      (m.after env k a).1.aborts = m.aborts.erase id) ∨
    ((∀ id c, k ≠ .worker id c) ∧ Quiet (m.after env k a).2 ∧
      (m.after env k a).1.aborts = m.aborts) ∨
    (k = .boot ∧ m.after env k a = ({}, [])) := by
  have waking {m' : Memory} (h : m.after env k a = m'.wake env) (hm : m'.aborts = m.aborts)
      (hk : ∀ id c, k ≠ .worker id c) : (∀ id c, k ≠ .worker id c) ∧ Quiet (m.after env k a).2 ∧
      (m.after env k a).1.aborts = m.aborts := by
    rw [h]
    exact ⟨hk, wake_quiet.1, wake_quiet.2.trans hm⟩
  cases k with
  | boot =>
    rcases a with (e | _) | _ | _ | _
    case ended.ok =>
      have h : m.after env .boot (.ended (.ok ())) = Memory.wake env { m with phase := .up } := rfl
      exact .inr (.inr (.inl (waking h rfl (by simp))))
    all_goals exact .inr (.inr (.inr ⟨rfl, rfl⟩))
  | drain =>
    rcases a with _ | _ | _ | id
    case again => exact .inr (.inr (.inl ⟨by simp, loop_quiet.1, loop_quiet.2⟩))
    case start =>
      exact .inl ⟨id, _, rfl, rfl, rfl, loop_quiet.1, loop_quiet.2⟩
    all_goals exact .inr (.inr (.inl ⟨by simp, quiet_nil, rfl⟩))
  | worker id c => exact .inr (.inl ⟨id, c, rfl, quiet_one (by simp) (by simp), rfl⟩)
  | release => exact .inr (.inr (.inl ⟨by simp, quiet_one (by simp) (by simp), rfl⟩))
  | wake => exact .inr (.inr (.inl (waking rfl rfl (by simp))))
  | progress ticket => exact .inr (.inr (.inl ⟨by simp, quiet_nil, rfl⟩))
  | request r =>
    refine .inr (.inr (.inl ?_))
    rcases r with _ | id | id | _ <;> rcases a with (e | _) | _ | _ | _ <;>
      try first | exact waking rfl rfl (by simp) | exact ⟨by simp, quiet_nil, rfl⟩
    -- what is left is a cancel that succeeded
    refine ⟨by simp, quiet_nil, ?_⟩
    simp only [Memory.after, Memory.abortJob]
    split <;> rfl

end

/-- An activation starts when the drain has claimed its job. -/
theorem started_worker {env : Env} {m : Memory} {k : Task} {a : Result} {th : DownloadThread} {id c : Nat}
    (h : th ∈ (m.after env k a).2) (hk : th.kind = .worker id c) : k = .drain ∧ a = .start id := by
  have quiet {ths : List DownloadThread} (hq : Quiet ths) (hm : th ∈ ths) : False :=
    (hq th hm).1 id c hk
  rcases after_cases env m k a with
    ⟨id', more, rfl, rfl, h2, hq, -⟩ | ⟨id', c', rfl, hq, -⟩ | ⟨-, hq, -⟩ | ⟨rfl, hd⟩
  · rw [h2] at h
    rcases List.mem_cons.mp h with rfl | hm
    · cases hk
      exact ⟨rfl, rfl⟩
    · exact (quiet hq hm).elim
  · exact (quiet hq h).elim
  · exact (quiet hq h).elim
  · rw [hd] at h
    cases h

structure Activations (p : DownloadPool) : Prop where
  shape : ∀ t th, p.threads t = some th → th.kind = .drain → DrainShape th.prog
  once : ∀ t t' id c c', p.kindAt t = some (.worker id c) → p.kindAt t' = some (.worker id c') → t = t'
  handle : ∀ t id c, p.kindAt t = some (.worker id c) → p.state.memory.aborts.lookup id = some c
  claimed : ∀ t id, p.threads t = some ⟨.drain, .ret (.start id)⟩ →
    ∀ u c, p.kindAt u ≠ some (.worker id c)

section
variable {env : Env} {p : DownloadPool} {t : Nat} {k : Task}

theorem Activations.exec (h : Activations p) (hs : SlotsKept env p) {o : Op}
    {rest : Reply o → Program Op Reply Result} (ht : p.threads t = some ⟨k, .call o rest⟩)
    {c : Choice} {r : Reply o} {s : State} {ths : List DownloadThread}
    (he : (system env).exec p.state k o c = some (r, s, ths)) (hok : ClaimsIdle p (.exec t c)) :
    Activations (p.didCall t k o rest r s ths) := by
  obtain ⟨-, hc, rfl⟩ := system_exec he
  have same : p.state.memory.Same s.memory := by
    have := call_same p.state o c
    rwa [hc] at this
  -- the new thread, if any, is a progress write
  have new {u : Nat} {th : DownloadThread} (hu : (reported p.state c o)[u]? = some th) :
      ∃ ticket, th.kind = .progress ticket := by
    obtain ⟨ticket, hk, -⟩ := reported_begins env (List.mem_of_getElem? hu)
    exact ⟨ticket, hk⟩
  have old {u id c' : Nat} (hu : (p.didCall t k o rest r s (reported p.state c o)).kindAt u =
      some (.worker id c')) : p.kindAt u = some (.worker id c') := by
    rw [Pool.didCall_kindAt hs.fresh ht] at hu
    split at hu
    · exact hu
    · obtain ⟨th, hth, hk⟩ := Option.map_eq_some_iff.mp hu
      obtain ⟨ticket, e⟩ := new hth
      rw [e] at hk
      cases hk
  refine ⟨fun u th hu hk => ?_, fun u u' id c₁ c₂ hu hu' => h.once u u' id c₁ c₂ (old hu) (old hu'),
    fun u id c' hu => ?_, fun u id hu v c' hv => ?_⟩
  · rw [Pool.didCall_threads hs.fresh ht] at hu
    split at hu
    · split at hu
      · cases hu
        exact ((h.shape t _ ht hk).call r).1
      · exact h.shape u th hu hk
    · obtain ⟨ticket, e⟩ := new hu
      rw [e] at hk
      cases hk
  · rw [Pool.didCall_state, same.aborts]
    exact h.handle u id c' (old hu)
  · have hw := old hv
    rw [Pool.didCall_threads hs.fresh ht] at hu
    split at hu
    · split at hu
      · obtain ⟨rfl, hr⟩ : k = .drain ∧ rest r = .ret (.start id) := by simpa using hu
        obtain ⟨n, hn, rfl, hrn⟩ := ((h.shape t _ ht rfl).call r).2 id hr
        cases hrn
        exact hok _ id rest ht (claim_queued hc hn) v c' hw
      · exact h.claimed u id hu v c' hw
    · obtain ⟨ticket, e⟩ := new hu
      cases e

/-- The threads after thread `t` ended. -/
theorem left_or_new (hs : SlotsKept env p) {a : Result} (ht : p.threads t = some ⟨k, .ret a⟩)
    {s : State} {ths : List DownloadThread} {u : Nat} {th : DownloadThread}
    (hu : (p.didEnd t k a s ths).threads u = some th) :
    (u ≠ t ∧ p.threads u = some th) ∨ (p.next ≤ u ∧ ths[u - p.next]? = some th) := by
  rw [Pool.didEnd_threads hs.fresh ht] at hu
  split at hu
  · split at hu
    · cases hu
    · exact .inl ⟨‹_›, hu⟩
  · exact .inr ⟨by omega, hu⟩

theorem exists_thread {q : DownloadPool} {u : Nat} {k : Task} (hu : q.kindAt u = some k) :
    ∃ prog, q.threads u = some ⟨k, prog⟩ := by
  obtain ⟨⟨k', prog⟩, hth, rfl⟩ := Option.map_eq_some_iff.mp hu
  exact ⟨prog, hth⟩

/-- A task ends and starts no activation. -/
theorem Activations.finish_quiet (h : Activations p) (hs : SlotsKept env p) {a : Result}
    (ht : p.threads t = some ⟨k, .ret a⟩) {s : State} {ths : List DownloadThread} (hq : Quiet ths)
    (ha : ∀ u id c, u ≠ t → p.kindAt u = some (.worker id c) →
      s.memory.aborts.lookup id = some c) : Activations (p.didEnd t k a s ths) := by
  have old {u id c : Nat} (hu : (p.didEnd t k a s ths).kindAt u = some (.worker id c)) :
      u ≠ t ∧ p.kindAt u = some (.worker id c) := by
    obtain ⟨prog, hu⟩ := exists_thread hu
    rcases left_or_new hs ht hu with ⟨hne, hu⟩ | ⟨-, hu⟩
    · exact ⟨hne, kindAt_of hu⟩
    · exact absurd rfl ((hq _ (List.mem_of_getElem? hu)).1 id c)
  refine ⟨fun u th hu hk => ?_, fun u u' id c c' hu hu' => h.once u u' id c c' (old hu).2 (old hu').2,
    fun u id c hu => ?_, fun u id hu v c hv => ?_⟩
  · rcases left_or_new hs ht hu with ⟨-, hu⟩ | ⟨-, hu⟩
    · exact h.shape u th hu hk
    · rw [(hq th (List.mem_of_getElem? hu)).2 hk]
      exact .round
  · rw [Pool.didEnd_state]
    exact ha u id c (old hu).1 (old hu).2
  · rcases left_or_new hs ht hu with ⟨-, hu⟩ | ⟨-, hu⟩
    · exact h.claimed u id hu v c (old hv).2
    · exact absurd ((hq _ (List.mem_of_getElem? hu)).2 rfl) (by simp [drainProgram_eq])

/-- The drain ends a round and starts an activation. -/
theorem Activations.finish_start (h : Activations p) (hs : SlotsKept env p) {id : Nat}
    (ht : p.threads t = some ⟨.drain, .ret (.start id)⟩) {s : State} {c : Nat}
    {prog : Program Op Reply Result} {more : List DownloadThread} (hq : Quiet more)
    (ha : s.memory.aborts = p.state.memory.aborts.insert id c) :
    Activations (p.didEnd t .drain (.start id) s (⟨.worker id c, prog⟩ :: more)) := by
  have fresh {i : Nat} {th : DownloadThread} (hi : (⟨.worker id c, prog⟩ :: more)[i]? = some th) :
      (i = 0 ∧ th = ⟨.worker id c, prog⟩) ∨ th ∈ more := by
    cases i with
    | zero => exact .inl ⟨rfl, (Option.some.inj hi).symm⟩
    | succ i => exact .inr (List.mem_of_getElem? hi)
  have worker {u id' c' : Nat} (hu : (p.didEnd t .drain (.start id) s
      (⟨.worker id c, prog⟩ :: more)).kindAt u = some (.worker id' c')) :
      (p.kindAt u = some (.worker id' c') ∧ id' ≠ id) ∨ (u = p.next ∧ id' = id ∧ c' = c) := by
    obtain ⟨prog', hu⟩ := exists_thread hu
    rcases left_or_new hs ht hu with ⟨-, hold⟩ | ⟨hn, hnew⟩
    · refine .inl ⟨kindAt_of hold, fun e => ?_⟩
      subst e
      exact h.claimed t _ ht u c' (kindAt_of hold)
    · rcases fresh hnew with ⟨hi, hth⟩ | hm
      · cases hth
        exact .inr ⟨by omega, rfl, rfl⟩
      · exact absurd rfl ((hq _ hm).1 id' c')
  refine ⟨fun u th hu hk => ?_, fun u u' id' c₁ c₂ hu hu' => ?_, fun u id' c' hu => ?_,
    fun u id' hu v c' hv => ?_⟩
  · rcases left_or_new hs ht hu with ⟨-, hu⟩ | ⟨-, hu⟩
    · exact h.shape u th hu hk
    · rcases fresh hu with ⟨-, rfl⟩ | hm
      · cases hk
      · rw [(hq th hm).2 hk]
        exact .round
  · rcases worker hu with ⟨hu, hne⟩ | ⟨rfl, rfl, -⟩ <;>
      rcases worker hu' with ⟨hu', hne'⟩ | ⟨hx, hid, -⟩
    · exact h.once u u' id' c₁ c₂ hu hu'
    · exact absurd hid hne
    · exact absurd rfl hne'
    · exact hx.symm
  · rw [Pool.didEnd_state, ha]
    rcases worker hu with ⟨hu, hne⟩ | ⟨-, rfl, rfl⟩
    · rw [AList.lookup_insert_ne hne]
      exact h.handle u id' c' hu
    · exact AList.lookup_insert _
  · -- there is no other drain with a job in hand
    rcases left_or_new hs ht hu with ⟨hne, hu⟩ | ⟨-, hu⟩
    · exact absurd (hs.slots.drainOnce u t (kindAt_of hu) (kindAt_of ht)) hne
    · rcases fresh hu with ⟨-, hx⟩ | hm
      · cases hx
      · exact absurd ((hq _ hm).2 rfl) (by simp [drainProgram_eq])

theorem Activations.finish (h : Activations p) (hs : SlotsKept env p) {a : Result}
    (ht : p.threads t = some ⟨k, .ret a⟩) :
    Activations (p.didEnd t k a ((system env).finish p.state k a).1
      ((system env).finish p.state k a).2) := by
  rcases after_cases env p.state.memory k a with
    ⟨id, more, rfl, rfl, h2, hq, h1⟩ | ⟨id, c, rfl, hq, h1⟩ | ⟨hne, hq, h1⟩ | ⟨rfl, hd⟩
  · have hths : ((system env).finish p.state .drain (.start id)).2 =
        (p.state.memory.start env id).2 :: more := h2
    rw [hths]
    exact h.finish_start hs ht hq h1
  · refine h.finish_quiet hs ht hq fun u id' c' hne hu => ?_
    have hid : id' ≠ id := by
      intro e
      subst e
      exact hne (h.once u t id' c' c hu (kindAt_of ht))
    have : ((system env).finish p.state (.worker id c) a).1.memory.aborts = _ := h1
    rw [this, AList.lookup_erase_ne hid]
    exact h.handle u id' c' hu
  · refine h.finish_quiet hs ht hq fun u id' c' _ hu => ?_
    have : ((system env).finish p.state k a).1.memory.aborts = _ := h1
    rw [this]
    exact h.handle u id' c' hu
  · have hths : ((system env).finish p.state .boot a).2 = [] := congrArg Prod.snd hd
    rw [hths]
    refine h.finish_quiet hs ht quiet_nil fun u id' c' _ hu => ?_
    -- no job is live while the process boots
    have hb := hs.slots.boot t _ (kindAt_of ht)
    exact absurd ((hs.slots.boot u _ hu).mpr (hb.mp rfl)) (by simp)

/-- A fact about the jobs that the drain is about to start: the claim brings it about, and the calls
of the others keep it. -/
theorem Activations.starting_call (h : Activations p) (hs : SlotsKept env p) {o : Op}
    {rest : Reply o → Program Op Reply Result} (ht : p.threads t = some ⟨k, .call o rest⟩)
    {c : Choice} {r : Reply o} {s : State} {ths : List DownloadThread}
    (he : (system env).exec p.state k o c = some (r, s, ths)) {φ ψ : Nat → Prop}
    (hφ : ∀ u id, p.threads u = some ⟨.drain, .ret (.start id)⟩ → φ id)
    (claimed : ∀ id n, o = .claim id → call p.state (.claim id) c = (.ok n, s) → n ≠ 0 → ψ id)
    (keep : ∀ id, φ id → (∀ c', k ≠ .worker id c') → ψ id) (u id : Nat)
    (hu : (p.didCall t k o rest r s ths).threads u = some ⟨.drain, .ret (.start id)⟩) : ψ id := by
  obtain ⟨-, hc, rfl⟩ := system_exec he
  rw [Pool.didCall_threads hs.fresh ht] at hu
  split at hu
  · split at hu
    · obtain ⟨rfl, hr⟩ : k = .drain ∧ rest r = .ret (.start id) := by simpa using hu
      obtain ⟨n, hn, rfl, hrn⟩ := ((h.shape t _ ht rfl).call r).2 id hr
      cases hrn
      exact claimed id n rfl hc hn
    · refine keep id (hφ u id hu) fun c' hk => ?_
      subst hk
      exact h.claimed u id hu t c' (kindAt_of ht)
  · obtain ⟨ticket, hk, -⟩ := reported_begins env (List.mem_of_getElem? hu)
    cases hk

theorem starting_end (hs : SlotsKept env p) {a : Result} (ht : p.threads t = some ⟨k, .ret a⟩) {u id : Nat}
    (hu : (p.didEnd t k a ((system env).finish p.state k a).1 ((system env).finish p.state k a).2).threads u =
      some ⟨.drain, .ret (.start id)⟩) : p.threads u = some ⟨.drain, .ret (.start id)⟩ := by
  rcases left_or_new hs ht hu with ⟨-, hu⟩ | ⟨-, hu⟩
  · exact hu
  · have hb := (system_begins env).finish _ _ _ _ (List.mem_of_getElem? hu)
    cases hb

theorem starting_outer (hs : SlotsKept env p) {x : Arrival} {s : State} {dies : Bool}
    {ths : List DownloadThread} (he : (system env).external p.state x = some (s, dies, ths)) {u id : Nat}
    (hu : (p.didOuter x s dies ths).threads u = some ⟨.drain, .ret (.start id)⟩) :
    p.threads u = some ⟨.drain, .ret (.start id)⟩ := by
  rw [Pool.didOuter_threads hs.fresh] at hu
  split at hu
  · split at hu
    · cases hu
    · exact hu
  · have hb := (system_begins env).external he _ (List.mem_of_getElem? hu)
    cases hb

theorem Activations.external (h : Activations p) (hs : SlotsKept env p) {x : Arrival} {s : State}
    {dies : Bool} {ths : List DownloadThread}
    (he : (system env).external p.state x = some (s, dies, ths)) :
    Activations (p.didOuter x s dies ths) := by
  have same : dies = false → s.memory.aborts = p.state.memory.aborts ∨ ∀ u, p.kindAt u = none := by
    intro hd
    cases arrives he
    · exact .inl rfl
    · exact .inl (congrArg Memory.aborts (shutdown_eq p.state.memory) :)
    · cases hd
    · right
      intro u
      cases hu : p.kindAt u with
      | none => rfl
      | some k => exact absurd ‹_› (hs.slots.down u k hu)
  have new : ∀ th ∈ ths, (∀ id c, th.kind ≠ .worker id c) ∧ th.kind ≠ .drain := by
    intro th hth
    obtain ⟨r, rfl⟩ | rfl := (arrives he).spawned hth <;> exact ⟨by simp, by simp⟩
  have old {u : Nat} {th : DownloadThread} (hu : (p.didOuter x s dies ths).threads u = some th)
      (hk : (∃ id c, th.kind = .worker id c) ∨ th.kind = .drain) :
      dies = false ∧ p.threads u = some th := by
    rw [Pool.didOuter_threads hs.fresh] at hu
    split at hu
    · cases dies with
      | true => cases hu
      | false => exact ⟨rfl, hu⟩
    · have hn := new th (List.mem_of_getElem? hu)
      rcases hk with ⟨id, c, hk⟩ | hk
      · exact absurd hk (hn.1 id c)
      · exact absurd hk hn.2
  have oldWorker {u id c : Nat} (hu : (p.didOuter x s dies ths).kindAt u = some (.worker id c)) :
      dies = false ∧ p.kindAt u = some (.worker id c) := by
    obtain ⟨prog, hu⟩ := exists_thread hu
    have := old hu (.inl ⟨id, c, rfl⟩)
    exact ⟨this.1, kindAt_of this.2⟩
  refine ⟨fun u th hu hk => h.shape u th (old hu (.inr hk)).2 hk, fun u u' id c c' hu hu' =>
    h.once u u' id c c' (oldWorker hu).2 (oldWorker hu').2, fun u id c hu => ?_, fun u id hu v c hv =>
    h.claimed u id (old hu (.inr rfl)).2 v c (oldWorker hv).2⟩
  obtain ⟨hd, hu⟩ := oldWorker hu
  rw [Pool.didOuter_state]
  rcases same hd with hsame | hnone
  · rw [hsame]
    exact h.handle u id c hu
  · rw [hnone u] at hu
    cases hu

theorem Activations.step (h : Activations p) (hs : SlotsKept env p) {l : DownloadLabel}
    {p' : DownloadPool} (hok : ClaimsIdle p l) (hst : (system env).step p l = some p') :
    Activations p' := by
  rcases (system env).step_cases hst with
    ⟨t, k, o, rest, c, r, s, ths, rfl, ht, he, rfl⟩ | ⟨t, k, a, -, ht, rfl⟩ |
    ⟨x, s, dies, ths, -, he, rfl⟩
  · exact h.exec hs ht he hok
  · exact h.finish hs ht
  · exact h.external hs he

theorem Activations.initial (s : State) : Activations (.initial s) :=
  ⟨fun _ _ => nofun, fun _ _ _ _ _ => nofun, fun _ _ _ => nofun, fun _ _ => nofun⟩

end

/-- With a concurrency of one, a drain that claims a job has found the only slot free. -/
theorem SlotsKept.claims_idle {env : Env} {p : DownloadPool} (h : SlotsKept env p)
    (hc : env.concurrency = 1) (l : DownloadLabel) : ClaimsIdle p l := by
  cases l with
  | exec t ch =>
    intro k id rest ht _ u c hu
    obtain rfl : k = .drain := (h.uses t _ ht).1
    obtain ⟨prog, hu⟩ := exists_thread hu
    have hpos := Pool.count_pos (q := fun th => th.kind.slot) h.fresh hu rfl
    have hroom := h.slots.room t (kindAt_of ht)
    rw [h.slots.running, hc] at hroom
    omega
  | _ => trivial

/-- Slots and activations along a run. -/
theorem activations_run (env : Env) {s : State} (hs : s.Down) {p : DownloadPool}
    (hr : (system env).Runs ClaimsIdle (.initial s) p) : SlotsKept env p ∧ Activations p :=
  (system env).invariant (I := fun q => SlotsKept env q ∧ Activations q)
    (fun _ _ _ h hok hst => ⟨h.1.step hst, h.2.step h.1 hok hst⟩)
    ⟨.initial env hs, .initial s⟩ hr

/-- As long as no download is claimed while an activation for it is live, there is at most one
activation per download in every state of every run, and it can always be aborted. -/
theorem one_activation_per_job (env : Env) {s : State} (hs : s.Down) {p : DownloadPool}
    (hr : (system env).Runs ClaimsIdle (.initial s) p) : OneActivation p where
  once := (activations_run env hs hr).2.once
  abort t id c ht := by
    rw [Memory.abortJob, (activations_run env hs hr).2.handle t id c ht]

/-- The failed job is retried and claimed again while its first activation is still publishing the
outcome, and the end of that takes the abort handle of the second one away. -/
theorem second_activation_unabortable : ¬ ∀ (env : Env) (s : State) (p : DownloadPool),
    1 ≤ env.concurrency → env.concurrency ≤ 8 → s.Down →
    (system env).Runs (fun _ _ => True) (.initial s) p → OneActivation p := by
  intro h
  have hrun : ((system (.small 2)).replay (fun _ _ => true) (.initial oneJob)
      (bootUp ++ failJob ++ calls 3 1 ++ [.finish 3, .external (.request (.retry 0))] ++ calls 4 5 ++
        [.finish 4] ++ calls 5 2 ++ [.finish 5] ++ calls 2 2 ++ [.finish 2])).any (fun p =>
      p.kindAt 6 = some (.worker 0 1) ∧ p.state.memory.aborts.lookup 0 = none) = true := by decide
  obtain ⟨p, hp, hn⟩ := Option.any_eq_true _ _ |>.mp hrun
  obtain ⟨hw, hnone⟩ := of_decide_eq_true hn
  have := (h (.small 2) oneJob p (by decide) (by decide) oneJob_down
    ((system (.small 2)).replay_runs (fun _ _ _ => trivial) hp)).abort 6 0 1 hw
  rw [Memory.abortJob, hnone] at this
  cases this

/-- Nothing is claimed while a worker is there. -/
def claimsWhenIdle (p : DownloadPool) : DownloadLabel → Bool
  | .exec t _ =>
    match p.threads t with
    | some ⟨_, .call (.claim _) _⟩ => (List.range p.next).all fun u =>
        match p.kindAt u with
        | some (.worker _ _) => false
        | _ => true
    | _ => true
  | _ => true

theorem claimsWhenIdle_runs {env : Env} {q : DownloadPool} (hq : SlotsKept env q)
    {check : DownloadPool → DownloadLabel → Bool} {ok : DownloadPool → DownloadLabel → Prop}
    (hc : ∀ p l, check p l = true → ok p l) {p : DownloadPool} {ls : List DownloadLabel}
    (h : (system env).replay (fun p l => check p l && claimsWhenIdle p l) q ls = some p) :
    (system env).Runs (fun p l => ok p l ∧ ClaimsIdle p l) q p := by
  have hr : (system env).Runs (fun p l => check p l = true ∧ claimsWhenIdle p l = true)
      q p := (system env).replay_runs (fun _ _ h => by simpa using h) h
  refine System.Runs.mono_step _ (fun p l _ hI _ hok _ => ⟨hc p l hok.1, ?_⟩)
    (fun _ _ _ hI _ hst => hI.step hst) hq hr
  cases l with
  | exec t c =>
    intro k id rest ht _ u c' hu
    have hidle := hok.2
    simp only [claimsWhenIdle, ht, List.all_eq_true, List.mem_range] at hidle
    have := hidle u (Pool.kindAt_lt hI.fresh hu)
    rw [hu] at this
    cases this
  | _ => trivial

theorem one_activation_per_job_retried : ∃ p, (system (.small 2)).Runs ClaimsIdle (.initial oneJob) p ∧
    p.kindAt 9 = some (.worker 0 1) ∧ OneActivation p := by
  have hrun : ((system (.small 2)).replay (fun p l => true && claimsWhenIdle p l) (.initial oneJob)
      (bootUp ++ failJob ++ calls 3 1 ++ [.finish 3] ++ calls 2 2 ++ [.finish 2, .finish 4, .finish 5] ++
        calls 6 1 ++ [.finish 6, .external (.request (.retry 0))] ++ calls 7 5 ++ [.finish 7] ++
        calls 8 2 ++ [.finish 8])).any (fun p => p.kindAt 9 = some (.worker 0 1)) = true := by decide
  obtain ⟨p, hp, hn⟩ := Option.any_eq_true _ _ |>.mp hrun
  have hr : (system (.small 2)).Runs (fun q l => True ∧ ClaimsIdle q l) (.initial oneJob) p :=
    claimsWhenIdle_runs (.initial _ oneJob_down) (fun _ _ _ => trivial) hp
  replace hr := System.Runs.mono _ (fun _ _ h => h.2) hr
  exact ⟨p, hr, of_decide_eq_true hn, one_activation_per_job (.small 2) oneJob_down hr⟩

end CircleFtp.Downloads
