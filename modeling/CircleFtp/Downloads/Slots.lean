import CircleFtp.Downloads.Footprint

/-! The slots of the queue: at most one drain and one boot at a time, as many slots taken as
`running` says, and never more than the concurrency allows. -/
namespace CircleFtp.Downloads
open Concurrent

/-- The tasks that hold a slot. -/
def Task.slot : Task → Bool
  | .worker _ _ | .release => true
  | _ => false

/-- The bookkeeping of the queue against its tasks, `n` of which hold a slot. -/
structure Slots (env : Env) (K : Nat → Option Task) (m : Memory) (n : Int) : Prop where
  down : ∀ t k, K t = some k → m.phase ≠ .down
  boot : ∀ t k, K t = some k → (k = .boot ↔ m.phase = .booting)
  bootOnce : ∀ t t', K t = some .boot → K t' = some .boot → t = t'
  drainOnce : ∀ t t', K t = some .drain → K t' = some .drain → t = t'
  draining : ∀ t, K t = some .drain → m.draining = true
  running : m.running = n
  limit : m.running ≤ env.concurrency
  room : ∀ t, K t = some .drain → m.running < env.concurrency

/-- The tasks after new threads are added from number `N` on. -/
def added (K : Nat → Option Task) (N : Nat) (ths : List DownloadThread) (t : Nat) : Option Task :=
  if t < N then K t else ths[t - N]?.map (·.kind)

theorem added_nil {K : Nat → Option Task} {N : Nat} (hN : ∀ t, N ≤ t → K t = none) :
    added K N [] = K := by
  funext t
  simp only [added]
  split
  · rfl
  · simpa using (hN t (by omega)).symm

theorem added_cons (K : Nat → Option Task) (N : Nat) (th : DownloadThread)
    (ths : List DownloadThread) :
    added K N (th :: ths) = added (added K N [th]) (N + 1) ths := by
  funext t
  simp only [added]
  by_cases h : t < N
  · simp [h, Nat.lt_succ_of_lt h]
  · by_cases e : t = N
    · simp [e]
    · have hs : t - N = (t - (N + 1)) + 1 := by omega
      rw [if_neg h, if_neg (by omega), hs, List.getElem?_cons_succ]

theorem added_one {K : Nat → Option Task} {N t : Nat} {th : DownloadThread} {k : Task}
    (h : added K N [th] t = some k) : K t = some k ∨ (t = N ∧ k = th.kind) := by
  simp only [added] at h
  split at h
  · exact .inl h
  · by_cases e : t = N
    · subst e
      exact .inr ⟨rfl, by simpa using h.symm⟩
    · have hs : t - N = (t - (N + 1)) + 1 := by omega
      simp [hs] at h

theorem added_above {K : Nat → Option Task} {N t : Nat} (th : DownloadThread) (h : N + 1 ≤ t) :
    added K N [th] t = none := by
  have hs : t - N = (t - (N + 1)) + 1 := by omega
  simp only [added, if_neg (show ¬ t < N by omega), hs, List.getElem?_cons_succ, List.getElem?_nil,
    Option.map_none]

namespace Slots
variable {env : Env} {K K' : Nat → Option Task} {m m' : Memory} {n : Int} {N : Nat}

/-- With fewer tasks. -/
theorem mono (h : Slots env K m n) (hK : ∀ t k, K' t = some k → K t = some k) :
    Slots env K' m n where
  down t k ht := h.down t k (hK t k ht)
  boot t k ht := h.boot t k (hK t k ht)
  bootOnce t t' ht ht' := h.bootOnce t t' (hK _ _ ht) (hK _ _ ht')
  drainOnce t t' ht ht' := h.drainOnce t t' (hK _ _ ht) (hK _ _ ht')
  draining t ht := h.draining t (hK _ _ ht)
  running := h.running
  limit := h.limit
  room t ht := h.room t (hK _ _ ht)

/-- With one more task that is neither a drain nor a boot. -/
theorem add (h : Slots env K m n) (hp : m.phase = .up) (th : DownloadThread) (N : Nat)
    (hd : th.kind ≠ .drain) (hb : th.kind ≠ .boot) : Slots env (added K N [th]) m n := by
  have old {t : Nat} {k : Task} (ht : added K N [th] t = some k) (hk : k ≠ th.kind) : K t = some k :=
    (added_one ht).resolve_right fun e => hk e.2
  refine ⟨fun t k ht => by simp [hp], fun t k ht => ?_, fun t t' ht ht' => ?_, fun t t' ht ht' => ?_,
    fun t ht => h.draining t (old ht hd.symm), h.running, h.limit,
    fun t ht => h.room t (old ht hd.symm)⟩
  · rcases added_one ht with ht | ⟨-, rfl⟩
    · exact h.boot t k ht
    · simp [hp, hb]
  · exact h.bootOnce t t' (old ht hb.symm) (old ht' hb.symm)
  · exact h.drainOnce t t' (old ht hd.symm) (old ht' hd.symm)

/-- With another memory that agrees on what the tasks depend on. -/
theorem memory (h : Slots env K m n) (hp : m'.phase = m.phase) (hd : m'.draining = m.draining)
    (hr : m'.running = m.running) : Slots env K m' n where
  down t k ht := by rw [hp]; exact h.down t k ht
  boot t k ht := by rw [hp]; exact h.boot t k ht
  bootOnce := h.bootOnce
  drainOnce := h.drainOnce
  draining t ht := by rw [hd]; exact h.draining t ht
  running := by rw [hr]; exact h.running
  limit := by rw [hr]; exact h.limit
  room t ht := by rw [hr]; exact h.room t ht

/-- With one slot less taken. -/
theorem released (h : Slots env K m n) {n' : Int} (hn : n' + 1 = n) :
    Slots env K { m with running := m.running - 1 } n' where
  down := h.down
  boot := h.boot
  bootOnce := h.bootOnce
  drainOnce := h.drainOnce
  draining := h.draining
  running := by
    have := h.running
    show m.running - 1 = n'
    omega
  limit := by
    have := h.limit
    simp only
    omega
  room t ht := by
    have := h.room t ht
    simp only
    omega

/-- When no drain is left, the flag is free, and so is the count up to the limit. -/
theorem idle (h : Slots env K m n) (m' : Memory) (hn : ∀ t, K t ≠ some .drain)
    (hp : m'.phase = m.phase) {n' : Int} (hr : m'.running = n') (hl : n' ≤ env.concurrency) : Slots env K m' n' where
  down t k ht := by rw [hp]; exact h.down t k ht
  boot t k ht := by rw [hp]; exact h.boot t k ht
  bootOnce := h.bootOnce
  drainOnce := h.drainOnce
  draining t ht := absurd ht (hn t)
  running := hr
  limit := by rw [hr]; exact hl
  room t ht := absurd ht (hn t)

/-- Without tasks. -/
theorem nothing (hK : ∀ t, K t = none) (hr : m.running = n) (hl : n ≤ env.concurrency) :
    Slots env K m n where
  down t k ht := by simp [hK t] at ht
  boot t k ht := by simp [hK t] at ht
  bootOnce t _ ht := by simp [hK t] at ht
  drainOnce t _ ht := by simp [hK t] at ht
  draining t ht := by simp [hK t] at ht
  running := hr
  limit := by rw [hr]; exact hl
  room t ht := by simp [hK t] at ht

/-- The loop of a drain that has no round under way. -/
theorem loop (h : Slots env K m n) (hN : ∀ t, N ≤ t → K t = none) (hp : m.phase = .up)
    (hn : ∀ t, K t ≠ some .drain) (hd : m.draining = true) :
    Slots env (added K N (m.loop env).2) (m.loop env).1 n := by
  rw [Memory.loop]
  split
  · rename_i hl
    have drain {t : Nat} (ht : added K N [⟨.drain, drainProgram⟩] t = some .drain) : t = N :=
      ((added_one ht).resolve_left (hn t)).1
    refine ⟨fun t k ht => by simp [hp], fun t k ht => ?_, fun t t' ht ht' => ?_,
      fun t t' ht ht' => (drain ht).trans (drain ht').symm, fun t ht => hd, h.running, h.limit,
      fun t ht => hl.2⟩
    · rcases added_one ht with ht | ⟨-, rfl⟩
      · exact h.boot t k ht
      · simp [hp]
    · have old {t : Nat} (ht : added K N [⟨.drain, drainProgram⟩] t = some .boot) :
          K t = some .boot := (added_one ht).resolve_right (by simp)
      exact h.bootOnce t t' (old ht) (old ht')
  · rw [added_nil hN]
    exact h.idle { m with draining := false } hn rfl h.running (h.running ▸ h.limit)

theorem wake (h : Slots env K m n) (hN : ∀ t, N ≤ t → K t = none) (hp : m.phase = .up) :
    Slots env (added K N (m.wake env).2) (m.wake env).1 n := by
  rw [Memory.wake]
  split
  · rwa [added_nil hN]
  · rename_i hs
    have hn : ∀ t, K t ≠ some .drain := fun t ht => hs (.inr (h.draining t ht))
    have taken := h.idle { m with draining := true } hn rfl h.running (h.running ▸ h.limit)
    exact taken.loop hN hp hn rfl

end Slots

/-- A loop leaves the flag up only to another round. -/
theorem loop_memory (env : Env) (m : Memory) : (m.loop env).1.phase = m.phase ∧
    (m.loop env).1.stopped = m.stopped ∧
    ((m.loop env).1.draining = true → ∃ th ∈ (m.loop env).2, th.kind = .drain) := by
  rw [Memory.loop]
  split
  · exact ⟨rfl, rfl, fun _ => ⟨_, List.mem_singleton.mpr rfl, rfl⟩⟩
  · exact ⟨rfl, rfl, fun h => by cases h⟩

theorem wake_memory (env : Env) (m : Memory) : (m.wake env).1.phase = m.phase ∧
    (m.wake env).1.stopped = m.stopped ∧
    ((m.wake env).1.draining = true → (∃ th ∈ (m.wake env).2, th.kind = .drain) ∨ m.draining = true) := by
  rw [Memory.wake]
  split
  · exact ⟨rfl, rfl, .inr⟩
  · obtain ⟨h₁, h₂, h₃⟩ := loop_memory env { m with draining := true }
    exact ⟨h₁, h₂, fun h => .inl (h₃ h)⟩

theorem shutdown_memory (m : Memory) : m.shutdown.phase = m.phase ∧
    m.shutdown.draining = m.draining ∧ m.shutdown.stopped = true ∧ m.shutdown.running = m.running := by
  rw [shutdown_eq]
  exact ⟨rfl, rfl, rfl, rfl⟩

/-- The bookkeeping of a pool. -/
structure SlotsKept (env : Env) (p : DownloadPool) : Prop where
  fresh : p.Fresh
  uses : p.Uses fun k o => o.MadeBy k
  slots : Slots env p.kindAt p.state.memory (p.count (Task.slot ·.kind))

theorem SlotsKept.initial (env : Env) {s : State} (hs : s.Down) : SlotsKept env (.initial s) where
  fresh _ _ := rfl
  uses _ _ := nofun
  slots := by
    have hn : ∀ t k, (Pool.initial s : DownloadPool).kindAt t ≠ some k := fun _ _ h => by cases h
    have hc : (Pool.initial s : DownloadPool).count (Task.slot ·.kind) = 0 := rfl
    have hm : (Pool.initial s : DownloadPool).state.memory = {} := hs
    rw [hc, hm]
    exact ⟨fun t k h => absurd h (hn t k), fun t k h => absurd h (hn t k), fun t _ h => absurd h (hn t _),
      fun t _ h => absurd h (hn t _), fun t h => absurd h (hn t _), rfl, Int.natCast_nonneg _,
      fun t h => absurd h (hn t _)⟩

section
variable {env : Env} {p : DownloadPool} {t : Nat} {k : Task}

theorem kindAt_of {th : DownloadThread} (ht : p.threads t = some th) :
    p.kindAt t = some th.kind := by simp [Pool.kindAt, ht]

/-- The tasks and slots that are left when thread `t` ends. -/
theorem SlotsKept.left (h : SlotsKept env p) {a : Result} (ht : p.threads t = some ⟨k, .ret a⟩) :
    Slots env (fun u => if u = t then none else p.kindAt u) p.state.memory
      (p.count (Task.slot ·.kind)) ∧
    (∀ u, p.next ≤ u → (if u = t then none else p.kindAt u) = none) ∧
    ∀ s ths u, (p.didEnd t k a s ths).kindAt u =
      added (fun u => if u = t then none else p.kindAt u) p.next ths u := by
  refine ⟨h.slots.mono fun u k' hu => ?_, fun u hu => ?_, fun s ths u => ?_⟩
  · split at hu
    · cases hu
    · exact hu
  · split
    · rfl
    · simp [Pool.kindAt, h.fresh u hu]
  · rw [Pool.didEnd_kindAt h.fresh ht]
    rfl

theorem SlotsKept.phase (h : SlotsKept env p) (ht : p.kindAt t = some k) (hk : k ≠ .boot) :
    p.state.memory.phase = .up := by
  have h1 := h.slots.down t k ht
  have h2 := mt (h.slots.boot t k ht).mpr hk
  cases hp : p.state.memory.phase with
  | down => exact absurd hp h1
  | booting => exact absurd hp h2
  | up => rfl

theorem loop_slot (m : Memory) : (m.loop env).2.countP (Task.slot ·.kind) = 0 := by
  rw [Memory.loop]
  split <;> rfl

theorem wake_slot (m : Memory) : (m.wake env).2.countP (Task.slot ·.kind) = 0 := by
  rw [Memory.wake]
  split
  · rfl
  · exact loop_slot _

/-- The bookkeeping after thread `t` ended, when what was left of it goes on as `m` and `ths`. -/
theorem SlotsKept.finish_of (h : SlotsKept env p) {a : Result} (ht : p.threads t = some ⟨k, .ret a⟩)
    (m : Memory) (ths : List DownloadThread) (hm : p.state.memory.after env k a = (m, ths))
    (hs : ∀ K n n', Slots env K p.state.memory n → (∀ u, p.next ≤ u → K u = none) →
      (∀ u k', K u = some k' → u ≠ t ∧ p.kindAt u = some k') →
      n' + (if k.slot then 1 else 0) = n + ths.countP (Task.slot ·.kind) →
      ((∀ u, added K p.next ths u = none) → n' = 0) → Slots env (added K p.next ths) m n') :
    SlotsKept env (p.didEnd t k a ((system env).finish p.state k a).1
      ((system env).finish p.state k a).2) := by
  have hf : (system env).finish p.state k a = ({ p.state with memory := m }, ths) := by
    simp [system, hm]
  rw [hf]
  obtain ⟨hl, hN, hK⟩ := h.left ht
  have hc := Pool.didEnd_count h.fresh Task.slot ht { p.state with memory := m } ths
  refine ⟨Pool.didEnd_fresh h.fresh ht _ _, ?_, ?_⟩
  · rw [← hf]
    exact h.uses.step (system_uses env) (l := .finish t) (by simp [System.step, ht])
  have hz : (∀ u, (p.didEnd t k a { p.state with memory := m } ths).kindAt u = none) →
      (p.didEnd t k a { p.state with memory := m } ths).count (Task.slot ·.kind) = 0 :=
    fun hn => Pool.count_none _ _ fun u => Option.map_eq_none_iff.mp (hn u)
  rw [funext (hK _ _)] at hz ⊢
  rw [Pool.didEnd_state]
  refine hs _ _ _ hl hN (fun u k' hu => ?_) (by exact_mod_cast hc) fun hn => by simp [hz hn]
  split at hu
  · cases hu
  · exact ⟨‹_›, hu⟩

theorem SlotsKept.finish (h : SlotsKept env p) {a : Result} (ht : p.threads t = some ⟨k, .ret a⟩) :
    SlotsKept env (p.didEnd t k a ((system env).finish p.state k a).1
      ((system env).finish p.state k a).2) := by
  have hk := kindAt_of ht
  have up : k ≠ .boot → p.state.memory.phase = .up := h.phase hk
  -- a task without a slot that ends quietly
  have quiet {m : Memory} (hm : p.state.memory.after env k a = (m, [])) (hs : k.slot = false)
      (hp : m.phase = p.state.memory.phase) (hd : m.draining = p.state.memory.draining)
      (hr : m.running = p.state.memory.running) :
      SlotsKept env (p.didEnd t k a ((system env).finish p.state k a).1
        ((system env).finish p.state k a).2) :=
    h.finish_of ht _ _ hm fun K n n' hl hN _ hc _ => by
      rw [hs] at hc
      obtain rfl : n' = n := by simpa using hc
      rw [added_nil hN]
      exact hl.memory hp hd hr
  -- a task without a slot that wakes the queue
  have waking (hm : p.state.memory.after env k a = p.state.memory.wake env) (hs : k.slot = false)
      (hp : p.state.memory.phase = .up) : SlotsKept env (p.didEnd t k a
        ((system env).finish p.state k a).1 ((system env).finish p.state k a).2) :=
    h.finish_of ht (p.state.memory.wake env).1 (p.state.memory.wake env).2 hm
      fun K n n' hl hN _ hc _ => by
      rw [hs, wake_slot] at hc
      obtain rfl : n' = n := by simpa using hc
      exact hl.wake hN hp
  cases k with
  | boot =>
    have gone {K : Nat → Option Task} (hK : ∀ u k', K u = some k' → u ≠ t ∧ p.kindAt u = some k')
        (u : Nat) : K u = none := by
      cases hu : K u with
      | none => rfl
      | some k' =>
        obtain ⟨hne, hu⟩ := hK u k' hu
        obtain rfl := (h.slots.boot u k' hu).mpr ((h.slots.boot t _ hk).mp rfl)
        exact absurd (h.slots.bootOnce u t hu hk) hne
    have failed (hm : p.state.memory.after env .boot a = ({}, [])) : SlotsKept env (p.didEnd t .boot a
        ((system env).finish p.state .boot a).1 ((system env).finish p.state .boot a).2) :=
      h.finish_of ht _ _ hm fun K n n' hl hN hK hc hz => by
        rw [added_nil hN] at hz ⊢
        rw [hz (gone hK)]
        exact .nothing (gone hK) rfl (Int.natCast_nonneg _)
    rcases a with (e | _) | _ | _ | _
    case ended.ok =>
      refine h.finish_of ht (Memory.wake env { p.state.memory with phase := .up }).1
        (Memory.wake env { p.state.memory with phase := .up }).2 rfl fun K n n' hl hN hK hc _ => ?_
      rw [wake_slot] at hc
      obtain rfl : n' = n := by simpa [Task.slot] using hc
      have free : Slots env K { p.state.memory with phase := .up } n' :=
        .nothing (gone hK) hl.running (hl.running ▸ hl.limit)
      exact free.wake hN rfl
    all_goals exact failed rfl
  | drain =>
    have hp := up (by simp)
    have hd := h.slots.draining t hk
    have hroom := h.slots.room t hk
    have none_left {K : Nat → Option Task} (hK : ∀ u k', K u = some k' → u ≠ t ∧ p.kindAt u = some k')
        (u : Nat) : K u ≠ some .drain := fun hu =>
      (hK u _ hu).1 (h.slots.drainOnce u t (hK u _ hu).2 hk)
    have ended (hm : p.state.memory.after env .drain a =
        ({ p.state.memory with draining := false }, [])) : SlotsKept env (p.didEnd t .drain a
        ((system env).finish p.state .drain a).1 ((system env).finish p.state .drain a).2) :=
      h.finish_of ht _ _ hm fun K n n' hl hN hK hc _ => by
        obtain rfl : n' = n := by simpa [Task.slot] using hc
        rw [added_nil hN]
        exact hl.idle { p.state.memory with draining := false } (none_left hK) rfl hl.running
          (hl.running ▸ hl.limit)
    rcases a with _ | _ | _ | id
    case again =>
      refine h.finish_of ht (p.state.memory.loop env).1 (p.state.memory.loop env).2 rfl
        fun K n n' hl hN hK hc _ => ?_
      rw [loop_slot] at hc
      obtain rfl : n' = n := by simpa [Task.slot] using hc
      exact hl.loop hN hp (none_left hK) hd
    case start =>
      let started := p.state.memory.start env id
      refine h.finish_of ht (started.1.loop env).1 (started.2 :: (started.1.loop env).2) rfl
        fun K n n' hl hN hK hc _ => ?_
      rw [List.countP_cons, loop_slot] at hc
      have hn : n' = n + 1 := by simpa [Task.slot, started, Memory.start] using hc
      have hr : started.1.running = n' := by rw [hn, ← hl.running]; rfl
      have taken := (hl.idle started.1 (none_left hK) rfl hr (by rw [hn, ← hl.running]; omega)).add hp
        started.2 p.next (by simp [started, Memory.start]) (by simp [started, Memory.start])
      rw [added_cons]
      refine taken.loop (fun u hu => added_above _ hu) hp (fun u hu => ?_) hd
      rcases added_one hu with hu | ⟨-, hu⟩
      · exact none_left hK u hu
      · cases hu
    all_goals exact ended rfl
  | worker id c =>
    have hp := up (by simp)
    let m : Memory := { p.state.memory with
      aborts := p.state.memory.aborts.erase id
      progressWrites := Function.update p.state.memory.progressWrites id none }
    refine h.finish_of ht m [⟨.release, .ret (.ended (.ok ()))⟩] rfl fun K n n' hl hN hK hc _ => ?_
    obtain rfl : n' = n := by simpa [Task.slot] using hc
    exact Slots.add (m := m) (hl.memory rfl rfl rfl) hp _ _ (by simp) (by simp)
  | release =>
    have hp := up (by simp)
    let m : Memory := { p.state.memory with running := p.state.memory.running - 1 }
    refine h.finish_of ht m [⟨.wake, .ret (.ended (.ok ()))⟩] rfl fun K n n' hl hN hK hc _ => ?_
    have hn : n' + 1 = n := by simpa [Task.slot] using hc
    exact (hl.released (n := n) hn).add hp _ _ (by simp) (by simp)
  | wake => exact waking rfl rfl (up (by simp))
  | progress ticket => exact quiet rfl rfl rfl rfl rfl
  | request r =>
    have hp := up (by simp)
    rcases r with _ | id | id | _ <;> rcases a with (e | _) | _ | _ | _ <;>
      try first | exact waking rfl rfl hp | exact quiet rfl rfl rfl rfl rfl
    -- what is left is a cancel that succeeded
    refine quiet (m := (p.state.memory.abortJob id).2) rfl rfl ?_ ?_ ?_ <;>
      · rw [Memory.abortJob]
        split <;> rfl

theorem SlotsKept.exec (h : SlotsKept env p) {o : Op} {rest : Reply o → Program Op Reply Result}
    (ht : p.threads t = some ⟨k, .call o rest⟩) {c : Choice} {r : Reply o} {s : State}
    {ths : List DownloadThread} (he : (system env).exec p.state k o c = some (r, s, ths)) :
    SlotsKept env (p.didCall t k o rest r s ths) := by
  obtain ⟨-, hc, rfl⟩ := system_exec he
  have same : p.state.memory.Same s.memory := by
    have := call_same p.state o c
    rwa [hc] at this
  have hm : Slots env p.kindAt s.memory (p.count (Task.slot ·.kind)) :=
    h.slots.memory same.phase same.draining same.running
  have hN : ∀ u, p.next ≤ u → p.kindAt u = none := fun u hu => by
    simp [Pool.kindAt, h.fresh u hu]
  have hcount := Pool.didCall_count h.fresh Task.slot ht r s (reported p.state c o)
  refine ⟨Pool.didCall_fresh h.fresh ht _ _ _, h.uses.step (system_uses env) (l := .exec t c)
    (by simp [System.step, ht, he]), ?_⟩
  have hK : (p.didCall t k o rest r s (reported p.state c o)).kindAt =
      added p.kindAt p.next (reported p.state c o) :=
    funext fun u => Pool.didCall_kindAt h.fresh ht _ _ _ u
  rw [hK, Pool.didCall_state, hcount]
  -- only a report starts a thread
  cases o <;> try exact (added_nil hN).symm ▸ hm
  case report id index bytes total =>
    simp only [reported]
    split
    · exact (added_nil hN).symm ▸ hm
    · have hp : s.memory.phase = .up := by
        obtain ⟨c', rfl⟩ := (h.uses t _ ht).1
        rw [same.phase]
        exact h.phase (kindAt_of ht) (by simp)
      exact hm.add hp _ _ (by simp) (by simp)

theorem SlotsKept.external (h : SlotsKept env p) {x : Arrival} {s : State} {dies : Bool}
    {ths : List DownloadThread} (he : (system env).external p.state x = some (s, dies, ths)) :
    SlotsKept env (p.didOuter x s dies ths) := by
  have hN : ∀ u, p.next ≤ u → p.kindAt u = none := fun u hu => by
    simp [Pool.kindAt, h.fresh u hu]
  have hcount := Pool.didOuter_count Task.slot p x s dies ths
  refine ⟨Pool.didOuter_fresh h.fresh _ _ _ _, h.uses.step (system_uses env) (l := .external x)
    (by simp [System.step, he]), ?_⟩
  have hK : (p.didOuter x s dies ths).kindAt =
      added (fun u => if dies then none else p.kindAt u) p.next ths := by
    funext u
    rw [Pool.didOuter_kindAt h.fresh]
    rfl
  rw [hK, Pool.didOuter_state, hcount]
  cases arrives he
  case request r hp => exact h.slots.add hp _ _ (by simp) (by simp)
  case shutdown hp =>
    obtain ⟨h1, h2, -, h3⟩ := shutdown_memory p.state.memory
    have := h.slots.memory h1 h2 h3
    exact (added_nil hN).symm ▸ this
  case crash hp =>
    exact .nothing (fun u => by simp [added]) rfl (Int.natCast_nonneg _)
  case boot hp =>
    have gone : ∀ u, p.kindAt u = none := fun u => by
      cases hu : p.kindAt u with
      | none => rfl
      | some k => exact absurd hp (h.slots.down u k hu)
    have hz : p.count (Task.slot ·.kind) = 0 :=
      Pool.count_none _ _ fun u => Option.map_eq_none_iff.mp (gone u)
    have one {t : Nat} {k : Task} (ht : added (fun u => if false = true then none else p.kindAt u)
        p.next [⟨.boot, recoverFromCrash.program⟩] t = some k) : t = p.next ∧ k = .boot :=
      (added_one ht).resolve_left (by simp [gone])
    refine ⟨fun t k ht => (by simp), fun t k ht => by simp [(one ht).2], fun t t' ht ht' => ?_,
      fun t t' ht _ => absurd (one ht).2 (by simp), fun t ht => absurd (one ht).2 (by simp), ?_,
      Int.natCast_nonneg _, fun t ht => absurd (one ht).2 (by simp)⟩
    · exact (one ht).1.trans (one ht').1.symm
    · rw [hz]
      rfl

theorem SlotsKept.step (h : SlotsKept env p) {l : DownloadLabel} {p' : DownloadPool}
    (hst : (system env).step p l = some p') : SlotsKept env p' := by
  rcases (system env).step_cases hst with
    ⟨t, k, o, rest, c, r, s, ths, -, ht, he, rfl⟩ | ⟨t, k, a, -, ht, rfl⟩ |
    ⟨x, s, dies, ths, -, he, rfl⟩
  · exact h.exec ht he
  · exact h.finish ht
  · exact h.external he

/-- No two jobs at once where the concurrency is one. -/
theorem SlotsKept.one_worker (h : SlotsKept env p) (hc : env.concurrency ≤ 1) {t' : Nat}
    {th th' : DownloadThread} (ht : p.threads t = some th) (ht' : p.threads t' = some th')
    (hs : th.kind.slot = true) (hs' : th'.kind.slot = true) : t = t' := by
  by_contra hne
  have h2 := Pool.two_le_count h.fresh hne (q := fun th => th.kind.slot) ht ht' hs hs'
  have hr := h.slots.running
  have hl := h.slots.limit
  omega

end

theorem system_fresh {env : Env} {s : State} {ok : DownloadPool → DownloadLabel → Prop} (hs : s.Down)
    {p : DownloadPool} (hr : (system env).Runs ok (.initial s) p) : p.Fresh :=
  ((system env).invariant (fun _ _ _ h _ hst => h.step hst) (SlotsKept.initial env hs) hr).fresh

end CircleFtp.Downloads
