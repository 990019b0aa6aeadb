import CircleFtp.Downloads.ActiveJobs
import CircleFtp.Downloads.Ownership
import CircleFtp.Downloads.Starts

/-! Wake-ups of the queue: a wake that comes while a drain has an empty read in hand is dropped. -/
namespace CircleFtp.Downloads
open Concurrent Strings

/-- The calls that queue a download. -/
def Op.queues : Op → Prop
  | .createDownload _ | .requeue _ => True
  | _ => False

/-- Thread `t` has queued the download. -/
def Queues (t id : Nat) : DownloadEvent → Prop
  | .did t' _ (.createDownload _) (.ok id') _ _ => t' = t ∧ id' = id
  | .did t' _ (.requeue id') (.ok _) _ _ => t' = t ∧ id' = id
  | _ => False

/-- The end of a request that wakes the queue. -/
def Task.wakes : Task → Result → Bool
  | .request (.create _ _), .ended (.ok _) | .request (.retry _), .ended (.ok _) => true
  | _, _ => false

/-- No database call fails; any other call may. -/
def DatabaseUp (p : DownloadPool) : DownloadLabel → Prop
  | .exec t c => ∀ k o rest, p.threads t = some ⟨k, .call o rest⟩ → DatabaseAnswers o c
  | _ => True

/-- Whatever thread `t` has queued is gone again. -/
def Cleared (t : Nat) (w : DownloadWorld) : Prop :=
  ∀ id, (∃ e ∈ w.trace, Queues t id e) → Gone w.state id

def wakers : Ledger State Task Op Reply Arrival Result where
  admits _ _ w e := w.state.downloads.next ≤ e.after.downloads.next ∧
    ∀ id, Gone w.state id → Gone e.after id
  may _ _ w o r s := ∃ c, DatabaseAnswers o c ∧ call w.state o c = (r, s)
  guar _ _ _ _ _ _ := True
  post t k a w := k.wakes a = true ∨ Cleared t w

abbrev wakerContract (t : Nat) (k : Task) : Contract DownloadWorld Op Reply :=
  wakers.discipline.contract t k

section
variable {s s' : State} {t id : Nat} {k : Task} {o : Op} {c : Choice} {r : Reply o}
  {w w' : DownloadWorld} {env : Env}

theorem Queues.by {e : DownloadEvent} (h : Queues t id e) : e.By t := by
  cases e with
  | did t' k o r s s' =>
    cases o <;> first
      | exact h.elim
      | (cases r <;> first | exact h.1 | exact h.elim)
  | _ => exact h.elim

theorem Cleared.after {s : State} {e : DownloadEvent} (h : Cleared t w)
    (hk : ∀ id, Gone w.state id → Gone s id) (he : ∀ id, Queues t id e → Gone s id) :
    Cleared t ⟨s, e :: w.trace⟩ := by
  rintro id ⟨d, hd, hq⟩
  rcases List.mem_cons.mp hd with rfl | hd
  · exact he id hq
  · exact hk id (h id ⟨d, hd, hq⟩)

theorem Cleared.stable (h : Cleared t w) (hr : (wakerContract t k).rely w w') : Cleared t w' := by
  refine History.rely_induct (fun v e hv hb ht hp => ?_) hr h
  exact hv.after hp.2 fun id hq => absurd hq.by ht

theorem Cleared.call (h : Cleared t w) (ha : (wakerContract t k).act w o r w') (ho : ¬ o.queues) :
    Cleared t w' := by
  obtain ⟨ch, -, hc⟩ := ha.2
  rw [ha.1]
  refine h.after (fun id hg => hg.call hc) fun id hq => ?_
  cases o <;> first
    | exact (ho trivial).elim
    | exact hq.elim

/-- A call on the database is carried out. -/
theorem act_performs (ha : (wakerContract t k).act w o r w') (ho : o.onDatabase = true) :
    ∃ c, perform w.state c o = (r, w'.state) := by
  obtain ⟨ch, hn, hc⟩ := ha.2
  exact ⟨ch, (hn.performed ho).symm.trans hc⟩

theorem Cleared.error {e : Err} (h : Cleared t w) (ha : (wakerContract t k).act w o (.error e) w') :
    Cleared t w' := by
  obtain ⟨ch, -, hc⟩ := ha.2
  rw [ha.1]
  refine h.after (fun id hg => hg.call hc) fun id hq => ?_
  cases o <;> exact hq.elim

theorem cleared_safe {α : Type} {p : Program Op Reply α} (hp : p.Uses (¬ ·.queues)) (hw : Cleared t w) :
    p.Safe (wakerContract t k) (fun _ v => Cleared t v) w :=
  .of_uses_keeping (fun _ _ hr h => h.stable hr) (fun _ _ _ _ ho h ha => ⟨trivial, h.call ha ho⟩) hp hw

theorem createDownload_cleared (postId : Nat) (seasons : List Str) (hw : Cleared t w) :
    (createDownload env postId seasons).run.Safe (wakerContract t k)
      (Program.split (fun _ _ => True) fun _ v => Cleared t v) w := by
  refine Program.Safe.invoke_bind fun w₁ h₁ r w₂ ha => ⟨trivial, ?_⟩
  have h₂ : Cleared t w₂ := (hw.stable h₁).call ha id
  rcases r with e | _ | _
  · exact fun v hv => h₂.stable hv
  · refine Program.Safe.invoke_bind fun w₃ h₃ r w₄ ha => ⟨trivial, ?_⟩
    have h₄ : Cleared t w₄ := (h₂.stable h₃).call ha id
    rcases r with e | post
    · exact fun v hv => h₄.stable hv
    simp only
    split
    · exact fun v hv => h₄.stable hv
    refine Program.Safe.invoke_bind fun w₅ h₅ r w₆ ha => ⟨trivial, ?_⟩
    rcases r with e | n
    · exact fun v hv => ((h₄.stable h₅).error ha).stable hv
    refine Program.Safe.invoke fun w₇ _ r w₈ ha => ⟨trivial, fun v hv => ?_⟩
    obtain ⟨ch, -, hc⟩ := ha.2
    obtain ⟨rfl, -⟩ := Prod.mk.inj ((call_total rfl).symm.trans hc)
    trivial
  · exact fun v hv => h₂.stable hv

/-- Thread `t` has queued the download and nothing else that is still there. -/
def Owes (t id : Nat) (w : DownloadWorld) : Prop := id < w.state.downloads.next ∧
  ∀ id', (∃ e ∈ w.trace, Queues t id' e) → id' = id ∨ Gone w.state id'

theorem Owes.stable (h : Owes t id w) (hr : (wakerContract t k).rely w w') : Owes t id w' := by
  refine History.rely_induct (fun v e hv hb ht hp => ⟨Nat.lt_of_lt_of_le hv.1 hp.1, ?_⟩) hr h
  rintro id' ⟨d, hd, hq⟩
  rcases List.mem_cons.mp hd with rfl | hd
  · exact absurd hq.by ht
  · exact (hv.2 id' ⟨d, hd, hq⟩).imp_right (hp.2 id')

theorem Op.reads.performed (ho : o.reads) (hc : DatabaseAnswers o c) : call s o c = perform s c o := by
  cases o <;> first
    | exact ho.elim
    | exact hc.performed rfl
    | exact call_total rfl

theorem Owes.reads (h : Owes t id w) (ha : (wakerContract t k).act w o r w') (ho : o.reads) :
    Owes t id w' ∧ ∃ a, r = .ok a := by
  obtain ⟨ch, hn, hc⟩ := ha.2
  have hp := (ho.performed hn).symm.trans hc
  have hw := ha.1
  cases o <;> first
    | exact ho.elim
    | (obtain ⟨rfl, hs⟩ : _ ∧ w.state = w'.state := by simpa only [perform, Prod.mk.injEq] using hp
       refine ⟨?_, _, rfl⟩
       rw [hw, Owes, ← hs]
       refine ⟨h.1, ?_⟩
       rintro id' ⟨d, hd, hq⟩
       rcases List.mem_cons.mp hd with rfl | hd
       · exact hq.elim
       · exact h.2 id' ⟨d, hd, hq⟩)

theorem publishDownload_owes (event : Nat → Download → ServerEvent) (hw : Owes t id w) :
    (publishDownload id event).run.Safe (wakerContract t k)
      (Program.split (fun _ v => Owes t id v) fun _ _ => False) w := by
  refine Program.Safe.invoke_bind fun w₁ h₁ r w₂ ha => ⟨trivial, ?_⟩
  obtain ⟨h₂, a, rfl⟩ := (hw.stable h₁).reads ha trivial
  rcases a with _ | d
  · exact fun v hv => h₂.stable hv
  refine Program.Safe.invoke fun w₃ h₃ r w₄ ha => ⟨trivial, fun v hv => ?_⟩
  obtain ⟨h₄, a, rfl⟩ := (h₂.stable h₃).reads ha trivial
  exact h₄.stable hv

theorem getDownload_owes (hw : Owes t id w) : (getDownload id).run.Safe (wakerContract t k)
    (Program.split (fun _ _ => True) fun _ v => Cleared t v) w := by
  refine Program.Safe.invoke_bind fun w₁ h₁ r w₂ ha => ⟨trivial, ?_⟩
  obtain ⟨h₂, a, rfl⟩ := (hw.stable h₁).reads ha trivial
  rcases a with _ | d
  · intro v hv
    have gone : Cleared t w₂ := by
      intro id' hq
      rcases h₂.2 id' hq with rfl | hg
      · obtain ⟨ch, hp⟩ := act_performs ha rfl
        obtain ⟨hrow, hs⟩ := Prod.mk.inj hp
        refine ⟨h₂.1, ?_⟩
        rw [← hs]
        exact Except.ok.inj hrow
      · exact hg
    exact gone.stable hv
  · exact fun _ _ => trivial

theorem retryDownload_cleared (hw : Cleared t w) : (retryDownload id).run.Safe (wakerContract t k)
    (Program.split (fun _ _ => True) fun _ v => Cleared t v) w := by
  refine Program.Safe.except_bind (fun _ _ _ hr h => h.stable hr) ?_
  have read : (getDownload id).run.Safe (wakerContract t k) (fun _ v => Cleared t v) w :=
    cleared_safe (.mono (fun o ho hq => by cases o <;> first | exact ho | exact hq) getDownload_reads) hw
  refine read.mono ?_
  rintro (e | d) v hv
  · exact hv
  simp only [Program.split]
  split
  · exact fun v' hr => hv.stable hr
  split
  · exact fun v' hr => hv.stable hr
  refine Program.Safe.invoke_bind fun w₁ h₁ r w₂ ha => ⟨trivial, ?_⟩
  rcases r with e | ⟨⟩
  · exact fun v' hr => ((hv.stable h₁).error ha).stable hr
  have owes : Owes t id w₂ := by
    obtain ⟨ch, -, hc⟩ := ha.2
    have hn := next_le hc
    have there : id < w₁.state.downloads.next := by
      have hp := call_ok hc
      simp only [perform, State.updateRow] at hp
      split at hp
      · cases hp
      · exact Table.lt_next ‹_›
    refine ⟨Nat.lt_of_lt_of_le there hn, ?_⟩
    rw [ha.1]
    rintro id' ⟨d, hd, hq⟩
    rcases List.mem_cons.mp hd with rfl | hd
    · exact .inl hq.2.symm
    · exact .inr (((hv.stable h₁) id' ⟨d, hd, hq⟩).call hc)
  refine Program.Safe.except_bind (fun _ _ _ hr h => h.stable hr) ?_
  refine (publishDownload_owes _ owes).mono ?_
  rintro (e | _) v' hv'
  · exact hv'.elim
  refine Program.Safe.except_bind (fun _ _ _ hr h => h.stable hr) ?_
  refine (getDownload_owes hv').mono ?_
  rintro (e | _) u hu
  · exact hu
  · exact fun _ _ => trivial

theorem Op.MadeBy.queues {o : Op} {k : Task} (h : o.MadeBy k) (ho : o.queues) :
    (∃ postId seasons, k = .request (.create postId seasons)) ∨ ∃ id, k = .request (.retry id) := by
  cases o <;> first
    | exact ho.elim
    | exact .inl ⟨_, h.1⟩
    | exact .inr ⟨_, h⟩

theorem waker_safe {th : DownloadThread} (h : Begins env th) (hw : Cleared t w) :
    wakers.discipline.SafeThread t th w := by
  have other (hk : ∀ r, th.kind = .request r → ∀ id, r ≠ .retry id ∧ ∀ n l, r ≠ .create n l) :
      wakers.discipline.SafeThread t th w := by
    refine (cleared_safe (h.uses.mono fun o ho hq => ?_) hw).mono fun _ _ hv => .inr hv
    rcases ho.queues hq with ⟨n, l, e⟩ | ⟨id, e⟩
    · exact (hk _ e 0).2 n l rfl
    · exact (hk _ e id).1 rfl
  have flow {f : Flow Unit} {r : Request} (hr : ∀ a, (Task.request r).wakes (.ended (.ok a)) = true)
      (hf : f.run.Safe (wakerContract t (.request r))
        (Program.split (fun _ _ => True) fun _ v => Cleared t v) w) :
      f.program.Safe (wakerContract t (.request r)) (wakers.post t (.request r)) w := by
    refine .bind (hf.mono ?_)
    rintro (e | a) v hv u hu
    · exact .inr (hv.stable hu)
    · exact .inl (hr a)
  cases h with
  | request r =>
    cases r with
    | create postId seasons =>
      refine flow (fun _ => rfl) (Program.Safe.tryCatch (fun _ _ _ _ h => h) ?_)
      refine (createDownload_cleared postId seasons hw).mono ?_
      rintro (e | _) v hv
      · exact fun u hu => hv.stable hu
      · trivial
    | retry id => exact flow (fun _ => rfl) (retryDownload_cleared hw)
    | _ => exact other (by simp)
  | _ => exact other (by simp)

end
/-- No request wakes the queue while a drain has an empty read in hand. -/
def WakeHeard (p : DownloadPool) : DownloadLabel → Prop
  | .finish t => ∀ k a, p.threads t = some ⟨k, .ret a⟩ → k.wakes a = true →
      ∀ u, p.threads u ≠ some ⟨.drain, .ret .stop⟩
  | _ => True

/-- The server is up, and nothing is under way that could start a job. -/
structure Resting (p : DownloadPool) : Prop where
  up : p.state.memory.phase = .up
  on : p.state.memory.stopped = false
  still : ∀ t k, p.kindAt t = some k → k ≠ .drain ∧ k.slot = false ∧ k ≠ .wake ∧ ∀ r, k ≠ .request r

/-- When the queue rests, no download waits. -/
def NoneWaits (p : DownloadPool) : Prop :=
  Resting p → ∀ id d, p.state.downloads.rows id = some d → d.status ≠ .QUEUED

/-- The drain has read that nothing is queued, and has not ended yet. -/
def Missed (p : DownloadPool) : Prop := ∃ t, p.threads t = some ⟨.drain, .ret .stop⟩

/-- What will look at a queued download: a drain that reads again, the request that queued it, or a
wake to come, if no drain is about to end. -/
inductive Watched (p : DownloadPool) (id : Nat) : Prop where
  | drain (t : Nat) (prog : Program Op Reply Result) (ht : p.threads t = some ⟨.drain, prog⟩)
      (hp : prog ≠ .ret .stop)
  | request (t : Nat) (r : Request) (ht : p.kindAt t = some (.request r))
      (hq : ∃ e ∈ p.trace, Queues t id e)
  | wake (t : Nat) (k : Task) (ht : p.kindAt t = some k) (hk : k.slot = true ∨ k = .wake)
      (hm : ¬ Missed p)

structure Watch (p : DownloadPool) : Prop where
  fine : ∀ t r, p.threads t ≠ some ⟨.drain, .ret (.ended r)⟩
  booting : p.state.memory.phase = .booting →
    p.state.memory.draining = false ∧ p.state.memory.stopped = false
  driven : p.state.memory.draining = true → ∃ t, p.kindAt t = some .drain
  watched : p.state.memory.phase = .up → p.state.memory.stopped = false → ∀ id d,
    p.state.downloads.rows id = some d → d.status = .QUEUED → Watched p id

/-- A drain whose calls do not fail: an empty read ends it, and then nothing is queued. -/
theorem DrainShape.answered {o : Op} {rest : Reply o → Program Op Reply Result}
    (h : DrainShape (.call o rest)) {s s' : State} {c : Choice} {r : Reply o}
    (hn : DatabaseAnswers o c) (hc : Downloads.call s o c = (r, s')) : (∀ e, rest r ≠ .ret (.ended e)) ∧
      (rest r = .ret .stop → s' = s ∧ ∀ id d, s.downloads.rows id = some d → d.status ≠ .QUEUED) := by
  generalize hprog : Program.call o rest = prog at h
  cases h with
  | round =>
    rw [drainProgram_eq] at hprog
    cases hprog
    obtain ⟨rfl, rfl⟩ := Prod.mk.inj ((hn.performed rfl).symm.trans hc)
    cases hf : s.downloads.findFirst fun _ d => decide (d.status = .QUEUED) with
    | none =>
      refine ⟨by simp, fun _ => ⟨rfl, fun id d hd => ?_⟩⟩
      simpa using Table.findFirst_none hf hd
    | some id => exact ⟨by simp [claimNext], by simp [claimNext]⟩
  | claim id =>
    cases hprog
    obtain ⟨rfl, rfl⟩ := Prod.mk.inj ((hn.performed rfl).symm.trans hc)
    simp only
    split
    · exact ⟨by simp, by simp⟩
    · exact ⟨by simp, by simp⟩
  | ret a => cases hprog

/-- A download that a call leaves queued was queued, or the call has queued it. -/
theorem queued_before {s s' : State} {o : Op} {c : Choice} {r : Reply o} {k : Task}
    (hc : call s o c = (r, s')) (hm : o.MadeBy k) {id : Nat} {d' : Download}
    (hd' : s'.downloads.rows id = some d') (hq : d'.status = .QUEUED) :
    (∃ d, s.downloads.rows id = some d ∧ d.status = .QUEUED) ∨ o = .requeueRunning ∨
      (o.queues ∧ ∀ t, Queues t id (.did t k o r s s')) := by
  cases hd : s.downloads.rows id with
  | none =>
    obtain ⟨rfl, rfl⟩ := call_new_row hc hd hd'
    refine .inr (.inr ⟨trivial, fun t => ?_⟩)
    rcases r with e | n
    · rw [call_error hc, hd] at hd'
      cases hd'
    · have hp := call_ok hc
      simp only [perform, Prod.mk.injEq, Except.ok.injEq] at hp
      exact ⟨rfl, hp.1.symm⟩
  | some d =>
    rcases call_row hc hd with hsame | ⟨⟨a, rfl⟩, hrow⟩
    · obtain rfl : d = d' := Option.some.inj (hsame.symm.trans hd')
      exact .inl ⟨d, rfl, hq⟩
    · rw [hd'] at hrow
      cases hrow with
      | update change =>
        cases change with
        | totals => exact .inl ⟨d, rfl, hq⟩
        | requestCancel => exact .inl ⟨d, rfl, hq⟩
        | cancelQueued => cases hq
        | failed => cases hq
        | finish status error =>
          have hs : status = .QUEUED := hq
          have := hm.1
          simp [hs, Status.active] at this
      | file => exact .inl ⟨d, rfl, hq⟩
      | cancelFiles => exact .inl ⟨d, rfl, hq⟩
      | requeue => exact .inr (.inr ⟨trivial, fun t => ⟨rfl, rfl⟩⟩)
      | claim => cases hq
      | requeueRunning => exact .inr (.inl rfl)
      | resetFiles => exact .inl ⟨d, rfl, hq⟩

theorem wake_cases (env : Env) {m : Memory} (hs : m.stopped = false) :
    (m.draining = true ∧ m.wake env = (m, [])) ∨
    (m.wake env = ({ m with draining := true }, [⟨.drain, drainProgram⟩])) ∨
    (m.draining = false ∧ env.concurrency ≤ m.running ∧ m.wake env = ({ m with draining := false }, [])) := by
  cases hd : m.draining with
  | true => exact .inl ⟨rfl, by simp [Memory.wake, hd]⟩
  | false =>
    by_cases hr : m.running < env.concurrency
    · exact .inr (.inl (by simp [Memory.wake, Memory.loop, hd, hs, hr]))
    · exact .inr (.inr ⟨rfl, by omega, by simp [Memory.wake, Memory.loop, hd, hs, hr]⟩)

/-- What the end of a task leaves of the phase and the flags. -/
theorem after_memory (env : Env) (m : Memory) (k : Task) (a : Result) :
    (((m.after env k a).1.phase = m.phase ∧ k ≠ .boot ∨ k = .boot ∧ (m.after env k a).1.phase = .up) ∧
      (m.after env k a).1.stopped = m.stopped ∧
      ((m.after env k a).1.draining = true →
        (∃ th ∈ (m.after env k a).2, th.kind = .drain) ∨ (k ≠ .drain ∧ m.draining = true))) ∨
    (k = .boot ∧ (m.after env k a).1 = {}) := by
  have waking (hk : k ≠ .boot) (hd : k ≠ .drain) (h : m.after env k a = m.wake env) :
      ((m.after env k a).1.phase = m.phase ∧ k ≠ .boot ∨ k = .boot ∧ (m.after env k a).1.phase = .up) ∧
      (m.after env k a).1.stopped = m.stopped ∧
      ((m.after env k a).1.draining = true →
        (∃ th ∈ (m.after env k a).2, th.kind = .drain) ∨ (k ≠ .drain ∧ m.draining = true)) := by
    obtain ⟨h₁, h₂, h₃⟩ := wake_memory env m
    rw [h]
    exact ⟨.inl ⟨h₁, hk⟩, h₂, fun hdr => (h₃ hdr).imp_right fun h => ⟨hd, h⟩⟩
  cases k with
  | boot =>
    rcases a with (e | _) | _ | _ | _
    case ended.ok =>
      obtain ⟨h₁, h₂, h₃⟩ := wake_memory env { m with phase := .up }
      exact .inl ⟨.inr ⟨rfl, h₁⟩, h₂, fun hdr => (h₃ hdr).imp_right fun h => ⟨by simp, h⟩⟩
    all_goals exact .inr ⟨rfl, rfl⟩
  | drain =>
    left
    rcases a with _ | _ | _ | id
    case again =>
      obtain ⟨h₁, h₂, h₃⟩ := loop_memory env m
      exact ⟨.inl ⟨h₁, by simp⟩, h₂, fun hdr => .inl (h₃ hdr)⟩
    case start =>
      obtain ⟨h₁, h₂, h₃⟩ := loop_memory env (m.start env id).1
      exact ⟨.inl ⟨h₁, by simp⟩, h₂,
        fun hdr => .inl ((h₃ hdr).imp fun th hth => ⟨List.mem_cons_of_mem _ hth.1, hth.2⟩)⟩
    all_goals exact ⟨.inl ⟨rfl, by simp⟩, rfl, fun hdr => by cases hdr⟩
  | wake => exact .inl (waking (by simp) (by simp) rfl)
  | request r =>
    left
    rcases r with _ | id | id | _ <;> rcases a with (e | _) | _ | _ | _ <;>
      try first
        | exact waking (by simp) (by simp) rfl
        | exact ⟨.inl ⟨rfl, by simp⟩, rfl, fun hdr => .inr ⟨by simp, hdr⟩⟩
    -- what is left is a cancel that succeeded
    simp only [Memory.after, Memory.abortJob]
    split <;> exact ⟨.inl ⟨rfl, by simp⟩, rfl, fun hdr => .inr ⟨by simp, hdr⟩⟩
  | _ => exact .inl ⟨.inl ⟨rfl, by simp⟩, rfl, fun hdr => .inr ⟨by simp, hdr⟩⟩

section
variable {env : Env} {p p' : DownloadPool} {t : Nat} {k : Task}

theorem Watch.exec (h : Watch p) (hs : SlotsKept env p) (hd : p.Each DrainShaped) {o : Op}
    {rest : Reply o → Program Op Reply Result} (ht : p.threads t = some ⟨k, .call o rest⟩) {c : Choice}
    {r : Reply o} {s : State} {ths : List DownloadThread} (hn : DatabaseAnswers o c)
    (he : (system env).exec p.state k o c = some (r, s, ths)) : Watch (p.didCall t k o rest r s ths) := by
  obtain ⟨-, hc, rfl⟩ := system_exec he
  have hf := hs.fresh
  have made : o.MadeBy k := (hs.uses t _ ht).1
  have same : p.state.memory.Same s.memory := by
    have := call_same p.state o c
    rwa [hc] at this
  have kept {u : Nat} {k' : Task} (hu : p.kindAt u = some k') :
      (p.didCall t k o rest r s (reported p.state c o)).kindAt u = some k' := by
    rw [Pool.didCall_kindAt hf ht, if_pos (Pool.kindAt_lt hf hu)]
    exact hu
  -- a drain after the call is the one that made it, or as it was
  have drains {u : Nat} {prog : Program Op Reply Result}
      (hu : (p.didCall t k o rest r s (reported p.state c o)).threads u = some ⟨.drain, prog⟩) :
      (u = t ∧ k = .drain ∧ prog = rest r) ∨ (u ≠ t ∧ p.threads u = some ⟨.drain, prog⟩) := by
    rw [Pool.didCall_threads hf ht] at hu
    split at hu
    · split at hu
      · cases hu
        exact .inl ⟨‹_›, rfl, rfl⟩
      · exact .inr ⟨‹_›, hu⟩
    · obtain ⟨ticket, hk, -⟩ := reported_begins env (List.mem_of_getElem? hu)
      cases hk
  refine ⟨fun u e hu => ?_, ?_, ?_, ?_⟩
  · rcases drains hu with ⟨rfl, rfl, hr⟩ | ⟨-, hu⟩
    · exact ((hd u _ ht rfl).answered hn hc).1 e hr.symm
    · exact h.fine u e hu
  · rw [Pool.didCall_state, same.phase, same.draining, same.stopped]
    exact h.booting
  · rw [Pool.didCall_state, same.draining]
    intro hdr
    obtain ⟨u, hu⟩ := h.driven hdr
    exact ⟨u, kept hu⟩
  rw [Pool.didCall_state, same.phase, same.stopped]
  intro hup hon id d hrow hq
  rcases queued_before hc made hrow hq with ⟨d₀, hrow₀, hq₀⟩ | rfl | ⟨hqueues, hev⟩
  · -- an empty read finds nothing queued
    have notStop (hk : k = .drain) : rest r ≠ .ret .stop := by
      intro hr
      subst hk
      exact (((hd t _ ht rfl).answered hn hc).2 hr).2 id d₀ hrow₀ hq₀
    cases h.watched hup hon id d₀ hrow₀ hq₀ with
    | drain u prog hu hne =>
      by_cases e : u = t
      · subst e
        obtain ⟨rfl, -⟩ : k = .drain ∧ prog = .call o rest := by
          rw [ht] at hu
          cases hu
          exact ⟨rfl, rfl⟩
        exact .drain u (rest r) (by rw [Pool.didCall_threads hf ht]; simp [hf.lt ht]) (notStop rfl)
      · refine .drain u prog ?_ hne
        rw [Pool.didCall_threads hf ht, if_pos (hf.lt hu), if_neg e]
        exact hu
    | request u rq hu hev =>
      refine .request u rq (kept hu) ?_
      rw [Pool.didCall_trace]
      exact hev.imp fun e he => ⟨List.mem_cons_of_mem _ he.1, he.2⟩
    | wake u k' hu hk hm =>
      refine .wake u k' (kept hu) hk ?_
      rintro ⟨v, hv⟩
      rcases drains hv with ⟨rfl, hk, hr⟩ | ⟨-, hv⟩
      · exact notStop hk hr.symm
      · exact hm ⟨v, hv⟩
  · obtain rfl : k = .boot := made
    have := (hs.slots.boot t _ (kindAt_of ht)).mp rfl
    rw [hup] at this
    cases this
  · obtain ⟨rq, hk⟩ : ∃ rq, k = .request rq := by
      rcases made.queues hqueues with ⟨n, l, hk⟩ | ⟨id', hk⟩
      · exact ⟨_, hk⟩
      · exact ⟨_, hk⟩
    subst hk
    refine .request t rq (kept (kindAt_of ht)) ⟨_, ?_, hev t⟩
    rw [Pool.didCall_trace]
    exact List.mem_cons_self

/-- The threads after thread `t` ended: the others and the new ones. -/
theorem ended_threads (hs : SlotsKept env p) {a : Result} (ht : p.threads t = some ⟨k, .ret a⟩)
    (s : State) (ths : List DownloadThread) :
    (∀ u th, u ≠ t → p.threads u = some th → (p.didEnd t k a s ths).threads u = some th) ∧
    ∀ th ∈ ths, ∃ u, (p.didEnd t k a s ths).threads u = some th := by
  refine ⟨fun u th hne hu => ?_, fun th hth => ?_⟩
  · rw [Pool.didEnd_threads hs.fresh ht, if_pos (hs.fresh.lt hu), if_neg hne]
    exact hu
  · obtain ⟨i, hi⟩ := List.getElem?_of_mem hth
    refine ⟨p.next + i, ?_⟩
    rw [Pool.didEnd_threads hs.fresh ht, if_neg (by omega)]
    rw [Nat.add_sub_cancel_left]
    exact hi

/-- A drain is about to end without a job only if it was before. -/
theorem Missed.before (hs : SlotsKept env p) {a : Result} (ht : p.threads t = some ⟨k, .ret a⟩)
    (h : Missed (p.didEnd t k a ((system env).finish p.state k a).1
      ((system env).finish p.state k a).2)) :
    ∃ u, u ≠ t ∧ p.threads u = some ⟨.drain, .ret .stop⟩ := by
  obtain ⟨u, hu⟩ := h
  rcases left_or_new hs ht hu with ⟨hne, hu⟩ | ⟨-, hu⟩
  · exact ⟨u, hne, hu⟩
  · have hb := (system_begins env).finish _ _ _ _ (List.mem_of_getElem? hu)
    cases hb

/-- What watches a download goes on to, unless it was the thread that ended. -/
theorem Watched.left {id : Nat} (h : Watched p id) (hs : SlotsKept env p) {a : Result}
    (ht : p.threads t = some ⟨k, .ret a⟩) (hd : k = .drain → a = .stop)
    (hr : ∀ r, k = .request r → ¬ ∃ e ∈ p.trace, Queues t id e)
    (hw : ¬ Missed p → k.slot = true ∨ k = .wake → ∃ th ∈ ((system env).finish p.state k a).2,
      th.kind.slot = true ∨ th.kind = .wake) :
    Watched (p.didEnd t k a ((system env).finish p.state k a).1
      ((system env).finish p.state k a).2) id := by
  obtain ⟨old, new⟩ := ended_threads hs ht ((system env).finish p.state k a).1
    ((system env).finish p.state k a).2
  cases h with
  | drain u prog hu hne =>
    refine .drain u prog (old u _ (fun e => ?_) hu) hne
    subst e
    rw [ht] at hu
    cases hu
    exact hne (congrArg _ (hd rfl))
  | request u rq hu hev =>
    obtain ⟨prog, hu⟩ := exists_thread hu
    refine .request u rq (kindAt_of (old u _ (fun e => ?_) hu)) ?_
    · subst e
      rw [ht] at hu
      cases hu
      exact hr rq rfl hev
    · rw [Pool.didEnd_trace]
      exact hev.imp fun e he => ⟨List.mem_cons_of_mem _ he.1, he.2⟩
  | wake u k' hu hk hm =>
    have hm' : ¬ Missed (p.didEnd t k a ((system env).finish p.state k a).1
        ((system env).finish p.state k a).2) := by
      intro h
      obtain ⟨v, -, hv⟩ := Missed.before hs ht h
      exact hm ⟨v, hv⟩
    obtain ⟨prog, hu⟩ := exists_thread hu
    by_cases e : u = t
    · subst e
      rw [ht] at hu
      cases hu
      obtain ⟨th, hth, hkind⟩ := hw hm hk
      obtain ⟨v, hv⟩ := new th hth
      exact .wake v _ (kindAt_of hv) hkind hm'
    · exact .wake u k' (kindAt_of (old u _ e hu)) hk hm'

/-- After a wake that is heard every queued download is watched. -/
theorem Watch.woken (h : Watch p) (hs : SlotsKept env p) (hc : 1 ≤ env.concurrency) {a : Result}
    (ht : p.threads t = some ⟨k, .ret a⟩) {m : Memory} (hm : p.state.memory.after env k a = m.wake env)
    (hd : m.draining = p.state.memory.draining) (hr : m.running = p.state.memory.running)
    (hon : m.stopped = false) (hslot : k.slot = false) (hdrain : k ≠ .drain) (hmiss : ¬ Missed p) (id : Nat) :
    Watched (p.didEnd t k a ((system env).finish p.state k a).1
      ((system env).finish p.state k a).2) id := by
  obtain ⟨old, new⟩ := ended_threads hs ht ((system env).finish p.state k a).1
    ((system env).finish p.state k a).2
  have ths : ((system env).finish p.state k a).2 = (m.wake env).2 := congrArg Prod.snd hm
  rcases wake_cases env hon with ⟨hdr, -⟩ | hw | ⟨-, hfull, -⟩
  · obtain ⟨u, hu⟩ := h.driven (hd.symm.trans hdr)
    obtain ⟨prog, hu⟩ := exists_thread hu
    have hne : u ≠ t := by
      rintro rfl
      rw [ht] at hu
      cases hu
      exact hdrain rfl
    exact .drain u prog (old u _ hne hu) fun e => hmiss ⟨u, e ▸ hu⟩
  · obtain ⟨u, hu⟩ := new ⟨.drain, drainProgram⟩ (by simp [ths, hw])
    exact .drain u drainProgram hu (by simp [drainProgram_eq])
  · have hcount : p.count (Task.slot ·.kind) ≠ 0 := by
      have := hs.slots.running
      omega
    obtain ⟨u, th, hu, hk⟩ := Pool.exists_of_count _ hcount
    have hne : u ≠ t := by
      rintro rfl
      rw [ht] at hu
      cases hu
      simp [hslot] at hk
    refine .wake u th.kind (kindAt_of (old u _ hne hu)) (.inl hk) fun h => ?_
    obtain ⟨v, -, hv⟩ := Missed.before hs ht h
    exact hmiss ⟨v, hv⟩

theorem Watch.finish (h : Watch p) (hs : SlotsKept env p) (hc : 1 ≤ env.concurrency) {a : Result}
    (ht : p.threads t = some ⟨k, .ret a⟩) (hpost : k.wakes a = true ∨ Cleared t p.toWorld)
    (hok : k.wakes a = true → ¬ Missed p) :
    Watch (p.didEnd t k a ((system env).finish p.state k a).1
      ((system env).finish p.state k a).2) := by
  obtain ⟨old, new⟩ := ended_threads hs ht ((system env).finish p.state k a).1
    ((system env).finish p.state k a).2
  have begins := (system_begins env).finish p.state k a
  have after := after_memory env p.state.memory k a
  have up (hk : k ≠ .boot) : p.state.memory.phase = .up := hs.phase (kindAt_of ht) hk
  refine ⟨fun u e hu => ?_, ?_, ?_, ?_⟩
  · rcases left_or_new hs ht hu with ⟨-, hu⟩ | ⟨-, hu⟩
    · exact h.fine u e hu
    · have hb := begins _ (List.mem_of_getElem? hu)
      cases hb
  · rw [Pool.didEnd_state]
    intro hp
    rcases after with ⟨⟨hsame, hk⟩ | ⟨-, hup⟩, -⟩ | ⟨-, hm⟩
    · exact absurd ((up hk).symm.trans (hsame.symm.trans hp)) (by simp)
    · exact absurd (hup.symm.trans hp) (by simp)
    · have : ((system env).finish p.state k a).1.memory = {} := hm
      rw [this] at hp
      cases hp
  · rw [Pool.didEnd_state]
    intro hdr
    rcases after with ⟨-, -, hdriven⟩ | ⟨-, hm⟩
    · rcases hdriven hdr with ⟨th, hth, hk⟩ | ⟨hk, hold⟩
      · obtain ⟨u, hu⟩ := new th hth
        exact ⟨u, by rw [kindAt_of hu, hk]⟩
      · obtain ⟨u, hu⟩ := h.driven hold
        obtain ⟨prog, hu⟩ := exists_thread hu
        refine ⟨u, kindAt_of (old u _ (fun e => ?_) hu)⟩
        subst e
        rw [ht] at hu
        cases hu
        exact hk rfl
    · have : ((system env).finish p.state k a).1.memory = {} := hm
      rw [this] at hdr
      cases hdr
  rw [Pool.didEnd_state]
  intro hup hon id d hrow hq
  have hrow₀ : p.state.downloads.rows id = some d := hrow
  -- the flag of the process before
  have hon₀ (hk : k ≠ .boot) : p.state.memory.stopped = false := by
    rcases after with ⟨-, hst, -⟩ | ⟨hb, -⟩
    · exact hst.symm.trans hon
    · exact absurd hb hk
  have watched (hk : k ≠ .boot) : Watched p id := h.watched (up hk) (hon₀ hk) id d hrow₀ hq
  have unqueued (r : Request) (hk : k = .request r) (hw : k.wakes a = false) :
      ¬ ∃ e ∈ p.trace, Queues t id e := by
    intro hev
    have := (hpost.resolve_left (by simp [hw]) id hev).2
    rw [hrow₀] at this
    cases this
  cases k with
  | boot =>
    have hboot := (hs.slots.boot t _ (kindAt_of ht)).mp rfl
    obtain ⟨hdr, hst⟩ := h.booting hboot
    rcases a with (e | _) | _ | _ | _
    case ended.ok =>
      have hmiss : ¬ Missed p := by
        rintro ⟨u, hu⟩
        have := (hs.slots.boot u _ (kindAt_of hu)).mpr hboot
        cases this
      exact h.woken hs hc ht (m := { p.state.memory with phase := .up }) rfl rfl rfl hst rfl
        (by simp) hmiss id
    all_goals cases hup
  | drain =>
    rcases a with e | _ | _ | id₀
    case ended => exact absurd ht (h.fine t e)
    case stop =>
      exact (watched (by simp)).left hs ht (fun _ => rfl) (fun r hr => by cases hr)
        fun _ hk => by rcases hk with hk | hk <;> cases hk
    case again =>
      have hroom := hs.slots.room t (kindAt_of ht)
      have hst := hon₀ (by simp)
      obtain ⟨u, hu⟩ := new ⟨.drain, drainProgram⟩ (by
        simp [system, Memory.after, Memory.loop, hroom, hst])
      exact .drain u drainProgram hu (by simp [drainProgram_eq])
    case start =>
      obtain ⟨u, hu⟩ := new (p.state.memory.start env id₀).2 List.mem_cons_self
      refine .wake u _ (kindAt_of hu) (.inl rfl) fun hm => ?_
      obtain ⟨v, hne, hv⟩ := Missed.before hs ht hm
      exact hne (hs.slots.drainOnce v t (kindAt_of hv) (kindAt_of ht))
  | worker id₀ c =>
    exact (watched (by simp)).left hs ht (fun hk => by cases hk) (fun r hr => by cases hr)
      fun _ _ => ⟨_, List.mem_singleton.mpr rfl, .inl rfl⟩
  | release =>
    exact (watched (by simp)).left hs ht (fun hk => by cases hk) (fun r hr => by cases hr)
      fun _ _ => ⟨_, List.mem_singleton.mpr rfl, .inr rfl⟩
  | wake =>
    by_cases hmiss : Missed p
    · exact (watched (by simp)).left hs ht (fun hk => by cases hk) (fun r hr => by cases hr)
        fun hm => absurd hmiss hm
    · exact h.woken hs hc ht (m := p.state.memory) rfl rfl rfl (hon₀ (by simp)) rfl (by simp) hmiss id
  | progress ticket =>
    exact (watched (by simp)).left hs ht (fun hk => by cases hk) (fun r hr => by cases hr)
      fun _ hk => by rcases hk with hk | hk <;> cases hk
  | request r =>
    cases hw : (Task.request r).wakes a with
    | true =>
      have hm : p.state.memory.after env (.request r) a = p.state.memory.wake env := by
        rcases r with _ | id | id | _ <;> rcases a with (e | _) | _ | _ | _ <;>
          first | rfl | cases hw
      exact h.woken hs hc ht (m := p.state.memory) hm rfl rfl (hon₀ (by simp)) rfl (by simp) (hok hw) id
    | false =>
      exact (watched (by simp)).left hs ht (fun hk => by cases hk)
        (fun r' hr => unqueued r' hr hw) fun _ hk => by rcases hk with hk | hk <;> cases hk

theorem Watch.external (h : Watch p) (hs : SlotsKept env p) {x : Arrival} {s : State} {dies : Bool}
    {ths : List DownloadThread} (he : (system env).external p.state x = some (s, dies, ths)) :
    Watch (p.didOuter x s dies ths) := by
  have begins := (system_begins env).external he
  have kept {u : Nat} {th : DownloadThread} (hd : dies = false) (hu : p.threads u = some th) :
      (p.didOuter x s dies ths).threads u = some th := by
    rw [Pool.didOuter_threads hs.fresh, if_pos (hs.fresh.lt hu), hd]
    exact hu
  have old {u : Nat} {prog : Program Op Reply Result} {a : Result} (hp : prog = .ret a)
      (hu : (p.didOuter x s dies ths).threads u = some ⟨.drain, prog⟩) :
      p.threads u = some ⟨.drain, prog⟩ := by
    subst hp
    rw [Pool.didOuter_threads hs.fresh] at hu
    split at hu
    · split at hu
      · cases hu
      · exact hu
    · have hb := begins _ (List.mem_of_getElem? hu)
      cases hb
  have hfine : ∀ u r, (p.didOuter x s dies ths).threads u ≠ some ⟨.drain, .ret (.ended r)⟩ :=
    fun u r hu => h.fine u r (old rfl hu)
  have driven (hd : dies = false) (hdr : p.state.memory.draining = true) :
      ∃ u, (p.didOuter x s dies ths).kindAt u = some .drain := by
    obtain ⟨u, hu⟩ := h.driven hdr
    obtain ⟨prog, hu⟩ := exists_thread hu
    exact ⟨u, kindAt_of (kept hd hu)⟩
  have watched (hd : dies = false) {id : Nat} (hw : Watched p id) :
      Watched (p.didOuter x s dies ths) id := by
    cases hw with
    | drain u prog hu hne => exact .drain u prog (kept hd hu) hne
    | request u rq hu hev =>
      obtain ⟨prog, hu⟩ := exists_thread hu
      refine .request u rq (kindAt_of (kept hd hu)) ?_
      rw [Pool.didOuter_trace]
      exact hev.imp fun e he => ⟨List.mem_cons_of_mem _ he.1, he.2⟩
    | wake u k hu hk hm =>
      obtain ⟨prog, hu⟩ := exists_thread hu
      exact .wake u k (kindAt_of (kept hd hu)) hk fun hm' => hm (hm'.imp fun v hv => old rfl hv)
  cases arrives he
  case request hp =>
    refine ⟨hfine, ?_, ?_, ?_⟩ <;> rw [Pool.didOuter_state]
    · exact h.booting
    · exact driven rfl
    · exact fun hup hon id d hd hq => watched rfl (h.watched hup hon id d hd hq)
  case shutdown hp =>
    obtain ⟨h₁, h₂, h₃, -⟩ := shutdown_memory p.state.memory
    refine ⟨hfine, ?_, ?_, ?_⟩ <;> rw [Pool.didOuter_state]
    · intro hb
      exact absurd ((h₁.symm.trans hb).symm.trans hp) (by simp)
    · exact fun hdr => driven rfl (h₂.symm.trans hdr)
    · intro _ hon
      exact absurd (h₃.symm.trans hon) (by simp)
  case crash hp =>
    refine ⟨hfine, ?_, ?_, ?_⟩ <;> rw [Pool.didOuter_state]
    · exact fun hb => by cases hb
    · exact fun hdr => by cases hdr
    · exact fun hup => by cases hup
  case boot hp =>
    refine ⟨hfine, ?_, ?_, ?_⟩ <;> rw [Pool.didOuter_state]
    · exact fun _ => ⟨rfl, rfl⟩
    · exact fun hdr => by cases hdr
    · exact fun hup => by cases hup

end

theorem wakers_keeps (env : Env) : wakers.Keeps (system env) DatabaseUp
    fun p => SlotsKept env p ∧ p.Recorded where
  may hI hok ht he := by
    obtain ⟨-, hc, -⟩ := system_exec he
    exact ⟨_, hok _ _ _ ht, hc⟩
  exec {p t k o rest c r s ths} hI hok ht he hg := by
    have hst : (system env).step p (.exec t c) = some (p.didCall t k o rest r s ths) := by
      simp [System.step, ht, he]
    obtain ⟨-, hc, -⟩ := system_exec he
    refine ⟨⟨hI.1.step hst, hI.2.step hI.1.fresh hst⟩, fun u th _ _ => ⟨?_, fun id hgone => hgone.call hc⟩,
      fun th hth u hu => waker_safe ((system_begins env).exec he th hth) ?_⟩
    · exact next_le hc
    · rintro id ⟨e, hmem, hq⟩
      rcases List.mem_cons.mp hmem with rfl | hmem
      · have hlt := hI.1.fresh.lt ht
        obtain rfl : t = u := hq.by
        omega
      · have := hI.2 e hmem u hq.by
        omega
  finish {p t k a} hI hok ht hpost := by
    have hst : (system env).step p (.finish t) = some (p.didEnd t k a ((system env).finish p.state k a).1
        ((system env).finish p.state k a).2) := by
      simp [System.step, ht]
    refine ⟨⟨hI.1.step hst, hI.2.step hI.1.fresh hst⟩, fun u th _ _ => ⟨Nat.le_refl _, fun _ => id⟩,
      fun th hth u hu => waker_safe ((system_begins env).finish _ _ _ th hth) ?_⟩
    rintro id ⟨e, hmem, hq⟩
    rcases List.mem_cons.mp hmem with rfl | hmem
    · exact hq.elim
    · have := hI.2 e hmem u hq.by
      omega
  external {p x s dies ths} hI hok he := by
    have hst : (system env).step p (.external x) = some (p.didOuter x s dies ths) := by
      simp [System.step, he]
    obtain ⟨hrows, -⟩ := arrive_keeps he
    refine ⟨⟨hI.1.step hst, hI.2.step hI.1.fresh hst⟩, fun u th _ _ => ?_,
      fun th hth u hu => waker_safe ((system_begins env).external he th hth) ?_⟩
    · simp only [wakers, Event.after, hrows, Gone]
      exact ⟨Nat.le_refl _, fun _ => id⟩
    · rintro id ⟨e, hmem, hq⟩
      rcases List.mem_cons.mp hmem with rfl | hmem
      · exact hq.elim
      · have := hI.2 e hmem u hq.by
        omega

/-- As long as no request wakes the queue while a drain has an empty read in hand, no download waits
when the queue rests. -/
theorem none_waits (env : Env) (hc : 1 ≤ env.concurrency) {s : State} (hs : s.Down) {p : DownloadPool}
    (hr : (system env).Runs (fun q l => DatabaseUp q l ∧ WakeHeard q l) (.initial s) p) : NoneWaits p := by
  have hk := (wakers_keeps env).keeps
  have h := (system env).invariant
    (I := fun q => ((SlotsKept env q ∧ q.Recorded) ∧ wakers.discipline.AllSafe q) ∧ q.Each DrainShaped ∧ Watch q)
    (fun q l q' h hl hst => ?_) ⟨⟨⟨.initial env hs, .initial s⟩, Discipline.allSafe_initial _ s⟩, ?_, ?_⟩ hr
  · intro hrest id d hrow hq
    have hstill := hrest.still
    cases h.2.2.watched hrest.up hrest.on id d hrow hq with
    | drain t prog ht => exact (hstill t _ (kindAt_of ht)).1 rfl
    | request t r ht => exact (hstill t _ ht).2.2.2 r rfl
    | wake t k ht hk =>
      obtain ⟨-, h₁, h₂, -⟩ := hstill t k ht
      rcases hk with hk | hk
      · rw [h₁] at hk
        cases hk
      · exact h₂ hk
  · have hslots := h.1.1.1
    have hdrains := h.2.1
    refine ⟨hk.step h.1 hl.1 hst, hdrains.step (system_drains env)
      (fun _ _ _ r hφ hk => ((hφ hk).call r).1) hst, ?_⟩
    rcases (system env).step_cases hst with
      ⟨t, k, o, rest, c, r, s, ths, rfl, ht, he, rfl⟩ | ⟨t, k, a, rfl, ht, rfl⟩ |
      ⟨x, s, dies, ths, rfl, he, rfl⟩
    · exact h.2.2.exec hslots hdrains ht (hl.1 _ _ _ ht) he
    · refine h.2.2.finish hslots hc ht ?_ fun hw => ?_
      · exact h.1.2 t _ ht q.toWorld .refl
      · rintro ⟨u, hu⟩
        exact hl.2 k a ht hw u hu
    · exact h.2.2.external hslots he
  · intro t th ht
    cases ht
  · refine ⟨fun t r ht => (by cases ht), fun hb => ?_, fun hd => ?_, fun hup => ?_⟩
    all_goals
      have hm : (Pool.initial s : DownloadPool).state.memory = {} := hs
      first
      | (rw [hm] at hb; cases hb)
      | (rw [hm] at hd; cases hd)
      | (rw [hm] at hup; cases hup)

def noJobs : State := ⟨Table.empty, .empty, {}⟩

theorem noJobs_down : noJobs.Down := rfl

def databaseUp (p : DownloadPool) : DownloadLabel → Bool
  | .exec t c =>
    match p.threads t with
    | some ⟨_, .call o _⟩ => !o.onDatabase || c.failure.isNone
    | _ => true
  | _ => true

theorem databaseUp_databaseUp {p : DownloadPool} {l : DownloadLabel} (h : databaseUp p l = true) :
    DatabaseUp p l := by
  cases l with
  | exec t c =>
    intro k o rest ht ho
    simp only [databaseUp, ht, ho, Bool.not_true, Bool.false_or] at h
    exact Option.isNone_iff_eq_none.mp h
  | _ => trivial

/-- A request creates a job as thread `t`, up to its wake. -/
def createOne (t : Nat) : List DownloadLabel :=
  [.external (.request (.create 1 [])), .exec t {}, .exec t { post := .ok smallPost }] ++ calls t 2

/-- The tasks that start no job. -/
def Task.idle : Task → Bool
  | .boot | .progress _ => true
  | _ => false

def resting (p : DownloadPool) : Bool :=
  p.state.memory.phase = .up && p.state.memory.stopped = false &&
    (List.range p.next).all fun t => (p.kindAt t).all Task.idle

theorem resting_resting {p : DownloadPool} (hf : p.Fresh) (h : resting p = true) : Resting p := by
  simp only [resting, Bool.and_eq_true, decide_eq_true_eq, List.all_eq_true, List.mem_range] at h
  refine ⟨h.1.1, h.1.2, fun t k ht => ?_⟩
  have hidle := h.2 t (Pool.kindAt_lt hf ht)
  rw [ht] at hidle
  replace hidle : k.idle = true := hidle
  cases k <;> first
    | (cases hidle; done)
    | simp [Task.slot]

/-- The job is created after the drain has read that nothing is queued, and the wake for it comes
before the drain has ended. -/
theorem wake_dropped : ¬ ∀ (env : Env) (s : State) (p : DownloadPool), 1 ≤ env.concurrency → s.Down →
    (system env).Runs DatabaseUp (.initial s) p → NoneWaits p := by
  intro h
  have hrun : ((system (.small 1)).replay databaseUp (.initial noJobs)
      (.external .boot :: calls 0 2 ++ [.finish 0] ++ calls 1 1 ++ createOne 2 ++
        [.finish 2, .finish 1])).any (fun p =>
      resting p ∧ (p.state.downloads.rows 0).any (·.status = .QUEUED)) = true := by decide
  obtain ⟨p, hp, hn⟩ := Option.any_eq_true _ _ |>.mp hrun
  obtain ⟨hrest, hrow⟩ := of_decide_eq_true hn
  obtain ⟨d, hd, hq⟩ := Option.any_eq_true _ _ |>.mp hrow
  have hr := (system (.small 1)).replay_runs (C := DatabaseUp) (fun _ _ => databaseUp_databaseUp) hp
  exact h (.small 1) noJobs p (by decide) noJobs_down hr
    (resting_resting (system_fresh noJobs_down hr) hrest) 0 d hd
    (of_decide_eq_true hq)

def wakeHeard (p : DownloadPool) : DownloadLabel → Bool
  | .finish t =>
    match p.threads t with
    | some ⟨k, .ret a⟩ => !k.wakes a || (List.range p.next).all fun u =>
        match p.threads u with
        | some ⟨.drain, .ret .stop⟩ => false
        | _ => true
    | _ => true
  | _ => true

theorem wakeHeard_runs {env : Env} {s : State} (hs : s.Down) {p : DownloadPool} {ls : List DownloadLabel}
    (h : (system env).replay (fun p l => databaseUp p l && wakeHeard p l) (.initial s) ls = some p) :
    (system env).Runs (fun q l => DatabaseUp q l ∧ WakeHeard q l) (.initial s) p := by
  have hr := (system env).replay_runs (C := fun q l => databaseUp q l = true ∧ wakeHeard q l = true)
    (fun _ _ h => by simpa using h) h
  refine System.Runs.mono_step _ (fun q l _ hI _ hok _ => ?_)
    (fun _ _ _ hI _ hst => hI.step hst) (SlotsKept.initial env hs) hr
  refine ⟨databaseUp_databaseUp hok.1, ?_⟩
  cases l with
  | finish t =>
    intro k a ht hw u hu
    have heard := hok.2
    simp only [wakeHeard, ht, hw, Bool.not_true, Bool.false_or, List.all_eq_true, List.mem_range] at heard
    have := heard u (hI.fresh.lt hu)
    rw [hu] at this
    cases this
  | _ => trivial

/-- The drain ends before the wake, and the job is run; its request to the host fails. -/
theorem none_waits_created : ∃ p, (system (.small 1)).Runs (fun q l => DatabaseUp q l ∧ WakeHeard q l)
      (.initial noJobs) p ∧ Resting p ∧ p.state.downloads.next = 1 ∧ NoneWaits p := by
  have hrun : ((system (.small 1)).replay (fun p l => databaseUp p l && wakeHeard p l) (.initial noJobs)
      (.external .boot :: calls 0 2 ++ [.finish 0] ++ calls 1 1 ++ createOne 2 ++ [.finish 1, .finish 2] ++
        calls 3 2 ++ [.finish 3] ++ calls 4 10 ++ [.exec 4 { failure := some "fetch failed" }] ++
        calls 4 9 ++ [.finish 4, .finish 5, .finish 6] ++ calls 7 1 ++ [.finish 7])).any (fun p =>
      resting p ∧ p.state.downloads.next = 1) = true := by decide
  obtain ⟨p, hp, hn⟩ := Option.any_eq_true _ _ |>.mp hrun
  obtain ⟨hrest, hnext⟩ := of_decide_eq_true hn
  have hr := wakeHeard_runs noJobs_down hp
  exact ⟨p, hr, resting_resting (system_fresh noJobs_down hr) hrest, hnext,
    none_waits (.small 1) (by decide) noJobs_down hr⟩

end CircleFtp.Downloads
