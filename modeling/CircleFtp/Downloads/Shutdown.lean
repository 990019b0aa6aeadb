import CircleFtp.Concurrent.Alone
import CircleFtp.Downloads.Outcomes

/-! What a shutdown leaves of the jobs: the aborted workers run on until the process exits, and what
they have written of the outcome by then the next boot takes as it is. -/
namespace CircleFtp.Downloads
open Concurrent Strings

/-- The job is not cancelled, and with a file left it is queued. -/
def Survives (id : Nat) (s : State) : Prop := ∀ d, s.downloads.rows id = some d →
  d.status ≠ .CANCELLED ∧ (d.statuses.all (·.settled) = false → d.status = .QUEUED)

/-- The process is told to shut down, goes on until it exits, and the next boot that gets through
its recovery has just done so. -/
def Restarts (env : Env) (ok : DownloadPool → DownloadLabel → Prop) (p q : DownloadPool) : Prop :=
  ∃ p₁ p₂, (system env).step p (.external .shutdown) = some p₁ ∧
    (system env).Runs (fun p l => p.state.memory.phase ≠ .down ∧ ok p l) p₁ p₂ ∧
    p₂.state.memory.phase = .down ∧
    (system env).Runs (fun p _ => p.state.memory.phase ≠ .up) p₂ q ∧ q.state.memory.phase = .up

/-- No request cancels the job. -/
def NotCancelled (id : Nat) (p : DownloadPool) : DownloadLabel → Prop
  | .exec t _ => ∀ k o rest, p.threads t = some ⟨k, .call o rest⟩ →
      o ≠ .updateDownload id .cancelQueued ∧ o ≠ .updateDownload id .requestCancel
  | _ => True

/-- The writes that take a file up, put it back or give it up. -/
def FileChange.opens : FileChange → Bool
  | .begin | .pending _ | .cancelled => true
  | _ => false

def Op.opens : Op → Option Nat
  | .updateFile id _ change => if change.opens then some id else none
  | _ => none

def Op.finishes : Op → Option Nat
  | .updateDownload id (.finish _ _) => some id
  | _ => none

/-- Thread `t` ends the job as cancelled: its last files have been given up. -/
def Cleaned (t id : Nat) (trace : List DownloadEvent) : Prop :=
  ∃ k r s s', .did t k (.cancelFiles id true) r s s' ∈ trace

/-- The process is gone before a worker that has given up the last files writes the outcome of the
job; none is written while a file is left, and under an outcome no file is taken up again. -/
def ExitsInTime (id : Nat) (p : DownloadPool) : DownloadLabel → Prop
  | .exec t _ => ∀ k o rest d, p.threads t = some ⟨k, .call o rest⟩ → p.state.downloads.rows id = some d →
      (o.finishes = some id → ¬ Cleaned t id p.trace) ∧
      (o.outcome = some id → d.statuses.all (·.settled) = true) ∧
      (o.opens = some id → d.status.active = true)
  | _ => True

/-- A job is ended as cancelled only after its last files have been given up. -/
def cleanings : Ledger State Task Op Reply Arrival Result where
  admits _ _ _ _ := True
  may _ _ _ _ _ _ := True
  guar t _ w o _ _ := ∀ id error, o = .updateDownload id (.finish .CANCELLED error) → Cleaned t id w.trace
  post _ _ _ _ := True

abbrev cleaningContract (t : Nat) (k : Task) : Contract DownloadWorld Op Reply :=
  cleanings.discipline.contract t k

section
variable {env : Env} {t id : Nat} {k : Task} {w : DownloadWorld} {o : Op}

theorem Cleaned.more {trace : List DownloadEvent} (h : Cleaned t id trace) (e : DownloadEvent) :
    Cleaned t id (e :: trace) := by
  obtain ⟨k', r, s, s', hm⟩ := h
  exact ⟨k', r, s, s', List.mem_cons_of_mem e hm⟩

theorem cleaned_stable : (cleaningContract t k).Stable fun w => Cleaned t id w.trace :=
  fun _ _ hr h => History.rely_induct (φ := fun v => Cleaned t id v.trace) (fun _ e hv _ _ _ => hv.more e) hr h

/-- A program that ends no job. -/
theorem cleaning_quiet {α : Type} {m : Flow α} {P : DownloadWorld → Prop}
    (hP : (cleaningContract t k).Stable P)
    (keep : ∀ w o r w', (cleaningContract t k).act w o r w' → P w → P w')
    (hm : m.run.Uses (Op.settles · = false)) :
    (cleaningContract t k).Does P m (fun _ => P) fun _ => P := by
  refine .of_uses hP (fun o ho => ⟨fun w r w' _ _ i error he => ?_, fun w a w' h ha => keep w o _ w' ha h,
    fun w e w' h ha => keep w o _ w' ha h⟩) hm
  subst he
  cases ho

theorem act_cleaned {w w' : DownloadWorld} {r : Reply o} (ha : (cleaningContract t k).act w o r w')
    (h : Cleaned t id w.trace) : Cleaned t id w'.trace := by
  rw [ha.1]
  exact h.more _

theorem cleaning_any {α : Type} {m : Flow α} (hm : m.run.Uses (Op.settles · = false)) :
    (cleaningContract t k).Does (fun _ => True) m (fun _ _ => True) fun _ _ => True :=
  cleaning_quiet (fun _ _ _ h => h) (fun _ _ _ _ _ h => h) hm

/-- A call that ends no job as cancelled. -/
theorem cleaning_leads (ho : ∀ i error, o ≠ .updateDownload i (.finish .CANCELLED error)) :
    (cleaningContract t k).Leads (fun _ => True) o (fun _ _ => True) fun _ _ => True :=
  ⟨fun _ _ _ _ _ i error he => absurd he (ho i error), fun _ _ _ _ _ => trivial, fun _ _ _ _ _ => trivial⟩

theorem jobOutcome_cancelled {cancelled : Bool} {files : List DownloadFile}
    (h : (jobOutcome cancelled files).1 = .CANCELLED) : cancelled = true := by
  cases cancelled with
  | true => rfl
  | false =>
    simp only [jobOutcome, Bool.false_eq_true, if_false] at h
    split at h
    · cases h
    · split at h <;> cases h

theorem finishJob_cleans (cancelled : Bool) : (cleaningContract t k).Does (fun _ => True)
    (finishJob env id cancelled) (fun _ _ => True) fun _ _ => True := by
  let given : DownloadWorld → Prop := fun w => cancelled = true → Cleaned t id w.trace
  have stable : (cleaningContract t k).Stable given := fun w w' hr h hc => cleaned_stable w w' hr (h hc)
  have anything : (cleaningContract t k).Stable fun _ => True := fun _ _ _ h => h
  have quiet {α : Type} {m : Flow α} (hm : ∀ k, m.run.Uses (Op.MadeBy · k)) : m.run.Uses (Op.settles · = false) :=
    (worksOn_of_any hm 0 0).mono fun _ h => h.2
  have ending (files : List DownloadFile) : (cleaningContract t k).Does (fun _ => True) (do
      if 0 < files.countP (·.status = .COMPLETED) then announce env id
      publishDownload id .finished : Flow Unit) (fun _ _ => True) fun _ _ => True := by
    split
    · exact .bind (fun _ => anything) (cleaning_any (quiet announce_uses)) fun _ =>
        cleaning_any (quiet (publishDownload_uses _))
    · exact cleaning_any (quiet (publishDownload_uses _))
  have rest (files : List DownloadFile) : (cleaningContract t k).Does given (do
      recomputeTotals id
      op (.updateDownload id (.finish (jobOutcome cancelled files).1 (jobOutcome cancelled files).2))
      if 0 < files.countP (·.status = .COMPLETED) then announce env id
      publishDownload id .finished : Flow Unit) (fun _ _ => True) fun _ _ => True := by
    refine .bind (fun _ => anything) (Q := fun _ => given) ((cleaning_quiet stable (fun _ _ _ _ ha h hc =>
      act_cleaned ha (h hc)) (quiet recomputeTotals_uses)).conseq (fun _ h => h) (fun _ _ h => h)
      fun _ _ _ => trivial) fun _ => ?_
    refine .leads stable (fun _ => anything) (Q := fun _ _ => True)
      ⟨fun w r w' h _ i error he => ?_, fun _ _ _ _ _ => trivial, fun _ _ _ _ _ => trivial⟩ fun _ => ending _
    injection he with hi hchange
    injection hchange with hstatus
    subst hi
    exact h (jobOutcome_cancelled hstatus)
  refine .bind (fun _ => anything) (cleaning_any (quiet settleProgressWrites_uses)) fun _ => ?_
  refine .leads anything (fun _ => anything) (cleaning_leads (by simp)) fun row => ?_
  simp only
  split
  · refine .leads anything (fun _ => anything) (Q := fun _ => given)
      ⟨fun _ _ _ _ _ i error he => Op.noConfusion he, fun w a w' _ ha _ => ?_, fun _ _ _ _ _ => trivial⟩
      fun _ => rest _
    rw [ha.1]
    exact ⟨k, .ok a, w.state, w'.state, List.mem_cons_self⟩
  · rename_i hc
    exact (rest _).conseq (fun _ _ h => absurd h hc) (fun _ _ h => h) fun _ _ h => h

theorem runJob_cleans {c : Nat} : (cleaningContract t k).Does (fun _ => True) (runJob env id c)
    (fun _ _ => True) fun _ _ => True := by
  have anything : (cleaningContract t k).Stable fun _ => True := fun _ _ _ h => h
  have quiet {α : Type} {m : Flow α} (hm : ∀ k, m.run.Uses (Op.MadeBy · k)) : m.run.Uses (Op.settles · = false) :=
    (worksOn_of_any hm 0 0).mono fun _ h => h.2
  have process : (cleaningContract t k).Does (fun _ => True) (processJob env id c) (fun _ _ => True)
      fun _ _ => True := by
    refine .leads anything (fun _ => anything) (cleaning_leads (by simp)) fun row => ?_
    cases row with
    | none => exact .pure anything fun _ h => h
    | some d =>
      refine .bind (fun _ => anything) (cleaning_any (quiet (publishDownload_uses _))) fun _ => ?_
      exact .bind (fun _ => anything) (cleaning_any ((processFiles_uses _ _).mono fun _ h => h.2))
        fun b => finishJob_cleans b
  refine .catch (fun _ => anything) process fun error => ?_
  refine .bind (fun _ => anything) (.catch (fun _ => anything) (F := fun _ _ => True)
    (.leads_last anything (fun _ => anything) (fun _ => anything) (cleaning_leads (by simp)))
    fun _ => .pure anything fun _ h => h) fun _ => ?_
  exact .catch (fun _ => anything) (cleaning_any (quiet (publishDownload_uses _))) fun _ =>
    .pure anything fun _ h => h

theorem cleaning_safe {th : DownloadThread} (h : Begins env th) : cleanings.discipline.SafeThread t th w := by
  have other (hk : ∀ id c, th.kind ≠ .worker id c) : cleanings.discipline.SafeThread t th w := by
    refine .of_uses (fun _ o _ _ ho _ i error he => ?_) h.uses
    subst he
    exact absurd ho.2.choose_spec (hk i _)
  cases h with
  | worker id c => exact .bind ((runJob_cleans w trivial).mono fun _ _ _ _ _ => trivial)
  | _ => exact other (by simp)

end

theorem cleanings_keeps (env : Env) : cleanings.Keeps (system env) (fun _ _ => True) fun _ => True where
  may _ _ _ _ := trivial
  exec _ _ _ he _ := ⟨trivial, fun _ _ _ _ => trivial, fun th hth _ _ =>
    cleaning_safe ((system_begins env).exec he th hth)⟩
  finish _ _ _ _ := ⟨trivial, fun _ _ _ _ => trivial, fun th hth _ _ =>
    cleaning_safe ((system_begins env).finish _ _ _ th hth)⟩
  external _ _ he := ⟨trivial, fun _ _ _ _ => trivial, fun th hth _ _ =>
    cleaning_safe ((system_begins env).external he th hth)⟩

/-- The job is not cancelled, and under an outcome no file is left. -/
structure Held (id : Nat) (s : State) : Prop where
  known : id < s.downloads.next
  row : ∀ d, s.downloads.rows id = some d →
    d.status ≠ .CANCELLED ∧ (d.status.active = false → d.statuses.all (·.settled) = true)

section
variable {s s' : State} {id : Nat} {o : Op} {c : Choice} {r : Reply o} {d : Download}

theorem FileStatus.settled_open {x : FileStatus} (h : x.settled = true) : x ≠ .PENDING ∧ x ≠ .RUNNING := by
  revert h
  cases x <;> decide

theorem settled_modify {index : Nat} {change : FileChange} (hc : change.opens = false)
    (h : d.statuses.all (·.settled) = true) :
    ({ d with files := d.files.modify index change.apply } : Download).statuses.all (·.settled) = true := by
  simp only [Download.statuses, List.all_map, List.all_eq_true, Function.comp_apply] at h ⊢
  intro f hf
  obtain ⟨i, hi⟩ := List.mem_iff_getElem?.mp hf
  rw [List.getElem?_modify] at hi
  obtain ⟨f₀, hf₀, rfl⟩ := Option.map_eq_some_iff.mp hi
  have hset := h f₀ (List.mem_of_getElem? hf₀)
  split
  · cases change <;> first | exact hset | rfl | cases hc
  · exact hset

theorem settled_cancelFiles (running : Bool) (h : d.statuses.all (·.settled) = true) :
    (d.cancelFiles running).statuses.all (·.settled) = true := by
  simp only [Download.statuses, Download.cancelFiles, List.map_map, List.all_map, List.all_eq_true,
    Function.comp_apply] at h ⊢
  intro f hf
  obtain ⟨hp, hr⟩ := FileStatus.settled_open (h f hf)
  simpa [hp, hr] using h f hf

theorem settled_resetFiles (h : d.statuses.all (·.settled) = true) :
    d.resetFiles.statuses.all (·.settled) = true := by
  simp only [Download.statuses, Download.resetFiles, List.map_map, List.all_map, List.all_eq_true,
    Function.comp_apply] at h ⊢
  intro f hf
  obtain ⟨-, hr⟩ := FileStatus.settled_open (h f hf)
  simpa [hr] using h f hf

theorem Held.call (h : Held id s) (hcall : call s o c = (r, s'))
    (hcancel : o ≠ .updateDownload id .cancelQueued)
    (hleft : ∀ d, s.downloads.rows id = some d → (∀ error, o ≠ .updateDownload id (.finish .CANCELLED error)) ∧
      (o.outcome = some id → d.statuses.all (·.settled) = true) ∧
      (o.opens = some id → d.status.active = true)) : Held id s' := by
  refine ⟨Nat.lt_of_lt_of_le h.known (next_le hcall), fun d' hd' => ?_⟩
  cases hd : s.downloads.rows id with
  | none =>
    obtain ⟨-, hid⟩ := call_new_row hcall hd hd'
    have := h.known
    omega
  | some d =>
    obtain ⟨hstatus, hfiles⟩ := h.row d hd
    obtain ⟨hfinish, hout, hopen⟩ := hleft d hd
    rcases call_row hcall hd with hsame | ⟨-, hrow⟩
    · rw [hsame] at hd'
      cases hd'
      exact ⟨hstatus, hfiles⟩
    rw [hd'] at hrow
    cases hrow with
    | update change =>
      cases change with
      | totals => exact ⟨hstatus, hfiles⟩
      | requestCancel => exact ⟨hstatus, hfiles⟩
      | cancelQueued => exact absurd rfl hcancel
      | failed error => exact ⟨by simp [DownloadChange.apply], fun _ => hout rfl⟩
      | finish status error =>
        refine ⟨?_, fun _ => hout rfl⟩
        rintro rfl
        exact hfinish error rfl
    | file index change =>
      refine ⟨hstatus, fun hi => settled_modify ?_ (hfiles hi)⟩
      by_contra hc
      rw [hopen (if_pos (by simpa using hc))] at hi
      cases hi
    | cancelFiles running => exact ⟨hstatus, fun hi => settled_cancelFiles running (hfiles hi)⟩
    | requeue => exact ⟨by simp [Download.requeue], fun hi => by cases hi⟩
    | claim => exact ⟨by simp, fun hi => by cases hi⟩
    | requeueRunning => exact ⟨by simp, fun hi => by cases hi⟩
    | resetFiles => exact ⟨hstatus, fun hi => settled_resetFiles (hfiles hi)⟩

end

/-- No job is left as running. -/
def NoneRunning (s : State) : Prop := ∀ i d, s.downloads.rows i = some d → d.status ≠ .RUNNING

section
variable {env : Env} {p p' : DownloadPool} {l : DownloadLabel} {id : Nat}

theorem Held.step (h : Held id p.state) (hsafe : cleanings.discipline.AllSafe p)
    (hcancel : NotCancelled id p l) (htime : ExitsInTime id p l) (hst : (system env).step p l = some p') :
    Held id p'.state := by
  have same {q : State} (hq : q.downloads = p.state.downloads) : Held id q := ⟨hq ▸ h.known, hq ▸ h.row⟩
  rcases (system env).step_cases hst with
    ⟨t, k, o, rest, c, r, s, ths, rfl, ht, he, rfl⟩ | ⟨t, k, a, -, ht, rfl⟩ |
    ⟨x, s, dies, ths, -, he, rfl⟩
  · obtain ⟨-, hcall, -⟩ := system_exec he
    rw [Pool.didCall_state]
    obtain ⟨hguar, -⟩ := hsafe.call ht (r := r) (w := ⟨s, .did t k o r p.state s :: p.trace⟩) ⟨rfl, trivial⟩
    refine h.call hcall (hcancel k o rest ht).1 fun d hd => ?_
    obtain ⟨hfinish, hleft⟩ := htime k o rest d ht hd
    refine ⟨fun error ho => ?_, hleft⟩
    subst ho
    exact hfinish rfl (hguar id error rfl)
  · rw [Pool.didEnd_state]
    exact same rfl
  · rw [Pool.didOuter_state]
    exact same (arrive_keeps he).1

/-- Before the server is up only the recovery runs. -/
theorem recovering_only (hs : SlotsKept env p) (hp : p.state.memory.phase ≠ .up) {t : Nat} {k : Task}
    (ht : p.kindAt t = some k) : k = .boot ∧ p.state.memory.phase = .booting := by
  have hphase : p.state.memory.phase = .booting := by
    cases h : p.state.memory.phase with
    | down => exact absurd h (hs.slots.down t k ht)
    | booting => rfl
    | up => exact absurd h hp
  exact ⟨(hs.slots.boot t k ht).mpr hphase, hphase⟩

theorem recovering_quiet (hs : SlotsKept env p) (hp : p.state.memory.phase ≠ .up) :
    NotCancelled id p l ∧ ExitsInTime id p l := by
  cases l with
  | exec t c =>
    have made {k : Task} {o : Op} {rest : Reply o → Program Op Reply Result}
        (ht : p.threads t = some ⟨k, .call o rest⟩) : o.MadeBy .boot := by
      have hmade := (hs.uses t _ ht).1
      rwa [(recovering_only hs hp (kindAt_of ht)).1] at hmade
    refine ⟨fun k o rest ht => ⟨?_, ?_⟩, fun k o rest d ht _ => ?_⟩
    · rintro rfl
      cases made ht
    · rintro rfl
      cases made ht
    · have hm := made ht
      cases o with
      | updateDownload i change =>
        cases change with
        | finish => exact absurd hm.2.choose_spec (by simp)
        | failed => exact absurd hm.choose_spec (by simp)
        | _ => exact ⟨by simp [Op.finishes], by simp [Op.outcome, DownloadChange.terminal], by simp [Op.opens]⟩
      | updateFile i index change =>
        refine ⟨by simp [Op.finishes], by simp [Op.outcome], fun ho => ?_⟩
        cases change with
        | size => exact absurd hm.choose_spec (by simp)
        | complete => exact absurd hm.choose_spec (by simp)
        | failed => exact absurd hm.choose_spec (by simp)
        | begin => exact absurd hm.choose_spec (by simp)
        | cancelled => exact absurd hm.choose_spec (by simp)
        | pending => exact absurd hm.choose_spec (by simp)
        | progress => cases ho
      | _ => exact ⟨by simp [Op.finishes], by simp [Op.outcome], by simp [Op.opens]⟩
  | _ => exact ⟨trivial, trivial⟩

/-- What comes of the recovery. -/
def recovered (a : Result) (s : State) : Prop := a = .ended (.ok ()) → NoneRunning s

theorem recover_safe (s : State) :
    recoverFromCrash.program.Safe ((system env).alone .boot) recovered s := by
  have stable (P : State → Prop) := (system env).alone_stable .boot P
  have flow : ((system env).alone .boot).Does (fun _ => True) recoverFromCrash (fun _ => NoneRunning)
      fun _ _ => True := by
    refine .leads (stable _) (fun _ => stable _) (Q := fun _ => NoneRunning)
      ⟨fun _ _ _ _ _ => trivial, fun s a s' _ ha => ?_, fun _ _ _ _ _ => trivial⟩ fun _ => ?_
    · obtain ⟨c, ths, he⟩ := ha
      obtain ⟨-, hcall, -⟩ := system_exec he
      obtain rfl := congrArg Prod.snd (call_ok hcall)
      intro i d hd
      obtain ⟨d₀, -, hd₀⟩ := Table.mapMany_rows.mp hd
      obtain rfl := Option.some.inj hd₀
      simp only
      split
      · simp
      · assumption
    · refine .leads_last (stable _) (fun _ => stable _) (fun _ => stable _)
        ⟨fun _ _ _ _ _ => trivial, fun s a s' h ha => ?_, fun _ _ _ _ _ => trivial⟩
      obtain ⟨c, ths, he⟩ := ha
      obtain ⟨-, hcall, -⟩ := system_exec he
      obtain rfl := congrArg Prod.snd (call_ok hcall)
      intro i d hd
      obtain ⟨d₀, hrow, hd₀⟩ := Table.mapMany_rows.mp hd
      obtain rfl := Option.some.inj hd₀
      exact h i d₀ hrow
  refine .bind ((flow s trivial).mono ?_)
  rintro (e | a) v hv v' rfl ha
  · cases ha
  · exact hv

/-- From the exit of the process to the end of a recovery. -/
structure Recovering (env : Env) (p : DownloadPool) : Prop where
  slots : SlotsKept env p
  booting : p.state.memory.phase = .booting → ∀ t th, p.threads t = some th →
    th.prog.Safe ((system env).alone .boot) recovered p.state
  up : p.state.memory.phase = .up → NoneRunning p.state

theorem Recovering.step (h : Recovering env p) (hp : p.state.memory.phase ≠ .up)
    (hst : (system env).step p l = some p') : Recovering env p' := by
  have hs := h.slots
  suffices hp' : (p'.state.memory.phase = .booting → ∀ t th, p'.threads t = some th →
      th.prog.Safe ((system env).alone .boot) recovered p'.state) ∧
      (p'.state.memory.phase = .up → NoneRunning p'.state) from ⟨hs.step hst, hp'.1, hp'.2⟩
  rcases (system env).step_cases hst with
    ⟨t, k, o, rest, c, r, s, ths, rfl, ht, he, rfl⟩ | ⟨t, k, a, -, ht, rfl⟩ |
    ⟨x, s, dies, ths, -, he, rfl⟩
  · obtain ⟨rfl, hboot⟩ := recovering_only hs hp (kindAt_of ht)
    obtain ⟨-, hcall, rfl⟩ := system_exec he
    have hphase : s.memory.phase = .booting := by
      have same := (call_same p.state o c).phase
      rw [hcall] at same
      exact same.trans hboot
    rw [Pool.didCall_state]
    refine ⟨fun _ u th hu => ?_, fun hup => Phase.noConfusion (hphase.symm.trans hup)⟩
    rcases Pool.spawn_threads hu with hu | ⟨-, hm⟩
    · by_cases e : u = t
      · subst e
        obtain rfl : (⟨.boot, rest r⟩ : DownloadThread) = th := by simpa [Pool.set] using hu
        exact (h.booting hboot u _ ht p.state rfl r s ⟨c, _, he⟩).2
      · have hu' : p.threads u = some th := by simpa [Pool.set, Pool.log, Function.update_of_ne e] using hu
        have hk := (recovering_only hs hp (kindAt_of hu')).1
        exact absurd (hs.slots.bootOnce u t (hk ▸ kindAt_of hu') (kindAt_of ht)) e
    · have hmade := (hs.uses t _ ht).1
      cases o <;> try exact absurd hm List.not_mem_nil
      exact absurd hmade.choose_spec (by simp)
  · obtain ⟨rfl, hboot⟩ := recovering_only hs hp (kindAt_of ht)
    have hdone := h.booting hboot t _ ht p.state rfl
    have failed (hm : p.state.memory.after env .boot a = ({}, [])) :
        ((p.didEnd t .boot a ((system env).finish p.state .boot a).1
          ((system env).finish p.state .boot a).2).state.memory.phase = .down) := by
      rw [Pool.didEnd_state]
      exact congrArg (·.1.phase) hm
    rcases a with (e | _) | _ | _ | _
    case ended.ok =>
      have hup : (p.didEnd t .boot (.ended (.ok ())) ((system env).finish p.state .boot (.ended (.ok ()))).1
          ((system env).finish p.state .boot (.ended (.ok ()))).2).state.memory.phase = .up := by
        rw [Pool.didEnd_state]
        exact (wake_memory env _).1
      refine ⟨fun hb => Phase.noConfusion (hup.symm.trans hb), fun _ => ?_⟩
      rw [Pool.didEnd_state]
      exact hdone rfl
    all_goals
      have hdown := failed rfl
      exact ⟨fun hb => Phase.noConfusion (hdown.symm.trans hb), fun hu => Phase.noConfusion (hdown.symm.trans hu)⟩
  · rw [Pool.didOuter_state]
    cases arrives he
    · exact absurd ‹p.state.memory.phase = .up› hp
    · exact absurd ‹p.state.memory.phase = .up› hp
    · exact ⟨fun hb => Phase.noConfusion hb, fun hu => Phase.noConfusion hu⟩
    · rename_i hdown
      refine ⟨fun _ u th hu => ?_, fun hu => Phase.noConfusion hu⟩
      rcases Pool.spawn_threads hu with hu | ⟨-, hm⟩
      · exact absurd hdown (hs.slots.down u _ (kindAt_of hu))
      · rw [List.mem_singleton.mp hm]
        exact recover_safe _

end

/-- When no aborted worker writes the outcome of a job before the process exits, the job survives the
shutdown. -/
theorem shutdown_survived (env : Env) {s : State} (hs : s.Down) {p q : DownloadPool}
    (hr : (system env).Runs (fun _ _ => True) (.initial s) p) {id : Nat} {d : Download}
    (hd : p.state.downloads.rows id = some d) (hactive : d.status.active = true)
    (hq : Restarts env (fun p l => NotCancelled id p l ∧ ExitsInTime id p l) p q) : Survives id q.state := by
  have hk := (cleanings_keeps env).keeps
  have hsafe := hk.safe trivial (Discipline.allSafe_initial _ s) hr
  have hslots := (system env).invariant (fun _ _ _ h _ hst => SlotsKept.step h hst) (SlotsKept.initial env hs) hr
  obtain ⟨p₁, p₂, hshut, hrun, hdown, hboot, hup⟩ := hq
  have held : Held id p.state := by
    refine ⟨Table.lt_next hd, fun d' hd' => ?_⟩
    obtain rfl := Option.some.inj (hd.symm.trans hd')
    refine ⟨?_, fun hi => by cases hactive.symm.trans hi⟩
    rintro hc
    rw [hc] at hactive
    cases hactive
  have first := held.step hsafe.2 (l := .external .shutdown) trivial trivial hshut
  have exited := (system env).invariant
    (I := fun p => (Held id p.state ∧ SlotsKept env p) ∧ True ∧ cleanings.discipline.AllSafe p)
    (fun p l p' h hl hst => ⟨⟨h.1.1.step h.2.2 hl.2.1 hl.2.2 hst, h.1.2.step hst⟩, hk.step h.2 trivial hst⟩)
    ⟨⟨first, hslots.step hshut⟩, hk.step hsafe trivial hshut⟩ hrun
  have start : Recovering env p₂ :=
    ⟨exited.1.2, fun hb => Phase.noConfusion (hdown.symm.trans hb),
      fun hu => Phase.noConfusion (hdown.symm.trans hu)⟩
  have done := (system env).invariant
    (I := fun p => (Held id p.state ∧ Recovering env p) ∧ True ∧ cleanings.discipline.AllSafe p)
    (fun p l p' h hl hst => by
      obtain ⟨hcancel, htime⟩ : NotCancelled id p l ∧ ExitsInTime id p l := recovering_quiet h.1.2.slots hl
      exact ⟨⟨h.1.1.step h.2.2 hcancel htime hst, h.1.2.step hl hst⟩, hk.step h.2 trivial hst⟩)
    ⟨⟨exited.1.1, start⟩, exited.2⟩ hboot
  intro d' hd'
  obtain ⟨hstatus, hfiles⟩ := done.1.1.row d' hd'
  refine ⟨hstatus, fun hleft => ?_⟩
  have hrunning := done.1.2.up hup id d' hd'
  cases hstat : d'.status with
  | QUEUED => rfl
  | RUNNING => exact absurd hstat hrunning
  | _ =>
    rw [hfiles (by rw [hstat]; rfl)] at hleft
    cases hleft

/-- A shutdown, what still happens before the process is gone, and what happens from then on. -/
def restart (env : Env) (check : DownloadPool → DownloadLabel → Bool) (p : DownloadPool)
    (before after : List DownloadLabel) : Option DownloadPool :=
  ((system env).step p (.external .shutdown)).bind fun p₁ =>
    ((system env).replay (fun p l => p.state.memory.phase ≠ .down && check p l) p₁ before).bind fun p₂ =>
      if p₂.state.memory.phase = .down then
        ((system env).replay (fun p _ => p.state.memory.phase ≠ .up) p₂ after).filter
          fun q => q.state.memory.phase = .up
      else none

theorem restart_restarts {env : Env} {check : DownloadPool → DownloadLabel → Bool}
    {C : DownloadPool → DownloadLabel → Prop} (hc : ∀ p l, check p l = true → C p l) {p q : DownloadPool}
    {before after : List DownloadLabel} (h : restart env check p before after = some q) :
    Restarts env C p q := by
  obtain ⟨p₁, h₁, h⟩ := Option.bind_eq_some_iff.mp h
  obtain ⟨p₂, h₂, h⟩ := Option.bind_eq_some_iff.mp h
  split at h
  · rename_i hdown
    obtain ⟨hq, hup⟩ := Option.filter_eq_some_iff.mp h
    refine ⟨p₁, p₂, h₁, (system env).replay_runs (fun p l hl => ?_) h₂, hdown,
      (system env).replay_runs (fun p l hl => of_decide_eq_true hl) hq, of_decide_eq_true hup⟩
    simp only [Bool.and_eq_true, decide_eq_true_eq] at hl
    exact ⟨hl.1, hc p l hl.2⟩
  · cases h

/-- No call of the thread that moves is a request's write to the job. -/
def uncancelled (id : Nat) (p : DownloadPool) : DownloadLabel → Bool
  | .exec t _ =>
    match p.threads t with
    | some ⟨_, .call o _⟩ => o ≠ .updateDownload id .cancelQueued && o ≠ .updateDownload id .requestCancel
    | _ => true
  | _ => true

theorem uncancelled_notCancelled {id : Nat} {p : DownloadPool} {l : DownloadLabel}
    (h : uncancelled id p l = true) : NotCancelled id p l := by
  cases l with
  | exec t c =>
    intro k o rest ht
    simpa [uncancelled, ht] using h
  | _ => trivial

/-- The only write to the job is that it gives up its file while it is running. -/
def early (id : Nat) (p : DownloadPool) : DownloadLabel → Bool
  | .exec t _ =>
    match p.threads t with
    | some ⟨_, .call o _⟩ => o.finishes ≠ some id && o.outcome ≠ some id &&
        (p.state.downloads.rows id).all fun d => o.opens ≠ some id || d.status.active
    | _ => true
  | _ => true

theorem early_exitsInTime {id : Nat} {p : DownloadPool} {l : DownloadLabel} (h : early id p l = true) :
    ExitsInTime id p l := by
  cases l with
  | exec t c =>
    intro k o rest d ht hd
    simp only [early, ht, Bool.and_eq_true, decide_eq_true_eq, hd, Option.all_some, Bool.or_eq_true] at h
    obtain ⟨⟨hfinish, hout⟩, hopen⟩ := h
    exact ⟨fun ho => absurd ho hfinish, fun ho => absurd ho hout, fun ho => hopen.resolve_left fun hn => hn ho⟩
  | _ => trivial

/-- The aborted worker has given up its file and is about to write the outcome when the process is
gone: the next boot queues the job again. -/
theorem shutdown_survived_midway : ∃ p q, Restarts (.small 2)
    (fun p l => NotCancelled 0 p l ∧ ExitsInTime 0 p l) p q ∧
    (q.state.downloads.rows 0).map (·.status) = some .QUEUED ∧ Survives 0 q.state := by
  have hrun : ((system (.small 2)).replay (fun _ _ => true) (.initial oneJob) (bootUp ++ calls 2 10)).any
      (fun p => (p.state.downloads.rows 0).any (·.status.active) &&
        (restart (.small 2) (fun p l => uncancelled 0 p l && early 0 p l) p
          (calls 2 8 ++ [.external .crash]) (.external .boot :: calls 4 2 ++ [.finish 4])).any
          fun q => (q.state.downloads.rows 0).map (·.status) = some .QUEUED) = true := by
    decide +kernel
  obtain ⟨p, hp, hn⟩ := Option.any_eq_true _ _ |>.mp hrun
  obtain ⟨hactive, hq⟩ := Bool.and_eq_true_iff.mp hn
  obtain ⟨d, hd, ha⟩ := Option.any_eq_true _ _ |>.mp hactive
  obtain ⟨q, hq, hqueued⟩ := Option.any_eq_true _ _ |>.mp hq
  have hr := (system (.small 2)).replay_runs (C := fun _ _ => True) (fun _ _ _ => trivial) hp
  have hre := restart_restarts (C := fun p l => NotCancelled 0 p l ∧ ExitsInTime 0 p l) (fun p l h => by
    obtain ⟨h₁, h₂⟩ := Bool.and_eq_true_iff.mp h
    exact ⟨uncancelled_notCancelled h₁, early_exitsInTime h₂⟩) hq
  exact ⟨p, q, hre, of_decide_eq_true hqueued, shutdown_survived (.small 2) oneJob_down hr hd ha hre⟩

/-- The aborted worker has enough time to write the outcome: the job is cancelled. -/
theorem shutdown_cancels : ¬ ∀ (env : Env) (s : State) (p q : DownloadPool) (id : Nat) (d : Download),
    s.Down → (system env).Runs (fun _ _ => True) (.initial s) p → p.state.downloads.rows id = some d →
    d.status.active = true → d.cancelRequested = false → Restarts env (NotCancelled id) p q →
    Survives id q.state := by
  intro h
  have hrun : ((system (.small 2)).replay (fun _ _ => true) (.initial oneJob) (bootUp ++ calls 2 10)).any
      (fun p => (p.state.downloads.rows 0).any (fun d => d.status.active && !d.cancelRequested) &&
        (restart (.small 2) (uncancelled 0) p (calls 2 9 ++ [.external .crash])
          (.external .boot :: calls 4 2 ++ [.finish 4])).any
          fun q => (q.state.downloads.rows 0).any fun d => d.status = .CANCELLED) = true := by
    decide +kernel
  obtain ⟨p, hp, hn⟩ := Option.any_eq_true _ _ |>.mp hrun
  obtain ⟨hactive, hq⟩ := Bool.and_eq_true_iff.mp hn
  obtain ⟨d, hd, ha⟩ := Option.any_eq_true _ _ |>.mp hactive
  obtain ⟨q, hq, hcancelled⟩ := Option.any_eq_true _ _ |>.mp hq
  obtain ⟨d', hd', hc⟩ := Option.any_eq_true _ _ |>.mp hcancelled
  simp only [Bool.and_eq_true, Bool.not_eq_true'] at ha
  exact (h (.small 2) oneJob p q 0 d oneJob_down
    ((system (.small 2)).replay_runs (fun _ _ _ => trivial) hp) hd ha.1 ha.2
    (restart_restarts (fun _ _ => uncancelled_notCancelled) hq) d' hd').1 (of_decide_eq_true hc)

end CircleFtp.Downloads
