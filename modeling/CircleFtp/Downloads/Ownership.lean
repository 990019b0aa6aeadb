import CircleFtp.Concurrent.History
import CircleFtp.Downloads.Activation
import CircleFtp.Downloads.Rows

/-! The worker and its row: three request handlers read a status and write later without looking
again. -/
namespace CircleFtp.Downloads
open Concurrent Strings

def Running (s : State) (id : Nat) : Prop :=
  ∃ d, s.downloads.rows id = some d ∧ d.status = .RUNNING

instance (s : State) (id : Nat) : Decidable (Running s id) :=
  match h : s.downloads.rows id with
  | none => isFalse fun ⟨d, hd, _⟩ => by rw [h] at hd; cases hd
  | some d => decidable_of_iff (d.status = .RUNNING)
      ⟨fun hs => ⟨d, h, hs⟩, fun ⟨d', hd, hs⟩ => by rw [h] at hd; cases hd; exact hs⟩

/-- An event in which a claim of the download takes effect. -/
def Claims (id : Nat) (e : DownloadEvent) : Prop := ¬ Running e.before id ∧ Running e.after id

/-- The writes that a request bases on the status it has read. -/
def Op.byHandler : Op → Option Nat
  | .updateDownload id .cancelQueued | .cancelFiles id false | .requeue id | .deleteDownload id =>
    some id
  | _ => none

/-- The writes among them that give the row another status, or take it away. -/
def Op.overrides : Op → Option Nat
  | .cancelFiles _ _ => none
  | o => o.byHandler

theorem Op.overrides_byHandler {o : Op} {id : Nat} (h : o.overrides = some id) :
    o.byHandler = some id := by
  cases o <;> first | exact h | cases h

/-- No claim has taken effect on the download between the first read of a request and such a
write to it. -/
def NotClaimed (writes : Op → Option Nat) (p : DownloadPool) : DownloadLabel → Prop
  | .exec t _ => ∀ k o rest id, p.threads t = some ⟨k, .call o rest⟩ → writes o = some id →
      History.Since (¬ Claims id ·) p.trace t
  | _ => True

def Respects (writes : Op → Option Nat) : DownloadEvent → Prop
  | .did _ _ o _ s _ => ∀ id, writes o = some id → ¬ Running s id
  | _ => True

/-- No such write of the run has hit a running download. -/
def Respected (writes : Op → Option Nat) (trace : List DownloadEvent) : Prop :=
  ∀ e ∈ trace, Respects writes e

/-- The step is not such a write to a running download. -/
def Respecting (writes : Op → Option Nat) (p : DownloadPool) : DownloadLabel → Prop
  | .exec t _ => ∀ k o rest id, p.threads t = some ⟨k, .call o rest⟩ → writes o = some id →
      ¬ Running p.state id
  | _ => True

theorem Respecting.overrides {p : DownloadPool} {l : DownloadLabel} (h : Respecting Op.byHandler p l) :
    Respecting Op.overrides p l := by
  cases l with
  | exec t c => exact fun k o rest id ht ho => h k o rest id ht (Op.overrides_byHandler ho)
  | _ => trivial

theorem Respected.respecting {writes : Op → Option Nat} {env : Env} {p p' : DownloadPool}
    {l : DownloadLabel} (h : Respected writes p'.trace) (hst : (system env).step p l = some p') :
    Respecting writes p l := by
  rcases (system env).step_cases hst with
    ⟨t, k, o, rest, c, r, s, ths, rfl, ht, -, rfl⟩ | ⟨t, k, a, rfl, -, -⟩ |
    ⟨x, s, dies, ths, rfl, -, -⟩
  · intro k' o' rest' id ht' ho
    rw [ht] at ht'
    cases ht'
    rw [Pool.didCall_trace] at h
    exact h _ List.mem_cons_self id ho
  · trivial
  · trivial

/-- As long as nobody claims the download, it is not running. -/
def Guarded (t id : Nat) (w : DownloadWorld) : Prop :=
  History.Guarded (¬ Claims id ·) (fun v => ¬ Running v.state id) t w

theorem Guarded.stable {P : DownloadWorld → DownloadEvent → Prop} {t id : Nat}
    {w w' : DownloadWorld} (h : Guarded t id w) (hr : History.rely P t w w') : Guarded t id w' :=
  History.Guarded.stable (fun _ _ hn hb hc ha => hc ⟨by rwa [hb], ha⟩) h hr

def handlers (writes : Op → Option Nat) : Ledger State Task Op Reply Arrival Result where
  admits _ _ _ _ := True
  may t _ w o r s := (∃ c, call w.state o c = (r, s)) ∧
    ∀ id, writes o = some id → History.Since (¬ Claims id ·) w.trace t
  guar _ _ w o _ _ := ∀ id, writes o = some id → ¬ Running w.state id
  post _ _ _ _ := True

section
variable {writes : Op → Option Nat} (hw : ∀ o id, writes o = some id → o.byHandler = some id)
  {t id : Nat} {k : Task} {w w' w'' : DownloadWorld} {env : Env}

abbrev handlerContract (writes : Op → Option Nat) (t : Nat) (k : Task) :
    Contract DownloadWorld Op Reply := (handlers writes).discipline.contract t k

abbrev anyError : Err → DownloadWorld → Prop := fun _ _ => True

include hw in
theorem handler_quiet {o : Op} {r : Reply o} (ho : o.byHandler = none) :
    (handlerContract writes t k).guar w o r w' := fun id h => by
  have := hw o id h
  simp [ho] at this

include hw in
theorem handler_guarded {o : Op} {r : Reply o} (ho : o.byHandler = some id) (hg : Guarded t id w)
    (ha : (handlerContract writes t k).act w o r w') : (handlerContract writes t k).guar w o r w' := by
  intro id' h
  have := hw o id' h
  rw [ho] at this
  cases this
  exact hg.2 (ha.2.2 id h)

include hw in
theorem quiet_safe {α : Type} {p : Program Op Reply α} {allowed : Op → Prop}
    (hp : p.Uses allowed) (h : ∀ o, allowed o → o.byHandler = none) :
    p.Safe (handlerContract writes t k) (fun _ _ => True) w :=
  .of_uses (fun _ o _ _ ho _ => handler_quiet hw (h o ho)) hp

theorem status_read {o : Op} {r : Reply o} (ha : (handlerContract writes t k).act w o r w')
    (hs : w'.state = w.state) (hn : ¬ Running w.state id) : Guarded t id w' :=
  History.Guarded.read ha.1 (by simpa only [hs] using hn)

include hw in
/-- The row as it was read. -/
theorem getDownload_safe : (getDownload id).run.Safe (handlerContract writes t k)
    (Program.split (fun d v => d.status ≠ .RUNNING → Guarded t id v) anyError) w := by
  refine Program.Safe.invoke_bind fun w₁ _ r w₂ ha => ⟨handler_quiet hw rfl, ?_⟩
  rcases r with e | _ | d
  · exact fun _ _ => trivial
  · exact fun _ _ => trivial
  intro v hv hs
  obtain ⟨c, hc⟩ := ha.2.1
  have hp := call_ok hc
  simp only [perform, Prod.mk.injEq, Except.ok.injEq] at hp
  refine Guarded.stable (status_read ha hp.2.symm ?_) hv
  rintro ⟨d', hd, hr⟩
  rw [hp.1] at hd
  cases hd
  exact hs hr

theorem getDownload_reads : (getDownload id).run.Uses Op.reads := by
  refine .except_bind (.invoke trivial) ?_
  rintro (_ | row) <;> trivial

theorem Op.reads.quiet {o : Op} (h : o.reads) : o.byHandler = none := by
  cases o <;> first | rfl | exact h.elim

/-- An own call that does not claim the download. -/
theorem guarded_act {o : Op} {r : Reply o} (hg : Guarded t id w)
    (ha : (handlerContract writes t k).act w o r w')
    (hk : ∀ c, call w.state o c = (r, w'.state) → Running w'.state id → Running w.state id) :
    Guarded t id w' := by
  obtain ⟨c, hc⟩ := ha.2.1
  exact History.Guarded.act hg ha.1 fun hn h => hn (hk c hc h)

/-- A row that a call leaves running was running, unless the call names it. -/
theorem running_before {s s' : State} {o : Op} {c : Choice} {r : Reply o}
    (h : call s o c = (r, s')) (hn : ∀ d, o ≠ .createDownload d)
    (hs : ∀ d d', RowStep id d o (some d') → d'.status = .RUNNING → d.status = .RUNNING)
    (hr : Running s' id) : Running s id := by
  obtain ⟨d', hd', hst⟩ := hr
  cases hd : s.downloads.rows id with
  | none => exact absurd (call_new_row h hd hd').1 (hn d')
  | some d =>
    rcases call_row h hd with hsame | ⟨-, hrow⟩
    · exact ⟨d, hd, by rw [hsame] at hd'; cases hd'; exact hst⟩
    · rw [hd'] at hrow
      exact ⟨d, hd, hs d d' hrow hst⟩

include hw in
theorem requestCancel_safe : (requestCancel id).run.Safe (handlerContract writes t k)
    (fun _ _ => True) w := by
  have rest {v : DownloadWorld} : (do
      publishDownload id .progress
      let _ ← getDownload id : Flow Unit).run.Safe (handlerContract writes t k) (fun _ _ => True) v :=
    quiet_safe hw (.except_bind (publishDownload_reads _) fun _ =>
      .except_bind getDownload_reads fun _ => trivial) fun o ho => ho.quiet
  refine Program.Safe.except_bind_any (getDownload_safe hw) fun d v hv => ?_
  split
  · exact fun _ _ => trivial
  split
  · rename_i hq
    have hg : Guarded t id v := hv (by simp [hq])
    refine Program.Safe.invoke_bind fun w₁ h₁ r w₂ ha => ⟨handler_guarded hw rfl (hg.stable h₁) ha, ?_⟩
    have hg₂ : Guarded t id w₂ := by
      refine guarded_act (hg.stable h₁) ha fun c hc => running_before hc (by simp) ?_
      rintro d d' ⟨⟩ hs
      cases hs
    rcases r with e | _
    · exact fun _ _ => trivial
    refine Program.Safe.invoke_bind fun w₃ h₃ r w₄ ha => ⟨handler_guarded hw rfl (hg₂.stable h₃) ha, ?_⟩
    cases r with
    | error e => exact fun _ _ => trivial
    | ok _ => exact rest
  · refine Program.Safe.invoke_bind fun _ _ r _ _ => ⟨handler_quiet hw rfl, ?_⟩
    cases r with
    | error e => exact fun _ _ => trivial
    | ok _ => exact rest

include hw in
theorem retryDownload_safe : (retryDownload id).run.Safe (handlerContract writes t k)
    (fun _ _ => True) w := by
  refine Program.Safe.except_bind_any (getDownload_safe hw) fun d v hv => ?_
  split
  · exact fun _ _ => trivial
  rename_i hq
  split
  · exact fun _ _ => trivial
  have hg : Guarded t id v := hv fun e => hq (by simp [e, Status.active])
  refine Program.Safe.invoke_bind fun w₁ h₁ r w₂ ha => ⟨handler_guarded hw rfl (hg.stable h₁) ha, ?_⟩
  rcases r with e | _
  · exact fun _ _ => trivial
  · exact quiet_safe hw (.except_bind (publishDownload_reads _) fun _ =>
      .except_bind getDownload_reads fun _ => trivial) fun o ho => ho.quiet

include hw in
theorem deleteDownload_safe (deleteFiles : Bool) :
    (deleteDownload env id deleteFiles).run.Safe (handlerContract writes t k) (fun _ _ => True) w := by
  have rest {v : DownloadWorld} (hg : Guarded t id v) : (do
      op (.deleteDownload id)
      op (.publish (.deleted id)) : Flow Unit).run.Safe (handlerContract writes t k)
        (fun _ _ => True) v := by
    refine Program.Safe.invoke_bind fun w₁ h₁ r w₂ ha =>
      ⟨handler_guarded hw rfl (hg.stable h₁) ha, ?_⟩
    rcases r with e | _
    · exact fun _ _ => trivial
    · exact Program.Safe.invoke fun _ _ _ _ _ => ⟨handler_quiet hw rfl, fun _ _ => trivial⟩
  refine Program.Safe.except_bind_any (getDownload_safe hw) fun d v hv => ?_
  split
  · exact fun _ _ => trivial
  rename_i hq
  have hg : Guarded t id v := hv fun e => hq (by simp [e, Status.active])
  split
  · have removed : (removeDownloadFiles env d.folderName (d.files.map (·.relPath))).run.Safe
        (handlerContract writes t k) (fun _ v => Guarded t id v) v := by
      refine .of_uses_keeping (fun _ _ hr h => h.stable hr) ?_ (removeDownloadFiles_uses _ _) hg
      rintro w₁ _ r w₂ ⟨path, rfl⟩ h₁ ha
      refine ⟨handler_quiet hw rfl, guarded_act h₁ ha fun c hc => running_before hc (by simp) ?_⟩
      intro d d' hrow
      cases hrow
    have either : (removeDownloadFiles env d.folderName (d.files.map (·.relPath))).run.Safe
        (handlerContract writes t k) (Program.split (fun _ => Guarded t id) anyError) v := by
      refine removed.mono ?_
      rintro (e | _) v hv
      · trivial
      · exact hv
    exact Program.Safe.except_bind_any either fun _ _ => rest
  · exact rest hg

end

/-- A handler write is made by the request that is about the download. -/
theorem Op.MadeBy.handler {o : Op} {k : Task} {id : Nat} (h : o.MadeBy k)
    (ho : o.byHandler = some id) :
    k = .request (.cancel id) ∨ k = .request (.retry id) ∨ ∃ b, k = .request (.delete id b) := by
  cases o <;> try cases ho
  case updateDownload _ change =>
    cases change <;> cases ho
    exact .inl h
  case cancelFiles _ running =>
    cases running <;> cases ho
    exact .inl h
  case requeue => exact .inr (.inl h)
  case deleteDownload => exact .inr (.inr h)

section
variable {writes : Op → Option Nat} (hw : ∀ o id, writes o = some id → o.byHandler = some id)
  (env : Env)
include hw

theorem handler_safe {t : Nat} {th : DownloadThread} {w : DownloadWorld} (h : Begins env th) :
    (handlers writes).discipline.SafeThread t th w := by
  have other (hk : ∀ id, th.kind ≠ .request (.cancel id) ∧ th.kind ≠ .request (.retry id) ∧
      ∀ b, th.kind ≠ .request (.delete id b)) : (handlers writes).discipline.SafeThread t th w := by
    refine quiet_safe hw h.uses fun o ho => ?_
    cases hb : o.byHandler with
    | none => rfl
    | some id =>
      rcases ho.handler hb with e | e | ⟨b, e⟩
      · exact absurd e (hk id).1
      · exact absurd e (hk id).2.1
      · exact absurd e ((hk id).2.2 b)
  have flow {f : Flow Unit} {k : Task} (hf : f.run.Safe (handlerContract writes t k) (fun _ _ => True) w) :
      f.program.Safe (handlerContract writes t k) (fun _ _ => True) w :=
    .bind (hf.mono fun _ _ _ _ _ => trivial)
  cases h with
  | request r =>
    cases r with
    | create postId seasons => exact other fun id => ⟨by simp, by simp, by simp⟩
    | cancel id => exact flow (requestCancel_safe hw)
    | retry id => exact flow (retryDownload_safe hw)
    | delete id b => exact flow (deleteDownload_safe hw b)
  | _ => exact other fun id => ⟨by simp, by simp, by simp⟩

theorem handlers_keeps : (handlers writes).Keeps (system env) (NotClaimed writes)
    fun p => Respected writes p.trace where
  may _ hok ht he := by
    obtain ⟨-, hc, rfl⟩ := system_exec he
    exact ⟨⟨_, hc⟩, fun id ho => hok _ _ _ id ht ho⟩
  exec hI _ ht he hg := by
    refine ⟨?_, fun _ _ _ _ => trivial, fun th hth _ _ => handler_safe hw env
      ((system_begins env).exec he th hth)⟩
    rw [Pool.didCall_trace]
    exact List.forall_mem_cons.mpr ⟨hg, hI⟩
  finish hI _ ht _ := by
    refine ⟨?_, fun _ _ _ _ => trivial, fun th hth _ _ => handler_safe hw env
      ((system_begins env).finish _ _ _ th hth)⟩
    rw [Pool.didEnd_trace]
    exact List.forall_mem_cons.mpr ⟨trivial, hI⟩
  external hI _ he := by
    refine ⟨?_, fun _ _ _ _ => trivial, fun th hth _ _ => handler_safe hw env
      ((system_begins env).external he th hth)⟩
    rw [Pool.didOuter_trace]
    exact List.forall_mem_cons.mpr ⟨trivial, hI⟩

/-- The rules of the ledger and a further invariant of the same runs. -/
theorem respected_run {s : State} {ok : DownloadPool → DownloadLabel → Prop}
    (hok : ∀ p l, ok p l → NotClaimed writes p l) {J : DownloadPool → Prop} (h0 : J (.initial s))
    (keep : ∀ p l p', Respected writes p.trace → Respected writes p'.trace → J p → ok p l →
      (system env).step p l = some p' → J p')
    {p : DownloadPool} (hr : (system env).Runs ok (.initial s) p) : Respected writes p.trace ∧ J p := by
  have hk := (handlers_keeps hw env).keeps
  have := (system env).invariant
    (I := fun q => (Respected writes q.trace ∧ (handlers writes).discipline.AllSafe q) ∧ J q)
    (fun q l q' h hl hst => ?_) ⟨⟨fun _ h => absurd h List.not_mem_nil, Discipline.allSafe_initial _ s⟩, h0⟩ hr
  · exact ⟨this.1.1, this.2⟩
  · have hq := hk.step h.1 (hok q l hl) hst
    exact ⟨hq, keep q l q' h.1.1 hq.1 h.2 hl hst⟩

end

/-- The writes that end a job. -/
def DownloadChange.terminal : DownloadChange → Bool
  | .finish _ _ | .failed _ => true
  | _ => false

/-- Activation `t` has written the outcome of the download. -/
def ends (t id : Nat) : DownloadEvent → Bool
  | .did t' _ (.updateDownload id' change) (.ok _) _ _ => t' = t && id' = id && change.terminal
  | _ => false

/-- The download is claimed, and the activation for it has not written its outcome yet. -/
def Owned (p : DownloadPool) (id : Nat) : Prop :=
  (∃ t, p.threads t = some ⟨.drain, .ret (.start id)⟩) ∨
  ∃ t c, p.kindAt t = some (.worker id c) ∧ ∀ e ∈ p.trace, ends t id e = false

/-- Claimed rows exist and are running, and no request has given a running row another status or
taken it away. -/
structure WorkerOwns (p : DownloadPool) : Prop where
  running : ∀ id, Owned p id → Running p.state id
  respected : Respected Op.overrides p.trace

theorem claim_running {s s' : State} {id n : Nat} {c : Choice}
    (h : call s (.claim id) c = (.ok n, s')) (hn : n ≠ 0) : Running s' id := by
  obtain ⟨d, hd, hq⟩ := claim_queued h hn
  have hp := congrArg Prod.snd (call_ok h)
  simp only [perform] at hp
  refine ⟨{ d with status := .RUNNING }, ?_, rfl⟩
  rw [← hp, updateMany_row hd]
  simp [hq]

section
variable {env : Env} {p : DownloadPool} {t : Nat} {k : Task}

/-- A running row stays as it is, unless its own worker ends, a request overrides it or the process
boots. -/
theorem Running.call {s s' : State} {id : Nat} {o : Op} {c : Choice} {r : Reply o}
    (h : Running s id) (hc : call s o c = (r, s')) : Running s' id ∨ o.overrides = some id ∨
      o = .requeueRunning ∨ ∃ change, change.terminal = true ∧
        o = .updateDownload id change ∧ ∃ a, r = .ok a := by
  obtain ⟨d, hd, hst⟩ := h
  rcases call_row hc hd with hsame | ⟨hok, hrow⟩
  · exact .inl ⟨d, hsame, hst⟩
  · generalize hd' : s'.downloads.rows id = row at hrow
    cases hrow with
    | update change =>
      cases change with
      | totals => exact .inl ⟨_, hd', hst⟩
      | requestCancel => exact .inl ⟨_, hd', hst⟩
      | cancelQueued => exact .inr (.inl rfl)
      | finish status error => exact .inr (.inr (.inr ⟨.finish status error, rfl, rfl, hok⟩))
      | failed error => exact .inr (.inr (.inr ⟨.failed error, rfl, rfl, hok⟩))
    | file => exact .inl ⟨_, hd', hst⟩
    | cancelFiles => exact .inl ⟨_, hd', hst⟩
    | requeue => exact .inr (.inl rfl)
    | delete => exact .inr (.inl rfl)
    | claim hq => exact absurd (hst.symm.trans hq) (by simp)
    | requeueRunning => exact .inr (.inr (.inl rfl))
    | resetFiles => exact .inl ⟨_, hd', hst⟩

theorem Owned.phase {id : Nat} (h : Owned p id) :
    ∃ u k, p.kindAt u = some k ∧ k ≠ .boot := by
  rcases h with ⟨u, hu⟩ | ⟨u, c, hu, -⟩
  · exact ⟨u, _, kindAt_of hu, by simp⟩
  · exact ⟨u, _, hu, by simp⟩

/-- Nothing but the worker itself takes its row away. -/
theorem owned_exec (hs : SlotsKept env p) (ha : Activations p) {o : Op}
    {rest : Reply o → Program Op Reply Result} (ht : p.threads t = some ⟨k, .call o rest⟩)
    {c : Choice} {r : Reply o} {s : State} {ths : List DownloadThread}
    (he : (system env).exec p.state k o c = some (r, s, ths))
    (hr : ∀ id, o.overrides = some id → ¬ Running p.state id)
    (h : ∀ id, Owned p id → Running p.state id) :
    ∀ id, Owned (p.didCall t k o rest r s ths) id → Running s id := by
  obtain ⟨-, hc, rfl⟩ := system_exec he
  have made : o.MadeBy k := (hs.uses t _ ht).1
  intro id ho
  -- an owner from before keeps the row, unless it is the worker that writes the outcome
  have kept (hown : Owned p id) (hlive : ∀ change, change.terminal = true →
      o = .updateDownload id change → (∃ a, r = .ok a) → False) : Running s id := by
    rcases (h id hown).call hc with hrun | hov | rfl | ⟨change, hterm, hupd, hok⟩
    · exact hrun
    · exact absurd (h id hown) (hr id hov)
    · obtain rfl : k = .boot := made
      obtain ⟨u, k', hu, hk⟩ := hown.phase
      exact absurd ((hs.slots.boot u k' hu).mpr ((hs.slots.boot t _ (kindAt_of ht)).mp rfl)) hk
    · exact (hlive change hterm hupd hok).elim
  have new {u : Nat} {th : DownloadThread} (hu : (reported p.state c o)[u]? = some th) :
      ∃ ticket, th.kind = .progress ticket := by
    obtain ⟨ticket, hk, -⟩ := reported_begins env (List.mem_of_getElem? hu)
    exact ⟨ticket, hk⟩
  have byWorker {change : DownloadChange} (hterm : change.terminal = true)
      (hupd : o = .updateDownload id change) : ∃ c, k = .worker id c := by
    subst hupd
    cases change <;> first | exact made | exact made.2 | cases hterm
  rcases ho with ⟨u, hu⟩ | ⟨u, c', hu, hlive⟩
  · rw [Pool.didCall_threads hs.fresh ht] at hu
    split at hu
    · split at hu
      · obtain ⟨rfl, hrest⟩ : k = .drain ∧ rest r = .ret (.start id) := by simpa using hu
        obtain ⟨n, hn, rfl, hrn⟩ := ((ha.shape t _ ht rfl).call r).2 id hrest
        cases hrn
        exact claim_running hc hn
      · refine kept (.inl ⟨u, hu⟩) fun change hterm hupd _ => ?_
        obtain ⟨c', rfl⟩ := byWorker hterm hupd
        exact ha.claimed u id hu t c' (kindAt_of ht)
    · obtain ⟨ticket, hk⟩ := new hu
      cases hk
  · rw [Pool.didCall_trace] at hlive
    rw [Pool.didCall_kindAt hs.fresh ht] at hu
    split at hu
    · refine kept (.inr ⟨u, c', hu, fun e he => hlive e (List.mem_cons_of_mem _ he)⟩) ?_
      rintro change hterm rfl ⟨⟨⟩, rfl⟩
      obtain ⟨c'', rfl⟩ := byWorker hterm rfl
      obtain rfl := ha.once t u id c'' c' (kindAt_of ht) hu
      simpa [ends, hterm] using hlive _ List.mem_cons_self
    · obtain ⟨th, hth, hk⟩ := Option.map_eq_some_iff.mp hu
      obtain ⟨ticket, e⟩ := new hth
      rw [e] at hk
      cases hk

/-- The worker that a step starts was claimed before. -/
theorem owned_finish (hs : SlotsKept env p) {a : Result} (ht : p.threads t = some ⟨k, .ret a⟩)
    {id : Nat} (ho : Owned (p.didEnd t k a ((system env).finish p.state k a).1
      ((system env).finish p.state k a).2) id) : Owned p id := by
  rcases ho with ⟨u, hu⟩ | ⟨u, c, hu, hlive⟩
  · rcases left_or_new hs ht hu with ⟨-, hu⟩ | ⟨-, hu⟩
    · exact .inl ⟨u, hu⟩
    · have hb := (system_begins env).finish _ _ _ _ (List.mem_of_getElem? hu)
      cases hb
  · obtain ⟨prog, hu⟩ := exists_thread hu
    rcases left_or_new hs ht hu with ⟨-, hu⟩ | ⟨-, hu⟩
    · rw [Pool.didEnd_trace] at hlive
      exact .inr ⟨u, c, kindAt_of hu, fun e he => hlive e (List.mem_cons_of_mem _ he)⟩
    · obtain ⟨rfl, rfl⟩ := started_worker (List.mem_of_getElem? hu) rfl
      exact .inl ⟨t, ht⟩

theorem owned_external (hs : SlotsKept env p) {x : Arrival} {s : State} {dies : Bool}
    {ths : List DownloadThread} (he : (system env).external p.state x = some (s, dies, ths)) {id : Nat}
    (ho : Owned (p.didOuter x s dies ths) id) :
    Owned p id ∧ s.downloads = p.state.downloads := by
  have old {u : Nat} {th : DownloadThread} (hu : (p.didOuter x s dies ths).threads u = some th) :
      p.threads u = some th ∨ (∃ r, th.kind = .request r) ∨ th.kind = .boot := by
    rw [Pool.didOuter_threads hs.fresh] at hu
    split at hu
    · split at hu
      · cases hu
      · exact .inl hu
    · have hm := List.mem_of_getElem? hu
      obtain ⟨r, rfl⟩ | rfl := (arrives he).spawned hm
      · exact .inr (.inl ⟨r, rfl⟩)
      · exact .inr (.inr rfl)
  refine ⟨?_, (arrive_keeps he).1⟩
  rcases ho with ⟨u, hu⟩ | ⟨u, c, hu, hlive⟩
  · rcases old hu with hu | ⟨r, hk⟩ | hk
    · exact .inl ⟨u, hu⟩
    · cases hk
    · cases hk
  · obtain ⟨prog, hu⟩ := exists_thread hu
    rcases old hu with hu | ⟨r, hk⟩ | hk
    · rw [Pool.didOuter_trace] at hlive
      exact .inr ⟨u, c, kindAt_of hu, fun e he => hlive e (List.mem_cons_of_mem _ he)⟩
    · cases hk
    · cases hk

theorem owned_step (hs : SlotsKept env p) (ha : Activations p) {l : DownloadLabel} {p' : DownloadPool}
    (hst : (system env).step p l = some p') (hr : Respecting Op.overrides p l)
    (h : ∀ id, Owned p id → Running p.state id) : ∀ id, Owned p' id → Running p'.state id := by
  rcases (system env).step_cases hst with
    ⟨t, k, o, rest, c, r, s, ths, rfl, ht, he, rfl⟩ | ⟨t, k, a, -, ht, rfl⟩ |
    ⟨x, s, dies, ths, -, he, rfl⟩
  · rw [Pool.didCall_state]
    exact owned_exec hs ha ht he (hr k o rest · ht) h
  · intro id ho
    rw [Pool.didEnd_state]
    exact h id (owned_finish hs ht ho)
  · intro id ho
    obtain ⟨ho, hrows⟩ := owned_external hs he ho
    rw [Pool.didOuter_state]
    obtain ⟨d, hd, hst⟩ := h id ho
    exact ⟨d, by rw [hrows]; exact hd, hst⟩

end

/-- Slots, activations and the rows of the workers. -/
structure Working (env : Env) (p : DownloadPool) : Prop where
  slots : SlotsKept env p
  activations : Activations p
  owned : ∀ id, Owned p id → Running p.state id

theorem Working.initial (env : Env) {s : State} (hs : s.Down) : Working env (.initial s) := by
  refine ⟨.initial env hs, .initial s, ?_⟩
  rintro id (⟨_, hu⟩ | ⟨_, _, hu, -⟩) <;> cases hu

theorem Working.step {env : Env} {p p' : DownloadPool} {l : DownloadLabel} (h : Working env p)
    (hc : ClaimsIdle p l) (hr : Respecting Op.overrides p l) (hst : (system env).step p l = some p') :
    Working env p' :=
  ⟨h.slots.step hst, h.activations.step h.slots hc hst, owned_step h.slots h.activations hst hr h.owned⟩

/-- As long as no claim falls between the first read of a request and its write to the row, and
none while an earlier activation is live, the workers own their rows in every run. -/
theorem worker_owns_row (env : Env) {s : State} (hs : s.Down) {p : DownloadPool}
    (hr : (system env).Runs (fun q l => NotClaimed Op.overrides q l ∧ ClaimsIdle q l) (.initial s) p) :
    WorkerOwns p := by
  have h := respected_run (fun _ _ => Op.overrides_byHandler) env (fun _ _ h => h.1) (J := Working env)
    (.initial env hs) (fun _ _ _ _ hr' hJ hok hst => hJ.step hok.2 (hr'.respecting hst) hst) hr
  exact ⟨h.2.owned, h.1⟩

/-- The cancel reads the row queued and writes it after the claim. -/
theorem claimed_row_cancelled : ¬ ∀ (env : Env) (s : State) (p : DownloadPool), s.Down →
    (system env).Runs (fun _ _ => True) (.initial s) p → WorkerOwns p := by
  intro h
  have hrun : ((system (.small 1)).replay (fun _ _ => true) (.initial oneJob)
      (.external .boot :: calls 0 2 ++ [.finish 0, .external (.request (.cancel 0))] ++ calls 2 1 ++
        calls 1 2 ++ [.finish 1] ++ calls 2 1)).any (fun p => p.kindAt 3 = some (.worker 0 0) ∧
      p.trace.all (! ends 3 0 ·) ∧ ¬ Running p.state 0) = true := by decide
  obtain ⟨p, hp, hn⟩ := Option.any_eq_true _ _ |>.mp hrun
  obtain ⟨hw, hlive, hnot⟩ := of_decide_eq_true hn
  have := (h (.small 1) oneJob p oneJob_down ((system (.small 1)).replay_runs (fun _ _ _ => trivial) hp)).running
    0 (.inr ⟨3, 0, hw, by simpa using hlive⟩)
  exact hnot this

/-- Such a write is made only by a request whose calls have followed one another. -/
def unclaimed (writes : Op → Option Nat) (p : DownloadPool) : DownloadLabel → Bool
  | .exec t c =>
    match p.threads t with
    | some ⟨_, .call o _⟩ => (writes o).isNone || History.uninterrupted p (.exec t c : DownloadLabel)
    | _ => true
  | _ => true

theorem unclaimed_notClaimed {writes : Op → Option Nat} {p : DownloadPool} {l : DownloadLabel}
    (h : unclaimed writes p l = true) : NotClaimed writes p l := by
  cases l with
  | exec t c =>
    intro k o rest id ht ho
    simp only [unclaimed, ht, ho, Option.isNone_some, Bool.false_or] at h
    exact History.Since.of_consecutive h
  | _ => trivial

/-- A cancel and a retry while the job runs. -/
theorem worker_owns_row_running : ∃ p, (system (.small 2)).Runs
      (fun q l => NotClaimed Op.overrides q l ∧ ClaimsIdle q l) (.initial oneJob) p ∧
    p.kindAt 2 = some (.worker 0 0) ∧ WorkerOwns p := by
  have hrun : ((system (.small 2)).replay (fun p l => unclaimed Op.overrides p l && claimsWhenIdle p l)
      (.initial oneJob) (bootUp ++ calls 2 2 ++ [.external (.request (.cancel 0))] ++ calls 4 5 ++
        [.finish 4, .external (.request (.retry 0))] ++ calls 5 1 ++ [.finish 5] ++ calls 2 1)).any
      (fun p => p.kindAt 2 = some (.worker 0 0)) = true := by decide
  obtain ⟨p, hp, hn⟩ := Option.any_eq_true _ _ |>.mp hrun
  have hr := claimsWhenIdle_runs (.initial _ oneJob_down) (fun _ _ => unclaimed_notClaimed) hp
  exact ⟨p, hr, of_decide_eq_true hn, worker_owns_row (.small 2) oneJob_down hr⟩

end CircleFtp.Downloads
