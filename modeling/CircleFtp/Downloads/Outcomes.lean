import CircleFtp.Downloads.Outline
import CircleFtp.Downloads.Ownership

/-! The status that a job ends with against the statuses of its files. -/
namespace CircleFtp.Downloads
open Concurrent Strings

def FileStatus.settled (s : FileStatus) : Bool := s = .COMPLETED || s = .FAILED

def FileStatus.unfinished (s : FileStatus) : Bool := s = .PENDING || s = .RUNNING

def Download.statuses (d : Download) : List FileStatus := d.files.map (·.status)

/-- The status `status` is right about files with the statuses `files`. -/
structure Fitting (status : Status) (files : List FileStatus) : Prop where
  settled : status.active = false
  finished : files.all (!·.unfinished) = true
  completed : status = .COMPLETED ↔ files.all (· = .COMPLETED) = true
  failed : status = .FAILED → files.all (· ≠ .COMPLETED) = true

def Download.Truthful (d : Download) : Prop := Fitting d.status d.statuses

instance (status : Status) (files : List FileStatus) : Decidable (Fitting status files) :=
  decidable_of_iff (status.active = false ∧ files.all (!·.unfinished) = true ∧
      (status = .COMPLETED ↔ files.all (· = .COMPLETED) = true) ∧
      (status = .FAILED → files.all (· ≠ .COMPLETED) = true))
    ⟨fun h => ⟨h.1, h.2.1, h.2.2.1, h.2.2.2⟩, fun h => ⟨h.settled, h.finished, h.completed, h.failed⟩⟩

instance (d : Download) : Decidable d.Truthful := inferInstanceAs (Decidable (Fitting _ _))

/-- A request has requeued the download, taken it away or finished it as cancelled. -/
def touches (id : Nat) : DownloadEvent → Bool
  | .did _ _ o (.ok _) _ _ => o.byHandler = some id
  | _ => false

/-- Such a request since activation `t` last wrote the outcome. -/
def touchedSince (t id : Nat) : List DownloadEvent → Bool
  | [] => false
  | e :: trace => !ends t id e && (touches id e || touchedSince t id trace)

/-- The error handler of activation `t` leaves a row that is not right about its files. -/
def Fell (t id : Nat) : DownloadEvent → Prop
  | .did t' _ (.updateDownload id' (.failed _)) _ _ s =>
    t' = t ∧ id' = id ∧ ∃ d, s.downloads.rows id = some d ∧ ¬ d.Truthful
  | _ => False

/-- Thread `t` takes the abort branch of `processFile`. -/
def GaveUp (t id : Nat) : DownloadEvent → Prop
  | .did t' _ (.updateFile id' _ .cancelled) _ _ _ => t' = t ∧ id' = id
  | _ => False

/-- The row stays, with its status, the statuses of its files and a request to cancel it. -/
def Kept (id : Nat) (s s' : State) : Prop :=
  (∀ d, s.downloads.rows id = some d → ∃ d', s'.downloads.rows id = some d' ∧
    d'.status = d.status ∧ d'.statuses = d.statuses ∧
    (d.cancelRequested = true → d'.cancelRequested = true)) ∧
  (Gone s id → Gone s' id)

theorem Kept.refl (id : Nat) (s : State) : Kept id s s :=
  ⟨fun d hd => ⟨d, hd, rfl, rfl, fun h => h⟩, fun h => h⟩

/-- The calls of a worker that give files another status. -/
def Op.moves : Op → Option Nat
  | .updateFile id _ change => if change.moves then some id else none
  | .cancelFiles id true => some id
  | _ => none

/-- The calls that write the outcome of a job. -/
def Op.outcome : Op → Option Nat
  | .updateDownload id change => if change.terminal then some id else none
  | _ => none

/-- The calls that change neither the status of a download nor that of a file. -/
structure Op.Plain (o : Op) (id : Nat) : Prop where
  handler : o.byHandler ≠ some id
  moves : o.moves ≠ some id
  outcome : o.outcome ≠ some id
  claim : o ≠ .claim id
  requeue : o ≠ .requeueRunning
  reset : o ≠ .resetRunningFiles

theorem Op.plain {o : Op} (id : Nat) (hh : o.byHandler = none) (hm : o.moves = none)
    (ho : o.outcome = none) (hc : ∀ i, o ≠ .claim i) (hq : o ≠ .requeueRunning)
    (hr : o ≠ .resetRunningFiles) : o.Plain id :=
  ⟨by simp [hh], by simp [hm], by simp [ho], hc id, hq, hr⟩

theorem statuses_modify {d : Download} {index : Nat} {change : FileChange} (h : change.moves = false) :
    (d.files.modify index change.apply).map (·.status) = d.statuses := by
  refine List.ext_getElem? fun i => ?_
  rw [Download.statuses, List.getElem?_map, List.getElem?_map, List.getElem?_modify]
  cases d.files[i]? with
  | none => rfl
  | some f =>
    by_cases e : index = i
    · simp [e, FileChange.apply_status h]
    · simp [e]

section
variable {s s' : State} {id : Nat} {o : Op} {c : Choice} {r : Reply o}

theorem Kept.same (hd : s'.downloads.rows id = s.downloads.rows id)
    (hn : s.downloads.next ≤ s'.downloads.next) : Kept id s s' :=
  ⟨fun d hrow => ⟨d, hd.trans hrow, rfl, rfl, fun h => h⟩, fun hg =>
    ⟨Nat.lt_of_lt_of_le hg.1 hn, hd.trans hg.2⟩⟩

theorem kept_call (h : call s o c = (r, s')) (ho : o.Plain id) : Kept id s s' := by
  refine ⟨fun d hd => ?_, fun hg => hg.call h⟩
  rcases call_row h hd with hsame | ⟨-, hrow⟩
  · exact ⟨d, hsame, rfl, rfl, fun h => h⟩
  generalize s'.downloads.rows id = row at hrow
  cases hrow with
  | update change =>
    cases change with
    | totals => exact ⟨_, rfl, rfl, rfl, fun h => h⟩
    | requestCancel => exact ⟨_, rfl, rfl, rfl, fun _ => rfl⟩
    | cancelQueued => exact absurd rfl ho.handler
    | finish status error => exact absurd rfl ho.outcome
    | failed error => exact absurd rfl ho.outcome
  | file index change =>
    refine ⟨_, rfl, rfl, statuses_modify ?_, fun h => h⟩
    simpa [Op.moves] using ho.moves
  | cancelFiles running =>
    cases running with
    | true => exact absurd rfl ho.moves
    | false => exact absurd rfl ho.handler
  | requeue => exact absurd rfl ho.handler
  | delete => exact absurd rfl ho.handler
  | claim => exact absurd rfl ho.claim
  | requeueRunning => exact absurd rfl ho.requeue
  | resetFiles => exact absurd rfl ho.reset

theorem ends_by {t id : Nat} {e : DownloadEvent} (h : ends t id e = true) : e.By t := by
  unfold ends at h
  split at h
  · simp only [Bool.and_eq_true, decide_eq_true_eq] at h
    exact h.1.1
  · cases h

theorem ends_did {t t' : Nat} {k : Task} (h : o.outcome ≠ some id ∨ ∃ e, r = .error e) :
    ends t id (.did t' k o r s s') = false := by
  cases he : ends t id (.did t' k o r s s') with
  | false => rfl
  | true =>
    unfold ends at he
    split at he
    · rename_i heq
      cases heq
      simp only [Bool.and_eq_true, decide_eq_true_eq] at he
      rcases h with h | ⟨e, h⟩
      · simp [Op.outcome, he.1.2, he.2] at h
      · cases h
    · cases he

/-- After the worker has written it. -/
def Stage.told : Stage → Bool
  | .written | .ended => true
  | _ => false

/-- The job is to end as cancelled. -/
def Stage.cancels : Stage → Bool
  | .over b | .awaiting b _ | .awaited b | .settled b | .decided b _ | .cleaned b _
  | .totalled b _ _ | .finishing b _ => b
  | _ => false

/-- What the loop over the files leaves of them. -/
def Closing (cancelled : Bool) (files : List FileStatus) : Prop :=
  if cancelled then ∃ s ∈ files, s ≠ .COMPLETED else ∀ s ∈ files, s.settled = true

/-- In the loop, the files ahead are as they were read, and those behind are settled. -/
structure Midway (rest : List (DownloadFile × Nat)) (working : Option Nat) (files : List FileStatus) :
    Prop where
  ahead : ∀ x ∈ rest, files[x.2]? = some x.1.status
  behind : ∀ i status, files[i]? = some status → working ≠ some i → i ∉ rest.map Prod.snd →
    status.settled = true

/-- The statuses of the files at each stage. -/
def Stage.Fits (s : Stage) (files : List FileStatus) : Prop :=
  match s with
  | .reading => True
  | .over b | .awaiting b _ | .awaited b | .settled b => Closing b files
  | .decided b read => Closing b files ∧ read.map (·.status) = files
  | .cleaned b read | .totalled b read _ | .finishing b read =>
    Closing b files ∧ (b = false → read.map (·.status) = files) ∧ ∀ s ∈ files, s.unfinished = false
  | s => Midway s.rest s.working files

/-- Activation `t` has written an outcome that is right about the files, unless the row has been
touched since. -/
def Told (t id : Nat) (w : DownloadWorld) : Prop :=
  touchedSince t id w.trace = true ∨ Gone w.state id ∨
    (∃ d, w.state.downloads.rows id = some d ∧ d.Truthful) ∨ ∃ e ∈ w.trace, Fell t id e

structure Job (t id : Nat) (s : Stage) (w : DownloadWorld) : Prop where
  nodup : s.indices.Nodup
  known : id < w.state.downloads.next
  live : s.live = true → ∃ d, w.state.downloads.rows id = some d ∧ d.status = .RUNNING ∧
    s.Fits d.statuses ∧
    (s.cancels = true → (∃ e ∈ w.trace, GaveUp t id e) ∨ d.cancelRequested = true)
  told : s.told = true → Told t id w

/-- The write of an outcome by activation `t`. -/
def Ending (t id : Nat) (w : DownloadWorld) : Op → Prop
  | .updateDownload id' (.finish status _) => id' = id → ∃ d, w.state.downloads.rows id = some d ∧
      Fitting status d.statuses ∧ (status ≠ .CANCELLED → d.statuses.all (·.settled) = true) ∧
      (status = .CANCELLED → (∃ e ∈ w.trace, GaveUp t id e) ∨ d.cancelRequested = true)
  | _ => True

def jobs : Ledger State Task Op Reply Arrival Result where
  admits _ k w e := ∀ id c, k = .worker id c → e.before.downloads.next ≤ e.after.downloads.next ∧
    (Kept id e.before e.after ∨ (touches id e = true ∧ ¬ Running w.state id))
  may _ _ w o r s := ∃ c, call w.state o c = (r, s)
  guar t k w o _ _ := ∀ id c, k = .worker id c →
    (o.moves = some id → Running w.state id) ∧ Ending t id w o
  post t k _ w := ∀ id c, k = .worker id c → Told t id w

abbrev jobContract (t id c : Nat) : Contract DownloadWorld Op Reply :=
  jobs.discipline.contract t (.worker id c)

end

section
variable {t id c : Nat} {s s' : Stage} {w w' : DownloadWorld} {o : Op} {r : Reply o}

theorem Told.after {v : State} {e : DownloadEvent} (h : Told t id w) (hk : Kept id w.state v)
    (he : ends t id e = false) : Told t id ⟨v, e :: w.trace⟩ := by
  rcases h with h | h | ⟨d, hd, htrue⟩ | ⟨e', he', hf⟩
  · exact .inl (by simp [touchedSince, he, h])
  · exact .inr (.inl (hk.2 h))
  · obtain ⟨d', hd', hs, hst, -⟩ := hk.1 d hd
    refine .inr (.inr (.inl ⟨d', hd', ?_⟩))
    rwa [Download.Truthful, hs, hst]
  · exact .inr (.inr (.inr ⟨e', List.mem_cons_of_mem _ he', hf⟩))

theorem Job.after {v : State} {e : DownloadEvent} (h : Job t id s w) (hk : Kept id w.state v)
    (hn : w.state.downloads.next ≤ v.downloads.next) (he : ends t id e = false) :
    Job t id s ⟨v, e :: w.trace⟩ := by
  refine ⟨h.nodup, Nat.lt_of_lt_of_le h.known hn, fun hl => ?_, fun ht => (h.told ht).after hk he⟩
  obtain ⟨d, hd, hrun, hfit, hcause⟩ := h.live hl
  obtain ⟨d', hd', hs, hst, hflag⟩ := hk.1 d hd
  refine ⟨d', hd', hs.trans hrun, by rwa [hst], fun hc => ?_⟩
  rcases hcause hc with ⟨e', he', hg⟩ | hf
  · exact .inl ⟨e', List.mem_cons_of_mem _ he', hg⟩
  · exact .inr (hflag hf)

/-- The others leave the row alone while the job runs. -/
theorem Job.stable (h : Job t id s w) (hr : (jobContract t id c).rely w w') : Job t id s w' := by
  refine History.rely_induct (fun v e hv hb ht hp => ?_) hr h
  have he : ends t id e = false := by
    cases he : ends t id e with
    | false => rfl
    | true => exact absurd (ends_by he) ht
  obtain ⟨hn, hk | ⟨htouch, hnot⟩⟩ := hp id c rfl
  · exact hv.after (hb ▸ hk) (hb ▸ hn) he
  · refine ⟨hv.nodup, Nat.lt_of_lt_of_le hv.known (hb ▸ hn), fun hl => ?_, fun _ => ?_⟩
    · obtain ⟨d, hd, hrun, -⟩ := hv.live hl
      exact absurd ⟨d, hd, hrun⟩ hnot
    · exact .inl (by simp [touchedSince, he, htouch])

/-- One stage says no more than another. -/
structure Stage.Leads (s s' : Stage) : Prop where
  live : s'.live = true → s.live = true
  fits : s'.live = true → ∀ files, s.Fits files → s'.Fits files
  cancels : s'.cancels = true → s.cancels = true
  told : s'.told = true → s.told = true

theorem Job.leads (h : Job t id s w) (hn : s'.indices.Nodup) (hs : s.Leads s') : Job t id s' w := by
  refine ⟨hn, h.known, fun hl => ?_, fun ht => h.told (hs.told ht)⟩
  obtain ⟨d, hd, hrun, hfit, hcause⟩ := h.live (hs.live hl)
  exact ⟨d, hd, hrun, hs.fits hl _ hfit, fun hc => hcause (hs.cancels hc)⟩

theorem Job.plain (h : Job t id s w) (ha : (jobContract t id c).act w o r w') (ho : o.Plain id) :
    Job t id s w' := by
  obtain ⟨ch, hc⟩ := ha.2
  have hn := next_le hc
  rw [ha.1]
  exact h.after (kept_call hc ho) hn (ends_did (.inl ho.outcome))

/-- A call that throws. -/
theorem Job.unchanged {e : Err} (h : Job t id s w) (ha : (jobContract t id c).act w o (.error e) w') :
    Job t id s w' := by
  obtain ⟨ch, hc⟩ := ha.2
  have hs := call_error hc
  rw [ha.1, hs]
  exact h.after (.refl id w.state) (Nat.le_refl _) (ends_did (.inr ⟨e, rfl⟩))

theorem FileStatus.settled_finished {x : FileStatus} (h : x.settled = true) : x.unfinished = false := by
  cases x <;> first | rfl | cases h

theorem Silent.leads {env : Env} (h : Silent env s s') : s.Leads s' := by
  cases h with
  | skip folder file index rest hc =>
    refine ⟨id, fun _ files hf => ⟨fun x hx => hf.ahead x (List.mem_cons_of_mem _ hx), ?_⟩, id, id⟩
    intro i status hi _ hrest
    by_cases e : i = index
    · subst e
      have := hf.ahead (file, i) List.mem_cons_self
      simp only [hc] at this
      rw [this] at hi
      cases hi
      rfl
    · refine hf.behind i status hi (by simp [Stage.working, Stage.spot]) fun hm => ?_
      rcases List.mem_cons.mp hm with hm | hm
      · exact e hm
      · exact hrest hm
  | done folder =>
    refine ⟨fun _ => rfl, fun _ files hf status hs => ?_, fun h => absurd h Bool.false_ne_true,
      fun h => absurd h Bool.false_ne_true⟩
    obtain ⟨i, hi⟩ := List.mem_iff_getElem?.mp hs
    exact hf.behind i status hi (by simp [Stage.working, Stage.spot]) List.not_mem_nil
  | keep files =>
    refine ⟨fun _ => rfl, fun _ ss hf => ⟨hf.1, fun _ => hf.2, fun x hx => ?_⟩, id,
      fun h => absurd h Bool.false_ne_true⟩
    exact FileStatus.settled_finished (hf.1 x hx)
  | close => exact ⟨id, fun _ _ h => h, id, fun _ => rfl⟩
  | _ =>
    exact ⟨fun _ => rfl, fun _ _ h => h, fun h => absurd h Bool.false_ne_true,
      fun h => absurd h Bool.false_ne_true⟩

/-- A write to the file that the worker is at. -/
theorem Job.file {index : Nat} {change : FileChange} {a : Unit} (h : Job t id s w)
    (hl : s.live = true) (ha : (jobContract t id c).act w (.updateFile id index change) (.ok a) w') :
    id < w'.state.downloads.next ∧ ∃ (d : Download) (f : DownloadFile) (d' : Download),
      d.files[index]? = some f ∧ s.Fits d.statuses ∧
      w'.state.downloads.rows id = some d' ∧ d'.status = .RUNNING ∧
      (s.cancels = true → (∃ e ∈ w'.trace, GaveUp t id e) ∨ d'.cancelRequested = true) ∧
      ∀ i, d'.statuses[i]? = if i = index then some (change.apply f).status else d.statuses[i]? := by
  obtain ⟨ch, hc⟩ := ha.2
  have hn := next_le hc
  obtain ⟨d, hd, hrun, hfit, hcause⟩ := h.live hl
  obtain ⟨d₁, f, hd₁, hf, hd'⟩ := call_updateFile hc
  rw [hd] at hd₁
  cases hd₁
  refine ⟨Nat.lt_of_lt_of_le h.known hn, d, f, _, hf, hfit, hd', hrun, fun hcan => ?_, fun i => ?_⟩
  · rw [ha.1]
    exact (hcause hcan).imp (fun he => he.imp fun _ h => ⟨List.mem_cons_of_mem _ h.1, h.2⟩) fun h => h
  · simp only [Download.statuses, List.getElem?_map, List.getElem?_modify]
    by_cases e : index = i
    · subst e
      simp [hf]
    · have e' : i ≠ index := fun h => e h.symm
      simp [e, e']

theorem Midway.write {rest : List (DownloadFile × Nat)} {index : Nat} {files files' : List FileStatus}
    {status : FileStatus} (h : Midway rest (some index) files) (hn : index ∉ rest.map Prod.snd)
    (hs : ∀ i, files'[i]? = if i = index then some status else files[i]?) :
    Midway rest (some index) files' ∧ (status.settled = true → Midway rest none files') := by
  have ahead : ∀ x ∈ rest, files'[x.2]? = some x.1.status := by
    intro x hx
    have hne : x.2 ≠ index := fun e => hn (List.mem_map.mpr ⟨x, hx, e⟩)
    rw [hs, if_neg hne]
    exact h.ahead x hx
  refine ⟨⟨ahead, fun i st hi hw hr => ?_⟩, fun hsettled => ⟨ahead, fun i st hi _ hr => ?_⟩⟩
  · have hne : i ≠ index := fun e => hw (by rw [e])
    rw [hs, if_neg hne] at hi
    exact h.behind i st hi hw hr
  · rw [hs] at hi
    split at hi
    · cases hi
      exact hsettled
    · rename_i hne
      exact h.behind i st hi (fun e => hne (Option.some.inj e).symm) hr

/-- The statuses after `updateMany` in the cancel branch. -/
theorem cancelFiles_statuses (d : Download) : (d.cancelFiles true).statuses =
    d.statuses.map fun s => if s.unfinished then .CANCELLED else s := by
  simp only [Download.cancelFiles, Download.statuses, List.map_map]
  refine List.map_congr_left fun f _ => ?_
  simp only [Function.comp_apply, true_and]
  cases hf : f.status <;> simp [FileStatus.unfinished, hf]

/-- The outcome fits the files from which it is computed. -/
theorem jobOutcome_fitting {cancelled : Bool} {read : List DownloadFile} {files : List FileStatus}
    (hc : Closing cancelled files) (hr : cancelled = false → read.map (·.status) = files)
    (hu : ∀ s ∈ files, s.unfinished = false) : Fitting (jobOutcome cancelled read).1 files := by
  have finished : files.all (!·.unfinished) = true := by simpa using hu
  cases cancelled with
  | true =>
    obtain ⟨x, hx, hne⟩ := hc
    refine ⟨rfl, finished, iff_of_false (by simp [jobOutcome]) fun hall => ?_, (fun h => by cases h)⟩
    exact hne (by simpa using List.all_eq_true.mp hall x hx)
  | false =>
    obtain rfl := hr rfl
    have hall : (read.map (·.status)).all (· = .COMPLETED) = true ↔
        read.countP (·.status = .COMPLETED) = read.length := by
      rw [List.countP_eq_length]
      simp
    have hnone : (read.map (·.status)).all (· ≠ .COMPLETED) = true ↔
        ¬ 0 < read.countP (·.status = .COMPLETED) := by
      rw [List.countP_pos_iff]
      simp
    simp only [jobOutcome, Bool.false_eq_true, if_false]
    split
    · exact ⟨rfl, finished, iff_of_true rfl (hall.mpr ‹_›), (fun h => by cases h)⟩
    rename_i hne
    split
    · exact ⟨rfl, finished, iff_of_false (by simp) (fun h => hne (hall.mp h)), (fun h => by cases h)⟩
    · exact ⟨rfl, finished, iff_of_false (by simp) (fun h => hne (hall.mp h)), fun _ => hnone.mpr ‹_›⟩

/-- A write to the file that the worker is at, inside the loop. -/
theorem Job.midway {x : Spot} {change : FileChange} {a : Unit} (status : FileStatus)
    (h : Job t id s w) (hl : s.live = true) (hx : ∀ files, s.Fits files → Midway x.rest (some x.index) files)
    (hn : x.index ∉ x.rest.map Prod.snd) (hs : ∀ f, (change.apply f).status = status)
    (ha : (jobContract t id c).act w (.updateFile id x.index change) (.ok a) w')
    (hs' : s'.indices.Nodup) (ht : s'.told = false) (hc : s'.cancels = false)
    (hf : ∀ files, Midway x.rest (some x.index) files →
      (status.settled = true → Midway x.rest none files) → s'.Fits files) : Job t id s' w' := by
  obtain ⟨known, d, f, d', -, hfit, hd', hrun, -, hst⟩ := h.file hl ha
  have hm := (hx _ hfit).write hn (fun i => by rw [hst i, hs f])
  refine ⟨hs', known, fun _ => ⟨d', hd', hrun, hf _ hm.1 hm.2, fun h => ?_⟩, fun h => ?_⟩
  · rw [hc] at h
    cases h
  · rw [ht] at h
    cases h

theorem Job.ok {env : Env} {v : Val o} (h : Job t id s w) (hn : Next env id c s o v s')
    (ha : (jobContract t id c).act w o (.ok v) w') : Job t id s' w' := by
  have nodup := hn.nodup h.nodup
  have plain (ho : o.Plain id) (hs : s.Leads s') : Job t id s' w' := (h.plain ha ho).leads nodup hs
  have htrace := congrArg World.trace ha.1
  obtain ⟨ch, hc⟩ := ha.2
  have find : (Op.findDownload id).Plain id := Op.plain id rfl rfl rfl (by simp) (by simp) (by simp)
  cases hn with
  | missing =>
    obtain ⟨d, hd, -⟩ := h.live rfl
    rw [(call_find hc).1] at hd
    cases hd
  | found d =>
    obtain ⟨hrow, hsame⟩ := call_find hc
    have hp := h.plain ha find
    obtain ⟨d', hd, hrun, -⟩ := hp.live rfl
    rw [hsame, hrow] at hd
    cases hd
    refine ⟨nodup, hp.known, fun _ => ⟨d, by rw [hsame, hrow], hrun, ⟨fun x hx => ?_, ?_⟩,
      fun h => absurd h Bool.false_ne_true⟩, fun h => absurd h Bool.false_ne_true⟩
    · rw [Stage.rest, List.mem_zipIdx_iff_getElem?] at hx
      simp [Download.statuses, hx]
    · intro i status hi _ hm
      refine absurd ?_ hm
      rw [Stage.rest, List.zipIdx_map_snd]
      obtain ⟨hlt, -⟩ := List.getElem?_eq_some_iff.mp hi
      simpa [List.mem_range', Download.statuses] using hlt
  | look s row hp =>
    refine plain find ?_
    cases s <;> first
      | (cases hp; done)
      | exact ⟨fun h => h, fun _ _ h => h, fun h => h, fun h => h⟩
  | tell s event hp =>
    exact plain (Op.plain id rfl rfl rfl (by simp) (by simp) (by simp))
      ⟨fun h => h, fun _ _ h => h, fun h => h, fun h => h⟩
  | announce path =>
    exact plain (Op.plain id rfl rfl rfl (by simp) (by simp) (by simp))
      ⟨fun h => h, fun _ _ h => h, fun h => h, fun h => h⟩
  | stop x row hx hr =>
    obtain ⟨hrow, hsame⟩ := call_find hc
    have hp := h.plain ha find
    obtain ⟨d, hd, hrun, hfit, -⟩ := hp.live rfl
    refine ⟨nodup, hp.known, fun _ => ⟨d, hd, hrun, ?_, fun _ => .inr ?_⟩, fun h => absurd h Bool.false_ne_true⟩
    · exact ⟨_, List.mem_of_getElem? (hfit.ahead (x.file, x.index) List.mem_cons_self), hx⟩
    · rw [hsame, hrow] at hd
      rw [hd] at hr
      simpa using hr
  | go x row hx hr =>
    refine plain find ⟨fun _ => rfl, fun _ files hf => ⟨fun y hy => ?_, ?_⟩,
      fun h => absurd h Bool.false_ne_true, fun h => absurd h Bool.false_ne_true⟩
    · exact hf.ahead y (List.mem_cons_of_mem _ hy)
    · intro i status hi hw hm
      refine hf.behind i status hi (by simp [Stage.working, Stage.spot]) fun hmem => ?_
      rcases List.mem_cons.mp hmem with e | hmem
      · exact hw (by rw [e]; rfl)
      · exact hm hmem
  | refuse x message =>
    exact h.midway .FAILED rfl (fun _ h => h) (List.nodup_cons.mp h.nodup).1 (fun _ => rfl) ha
      nodup rfl rfl fun _ _ h => h rfl
  | begin x destination probed hd =>
    exact h.midway .RUNNING rfl (fun _ h => h) (List.nodup_cons.mp h.nodup).1 (fun _ => rfl) ha
      nodup rfl rfl fun _ h _ => h
  | complete x result =>
    exact h.midway .COMPLETED rfl (fun _ h => h) (List.nodup_cons.mp h.nodup).1 (fun _ => rfl) ha
      nodup rfl rfl fun _ _ h => h rfl
  | pend x message =>
    exact h.midway .PENDING rfl (fun _ h => h) (List.nodup_cons.mp h.nodup).1 (fun _ => rfl) ha
      nodup rfl rfl fun _ h _ => h
  | giveUp x =>
    obtain ⟨known, d, f, d', hf, -, hd', hrun, -, hst⟩ := h.file rfl ha
    refine ⟨nodup, known, fun _ => ⟨d', hd', hrun, ⟨.CANCELLED, ?_, by simp⟩, fun _ => .inl ?_⟩,
      fun h => absurd h Bool.false_ne_true⟩
    · exact List.mem_of_getElem? (by rw [hst x.index, if_pos rfl]; rfl)
    · rw [htrace]
      exact ⟨_, List.mem_cons_self, rfl, rfl⟩
  | read b row =>
    obtain ⟨hrow, hsame⟩ := call_find hc
    have hp := h.plain ha find
    obtain ⟨d, hd, hrun, hfit, hcause⟩ := hp.live rfl
    refine ⟨nodup, hp.known, fun _ => ⟨d, hd, hrun, ⟨hfit, ?_⟩, hcause⟩, fun h => absurd h Bool.false_ne_true⟩
    rw [hsame, hrow] at hd
    rw [hd]
    rfl
  | cancelFiles files =>
    obtain ⟨d, hd, hrun, hfit, hcause⟩ := h.live rfl
    have hd' := call_cancelFiles hc hd
    have hn := next_le hc
    refine ⟨nodup, Nat.lt_of_lt_of_le h.known hn, fun _ => ⟨_, hd', hrun,
      ⟨?_, fun h => absurd h.symm Bool.false_ne_true, ?_⟩, fun _ => ?_⟩, fun h => absurd h Bool.false_ne_true⟩
    · obtain ⟨st, hst, hne⟩ := hfit.1
      rw [cancelFiles_statuses]
      refine ⟨_, List.mem_map_of_mem hst, ?_⟩
      split
      · simp
      · exact hne
    · intro st hst
      rw [cancelFiles_statuses] at hst
      obtain ⟨st', -, rfl⟩ := List.mem_map.mp hst
      split
      · rfl
      · simpa using ‹¬ st'.unfinished = true›
    · rw [htrace]
      exact (hcause rfl).imp (fun he => he.imp fun _ h => ⟨List.mem_cons_of_mem _ h.1, h.2⟩) fun h => h
  | finish b files =>
    obtain ⟨d, hd, -, hfit, -⟩ := h.live rfl
    obtain ⟨d', hd₁, hd'⟩ := call_updateDownload hc
    rw [hd] at hd₁
    cases hd₁
    have hn := next_le hc
    refine ⟨nodup, Nat.lt_of_lt_of_le h.known hn, fun h => absurd h Bool.false_ne_true,
      fun _ => .inr (.inr (.inl ⟨_, hd', ?_⟩))⟩
    exact jobOutcome_fitting hfit.1 hfit.2.1 hfit.2.2
  | fail message =>
    obtain ⟨d, -, hd'⟩ := call_updateDownload hc
    have hn := next_le hc
    refine ⟨nodup, Nat.lt_of_lt_of_le h.known hn, fun h => absurd h Bool.false_ne_true, fun _ => ?_⟩
    by_cases htrue : (DownloadChange.apply (.failed message) d).Truthful
    · exact .inr (.inr (.inl ⟨_, hd', htrue⟩))
    · rw [ha.1]
      exact .inr (.inr (.inr ⟨_, List.mem_cons_self, rfl, rfl, _, hd', htrue⟩))
  | _ =>
    exact plain (Op.plain id rfl rfl rfl (by simp) (by simp) (by simp))
      ⟨fun _ => rfl, fun _ _ h => h, fun h => h, fun h => absurd h Bool.false_ne_true⟩

/-- Where an error leads, less is known. -/
theorem Stage.onError_leads (e : Err) (hs : s ≠ .thrown) : s.Leads (s.onError e) := by
  have back {x : Spot} {files : List FileStatus} (h : Midway x.rest none files) :
      Midway x.rest (some x.index) files := ⟨h.ahead, fun i st hi _ hr => h.behind i st hi nofun hr⟩
  cases s with
  | thrown => exact absurd rfl hs
  | ended => exact ⟨fun h => h, fun _ _ h => h, fun h => h, fun h => h⟩
  | fetched => exact ⟨fun _ => rfl, fun _ _ h => h, nofun, nofun⟩
  | completed | summed | recorded | shown => exact ⟨fun _ => rfl, fun _ _ => back, nofun, nofun⟩
  | _ => exact ⟨nofun, nofun, nofun, nofun⟩

theorem Job.error {env : Env} {v : Val o} {e : Err} (h : Job t id s w) (hn : Next env id c s o v s')
    (ha : (jobContract t id c).act w o (.error e) w') : Job t id (s.onError e) w' := by
  have hu := h.unchanged ha
  have nodup := Stage.onError_nodup e h.nodup
  by_cases hs : s = .thrown
  · cases hn with
    | look s row hp =>
      rw [hs] at hp
      cases hp
    | tell s event hp => cases s <;> first | (cases hp; done) | cases hs
    | fail message =>
      refine ⟨nodup, hu.known, nofun, fun _ => ?_⟩
      cases hd : w'.state.downloads.rows id with
      | none => exact .inr (.inl ⟨hu.known, hd⟩)
      | some d =>
        by_cases htrue : d.Truthful
        · exact .inr (.inr (.inl ⟨d, hd, htrue⟩))
        · rw [ha.1]
          exact .inr (.inr (.inr ⟨_, List.mem_cons_self, rfl, rfl, d, hd, htrue⟩))
    | _ => cases hs
  · exact hu.leads nodup (Stage.onError_leads e hs)

theorem Next.live {env : Env} {v : Val o} (hn : Next env id c s o v s') (ho : o.moves = some id) :
    s.live = true := by
  cases hn <;> first | rfl | cases ho

theorem Job.ending {env : Env} {v : Val o} (h : Job t id s w) (hn : Next env id c s o v s') :
    Ending t id w o := by
  cases hn with
  | finish b files =>
    intro _
    obtain ⟨d, hd, -, hfit, hcause⟩ := h.live rfl
    refine ⟨d, hd, jobOutcome_fitting hfit.1 hfit.2.1 hfit.2.2, fun hne => ?_, fun hs => ?_⟩
    · cases b with
      | true => exact absurd rfl hne
      | false => exact List.all_eq_true.mpr hfit.1
    · cases b with
      | true => exact hcause rfl
      | false =>
        simp only [jobOutcome, Bool.false_eq_true, if_false] at hs
        split at hs
        · cases hs
        · split at hs <;> cases hs
  | _ => trivial

theorem Op.fetch_plain (id : Nat) {i index : Nat}
    (ho : o.transfers ∨ ∃ n total, o = .report i index n total) :
    o.Plain id ∧ o.moves = none ∧ ∀ t w, Ending t id w o := by
  rcases ho with ho | ⟨n, total, rfl⟩
  · cases o <;> first
      | exact ho.elim
      | exact ⟨Op.plain id rfl rfl rfl (by simp) (by simp) (by simp), rfl, fun _ _ => trivial⟩
  · exact ⟨Op.plain id rfl rfl rfl (by simp) (by simp) (by simp), rfl, fun _ _ => trivial⟩

theorem job_outline (env : Env) : Outline (jobContract t id c) env id c (Job t id) where
  stable _ _ _ hr h := h.stable hr
  silent hs h := h.leads (hs.nodup h.nodup) hs.leads
  guar hn h _ := by
    rintro id' c' hk
    cases hk
    refine ⟨fun ho => ?_, h.ending hn⟩
    obtain ⟨d, hd, hrun, -⟩ := h.live (hn.live ho)
    exact ⟨d, hd, hrun⟩
  ok hn h ha := h.ok hn ha
  error hn h ha := h.error hn ha
  fetch x destination probed := by
    refine Spot.fetch_does (fun _ _ hr h => h.stable hr) (fun o ho => ?_) (fun _ _ h => ?_) fun _ _ h => ?_
    · obtain ⟨plain, moves, ending⟩ := Op.fetch_plain id (ho.imp_left And.left)
      refine ⟨fun w r w' _ _ => ?_, fun _ _ _ h ha => h.plain ha plain, fun _ _ _ h ha => h.plain ha plain⟩
      rintro id' c' hk
      cases hk
      exact ⟨fun hm => absurd (moves.symm.trans hm) (by simp), ending t w⟩
    · exact h.leads h.nodup ⟨fun _ => rfl, fun _ _ h => h, nofun, nofun⟩
    · exact h.leads h.nodup ⟨fun _ => rfl, fun _ _ h => h, nofun, nofun⟩

end

theorem job_safe (env : Env) {t : Nat} {th : DownloadThread} {w : DownloadWorld} (h : Begins env th)
    (hr : ∀ id c, th.kind = .worker id c → Running w.state id) :
    jobs.discipline.SafeThread t th w := by
  have other (hk : ∀ id c, th.kind ≠ .worker id c) : jobs.discipline.SafeThread t th w := by
    refine (Program.Safe.of_uses (fun _ _ _ _ _ _ id c e => absurd e (hk id c)) h.uses).mono ?_
    exact fun _ _ _ id c e => absurd e (hk id c)
  cases h with
  | worker id c =>
    obtain ⟨d, hd, hrun⟩ := hr id c rfl
    have start : Job t id .reading w :=
      ⟨List.nodup_nil, Table.lt_next hd, fun _ => ⟨d, hd, hrun, trivial, nofun⟩, nofun⟩
    refine ((job_outline env).program_safe start).mono fun _ _ hj id' c' e => ?_
    cases e
    exact hj.told rfl
  | _ => exact other (by simp)

section
variable {env : Env} {p : DownloadPool} {t : Nat} {k : Task}

/-- What the others do to the row of a live worker. -/
theorem kept_or_touched (hw : Working env p) {o : Op} {rest : Reply o → Program Op Reply Result}
    (ht : p.threads t = some ⟨k, .call o rest⟩) {c : Choice} {r : Reply o} {s : State}
    (hcall : call p.state o c = (r, s)) (hok : ClaimsIdle p (.exec t c))
    (hr : ∀ id, o.byHandler = some id → ¬ Running p.state id) {t' id c' : Nat} (hne : t' ≠ t)
    (ht' : p.kindAt t' = some (.worker id c')) :
    Kept id p.state s ∨ (touches id (.did t k o r p.state s : DownloadEvent) = true ∧
      ¬ Running p.state id) := by
  have made : o.MadeBy k := (hw.slots.uses t _ ht).1
  have hk := kindAt_of ht
  have alone {c'' : Nat} (e : k = .worker id c'') : False := by
    subst e
    exact hne (hw.activations.once t' t id c' c'' ht' hk)
  have noBoot : k ≠ .boot := by
    rintro rfl
    have := (hw.slots.slots.boot t' _ ht').mpr ((hw.slots.slots.boot t _ hk).mp rfl)
    cases this
  by_cases hb : o.byHandler = some id
  · rcases r with e | a
    · rw [call_error hcall]
      exact .inl (.refl id p.state)
    · exact .inr ⟨by simp [touches, hb], hr id hb⟩
  left
  by_cases hclaim : o = .claim id
  · subst hclaim
    refine .same ?_ (next_le hcall)
    cases hd : p.state.downloads.rows id with
    | none =>
      cases hd' : s.downloads.rows id with
      | none => rfl
      | some d => cases (call_new_row hcall hd hd').1
    | some d =>
      rcases call_row hcall hd with hsame | ⟨-, hrow⟩
      · exact hsame
      · generalize s.downloads.rows id = row at hrow
        cases hrow with
        | claim hq => exact absurd ht' (hok k id rest ht ⟨d, hd, hq⟩ t' c')
  refine kept_call hcall ⟨hb, fun hm => ?_, fun ho => ?_, hclaim, ?_, ?_⟩
  · cases o <;> try cases hm
    case updateFile i index change =>
      simp only [Op.moves] at hm
      split at hm
      · cases hm
        obtain ⟨c'', hk⟩ : ∃ c'', k = .worker id c'' := by
          cases change <;> first | exact made | cases ‹FileChange.moves _ = true›
        exact alone hk
      · cases hm
    case cancelFiles i running =>
      cases running with
      | true =>
        cases hm
        exact made.elim fun _ => alone
      | false => cases hm
  · cases o <;> try cases ho
    case updateDownload i change =>
      simp only [Op.outcome] at ho
      split at ho
      · cases ho
        cases change <;> first
          | exact made.2.elim fun _ => alone
          | exact made.elim fun _ => alone
          | cases ‹DownloadChange.terminal _ = true›
      · cases ho
  · rintro rfl
    exact noBoot made
  · rintro rfl
    exact noBoot made

theorem jobs_keeps (env : Env) : jobs.Keeps (system env)
    (fun p l => Respecting Op.byHandler p l ∧ ClaimsIdle p l) (Working env) where
  may _ _ _ he := ⟨_, (system_exec he).2.1⟩
  exec {p t k o rest c r s ths} hI hok ht he _ := by
    have hst : (system env).step p (.exec t c) = some (p.didCall t k o rest r s ths) := by
      simp [System.step, ht, he]
    have hw := hI.step hok.2 hok.1.overrides hst
    obtain ⟨-, hcall, rfl⟩ := system_exec he
    refine ⟨hw, fun t' th hne hth id c' hk => ⟨?_, ?_⟩, fun th hth _ _ => ?_⟩
    · exact next_le hcall
    · have hk' : p.kindAt t' = some (.worker id c') := hk ▸ kindAt_of hth
      exact kept_or_touched hI ht hcall hok.2 (fun i => hok.1 k o rest i ht) hne hk'
    · obtain ⟨ticket, hk, hb⟩ := reported_begins env hth
      exact job_safe env hb fun id c' e => by rw [hk] at e; cases e
  finish {p t k a} hI hok ht _ := by
    have hst : (system env).step p (.finish t) = some (p.didEnd t k a
        ((system env).finish p.state k a).1 ((system env).finish p.state k a).2) := by
      simp [System.step, ht]
    have hw := hI.step hok.2 hok.1.overrides hst
    refine ⟨hw, fun t' th _ _ id c' _ => ⟨Nat.le_refl _, .inl (.refl id p.state)⟩, fun th hth _ _ => ?_⟩
    refine job_safe env ((system_begins env).finish _ _ _ th hth) fun id c' hk => ?_
    obtain ⟨rfl, rfl⟩ := started_worker hth hk
    exact hI.owned id (.inl ⟨t, ht⟩)
  external {p x s dies ths} hI hok he := by
    have hst : (system env).step p (.external x) = some (p.didOuter x s dies ths) := by
      simp [System.step, he]
    have hw := hI.step hok.2 hok.1.overrides hst
    have hrows := (arrive_keeps he).1
    have hn : p.state.downloads.next ≤ s.downloads.next := by rw [hrows]
    refine ⟨hw, fun t' th _ _ id c' _ => ⟨hn, .inl (.same (by simp only [Event.after, Event.before, hrows]) hn)⟩,
      fun th hth _ _ => job_safe env ((system_begins env).external he th hth) fun id c' hk => ?_⟩
    obtain ⟨r, rfl⟩ | rfl := (arrives he).spawned hth <;> cases hk

end

/-- The outcomes of all activations that have ended. -/
def OutcomesTrue (trace : List DownloadEvent) : Prop :=
  ∀ new t id c a s s' old, trace = new ++ .ended t (.worker id c) a s s' :: old →
    touchedSince t id old = true ∨ ∀ d, s.downloads.rows id = some d → d.Truthful

theorem OutcomesTrue.cons {trace : List DownloadEvent} {e : DownloadEvent} (h : OutcomesTrue trace)
    (he : ∀ t id c a s s', e = .ended t (.worker id c) a s s' → touchedSince t id trace = true ∨
      ∀ d, s.downloads.rows id = some d → d.Truthful) : OutcomesTrue (e :: trace) := by
  intro new t id c a s s' old htrace
  cases new with
  | nil =>
    obtain ⟨rfl, rfl⟩ := List.cons.inj htrace
    exact he t id c a s s' rfl
  | cons f new =>
    obtain ⟨-, rfl⟩ := List.cons.inj htrace
    exact h new t id c a s s' old rfl

/-- When the error handler of `runJob` marks a download as failed, this goes through, and all files
of the download are finished and none is completed. -/
def FailsTruly (p : DownloadPool) : DownloadLabel → Prop
  | .exec t c => ∀ k id message rest, p.threads t = some ⟨k, .call (.updateDownload id (.failed message)) rest⟩ →
      c.failure = none ∧ ∀ d, p.state.downloads.rows id = some d → Fitting .FAILED d.statuses
  | _ => True

/-- What has been recorded of the activations. -/
structure Recounted (p : DownloadPool) : Prop where
  stood : ∀ e ∈ p.trace, ∀ t id, ¬ Fell t id e
  outcomes : OutcomesTrue p.trace

theorem Recounted.step {env : Env} {p p' : DownloadPool} {l : DownloadLabel} (h : Recounted p)
    (hs : jobs.discipline.AllSafe p) (hok : FailsTruly p l) (hst : (system env).step p l = some p') :
    Recounted p' := by
  rcases (system env).step_cases hst with
    ⟨t, k, o, rest, c, r, s, ths, rfl, ht, he, rfl⟩ | ⟨t, k, a, -, ht, rfl⟩ |
    ⟨x, s, dies, ths, -, he, rfl⟩
  · obtain ⟨-, hcall, rfl⟩ := system_exec he
    refine ⟨?_, by rw [Pool.didCall_trace]; exact h.outcomes.cons (by simp)⟩
    rw [Pool.didCall_trace]
    refine List.forall_mem_cons.mpr ⟨fun t' id hf => ?_, h.stood⟩
    unfold Fell at hf
    split at hf
    · rename_i heq
      cases heq
      obtain ⟨-, rfl, d, hd, hnot⟩ := hf
      obtain ⟨hnone, hfit⟩ := hok k _ _ rest ht
      simp only [call, hnone, perform, State.updateRow] at hcall
      split at hcall
      · rename_i hrow
        cases hcall
        rw [hrow] at hd
        cases hd
      · rename_i d' hrow
        obtain rfl := congrArg Prod.snd hcall
        rw [modify_row hrow, if_pos rfl] at hd
        cases hd
        exact hnot (hfit d' hrow)
    · exact hf
  · refine ⟨?_, ?_⟩ <;> rw [Pool.didEnd_trace]
    · exact List.forall_mem_cons.mpr ⟨fun _ _ => id, h.stood⟩
    · refine h.outcomes.cons fun t' id c a' s s' he => ?_
      cases he
      rcases (hs t _ ht p.toWorld .refl) id c rfl with ht | hg | ⟨d, hd, htrue⟩ | ⟨e, he, hf⟩
      · exact .inl ht
      · exact .inr fun d hd => by rw [hg.2] at hd; cases hd
      · refine .inr fun d' hd' => ?_
        rw [hd] at hd'
        cases hd'
        exact htrue
      · exact absurd hf (h.stood e he t id)
  · refine ⟨?_, ?_⟩ <;> rw [Pool.didOuter_trace]
    · exact List.forall_mem_cons.mpr ⟨fun _ _ => id, h.stood⟩
    · exact h.outcomes.cons (by simp)

/-- As long as a thrown error meets a job whose files are all finished and none of them completed,
the status of a job is right about its files when its activation ends. -/
theorem ended_truthful (env : Env) {s : State} (hs : s.Down) {p : DownloadPool}
    (hr : (system env).Runs (fun q l => NotClaimed Op.byHandler q l ∧ ClaimsIdle q l ∧ FailsTruly q l)
      (.initial s) p) : OutcomesTrue p.trace := by
  have hk := (jobs_keeps env).keeps
  have h := respected_run (fun _ _ h => h) env (fun _ _ h => h.1)
    (J := fun q => (Working env q ∧ jobs.discipline.AllSafe q) ∧ Recounted q)
    ⟨⟨.initial env hs, Discipline.allSafe_initial _ s⟩, fun _ h => absurd h List.not_mem_nil,
      fun new _ _ _ _ _ _ _ h => by cases new <;> cases h⟩
    (fun q l q' _ hr' hJ hok hst => ?_) hr
  · exact h.2.2.outcomes
  · exact ⟨hk.step hJ.1 ⟨hr'.respecting hst, hok.2.1⟩ hst, hJ.2.step hJ.1.2 hok.2.2 hst⟩

/-- The newest event is the end of an activation whose job has a wrong status. -/
def endsUntrue : List DownloadEvent → Bool
  | .ended t (.worker id _) _ s _ :: old =>
    !touchedSince t id old && (s.downloads.rows id).any fun d => !decide d.Truthful
  | _ => false

theorem endsUntrue_not {trace : List DownloadEvent} (h : endsUntrue trace = true) :
    ¬ OutcomesTrue trace := by
  intro ht
  unfold endsUntrue at h
  split at h
  · simp only [Bool.and_eq_true, Bool.not_eq_true', Option.any_eq_true, decide_eq_false_iff_not] at h
    obtain ⟨hno, d, hd, hnot⟩ := h
    rcases ht [] _ _ _ _ _ _ _ rfl with ht | htrue
    · rw [ht] at hno
      cases hno
    · exact hnot (htrue d hd)
  · cases h

/-- The only file is completed, `finishJob` cannot read the rows for the totals, and the job is
marked as failed. -/
theorem completed_job_failed : ¬ ∀ (env : Env) (s : State) (p : DownloadPool), s.Down →
    (system env).Runs (fun _ _ => True) (.initial s) p → OutcomesTrue p.trace := by
  intro h
  have hrun : ((system (.small 1)).replay (fun _ _ => true) (.initial oneJob)
      (bootUp ++ calls 2 21 ++ [.exec 2 { failure := some "database is locked" }] ++ calls 2 3 ++
        [.finish 2])).any (fun p => endsUntrue p.trace) = true := by decide
  obtain ⟨p, hp, hn⟩ := Option.any_eq_true _ _ |>.mp hrun
  exact endsUntrue_not hn (h (.small 1) oneJob p oneJob_down
    ((system (.small 1)).replay_runs (fun _ _ _ => trivial) hp))

/-- The error handler is reached only when all files are finished and none is completed. -/
def failsTruly (p : DownloadPool) : DownloadLabel → Bool
  | .exec t c =>
    match p.threads t with
    | some ⟨_, .call (.updateDownload id (.failed _)) _⟩ => c.failure.isNone &&
        (p.state.downloads.rows id).all fun d => decide (Fitting .FAILED d.statuses)
    | _ => true
  | _ => true

theorem failsTruly_prop {p : DownloadPool} {l : DownloadLabel} (h : failsTruly p l = true) :
    FailsTruly p l := by
  cases l with
  | exec t c =>
    intro k id message rest ht
    simp only [failsTruly, ht, Bool.and_eq_true, Option.isNone_iff_eq_none, Option.all_eq_true,
      decide_eq_true_eq] at h
    exact h
  | _ => trivial

/-- The host does not have the only file, and the status cannot be written at first. -/
theorem ended_truthful_failed : ∃ p, (system (.small 1)).Runs
      (fun q l => NotClaimed Op.byHandler q l ∧ ClaimsIdle q l ∧ FailsTruly q l) (.initial oneJob) p ∧
    p.kindAt 2 = none ∧ (p.state.downloads.rows 0).map (·.status) = some .FAILED ∧
    OutcomesTrue p.trace := by
  have hrun : ((system (.small 1)).replay
      (fun p l => (unclaimed Op.byHandler p l && failsTruly p l) && claimsWhenIdle p l) (.initial oneJob)
      (bootUp ++ calls 2 10 ++ [.exec 2 { response := { status := 404 } }] ++ calls 2 7 ++
        [.exec 2 { failure := some "database is locked" }] ++ calls 2 3 ++ [.finish 2])).any (fun p =>
      p.kindAt 2 = none ∧ (p.state.downloads.rows 0).map (·.status) = some .FAILED) = true := by decide
  obtain ⟨p, hp, hn⟩ := Option.any_eq_true _ _ |>.mp hrun
  obtain ⟨hgone, hfailed⟩ := of_decide_eq_true hn
  have hr := claimsWhenIdle_runs (.initial _ oneJob_down) (fun p l h => by
    simp only [Bool.and_eq_true] at h
    exact And.intro (unclaimed_notClaimed h.1) (failsTruly_prop h.2)) hp
  have hr' : (system (.small 1)).Runs
      (fun q l => NotClaimed Op.byHandler q l ∧ ClaimsIdle q l ∧ FailsTruly q l) (.initial oneJob) p :=
    System.Runs.mono _ (fun _ _ h => ⟨h.1.1, h.2, h.1.2⟩) hr
  exact ⟨p, hr', hgone, hfailed, ended_truthful (.small 1) oneJob_down hr'⟩

end CircleFtp.Downloads
