import CircleFtp.Downloads.System

/-! Which task makes which call, and what a call leaves of the memory. -/
namespace CircleFtp.Downloads
open Concurrent Strings

def DownloadChange.MadeBy (id : Nat) : DownloadChange → Task → Prop
  | .totals _ _, _ => True
  | .finish status _, k => status.active = false ∧ ∃ c, k = .worker id c
  | .failed _, k => ∃ c, k = .worker id c
  | .cancelQueued, k | .requestCancel, k => k = .request (.cancel id)

def FileChange.MadeBy (id : Nat) : FileChange → Task → Prop
  | .progress _ _, _ => True
  | _, k => ∃ c, k = .worker id c

/-- A write to a job is made by its worker or by one request about it; only progress and totals
are written by others too. -/
def Op.MadeBy : Op → Task → Prop
  | .claim _, k => k = .drain
  | .createDownload d, k =>
    (∃ seasons, k = .request (.create d.postId seasons)) ∧ ∃ plan, d = plannedRow d.postId plan
  | .updateDownload id change, k => change.MadeBy id k
  | .updateFile id _ change, k => change.MadeBy id k
  | .cancelFiles id true, k => ∃ c, k = .worker id c
  | .cancelFiles id false, k => k = .request (.cancel id)
  | .requeue id, k => k = .request (.retry id)
  | .deleteDownload id, k => ∃ b, k = .request (.delete id b)
  | .requeueRunning, k | .resetRunningFiles, k => k = .boot
  | .remove _, k => (∃ id c, k = .worker id c) ∨ ∃ id, k = .request (.delete id true)
  | .makeParent _, k | .rename _ _, k | .openFile _ _, k | .write _ _ _, k | .request _ _ _, k =>
    ∃ id c, k = .worker id c
  | .report id _ _ _, k => ∃ c, k = .worker id c
  | _, _ => True

/-- The writes that take a job out of the queue, or its row away. -/
def Op.settles : Op → Bool
  | .updateDownload _ (.finish _ _) | .updateDownload _ (.failed _) | .updateDownload _ .cancelQueued
  | .deleteDownload _ => true
  | _ => false

/-- The calls of a worker that leave the job in the queue. -/
def Op.WorksOn (id c : Nat) (o : Op) : Prop := o.MadeBy (.worker id c) ∧ o.settles = false

/-- Only workers and two kinds of requests settle anything. -/
theorem Op.MadeBy.settles {o : Op} {k : Task} (h : o.MadeBy k) (hw : ∀ id c, k ≠ .worker id c)
    (hc : ∀ id, k ≠ .request (.cancel id)) (hd : ∀ id b, k ≠ .request (.delete id b)) :
    o.settles = false := by
  cases o with
  | updateDownload id change =>
    cases change with
    | finish status error => exact absurd h.2.choose_spec (hw id _)
    | failed error => exact absurd h.choose_spec (hw id _)
    | cancelQueued => exact absurd h (hc id)
    | _ => rfl
  | deleteDownload id => exact absurd h.choose_spec (hd id _)
  | _ => rfl

/-- What every task may run, a worker may. -/
theorem worksOn_of_any {α : Type} {m : Flow α} (h : ∀ k, m.run.Uses (Op.MadeBy · k)) (id c : Nat) :
    m.run.Uses (Op.WorksOn id c) :=
  ((h (.worker id c)).and (h .drain)).mono fun _ ho => ⟨ho.1, ho.2.settles nofun nofun nofun⟩

/-- The calls of a transfer. -/
def Op.transfers : Op → Prop
  | .makeParent _ | .fileSize _ | .remove _ | .rename _ _ | .openFile _ _ | .write _ _ _
  | .request _ _ _ | .dump | .aborted _ => True
  | _ => False

theorem Op.transfers.madeBy {o : Op} (h : o.transfers) (id c : Nat) : o.MadeBy (.worker id c) := by
  cases o <;> first
    | exact h.elim
    | trivial
    | exact ⟨id, c, rfl⟩
    | exact .inl ⟨id, c, rfl⟩

theorem Op.transfers.worksOn {o : Op} (h : o.transfers) (id c : Nat) : o.WorksOn id c := by
  refine ⟨h.madeBy id c, ?_⟩
  cases o <;> first | rfl | exact h.elim

/-- A call of a transfer under the abort handle `c`. -/
def Op.TransferOf (o : Op) (c : Nat) : Prop :=
  o.transfers ∧ ∀ url range c', o = .request url range c' → c' = c

/-- The calls that publish a job. -/
def Op.reads : Op → Prop
  | .findDownload _ | .publish _ => True
  | _ => False

theorem Op.reads.madeBy {o : Op} (h : o.reads) (k : Task) : o.MadeBy k := by
  cases o <;> first | exact h.elim | trivial

section
variable {env : Env} {id c : Nat}

theorem publishDownload_reads (event : Nat → Download → ServerEvent) :
    (publishDownload id event).run.Uses Op.reads := by
  refine .except_bind (.invoke trivial) ?_
  rintro (_ | row)
  · trivial
  · exact .invoke trivial

theorem publishDownload_uses (event : Nat → Download → ServerEvent) (k : Task) :
    (publishDownload id event).run.Uses (Op.MadeBy · k) :=
  (publishDownload_reads event).mono fun _ h => h.madeBy k

theorem recomputeTotals_uses (k : Task) : (recomputeTotals id).run.Uses (Op.MadeBy · k) :=
  .except_bind (.invoke trivial) fun _ => .invoke trivial

theorem persistProgress_uses (previous : Option Nat) (index bytes : Nat) (total : Option Nat)
    (k : Task) : (persistProgress previous id index bytes total).run.Uses (Op.MadeBy · k) := by
  have write : (tryCatch (do
      op (.updateFile id index (.progress bytes total))
      recomputeTotals id
      publishDownload id .progress) fun _ => pure () : Flow Unit).run.Uses (Op.MadeBy · k) :=
    .tryCatch (.except_bind (.invoke trivial) fun _ => .except_bind (recomputeTotals_uses k)
      fun _ => publishDownload_uses _ k) fun _ => trivial
  cases previous with
  | none => exact write
  | some ticket => exact .except_bind (.invoke trivial) fun _ => write

theorem checkSpace_uses (bytes : Option Nat) (k : Task) :
    (checkSpace env bytes).run.Uses (Op.MadeBy · k) := .except_bind (.invoke trivial) fun _ => trivial

section
variable {allowed : Op → Prop} {options : FetchOptions}
  (ha : ∀ o, o.TransferOf options.controller → allowed o)
  (h : ∀ n t, (options.onProgress n t).run.Uses allowed)
include ha h

theorem pipeline_uses (file : Nat) (append : Bool) (total : Option Nat) (ending : Option String)
    (body : Bytes) (written : Nat) :
    (pipeline options file append total ending body written).run.Uses allowed := by
  induction body generalizing written with
  | nil => cases ending <;> trivial
  | cons byte body ih =>
    exact .except_bind (h _ _) fun _ => .except_bind (.invoke (ha _ ⟨trivial, nofun⟩)) fun _ => ih (written + 1)

theorem receive_uses (response : Response) (resumeFrom : Nat) :
    (receive options response resumeFrom).run.Uses allowed := by
  refine .except_bind (.tryCatch (.except_bind (.invoke (ha _ ⟨trivial, nofun⟩)) fun _ =>
    pipeline_uses ha h _ _ _ _ _ _) fun error => .except_bind (.invoke (ha _ ⟨trivial, nofun⟩)) fun b => ?_)
    fun n => ?_
  · cases b <;> trivial
  refine .except_bind (h _ _) fun _ => ?_
  have rest : (do
      op (.rename (partPathFor options.destination) options.destination)
      pure ⟨n, false⟩ : Flow FetchResult).run.Uses allowed :=
    .except_bind (.invoke (ha _ ⟨trivial, nofun⟩)) fun _ => trivial
  split
  · trivial
  · exact rest

theorem transfer_uses : (transfer options).run.Uses allowed := by
  refine .except_bind (.invoke (ha _ ⟨trivial, nofun⟩)) fun resumeFrom => ?_
  refine .except_bind (.invoke (ha _ ⟨trivial, by rintro _ _ _ ⟨⟩; rfl⟩)) fun response => ?_
  split
  · exact .except_bind (.invoke (ha _ ⟨trivial, nofun⟩)) fun _ =>
      .except_bind (.invoke (ha _ ⟨trivial, nofun⟩)) fun _ => trivial
  split
  · exact .except_bind (.invoke (ha _ ⟨trivial, nofun⟩)) fun _ => receive_uses ha h _ _
  split
  · exact .except_bind (.invoke (ha _ ⟨trivial, nofun⟩)) fun _ => trivial
  · exact receive_uses ha h _ _

theorem fetchFile_uses : (fetchFile options).run.Uses allowed := by
  refine .except_bind (.invoke (ha _ ⟨trivial, nofun⟩)) fun _ =>
    .except_bind (.invoke (ha _ ⟨trivial, nofun⟩)) fun size => ?_
  split
  · split
    · trivial
    · exact .except_bind (.invoke (ha _ ⟨trivial, nofun⟩)) fun _ => transfer_uses ha h
  · exact transfer_uses ha h

end

theorem processOnce_uses (folderName : Str) (index : Nat) (file : DownloadFile)
    {again : Flow FileOutcome} (h : again.run.Uses (Op.WorksOn id c)) :
    (processOnce env id folderName index file c again).run.Uses (Op.WorksOn id c) := by
  have failing (e : String) : (do
      markFileFailed id index e
      pure .failed : Flow FileOutcome).run.Uses (Op.WorksOn id c) :=
    .except_bind (.invoke ⟨⟨c, rfl⟩, rfl⟩) fun _ => trivial
  have failure (e : Err) :
      (afterFailure env id index file c again e).run.Uses (Op.WorksOn id c) := by
    refine .except_bind (.invoke ⟨trivial, rfl⟩) fun aborted => ?_
    split
    · exact .except_bind (.invoke ⟨⟨c, rfl⟩, rfl⟩) fun _ => trivial
    simp only
    split
    · exact .except_bind (.invoke ⟨⟨c, rfl⟩, rfl⟩) fun _ => .except_bind (.invoke ⟨trivial, rfl⟩) fun _ => h
    · exact failing _
  have trial (destination : Str) (probed : Option Nat) :
      (attempt id index file.url destination probed c).run.Uses (Op.WorksOn id c) :=
    .except_bind (fetchFile_uses (fun _ h => h.1.worksOn id c) fun _ _ => .invoke ⟨⟨c, rfl⟩, rfl⟩) fun _ =>
      .except_bind (.invoke ⟨⟨c, rfl⟩, rfl⟩) fun _ => .except_bind (worksOn_of_any recomputeTotals_uses id c) fun _ =>
        .except_bind (worksOn_of_any (publishDownload_uses _) id c) fun _ => trivial
  have rest (destination : Str) (probed : Option Nat) : (do
      let space ← checkSpace env probed
      if !space.ok then
        markFileFailed id index (noSpace space)
        pure .failed
      else
        op (.updateFile id index .begin)
        tryCatch (attempt id index file.url destination probed c)
          (afterFailure env id index file c again) : Flow FileOutcome).run.Uses
        (Op.WorksOn id c) := by
    refine .except_bind (worksOn_of_any (checkSpace_uses _) id c) fun space => ?_
    split
    · exact failing _
    · exact .except_bind (.invoke ⟨⟨c, rfl⟩, rfl⟩) fun _ => .tryCatch (trial _ _) failure
  rw [processOnce]
  split
  · exact failing _
  split
  · exact .except_bind (m := pure _) trivial fun _ => rest _ _
  · refine .except_bind (.except_bind (.invoke ⟨trivial, rfl⟩) ?_) fun _ => rest _ _
    rintro (_ | size)
    · trivial
    · exact .except_bind (.invoke ⟨⟨c, rfl⟩, rfl⟩) fun _ => trivial

theorem processFile_uses (folderName : Str) (index : Nat) (file : DownloadFile) :
    (processFile env id folderName index c file).run.Uses (Op.WorksOn id c) := by
  rw [processFile]
  generalize env.maxAttempts - file.attempts = n
  induction n generalizing file with
  | zero => exact processOnce_uses folderName index file trivial
  | succ n ih => exact processOnce_uses folderName index file (ih _)

theorem processFiles_uses (folderName : Str) (files : List (DownloadFile × Nat)) :
    (processFiles env id folderName c files).run.Uses (Op.WorksOn id c) := by
  induction files with
  | nil => trivial
  | cons x files ih =>
    rw [processFiles]
    split
    · exact ih
    refine .except_bind (.except_bind (.invoke ⟨trivial, rfl⟩) fun _ => trivial) fun b => ?_
    split
    · trivial
    refine .except_bind (processFile_uses folderName x.2 x.1) fun outcome => ?_
    cases outcome
    · exact ih
    · exact ih
    · trivial

theorem announce_uses (k : Task) : (announce env id).run.Uses (Op.MadeBy · k) := by
  refine .except_bind (.invoke trivial) ?_
  rintro (_ | row)
  · trivial
  · exact .invoke trivial

theorem settleProgressWrites_uses (k : Task) :
    (settleProgressWrites id).run.Uses (Op.MadeBy · k) := by
  refine .except_bind (.invoke trivial) ?_
  rintro (_ | ticket)
  · trivial
  · exact .except_bind (.invoke trivial) fun _ => .invoke trivial

theorem jobOutcome_over (cancelled : Bool) (files : List DownloadFile) :
    (jobOutcome cancelled files).1.active = false := by
  simp only [jobOutcome]
  repeat' split
  all_goals rfl

theorem finishJob_uses (cancelled : Bool) :
    (finishJob env id cancelled).run.Uses (Op.MadeBy · (.worker id c)) := by
  have ending (files : List DownloadFile) : (do
      if 0 < files.countP (·.status = .COMPLETED) then announce env id
      publishDownload id .finished : Flow Unit).run.Uses (Op.MadeBy · (.worker id c)) := by
    split
    · exact .except_bind (announce_uses _) fun _ => publishDownload_uses _ _
    · exact publishDownload_uses _ _
  have rest (files : List DownloadFile) : (do
      recomputeTotals id
      op (.updateDownload id (.finish (jobOutcome cancelled files).1 (jobOutcome cancelled files).2))
      if 0 < files.countP (·.status = .COMPLETED) then announce env id
      publishDownload id .finished : Flow Unit).run.Uses (Op.MadeBy · (.worker id c)) :=
    .except_bind (recomputeTotals_uses _) fun _ =>
      .except_bind (.invoke ⟨jobOutcome_over cancelled files, c, rfl⟩) fun _ => ending _
  refine .except_bind (settleProgressWrites_uses _) fun _ => .except_bind (.invoke trivial) fun row => ?_
  simp only
  split
  · exact .except_bind (.invoke ⟨c, rfl⟩) fun _ => rest _
  · exact rest _

theorem runJob_uses : (runJob env id c).run.Uses (Op.MadeBy · (.worker id c)) := by
  refine .tryCatch (.except_bind (.invoke trivial) ?_) fun e => ?_
  · rintro (_ | row)
    · trivial
    · exact .except_bind (publishDownload_uses _ _) fun _ =>
        .except_bind ((processFiles_uses _ _).mono fun _ h => h.1) fun b => finishJob_uses b
  · exact .except_bind (.tryCatch (.invoke ⟨c, rfl⟩) fun _ => trivial) fun _ =>
      .tryCatch (publishDownload_uses _ _) fun _ => trivial

theorem getDownload_uses (k : Task) : (getDownload id).run.Uses (Op.MadeBy · k) := by
  refine .except_bind (.invoke trivial) ?_
  rintro (_ | row) <;> trivial

theorem createDownload_uses (postId : Nat) (seasons : List Str) :
    (createDownload env postId seasons).run.Uses (Op.MadeBy · (.request (.create postId seasons))) := by
  refine .except_bind (.invoke trivial) ?_
  rintro (_ | row)
  · refine .except_bind (.invoke trivial) fun post => ?_
    simp only
    split
    · trivial
    · exact .except_bind (.invoke ⟨⟨_, rfl⟩, _, rfl⟩) fun _ => .invoke trivial
  · trivial

theorem requestCancel_uses : (requestCancel id).run.Uses (Op.MadeBy · (.request (.cancel id))) := by
  have rest : (do
      publishDownload id .progress
      let _ ← getDownload id : Flow Unit).run.Uses (Op.MadeBy · (.request (.cancel id))) :=
    .except_bind (publishDownload_uses _ _) fun _ => .except_bind (getDownload_uses _) fun _ => trivial
  refine .except_bind (getDownload_uses _) fun download => ?_
  split
  · trivial
  split
  · exact .except_bind (.invoke rfl) fun _ => .except_bind (.invoke rfl) fun _ => rest
  · exact .except_bind (.invoke rfl) fun _ => rest

theorem retryDownload_uses : (retryDownload id).run.Uses (Op.MadeBy · (.request (.retry id))) := by
  refine .except_bind (getDownload_uses _) fun download => ?_
  split
  · trivial
  split
  · trivial
  · exact .except_bind (.invoke rfl) fun _ => .except_bind (publishDownload_uses _ _) fun _ =>
      .except_bind (getDownload_uses _) fun _ => trivial

theorem removeDownloadFiles_uses (folder : Str) (relPaths : List Str) :
    (removeDownloadFiles env folder relPaths).run.Uses (∃ path, · = .remove path) := by
  induction relPaths with
  | nil => trivial
  | cons relPath relPaths ih =>
    rw [removeDownloadFiles]
    split
    · exact ih
    · exact .except_bind (.invoke ⟨_, rfl⟩) fun _ => .except_bind (.invoke ⟨_, rfl⟩) fun _ => ih

theorem deleteDownload_uses (deleteFiles : Bool) : (deleteDownload env id deleteFiles).run.Uses
    (Op.MadeBy · (.request (.delete id deleteFiles))) := by
  have rest : (do
      op (.deleteDownload id)
      op (.publish (.deleted id)) : Flow Unit).run.Uses
        (Op.MadeBy · (.request (.delete id deleteFiles))) :=
    .except_bind (.invoke ⟨_, rfl⟩) fun _ => .invoke trivial
  refine .except_bind (getDownload_uses _) fun download => ?_
  split
  · trivial
  cases deleteFiles with
  | true =>
    refine .except_bind ((removeDownloadFiles_uses _ _).mono ?_) fun _ => rest
    rintro _ ⟨path, rfl⟩
    exact .inr ⟨id, rfl⟩
  | false => exact rest

theorem Request.uses (r : Request) : (r.flow env).run.Uses (Op.MadeBy · (.request r)) := by
  cases r with
  | create postId seasons => exact .tryCatch (createDownload_uses postId seasons) fun _ => trivial
  | cancel id => exact requestCancel_uses
  | retry id => exact retryDownload_uses
  | delete id deleteFiles => exact deleteDownload_uses deleteFiles

theorem drainProgram_uses : drainProgram.Uses (Op.MadeBy · .drain) := by
  refine .bind ?_ fun r => by cases r <;> trivial
  refine .except_bind (.invoke trivial) ?_
  rintro (_ | id)
  · trivial
  · refine .except_bind (.invoke rfl) fun n => ?_
    split <;> trivial

theorem Flow.program_uses {f : Flow Unit} {k : Task} (h : f.run.Uses (Op.MadeBy · k)) :
    f.program.Uses (Op.MadeBy · k) := .bind h fun _ => trivial

theorem Begins.uses {th : DownloadThread} (h : Begins env th) : th.prog.Uses (Op.MadeBy · th.kind) := by
  cases h with
  | boot => exact Flow.program_uses (.except_bind (.invoke rfl) fun _ => .invoke rfl)
  | drain => exact drainProgram_uses
  | worker id c => exact Flow.program_uses runJob_uses
  | release => trivial
  | wake => trivial
  | progress => exact Flow.program_uses (persistProgress_uses _ _ _ _ _)
  | request r => exact Flow.program_uses r.uses

theorem system_uses (env : Env) :
    (system env).Spawns fun th => th.prog.Uses (Op.MadeBy · th.kind) where
  exec he th hth := ((system_begins env).exec he th hth).uses
  finish s k a th hth := ((system_begins env).finish s k a th hth).uses
  external he th hth := ((system_begins env).external he th hth).uses

end

/-- Memories that differ in the progress writes only. -/
structure Memory.Same (m m' : Memory) : Prop where
  phase : m'.phase = m.phase
  running : m'.running = m.running
  draining : m'.draining = m.draining
  stopped : m'.stopped = m.stopped
  aborts : m'.aborts = m.aborts
  aborted : m'.aborted = m.aborted
  controllers : m'.controllers = m.controllers
  settled : m'.settled = m.settled

theorem call_same (s : State) (o : Op) (c : Choice) : s.memory.Same (call s o c).2.memory := by
  have same : s.memory.Same s.memory := ⟨rfl, rfl, rfl, rfl, rfl, rfl, rfl, rfl⟩
  refine call_keep (φ := fun s' => s.memory.Same s'.memory) (fun c => ?_) same c
  cases o
  case report =>
    simp only [perform]
    split
    · exact same
    · exact ⟨rfl, rfl, rfl, rfl, rfl, rfl, rfl, rfl⟩
  case forgetProgress => exact ⟨rfl, rfl, rfl, rfl, rfl, rfl, rfl, rfl⟩
  all_goals
    simp only [perform, State.updateRow, State.updateFile, State.updateMany]
    repeat' split
    all_goals exact same

end CircleFtp.Downloads
