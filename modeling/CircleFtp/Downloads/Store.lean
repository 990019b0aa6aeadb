import CircleFtp.ApiError
import CircleFtp.Concurrent.Pool
import CircleFtp.Concurrent.Table
import CircleFtp.Downloads.Paths
import CircleFtp.Files.Disk
import CircleFtp.Titles.Plan
import Mathlib.Data.List.AList

/-! What the download code works on: the two download tables of the Prisma schema, the files on
disk, the memory of the process, and the atomic calls on them. -/
namespace CircleFtp.Downloads
open Concurrent Files Strings Titles

inductive Status where
  | QUEUED | RUNNING | COMPLETED | PARTIAL | FAILED | CANCELLED
deriving DecidableEq

def Status.active (s : Status) : Bool := s = .QUEUED || s = .RUNNING

inductive FileStatus where
  | PENDING | RUNNING | COMPLETED | FAILED | SKIPPED | CANCELLED
deriving DecidableEq

structure DownloadFile where
  url : Str
  relPath : Str
  label : Str := []
  season : Option Str := none
  episode : Option Nat := none
  status : FileStatus := .PENDING
  sizeBytes : Option Nat := none
  downloadedBytes : Nat := 0
  attempts : Nat := 0
  error : Option String := none
deriving DecidableEq

/-- A download with its files, in their order. -/
structure Download where
  postId : Nat
  folderName : Str
  status : Status := .QUEUED
  totalBytes : Option Nat := none
  downloadedBytes : Nat := 0
  error : Option String := none
  cancelRequested : Bool := false
  files : List DownloadFile
deriving DecidableEq

/-- The writes that name one download. -/
inductive DownloadChange where
  | totals (downloadedBytes : Nat) (totalBytes : Option Nat)
  | finish (status : Status) (error : Option String)
  | failed (error : String)
  | cancelQueued
  | requestCancel
deriving DecidableEq

def DownloadChange.apply (change : DownloadChange) (d : Download) : Download :=
  match change with
  | .totals downloadedBytes totalBytes => { d with downloadedBytes, totalBytes }
  | .finish status error => { d with status, error, cancelRequested := false }
  | .failed error => { d with status := .FAILED, error := some error }
  | .cancelQueued => { d with status := .CANCELLED, cancelRequested := true }
  | .requestCancel => { d with cancelRequested := true }

/-- The writes that name one file. -/
inductive FileChange where
  | size (bytes : Nat)
  | begin
  | complete (bytes : Nat)
  | cancelled
  | pending (error : String)
  | failed (error : String)
  | progress (bytesOnDisk : Nat) (totalBytes : Option Nat)
deriving DecidableEq

def FileChange.apply (change : FileChange) (f : DownloadFile) : DownloadFile :=
  match change with
  | .size bytes => { f with sizeBytes := some bytes }
  | .begin => { f with status := .RUNNING, attempts := f.attempts + 1, error := none }
  | .complete bytes =>
    { f with status := .COMPLETED, downloadedBytes := bytes, sizeBytes := some bytes, error := none }
  | .cancelled => { f with status := .CANCELLED }
  | .pending error => { f with status := .PENDING, error := some error }
  | .failed error => { f with status := .FAILED, error := some (String.ofList (error.toList.take 500)) }
  | .progress bytesOnDisk totalBytes =>
    { f with downloadedBytes := bytesOnDisk, sizeBytes := totalBytes.or f.sizeBytes }

/-- `updateMany` of the pending files, and of the running ones if asked for. -/
def Download.cancelFiles (running : Bool) (d : Download) : Download :=
  { d with files := d.files.map fun f =>
      if f.status = .PENDING ∨ (running ∧ f.status = .RUNNING) then { f with status := .CANCELLED }
      else f }

/-- The transaction of a retry. -/
def Download.requeue (d : Download) : Download :=
  { d with
    status := .QUEUED, error := none, cancelRequested := false
    files := d.files.map fun f =>
      if f.status = .COMPLETED then f else { f with status := .PENDING, error := none, attempts := 0 } }

/-- The second half of `recoverFromCrash`. -/
def Download.resetFiles (d : Download) : Download :=
  { d with files := d.files.map fun f =>
      if f.status = .RUNNING then { f with status := .PENDING } else f }

inductive ServerEvent where
  | created (id : Nat) (download : Download)
  | progress (id : Nat) (download : Download)
  | finished (id : Nat) (download : Download)
  | deleted (id : Nat)
deriving DecidableEq

/-- Whether the server takes requests: it starts to after the recovery at boot. -/
inductive Phase where
  | down | booting | up
deriving DecidableEq

/-- The memory of the process. `aborts` holds the abort handles of the jobs in flight; progress
writes are chained per job, each behind the ticket of the one before it. -/
structure Memory where
  phase : Phase := .down
  running : Int := 0
  draining : Bool := false
  stopped : Bool := false
  aborts : AList fun _ : Nat => Nat := ∅
  aborted : Nat → Bool := fun _ => false
  controllers : Nat := 0
  progressWrites : Nat → Option Nat := fun _ => none
  tickets : Nat := 0
  settled : Nat → Bool := fun _ => false

abbrev Bytes := List UInt8

/-- The disk has the files. Directories are not part of the state: they are made as they are needed,
and only empty ones are removed. -/
structure State where
  downloads : Table Download
  disk : Disk Str UInt8
  memory : Memory

/-- A response of the file host. The body may break off with an error. -/
structure Response where
  status : Nat := 200
  contentRange : Str := []
  contentLength : Option Nat := none
  body : Bytes := []
  ending : Option String := none

inductive Err where
  | api (e : ApiError)
  | upstream (status : Option Nat) (message : String)
  | cancelled
  | error (message : String)
deriving DecidableEq

def Err.message : Err → String
  | .api e => e.message
  | .upstream _ message | .error message => message
  | .cancelled => "Download cancelled"

structure Env where
  js : Platform
  media : MediaRoot
  concurrency : Nat
  maxAttempts : Nat
  minFreeGib : Rat

inductive Op where
  | findDownload (id : Nat)
  | findQueued
  | findActive (postId : Nat)
  | claim (id : Nat)
  | createDownload (download : Download)
  | updateDownload (id : Nat) (change : DownloadChange)
  | updateFile (id index : Nat) (change : FileChange)
  | cancelFiles (id : Nat) (running : Bool)
  | requeue (id : Nat)
  | deleteDownload (id : Nat)
  | requeueRunning
  | resetRunningFiles
  | makeParent (path : Str)
  | fileSize (path : Str)
  | remove (path : Str)
  | rename (old new : Str)
  | openFile (path : Str) (append : Bool)
  | write (file : Nat) (position : Option Nat) (byte : UInt8)
  | freeBytes
  | probeSize (url : Str)
  | request (url : Str) (range : Option Nat) (controller : Nat)
  | dump
  | fetchPost (postId : Nat)
  | postProcess (titleDir : Str)
  | delay (ms : Nat)
  | aborted (controller : Nat)
  | report (id index bytesOnDisk : Nat) (totalBytes : Option Nat)
  | progressWrite (id : Nat)
  | settle (ticket : Nat)
  | forgetProgress (id : Nat)
  | publish (event : ServerEvent)
deriving DecidableEq

abbrev Val : Op → Type
  | .findDownload _ => Option Download
  | .findQueued | .findActive _ => Option Nat
  | .claim _ | .createDownload _ => Nat
  | .fileSize _ | .openFile _ _ => Nat
  | .freeBytes | .probeSize _ | .progressWrite _ => Option Nat
  | .request _ _ _ => Response
  | .fetchPost _ => RawPost
  | .aborted _ => Bool
  | _ => Unit

abbrev Reply (op : Op) : Type := Except Err (Val op)

/-- What the surroundings decide about one call: a failure, what the hosts answer, the free space
(unknown when it cannot be read), whether the clock suppresses a progress write. -/
structure Choice where
  failure : Option String := none
  response : Response := {}
  post : Except (Option Nat × String) RawPost := .ok {}
  size : Option Nat := none
  free : Option Nat := none
  throttled : Bool := true

namespace State

def missing : Err := .error "Record to update not found."

/-- A write to one download throws when there is no such row. -/
def updateRow (s : State) (id : Nat) (f : Download → Download) : Except Err Unit × State :=
  match s.downloads.rows id with
  | none => (.error missing, s)
  | some _ => (.ok (), { s with downloads := s.downloads.modify id f })

def updateFile (s : State) (id index : Nat) (change : FileChange) : Except Err Unit × State :=
  match (s.downloads.rows id).bind (·.files[index]?) with
  | none => (.error missing, s)
  | some _ =>
    (.ok (), { s with downloads := s.downloads.modify id fun d =>
      { d with files := d.files.modify index change.apply } })

def updateMany (s : State) (f : Nat → Download → Download) : State :=
  { s with downloads := s.downloads.mapMany fun i d => some (f i d) }

end State

/-- The effect of a call that is carried out. -/
def perform (s : State) (c : Choice) : (op : Op) → Reply op × State
  | .findDownload id => (.ok (s.downloads.rows id), s)
  | .findQueued => (.ok (s.downloads.findFirst fun _ d => d.status = .QUEUED), s)
  | .findActive postId =>
    (.ok (s.downloads.findFirst fun _ d => d.postId = postId && d.status.active), s)
  | .claim id =>
    let claims := fun (i : Nat) (d : Download) => decide (i = id) && decide (d.status = .QUEUED)
    (.ok (s.downloads.count claims),
      s.updateMany fun i d => if claims i d then { d with status := .RUNNING } else d)
  | .createDownload d => (.ok s.downloads.next, { s with downloads := s.downloads.insert d })
  | .updateDownload id change => s.updateRow id change.apply
  | .updateFile id index change => s.updateFile id index change
  | .cancelFiles id running =>
    (.ok (), s.updateMany fun i d => if i = id then d.cancelFiles running else d)
  | .requeue id => s.updateRow id Download.requeue
  | .deleteDownload id =>
    match s.downloads.rows id with
    | none => (.error State.missing, s)
    | some _ => (.ok (), { s with downloads := s.downloads.erase id })
  | .requeueRunning =>
    (.ok (), s.updateMany fun _ d => if d.status = .RUNNING then { d with status := .QUEUED } else d)
  | .resetRunningFiles => (.ok (), s.updateMany fun _ d => d.resetFiles)
  | .makeParent _ => (.ok (), s)
  | .fileSize path => (.ok (if c.failure.isSome then 0 else s.disk.size path), s)
  | .remove path => (.ok (), { s with disk := s.disk.remove path })
  | .rename old new =>
    match s.disk.links old with
    | none => (.error (.error "ENOENT: no such file or directory, rename"), s)
    | some _ => (.ok (), { s with disk := s.disk.rename old new })
  | .openFile path append =>
    (.ok (s.disk.openFile path append).1, { s with disk := (s.disk.openFile path append).2 })
  | .write file position byte => (.ok (), { s with disk := s.disk.write file position byte })
  | .freeBytes => (.ok c.free, s)
  | .probeSize _ => (.ok c.size, s)
  | .request _ _ controller =>
    if s.memory.aborted controller then (.error (.error "This operation was aborted"), s)
    else (.ok c.response, s)
  | .dump => (.ok (), s)
  | .fetchPost _ =>
    match c.post with
    | .ok post => (.ok post, s)
    | .error (status, message) => (.error (.upstream status message), s)
  | .postProcess _ => (.ok (), s)
  | .delay _ => (.ok (), s)
  | .aborted controller => (.ok (s.memory.aborted controller), s)
  | .report id _ _ _ =>
    (.ok (), if c.throttled then s else
      { s with memory := { s.memory with
          progressWrites := Function.update s.memory.progressWrites id (some s.memory.tickets)
          tickets := s.memory.tickets + 1 } })
  | .progressWrite id => (.ok (s.memory.progressWrites id), s)
  | .settle _ => (.ok (), s)
  | .forgetProgress id =>
    (.ok (), { s with memory := { s.memory with
      progressWrites := Function.update s.memory.progressWrites id none } })
  | .publish _ => (.ok (), s)

/-- Calls that catch their own failures or stay within the process. -/
def Op.total : Op → Bool
  | .fileSize _ | .freeBytes | .probeSize _ | .fetchPost _ | .postProcess _ | .delay _
  | .aborted _ | .report _ _ _ _ | .progressWrite _ | .settle _ | .forgetProgress _
  | .publish _ => true
  | _ => false

/-- Any other call may fail instead, and then nothing has happened. -/
def call (s : State) (op : Op) (c : Choice) : Reply op × State :=
  match c.failure with
  | some message => if op.total then perform s c op else (.error (.error message), s)
  | none => perform s c op

/-- The calls on the database. -/
def Op.onDatabase : Op → Bool
  | .findDownload _ | .findQueued | .findActive _ | .claim _ | .createDownload _
  | .updateDownload _ _ | .updateFile _ _ _ | .cancelFiles _ _ | .requeue _ | .deleteDownload _
  | .requeueRunning | .resetRunningFiles => true
  | _ => false

/-- If the call is on the database, it does not fail. -/
def DatabaseAnswers (o : Op) (c : Choice) : Prop := o.onDatabase = true → c.failure = none

/-- A wait for a progress write ends when the write has settled. -/
def blocked (s : State) : Op → Bool
  | .settle ticket => !s.memory.settled ticket
  | _ => false

theorem call_cases (s : State) (o : Op) (c : Choice) :
    (∃ message, call s o c = (.error (.error message), s)) ∨ call s o c = perform s c o := by
  simp only [call]
  split
  · split
    · exact .inr rfl
    · exact .inl ⟨_, rfl⟩
  · exact .inr rfl

theorem DatabaseAnswers.performed {s : State} {o : Op} {c : Choice} (h : DatabaseAnswers o c)
    (ho : o.onDatabase = true) : call s o c = perform s c o := by
  rw [call, h ho]

/-- A call that cannot fail is carried out. -/
theorem call_total {s : State} {o : Op} {c : Choice} (h : o.total = true) : call s o c = perform s c o := by
  simp only [call, h, if_true]
  split <;> rfl

theorem call_ok {s s' : State} {o : Op} {c : Choice} {a : Val o}
    (h : call s o c = (.ok a, s')) : perform s c o = (.ok a, s') := by
  rcases call_cases s o c with ⟨m, hm⟩ | hp
  · rw [hm] at h
    simp at h
  · rwa [hp] at h

/-- What every effect keeps, a call keeps: a failed call does nothing. -/
theorem call_keep {s : State} {o : Op} {φ : State → Prop} (h : ∀ c, φ (perform s c o).2)
    (hs : φ s) (c : Choice) : φ (call s o c).2 := by
  rcases call_cases s o c with ⟨m, hm⟩ | hp
  · rwa [hm]
  · rw [hp]
    exact h c

end CircleFtp.Downloads
