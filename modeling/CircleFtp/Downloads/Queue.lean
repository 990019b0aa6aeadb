import CircleFtp.Downloads.Fetcher
import Mathlib.Data.Rat.Floor

/-! The download worker: `downloads/queue.ts`, with the space check of `downloads/paths.ts`. -/
namespace CircleFtp.Downloads
open Concurrent Strings

/-- Emit the current state of one job to every listener. -/
def publishDownload (id : Nat) (event : Nat → Download → ServerEvent) : Flow Unit := do
  match ← op (.findDownload id) with
  | none => pure ()
  | some row => op (.publish (event id row))

/-- Roll the per-file numbers up to the job; the total is unknown until every size is known. -/
def recomputeTotals (id : Nat) : Flow Unit := do
  let files := ((← op (.findDownload id)).map (·.files)).getD []
  let total := if files.all (·.sizeBytes.isSome) then some (files.map (·.sizeBytes.getD 0)).sum
    else none
  op (.updateDownload id (.totals (files.map (·.downloadedBytes)).sum total))

/-- A progress write, behind the one before it. It never fails. -/
def persistProgress (previous : Option Nat) (id index bytesOnDisk : Nat)
    (totalBytes : Option Nat) : Flow Unit := do
  match previous with
  | none => pure ()
  | some ticket => op (.settle ticket)
  tryCatch
    (do
      op (.updateFile id index (.progress bytesOnDisk totalBytes))
      recomputeTotals id
      publishDownload id .progress)
    fun _ => pure ()

structure SpaceCheck where
  ok : Bool
  free : Option Nat
  required : Rat

/-- Would the bytes take the disk below the configured floor? -/
def checkSpace (env : Env) (incomingBytes : Option Nat) : Flow SpaceCheck := do
  let free ← op .freeBytes
  let required : Rat := (incomingBytes.getD 0 : Nat) + env.minFreeGib * 1024 ^ 3
  pure ⟨free.all fun n => decide (required ≤ n), free, required⟩

/-- One digit after the point, as `toFixed(1)` rounds. -/
def formatGib (bytes : Rat) : String :=
  let tenths := (bytes / 1024 ^ 3 * 10 + 1 / 2).floor
  s!"{tenths / 10}.{tenths % 10} GiB"

def noSpace (space : SpaceCheck) : String :=
  let free := match space.free with
    | none => "unknown"
    | some n => formatGib n
  let required := formatGib space.required
  s!"Not enough disk space ({free} free, needs {required})"

inductive FileOutcome where
  | done | failed | cancelled
deriving DecidableEq

def markFileFailed (id index : Nat) (error : String) : Flow Unit :=
  op (.updateFile id index (.failed error))

def probeAndStore (id index : Nat) (url : Str) : Flow (Option Nat) := do
  match ← op (.probeSize url) with
  | none => pure none
  | some size => do
    op (.updateFile id index (.size size))
    pure (some size)

/-- The body of the `try` in `processFile`. -/
def attempt (id index : Nat) (url destination : Str) (probed : Option Nat) (controller : Nat) :
    Flow FileOutcome := do
  let result ← fetchFile
    { url, destination, expectedSize := probed, controller
      onProgress := fun bytesOnDisk totalBytes => op (.report id index bytesOnDisk totalBytes) }
  op (.updateFile id index (.complete result.bytes))
  recomputeTotals id
  publishDownload id .progress
  pure .done

/-- The body of the `catch`: the outcome of a failed attempt, or another one. -/
def afterFailure (env : Env) (id index : Nat) (file : DownloadFile) (controller : Nat)
    (again : Flow FileOutcome) (error : Err) : Flow FileOutcome := do
  let aborted ← op (.aborted controller)
  if error = .cancelled ∨ aborted then
    op (.updateFile id index .cancelled)
    pure .cancelled
  else
    let attempts := file.attempts + 1
    if attempts < env.maxAttempts then
      op (.updateFile id index (.pending error.message))
      op (.delay (min (attempts * 2000) 15000))
      again
    else
      markFileFailed id index error.message
      pure .failed

/-- One round of `processFile`, with what follows a failed attempt. -/
def processOnce (env : Env) (id : Nat) (folderName : Str) (index : Nat) (file : DownloadFile)
    (controller : Nat) (again : Flow FileOutcome) : Flow FileOutcome := do
  match resolveDestination env.media folderName file.relPath with
  | .error error => do
    markFileFailed id index error.message
    pure .failed
  | .ok destination => do
    let probed ← match file.sizeBytes with
      | some size => pure (some size)
      | none => probeAndStore id index file.url
    let space ← checkSpace env probed
    if !space.ok then
      markFileFailed id index (noSpace space)
      pure .failed
    else
      op (.updateFile id index .begin)
      tryCatch (attempt id index file.url destination probed controller)
        (afterFailure env id index file controller again)

/-- `processFile` with a bound on the rounds that is never reached. -/
def processRounds (env : Env) (id : Nat) (folderName : Str) (index controller : Nat) :
    Nat → DownloadFile → Flow FileOutcome
  | 0, file => processOnce env id folderName index file controller (pure .failed)
  | n + 1, file => processOnce env id folderName index file controller
      (processRounds env id folderName index controller n { file with attempts := file.attempts + 1 })

def processFile (env : Env) (id : Nat) (folderName : Str) (index controller : Nat)
    (file : DownloadFile) : Flow FileOutcome :=
  processRounds env id folderName index controller (env.maxAttempts - file.attempts) file

/-- Another round follows exactly as long as attempts are left. -/
theorem processFile_eq (env : Env) (id : Nat) (folderName : Str) (index controller : Nat)
    (file : DownloadFile) : processFile env id folderName index controller file =
      processOnce env id folderName index file controller
        (processFile env id folderName index controller
          { file with attempts := file.attempts + 1 }) := by
  by_cases h : file.attempts + 1 < env.maxAttempts
  · obtain ⟨n, hn⟩ : ∃ n, env.maxAttempts - file.attempts = n + 1 :=
      ⟨env.maxAttempts - file.attempts - 1, by omega⟩
    have hn' : env.maxAttempts - (file.attempts + 1) = n := by omega
    simp only [processFile, hn, hn', processRounds]
  · have failure (again again' : Flow FileOutcome) :
        afterFailure env id index file controller again =
          afterFailure env id index file controller again' := by
      funext error
      simp only [afterFailure, h, if_false]
    have last (again again' : Flow FileOutcome) :
        processOnce env id folderName index file controller again =
          processOnce env id folderName index file controller again' := by
      simp only [processOnce, failure again again']
    simp only [processFile]
    cases env.maxAttempts - file.attempts <;> exact last _ _

def isCancelled (id : Nat) : Flow Bool := do
  let row ← op (.findDownload id)
  pure ((row.map (·.cancelRequested)).getD false)

/-- The loop over the files; the result says whether it was cancelled. -/
def processFiles (env : Env) (id : Nat) (folderName : Str) (controller : Nat) :
    List (DownloadFile × Nat) → Flow Bool
  | [] => pure false
  | (file, index) :: files => do
    if file.status = .COMPLETED then processFiles env id folderName controller files
    else if ← isCancelled id then pure true
    else
      match ← processFile env id folderName index controller file with
      | .cancelled => pure true
      | _ => processFiles env id folderName controller files

def settleProgressWrites (id : Nat) : Flow Unit := do
  match ← op (.progressWrite id) with
  | none => pure ()
  | some ticket => do
    op (.settle ticket)
    op (.forgetProgress id)

/-- The status a job ends with, and its error. -/
def jobOutcome (cancelled : Bool) (files : List DownloadFile) : Status × Option String :=
  let completed := files.countP (·.status = .COMPLETED)
  let failed := files.countP (·.status = .FAILED)
  if cancelled then (.CANCELLED, none)
  else if completed = files.length then (.COMPLETED, none)
  else if 0 < completed then
    (.PARTIAL, some s!"{failed} of {files.length} files could not be downloaded")
  else (.FAILED, some "No files could be downloaded")

/-- Tell the media servers about the folder of the job. -/
def announce (env : Env) (id : Nat) : Flow Unit := do
  match ← op (.findDownload id) with
  | none => pure ()
  | some download => op (.postProcess (join env.media.path download.folderName))

def finishJob (env : Env) (id : Nat) (cancelled : Bool) : Flow Unit := do
  settleProgressWrites id
  let files := ((← op (.findDownload id)).map (·.files)).getD []
  if cancelled then op (.cancelFiles id true)
  recomputeTotals id
  op (.updateDownload id (.finish (jobOutcome cancelled files).1 (jobOutcome cancelled files).2))
  if 0 < files.countP (·.status = .COMPLETED) then announce env id
  publishDownload id .finished

def processJob (env : Env) (id controller : Nat) : Flow Unit := do
  match ← op (.findDownload id) with
  | none => pure ()
  | some download => do
    publishDownload id .progress
    let cancelled ← processFiles env id download.folderName controller download.files.zipIdx
    finishJob env id cancelled

/-- Everything of `runJob` up to its `finally`. -/
def runJob (env : Env) (id controller : Nat) : Flow Unit :=
  tryCatch (processJob env id controller) fun error => do
    tryCatch (op (.updateDownload id (.failed error.message))) fun _ => pure ()
    tryCatch (publishDownload id .finished) fun _ => pure ()

inductive Result where
  | ended (r : Except Err Unit)
  | stop
  | again
  | start (id : Nat)
deriving DecidableEq

/-- One round of the loop in `drain`. -/
def drainRound : Flow Result := do
  match ← op .findQueued with
  | none => pure .stop
  | some id => do
    let count ← op (.claim id)
    if count = 0 then pure .again else pure (.start id)

def recoverFromCrash : Flow Unit := do
  op .requeueRunning
  op .resetRunningFiles

end CircleFtp.Downloads
