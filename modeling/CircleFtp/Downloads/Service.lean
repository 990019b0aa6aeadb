import CircleFtp.Downloads.Queue

/-! Download job lifecycle: `downloads/service.ts` and the routes of `routes/downloads.ts`. -/
namespace CircleFtp.Downloads
open Concurrent Strings Titles

def fail {α : Type} (e : ApiError) : Flow α := throw (.api e)

def getDownload (id : Nat) : Flow Download := do
  match ← op (.findDownload id) with
  | none => fail (.notFound "No such download")
  | some row => pure row

def plannedRow (postId : Nat) (plan : DownloadPlan) : Download where
  postId := postId
  folderName := plan.folder
  files := plan.files.map fun file =>
    { url := file.url, relPath := file.relPath, label := file.label, season := file.season,
      episode := file.episode }

def createDownload (env : Env) (postId : Nat) (seasons : List Str) : Flow Unit := do
  match ← op (.findActive postId) with
  | some _ => fail (.conflict "already_queued"
      "That title is already downloading. Check the Downloads page.")
  | none => do
    let post ← op (.fetchPost postId)
    let plan := buildPlan env.js post seasons
    if plan.files = [] then
      fail (.badRequest (if seasons ≠ [] then "No episodes matched the seasons you picked"
        else "Circle FTP lists no downloadable files for that title"))
    else
      let row := plannedRow postId plan
      let id ← op (.createDownload row)
      op (.publish (.created id row))

def requestCancel (id : Nat) : Flow Unit := do
  let download ← getDownload id
  if !download.status.active then
    fail (.conflict "not_active" "That download has already finished")
  else
    if download.status = .QUEUED then
      -- nothing is running it, so it is finished here
      op (.updateDownload id .cancelQueued)
      op (.cancelFiles id false)
    else op (.updateDownload id .requestCancel)
    publishDownload id .progress
    let _ ← getDownload id

/-- Queue the files again that did not succeed. -/
def retryDownload (id : Nat) : Flow Unit := do
  let download ← getDownload id
  if download.status.active then
    fail (.conflict "already_active" "That download is already in progress")
  else if download.files.all (·.status = .COMPLETED) then
    fail (.conflict "nothing_to_retry" "Every file in that download already completed")
  else
    op (.requeue id)
    publishDownload id .progress
    let _ ← getDownload id

/-- The files; `MediaRoot.removeDownloadFiles` has the directories too. -/
def removeDownloadFiles (env : Env) (folder : Str) : List Str → Flow Unit
  | [] => pure ()
  | relPath :: relPaths => do
    match resolveDestination env.media folder relPath with
    | .error _ => removeDownloadFiles env folder relPaths
    | .ok destination => do
      op (.remove destination)
      op (.remove (partPathFor destination))
      removeDownloadFiles env folder relPaths

def deleteDownload (env : Env) (id : Nat) (deleteFiles : Bool) : Flow Unit := do
  let download ← getDownload id
  if download.status.active then
    fail (.conflict "still_active" "Cancel the download before deleting it")
  else
    if deleteFiles then
      removeDownloadFiles env download.folderName (download.files.map (·.relPath))
    op (.deleteDownload id)
    op (.publish (.deleted id))

inductive Request where
  | create (postId : Nat) (seasons : List Str)
  | cancel (id : Nat)
  | retry (id : Nat)
  | delete (id : Nat) (deleteFiles : Bool)
deriving DecidableEq

/-- What a failed look-up upstream is reported as. -/
def upstreamError : Err → Err
  | .upstream (some 404) _ => .api (.notFound "That title is no longer on Circle FTP")
  | .upstream _ message => .api (.upstream message)
  | e => e

def Request.flow (env : Env) : Request → Flow Unit
  | .create postId seasons =>
    tryCatch (createDownload env postId seasons) fun e => throw (upstreamError e)
  | .cancel id => requestCancel id
  | .retry id => retryDownload id
  | .delete id deleteFiles => deleteDownload env id deleteFiles

end CircleFtp.Downloads
