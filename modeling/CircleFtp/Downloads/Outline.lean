import CircleFtp.Concurrent.Triple
import CircleFtp.Downloads.Rows

/-! The worker between its calls: where it can stand, which call leads where, and the rule that
assertions which every call carries on hold throughout `runJob`. -/
namespace CircleFtp.Downloads
open Concurrent Strings

/-- The file that the worker is at, as it goes on with it, and the files after it. -/
structure Spot where
  folder : Str
  file : DownloadFile
  index : Nat
  rest : List (DownloadFile × Nat)

/-- The same file after another attempt. -/
def Spot.again (x : Spot) : Spot := { x with file := { x.file with attempts := x.file.attempts + 1 } }

def Spot.resolved (env : Env) (x : Spot) : Except ApiError Str :=
  resolveDestination env.media x.folder x.file.relPath

inductive Stage where
  | reading
  | between (folder : Str) (files : List (DownloadFile × Nat))
  | checked (x : Spot)
  | probed (x : Spot) (size : Nat)
  | sized (x : Spot) (probed : Option Nat)
  | cleared (x : Spot) (probed : Option Nat)
  | refused (x : Spot)
  | trying (x : Spot) (destination : Str) (probed : Option Nat)
  | fetched (x : Spot) (result : FetchResult)
  | completed (x : Spot)
  | summed (x : Spot) (files : List DownloadFile)
  | recorded (x : Spot)
  | shown (x : Spot)
  | failing (x : Spot) (e : Err)
  | givingUp (x : Spot)
  | pausing (x : Spot)
  | waiting (x : Spot)
  | over (cancelled : Bool)
  | awaiting (cancelled : Bool) (ticket : Nat)
  | awaited (cancelled : Bool)
  | settled (cancelled : Bool)
  | decided (cancelled : Bool) (files : List DownloadFile)
  | cleaned (cancelled : Bool) (files : List DownloadFile)
  | totalled (cancelled : Bool) (files latest : List DownloadFile)
  | finishing (cancelled : Bool) (files : List DownloadFile)
  | written
  | thrown
  | ended

namespace Stage

/-- The file that the worker is at. -/
def spot : Stage → Option Spot
  | .checked x | .probed x _ | .sized x _ | .cleared x _ | .refused x | .trying x _ _ | .fetched x _
  | .completed x | .summed x _ | .recorded x | .shown x | .failing x _ | .givingUp x | .pausing x
  | .waiting x => some x
  | _ => none

/-- The files after it. -/
def rest : Stage → List (DownloadFile × Nat)
  | .between _ files => files
  | s => (s.spot.map (·.rest)).getD []

/-- The number of the file that is not completed yet. -/
def working : Stage → Option Nat
  | .completed _ | .summed _ _ | .recorded _ | .shown _ => none
  | s => s.spot.map (·.index)

/-- The numbers of the files that are not completed, as far as the worker has read. -/
def todo (s : Stage) : List Nat :=
  s.working.toList ++ (s.rest.filter (·.1.status ≠ .COMPLETED)).map Prod.snd

/-- The numbers of the files that the worker is at or has before it. -/
def indices (s : Stage) : List Nat := (s.spot.map (·.index)).toList ++ s.rest.map Prod.snd

/-- The stages at which the job is published. -/
def publishes : Stage → Bool
  | .between _ _ | .recorded _ | .written | .ended => true
  | _ => false

/-- Before the worker writes the outcome. -/
def live : Stage → Bool
  | .written | .thrown | .ended => false
  | _ => true

/-- The stage after the row has been read to publish it. -/
def onShow : Stage → Stage
  | .recorded x => .shown x
  | s => s

/-- Where an error of a call leads: to the `catch` in `processFile`, or to the one in `runJob`,
which catches its own. -/
def onError (e : Err) : Stage → Stage
  | .fetched x _ | .completed x | .summed x _ | .recorded x | .shown x => .failing x e
  | .thrown | .ended => .ended
  | _ => .thrown

theorem onShow_onError (s : Stage) (e : Err) : s.onShow.onError e = s.onError e := by
  cases s <;> rfl

end Stage

/-- The totals that `recomputeTotals` writes. -/
def DownloadChange.sums (files : List DownloadFile) : DownloadChange :=
  .totals (files.map (·.downloadedBytes)).sum
    (if files.all (·.sizeBytes.isSome) then some (files.map (·.sizeBytes.getD 0)).sum else none)

/-- A read row as a list of files. -/
def filesOf (row : Option Download) : List DownloadFile := (row.map (·.files)).getD []

/-- Steps of the worker without a call. -/
inductive Silent (env : Env) : Stage → Stage → Prop where
  | skip (folder : Str) (file : DownloadFile) (index : Nat) (rest : List (DownloadFile × Nat))
      (h : file.status = .COMPLETED) :
      Silent env (.between folder ((file, index) :: rest)) (.between folder rest)
  | done (folder : Str) : Silent env (.between folder []) (.over false)
  | unresolved (x : Spot) (e : ApiError) (h : x.resolved env = .error e) :
      Silent env (.checked x) (.refused x)
  | known (x : Spot) (n : Nat) (h : x.file.sizeBytes = some n) :
      Silent env (.checked x) (.sized x (some n))
  | next (x : Spot) : Silent env (.shown x) (.between x.folder x.rest)
  | keep (files : List DownloadFile) : Silent env (.decided false files) (.cleaned false files)
  | close : Silent env .written .ended

/-- The calls of the worker with their results, apart from those of the transfer. -/
inductive Next (env : Env) (id c : Nat) : Stage → (o : Op) → Val o → Stage → Prop where
  | missing : Next env id c .reading (.findDownload id) none .ended
  | found (d : Download) : Next env id c .reading (.findDownload id) (some d)
      (.between d.folderName d.files.zipIdx)
  | look (s : Stage) (row : Option Download) (h : s.publishes = true) :
      Next env id c s (.findDownload id) row s.onShow
  | tell (s : Stage) (event : ServerEvent) (h : s.publishes = true) :
      Next env id c s.onShow (.publish event) () s.onShow
  | stop (x : Spot) (row : Option Download) (hc : x.file.status ≠ .COMPLETED)
      (h : row.any (·.cancelRequested) = true) :
      Next env id c (.between x.folder ((x.file, x.index) :: x.rest)) (.findDownload id) row (.over true)
  | go (x : Spot) (row : Option Download) (hc : x.file.status ≠ .COMPLETED)
      (h : row.any (·.cancelRequested) = false) :
      Next env id c (.between x.folder ((x.file, x.index) :: x.rest)) (.findDownload id) row (.checked x)
  | unknown (x : Spot) (h : x.file.sizeBytes = none) :
      Next env id c (.checked x) (.probeSize x.file.url) none (.sized x none)
  | probe (x : Spot) (n : Nat) (h : x.file.sizeBytes = none) :
      Next env id c (.checked x) (.probeSize x.file.url) (some n) (.probed x n)
  | store (x : Spot) (n : Nat) :
      Next env id c (.probed x n) (.updateFile id x.index (.size n)) () (.sized x (some n))
  | room (x : Spot) (probed free : Option Nat)
      (h : free.all (fun n => decide ((probed.getD 0 : Nat) + env.minFreeGib * 1024 ^ 3 ≤ n)) = true) :
      Next env id c (.sized x probed) .freeBytes free (.cleared x probed)
  | full (x : Spot) (probed free : Option Nat)
      (h : free.all (fun n => decide ((probed.getD 0 : Nat) + env.minFreeGib * 1024 ^ 3 ≤ n)) = false) :
      Next env id c (.sized x probed) .freeBytes free (.refused x)
  | refuse (x : Spot) (message : String) :
      Next env id c (.refused x) (.updateFile id x.index (.failed message)) ()
        (.between x.folder x.rest)
  | begin (x : Spot) (destination : Str) (probed : Option Nat) (h : x.resolved env = .ok destination) :
      Next env id c (.cleared x probed) (.updateFile id x.index .begin) ()
        (.trying x destination probed)
  | complete (x : Spot) (result : FetchResult) :
      Next env id c (.fetched x result) (.updateFile id x.index (.complete result.bytes)) ()
        (.completed x)
  | sum (x : Spot) (row : Option Download) :
      Next env id c (.completed x) (.findDownload id) row (.summed x (filesOf row))
  | total (x : Spot) (files : List DownloadFile) :
      Next env id c (.summed x files) (.updateDownload id (.sums files)) () (.recorded x)
  | aborted (x : Spot) (e : Err) (b : Bool) (h : e = .cancelled ∨ b = true) :
      Next env id c (.failing x e) (.aborted c) b (.givingUp x)
  | again (x : Spot) (e : Err) (b : Bool) (h : ¬ (e = .cancelled ∨ b = true))
      (ha : x.file.attempts + 1 < env.maxAttempts) :
      Next env id c (.failing x e) (.aborted c) b (.pausing x)
  | last (x : Spot) (e : Err) (b : Bool) (h : ¬ (e = .cancelled ∨ b = true))
      (ha : ¬ x.file.attempts + 1 < env.maxAttempts) :
      Next env id c (.failing x e) (.aborted c) b (.refused x)
  | giveUp (x : Spot) :
      Next env id c (.givingUp x) (.updateFile id x.index .cancelled) () (.over true)
  | pend (x : Spot) (message : String) :
      Next env id c (.pausing x) (.updateFile id x.index (.pending message)) () (.waiting x)
  | delay (x : Spot) (ms : Nat) : Next env id c (.waiting x) (.delay ms) () (.checked x.again)
  | unchained (b : Bool) : Next env id c (.over b) (.progressWrite id) none (.settled b)
  | chained (b : Bool) (ticket : Nat) :
      Next env id c (.over b) (.progressWrite id) (some ticket) (.awaiting b ticket)
  | settle (b : Bool) (ticket : Nat) :
      Next env id c (.awaiting b ticket) (.settle ticket) () (.awaited b)
  | forget (b : Bool) : Next env id c (.awaited b) (.forgetProgress id) () (.settled b)
  | read (b : Bool) (row : Option Download) :
      Next env id c (.settled b) (.findDownload id) row (.decided b (filesOf row))
  | cancelFiles (files : List DownloadFile) :
      Next env id c (.decided true files) (.cancelFiles id true) () (.cleaned true files)
  | sumAll (b : Bool) (files : List DownloadFile) (row : Option Download) :
      Next env id c (.cleaned b files) (.findDownload id) row (.totalled b files (filesOf row))
  | totalAll (b : Bool) (files latest : List DownloadFile) :
      Next env id c (.totalled b files latest) (.updateDownload id (.sums latest)) ()
        (.finishing b files)
  | finish (b : Bool) (files : List DownloadFile) :
      Next env id c (.finishing b files)
        (.updateDownload id (.finish (jobOutcome b files).1 (jobOutcome b files).2)) () .written
  | announce (path : Str) : Next env id c .written (.postProcess path) () .written
  | fail (message : String) : Next env id c .thrown (.updateDownload id (.failed message)) () .ended

section
variable {env : Env} {id c : Nat} {s s' : Stage}

theorem Silent.nodup (h : Silent env s s') (hs : s.indices.Nodup) : s'.indices.Nodup := by
  cases h with
  | skip folder file index rest hc => exact (List.nodup_cons.mp hs).2
  | done => exact List.nodup_nil
  | next x => exact (List.nodup_cons.mp hs).2
  | _ => exact hs

/-- No file comes twice. -/
theorem Next.nodup {o : Op} {v : Val o} (h : Next env id c s o v s') (hs : s.indices.Nodup) :
    s'.indices.Nodup := by
  cases h with
  | found d =>
    have : (d.files.zipIdx.map Prod.snd).Nodup := by
      rw [List.zipIdx_map_snd]
      exact List.nodup_range'
    exact this
  | look s row h => cases s <;> exact hs
  | refuse x message => exact (List.nodup_cons.mp hs).2
  | missing => exact List.nodup_nil
  | stop => exact List.nodup_nil
  | giveUp => exact List.nodup_nil
  | _ => exact hs

theorem Silent.todo (h : Silent env s s') : s'.todo ⊆ s.todo := by
  cases h with
  | skip folder file index rest hc =>
    intro i hi
    simpa [Stage.todo, Stage.working, Stage.spot, Stage.rest, hc] using hi
  | done => exact List.nil_subset _
  | _ => exact fun _ h => h

theorem Next.todo {o : Op} {v : Val o} (h : Next env id c s o v s') (hs : s ≠ .reading) :
    s'.todo ⊆ s.todo := by
  have tail (x : Spot) : (Stage.between x.folder x.rest).todo ⊆ (Stage.checked x).todo :=
    List.subset_append_right [x.index] _
  cases h with
  | missing => exact absurd rfl hs
  | found => exact absurd rfl hs
  | look s row h => cases s <;> exact fun _ h => h
  | stop => exact List.nil_subset _
  | giveUp => exact List.nil_subset _
  | go x row hc hr =>
    intro i hi
    simpa [Stage.todo, Stage.working, Stage.spot, Stage.rest, hc] using hi
  | refuse x message => exact tail x
  | complete x result => exact tail x
  | _ => exact fun _ h => h

/-- The worker writes a file only while it is at it. -/
theorem Next.writes {i : Nat} {change : FileChange} {v : Unit}
    (h : Next env id c s (.updateFile id i change) v s') : s.working = some i := by
  cases h <;> rfl

theorem Stage.onError_nodup (e : Err) (hs : s.indices.Nodup) : (s.onError e).indices.Nodup := by
  cases s <;> first | exact hs | exact List.nodup_nil

end

/-- The transfer at a stage. -/
def Spot.fetch (id c : Nat) (x : Spot) (destination : Str) (probed : Option Nat) : Flow FetchResult :=
  fetchFile
    { url := x.file.url, destination, expectedSize := probed, controller := c
      onProgress := fun bytesOnDisk totalBytes => op (.report id x.index bytesOnDisk totalBytes) }

theorem Spot.fetch_uses (id c : Nat) (x : Spot) (destination : Str) (probed : Option Nat) :
    (x.fetch id c destination probed).run.Uses fun o =>
      o.TransferOf c ∨ ∃ n total, o = .report id x.index n total :=
  fetchFile_uses (fun _ h => .inl h) fun n total => .invoke (.inr ⟨n, total, rfl⟩)

/-- An assertion for each stage that the other threads keep and every call carries on. -/
structure Outline {W : Type} (k : Contract W Op Reply) (env : Env) (id c : Nat)
    (At : Stage → W → Prop) : Prop where
  stable : ∀ s, k.Stable (At s)
  silent : ∀ {s s' w}, Silent env s s' → At s w → At s' w
  guar : ∀ {s o v s' w r w'}, Next env id c s o v s' → At s w → k.act w o r w' → k.guar w o r w'
  ok : ∀ {s o v s' w w'}, Next env id c s o v s' → At s w → k.act w o (.ok v) w' → At s' w'
  error : ∀ {s o v s' w e w'}, Next env id c s o v s' → At s w → k.act w o (.error e) w' →
    At (s.onError e) w'
  fetch : ∀ x destination probed, k.Does (At (.trying x destination probed))
    (x.fetch id c destination probed) (fun result => At (.fetched x result)) fun e => At (.failing x e)

section
variable {W : Type} {k : Contract W Op Reply} {At : Stage → W → Prop}

/-- A transfer all of whose calls keep the assertion of its stage. -/
theorem Spot.fetch_does {id c : Nat} {x : Spot} {destination : Str} {probed : Option Nat}
    (stable : k.Stable (At (.trying x destination probed)))
    (calls : ∀ o, (o.TransferOf c ∨ ∃ n total, o = .report id x.index n total) →
      k.Calls (At (.trying x destination probed)) o fun _ => At (.trying x destination probed))
    (fetched : ∀ result w, At (.trying x destination probed) w → At (.fetched x result) w)
    (failing : ∀ e w, At (.trying x destination probed) w → At (.failing x e) w) :
    k.Does (At (.trying x destination probed)) (x.fetch id c destination probed)
      (fun result => At (.fetched x result)) fun e => At (.failing x e) :=
  (Contract.Does.of_uses stable calls (x.fetch_uses id c destination probed)).conseq (fun _ h => h)
    fetched failing

end

namespace Outline
variable {W : Type} {k : Contract W Op Reply} {env : Env} {id c : Nat} {At : Stage → W → Prop}
  (h : Outline k env id c At) {β : Type} {R : β → W → Prop} {E : Err → W → Prop}
include h

theorem conseq {s s' : Stage} {m : Flow β} (hs : Silent env s s') (hm : k.Does (At s') m R E) :
    k.Does (At s) m R E :=
  hm.conseq (fun _ => h.silent hs) (fun _ _ h => h) fun _ _ h => h

/-- One call, and the stage that each result leads to. -/
theorem call {s : Stage} {o : Op} {Q : Val o → W → Prop} (hm : ∃ v s', Next env id c s o v s')
    (hv : ∀ v, ∃ s', Next env id c s o v s' ∧ ∀ w, At s' w → Q v w) :
    k.Does (At s) (op o) Q fun e => At (s.onError e) := by
  obtain ⟨v₀, s₀, h₀⟩ := hm
  intro w hw
  refine Program.Safe.invoke fun w₁ h₁ r w₂ ha => ?_
  have hw₁ := h.stable s w w₁ h₁ hw
  refine ⟨h.guar h₀ hw₁ ha, fun v hv' => ?_⟩
  rcases r with e | a
  · exact h.stable _ w₂ v hv' (h.error h₀ hw₁ ha)
  · obtain ⟨s', hn, hq⟩ := hv a
    exact hq v (h.stable s' w₂ v hv' (h.ok hn hw₁ ha))

theorem step {s : Stage} {o : Op} {f : Val o → Flow β} (hE : ∀ e, k.Stable (E e))
    (herr : ∀ e w, At (s.onError e) w → E e w) (hm : ∃ v s', Next env id c s o v s')
    (hv : ∀ v, ∃ s', Next env id c s o v s' ∧ k.Does (At s') (f v) R E) :
    k.Does (At s) (op o >>= f) R E := by
  obtain ⟨v₀, s₀, h₀⟩ := hm
  intro w hw
  refine Program.Safe.invoke_bind fun w₁ h₁ r w₂ ha => ?_
  have hw₁ := h.stable s w w₁ h₁ hw
  refine ⟨h.guar h₀ hw₁ ha, ?_⟩
  rcases r with e | a
  · exact fun v hv' => hE e w₂ v hv' (herr e w₂ (h.error h₀ hw₁ ha))
  · obtain ⟨s', hn, hd⟩ := hv a
    exact hd w₂ (h.ok hn hw₁ ha)

/-- A call with one way on. -/
theorem step_to {s s' : Stage} {o : Op} {f : Val o → Flow β} (hE : ∀ e, k.Stable (E e))
    (herr : ∀ e w, At (s.onError e) w → E e w) (v₀ : Val o) (hn : ∀ v, Next env id c s o v s')
    (hf : ∀ v, k.Does (At s') (f v) R E) : k.Does (At s) (op o >>= f) R E :=
  h.step hE herr ⟨v₀, s', hn v₀⟩ fun v => ⟨s', hn v, hf v⟩

theorem publish {s : Stage} (hs : s.publishes = true) (event : Nat → Download → ServerEvent) :
    k.Does (At s) (publishDownload id event) (fun _ => At s.onShow) fun e => At (s.onError e) := by
  refine h.step_to (fun e => h.stable _) (fun _ _ h => h) none (fun row => .look s row hs) ?_
  rintro (_ | row)
  · exact .pure (h.stable _) fun _ h => h
  · have tell := h.call (Q := fun _ => At s.onShow) ⟨(), _, .tell s (event id row) hs⟩ fun _ =>
      ⟨_, .tell s (event id row) hs, fun _ h => h⟩
    exact tell.conseq (fun _ h => h) (fun _ _ h => h) fun e w hw => by rwa [s.onShow_onError] at hw

theorem recompute {s s' : Stage} (via : List DownloadFile → Stage)
    (he : ∀ files e, (via files).onError e = s.onError e)
    (hr : ∀ row, Next env id c s (.findDownload id) row (via (filesOf row)))
    (hw : ∀ files, Next env id c (via files) (.updateDownload id (.sums files)) () s') :
    k.Does (At s) (recomputeTotals id) (fun _ => At s') fun e => At (s.onError e) := by
  refine h.step (fun e => h.stable _) (fun _ _ h => h) ⟨none, _, hr none⟩ fun row =>
    ⟨_, hr row, ?_⟩
  have hc := h.call (Q := fun _ => At s') ⟨(), s', hw (filesOf row)⟩ fun _ =>
    ⟨s', hw (filesOf row), fun _ h => h⟩
  exact hc.conseq (fun _ h => h) (fun _ _ h => h) fun e w hw => by rwa [he] at hw

theorem attempt (x : Spot) (destination : Str) (probed : Option Nat) :
    k.Does (At (.trying x destination probed))
      (Downloads.attempt id x.index x.file.url destination probed c)
      (fun outcome w => outcome = .done ∧ At (.between x.folder x.rest) w)
      fun e => At (.failing x e) := by
  have hE (e : Err) : k.Stable (At (.failing x e)) := h.stable _
  refine .bind hE (h.fetch x destination probed) fun result => ?_
  refine h.step_to hE (fun _ _ h => h) () (fun _ => .complete x result) fun _ => ?_
  refine .bind hE (h.recompute (.summed x) (fun _ _ => rfl) (.sum x) (.total x)) fun _ => ?_
  refine .bind hE (h.publish (s := .recorded x) rfl _) fun _ => ?_
  exact .pure (h.stable _) fun w hw => ⟨rfl, h.silent (.next x) hw⟩

/-- A mark as failed. -/
theorem refuse (x : Spot) (message : String) :
    k.Does (At (.refused x)) (do
      markFileFailed id x.index message
      pure .failed : Flow FileOutcome)
      (fun outcome w => outcome = .failed ∧ At (.between x.folder x.rest) w) fun _ => At .thrown := by
  refine h.step_to (fun _ => h.stable _) (fun _ _ h => h) () (fun _ => .refuse x message) fun _ => ?_
  exact .pure (h.stable _) fun w hw => ⟨rfl, hw⟩

end Outline

/-- Where the outcome of a file leads. -/
def Spot.after (x : Spot) : FileOutcome → Stage
  | .cancelled => .over true
  | _ => .between x.folder x.rest

namespace Outline
variable {W : Type} {k : Contract W Op Reply} {env : Env} {id c : Nat} {At : Stage → W → Prop}
  (h : Outline k env id c At)
include h

theorem afterFailure (x : Spot) {again : Flow FileOutcome}
    (hagain : x.file.attempts + 1 < env.maxAttempts →
      k.Does (At (.checked x.again)) again (fun outcome => At (x.after outcome)) fun _ => At .thrown)
    (e : Err) : k.Does (At (.failing x e)) (Downloads.afterFailure env id x.index x.file c again e)
      (fun outcome => At (x.after outcome)) fun _ => At .thrown := by
  have hE : Err → k.Stable (At .thrown) := fun _ => h.stable _
  refine h.step hE (fun _ _ h => h) ⟨true, _, .aborted x e true (.inr rfl)⟩ fun b => ?_
  by_cases hb : e = .cancelled ∨ b = true
  · refine ⟨_, .aborted x e b hb, ?_⟩
    rw [if_pos hb]
    refine h.step_to hE (fun _ _ h => h) () (fun _ => .giveUp x) fun _ => ?_
    exact .pure (h.stable _) fun _ hw => hw
  by_cases ha : x.file.attempts + 1 < env.maxAttempts
  · refine ⟨_, .again x e b hb ha, ?_⟩
    simp only [if_neg hb, if_pos ha]
    refine h.step_to hE (fun _ _ h => h) () (fun _ => .pend x _) fun _ => ?_
    exact h.step_to hE (fun _ _ h => h) () (fun _ => .delay x _) fun _ => hagain ha
  · refine ⟨_, .last x e b hb ha, ?_⟩
    simp only [if_neg hb, if_neg ha]
    refine (h.refuse x _).conseq (fun _ h => h) ?_ fun _ _ h => h
    rintro _ w ⟨rfl, hw⟩
    exact hw

theorem checkSpace (x : Spot) (probed : Option Nat) :
    k.Does (At (.sized x probed)) (Downloads.checkSpace env probed)
      (fun space => At (if space.ok then .cleared x probed else .refused x)) fun _ => At .thrown := by
  refine h.step (fun _ => h.stable _) (fun _ _ h => h) ⟨none, _, .room x probed none rfl⟩ fun free => ?_
  by_cases hs : free.all (fun n =>
      decide ((probed.getD 0 : Nat) + env.minFreeGib * 1024 ^ 3 ≤ n)) = true
  · refine ⟨_, .room x probed free hs, .pure (h.stable _) fun w hw => ?_⟩
    simpa only [if_pos hs] using hw
  · refine ⟨_, .full x probed free (by simpa using hs), .pure (h.stable _) fun w hw => ?_⟩
    simpa only [if_neg hs] using hw

theorem probeAndStore (x : Spot) (hn : x.file.sizeBytes = none) :
    k.Does (At (.checked x)) (Downloads.probeAndStore id x.index x.file.url)
      (fun probed => At (.sized x probed)) fun _ => At .thrown := by
  have hE : Err → k.Stable (At .thrown) := fun _ => h.stable _
  refine h.step hE (fun _ _ h => h) ⟨none, _, .unknown x hn⟩ ?_
  rintro (_ | n)
  · exact ⟨_, .unknown x hn, .pure (h.stable _) fun _ hw => hw⟩
  · refine ⟨_, .probe x n hn, ?_⟩
    refine h.step_to hE (fun _ _ h => h) () (fun _ => .store x n) fun _ => ?_
    exact .pure (h.stable _) fun _ hw => hw

theorem processOnce (x : Spot) {again : Flow FileOutcome}
    (hagain : x.file.attempts + 1 < env.maxAttempts →
      k.Does (At (.checked x.again)) again (fun outcome => At (x.after outcome)) fun _ => At .thrown) :
    k.Does (At (.checked x)) (Downloads.processOnce env id x.folder x.index x.file c again)
      (fun outcome => At (x.after outcome)) fun _ => At .thrown := by
  have hE : Err → k.Stable (At .thrown) := fun _ => h.stable _
  have failing (message : String) : k.Does (At (.refused x)) (do
      markFileFailed id x.index message
      pure .failed : Flow FileOutcome) (fun outcome => At (x.after outcome)) fun _ => At .thrown := by
    refine (h.refuse x message).conseq (fun _ h => h) ?_ fun _ _ h => h
    rintro _ w ⟨rfl, hw⟩
    exact hw
  rw [Downloads.processOnce]
  split
  · rename_i error hd
    exact h.conseq (.unresolved x error hd) (failing _)
  rename_i destination hd
  have rest (probed : Option Nat) : k.Does (At (.sized x probed)) (do
      let space ← Downloads.checkSpace env probed
      if !space.ok then
        markFileFailed id x.index (noSpace space)
        pure .failed
      else
        op (.updateFile id x.index .begin)
        tryCatch (Downloads.attempt id x.index x.file.url destination probed c)
          (Downloads.afterFailure env id x.index x.file c again) : Flow FileOutcome)
      (fun outcome => At (x.after outcome)) fun _ => At .thrown := by
    refine .bind hE (h.checkSpace x probed) fun space => ?_
    cases hok : space.ok with
    | false => exact failing _
    | true =>
      refine h.step_to hE (fun _ _ h => h) () (fun _ => .begin x destination probed hd) fun _ => ?_
      refine .catch (fun _ => h.stable _) ?_ (h.afterFailure x hagain)
      refine (h.attempt x destination probed).conseq (fun _ h => h) ?_ fun _ _ h => h
      rintro _ w ⟨rfl, hw⟩
      exact hw
  split
  · rename_i n hn
    exact .bind hE (h.conseq (.known x n hn) (.pure (h.stable _) fun _ hw => hw)) fun probed => rest probed
  · exact .bind hE (h.probeAndStore x ‹_›) fun probed => rest probed

theorem processFile (x : Spot) :
    k.Does (At (.checked x)) (Downloads.processFile env id x.folder x.index c x.file)
      (fun outcome => At (x.after outcome)) fun _ => At .thrown := by
  rw [Downloads.processFile]
  generalize hn : env.maxAttempts - x.file.attempts = n
  induction n generalizing x with
  | zero => exact h.processOnce x fun ha => by omega
  | succ n ih => exact h.processOnce x fun ha => ih x.again (by simp only [Spot.again]; omega)

theorem processFiles (folder : Str) (files : List (DownloadFile × Nat)) :
    k.Does (At (.between folder files)) (Downloads.processFiles env id folder c files)
      (fun cancelled => At (.over cancelled)) fun _ => At .thrown := by
  have hE : Err → k.Stable (At .thrown) := fun _ => h.stable _
  induction files with
  | nil => exact .pure (h.stable _) fun w hw => h.silent (.done folder) hw
  | cons entry files ih =>
    let x : Spot := ⟨folder, entry.1, entry.2, files⟩
    rw [Downloads.processFiles]
    split
    · rename_i hc
      exact h.conseq (.skip folder entry.1 entry.2 files hc) ih
    rename_i hc
    have flag : k.Does (At (.between folder (entry :: files))) (isCancelled id)
        (fun b => At (if b then .over true else .checked x)) fun _ => At .thrown := by
      refine h.step hE (fun _ _ h => h) ⟨none, _, .go x none hc rfl⟩ fun row => ?_
      have hb : (row.map (·.cancelRequested)).getD false = row.any (·.cancelRequested) := by
        cases row <;> rfl
      cases hr : row.any (·.cancelRequested) with
      | true =>
        refine ⟨_, .stop x row hc hr, .pure (h.stable _) fun w hw => ?_⟩
        rwa [hb, hr]
      | false =>
        refine ⟨_, .go x row hc hr, .pure (h.stable _) fun w hw => ?_⟩
        rwa [hb, hr]
    refine .bind hE flag fun b => ?_
    cases b with
    | true => exact .pure (h.stable _) fun _ hw => hw
    | false =>
      refine .bind hE (h.processFile x) fun outcome => ?_
      cases outcome with
      | cancelled => exact .pure (h.stable _) fun _ hw => hw
      | done => exact ih
      | failed => exact ih

theorem settleProgressWrites (b : Bool) :
    k.Does (At (.over b)) (Downloads.settleProgressWrites id) (fun _ => At (.settled b))
      fun _ => At .thrown := by
  have hE : Err → k.Stable (At .thrown) := fun _ => h.stable _
  refine h.step hE (fun _ _ h => h) ⟨none, _, .unchained b⟩ ?_
  rintro (_ | ticket)
  · exact ⟨_, .unchained b, .pure (h.stable _) fun _ hw => hw⟩
  · refine ⟨_, .chained b ticket, ?_⟩
    refine h.step_to hE (fun _ _ h => h) () (fun _ => .settle b ticket) fun _ => ?_
    exact h.call ⟨(), _, .forget b⟩ fun _ => ⟨_, .forget b, fun _ hw => hw⟩

/-- The end of a job, from the write of its outcome on. -/
theorem finish (b : Bool) (files : List DownloadFile) :
    k.Does (At (.finishing b files)) (do
      op (.updateDownload id (.finish (jobOutcome b files).1 (jobOutcome b files).2))
      if 0 < files.countP (·.status = .COMPLETED) then announce env id
      publishDownload id .finished : Flow Unit) (fun _ => At .ended) fun _ => At .thrown := by
  have hE : Err → k.Stable (At .thrown) := fun _ => h.stable _
  have last : k.Does (At .written) (publishDownload id .finished) (fun _ => At .ended)
      fun _ => At .thrown :=
    (h.publish (s := .written) rfl _).conseq (fun _ h => h) (fun _ _ hw => h.silent .close hw)
      fun _ _ h => h
  refine h.step_to hE (fun _ _ h => h) () (fun _ => .finish b files) fun _ => ?_
  split
  · refine .bind hE ?_ fun _ => last
    refine h.step_to hE (fun _ _ h => h) none (fun row => .look .written row rfl) ?_
    rintro (_ | row)
    · exact .pure (h.stable _) fun _ hw => hw
    · exact h.call ⟨(), _, .announce _⟩ fun _ => ⟨_, .announce _, fun _ hw => hw⟩
  · exact last

theorem finishJob (b : Bool) :
    k.Does (At (.over b)) (Downloads.finishJob env id b) (fun _ => At .ended) fun _ => At .thrown := by
  have hE : Err → k.Stable (At .thrown) := fun _ => h.stable _
  refine .bind hE (h.settleProgressWrites b) fun _ => ?_
  refine h.step hE (fun _ _ h => h) ⟨none, _, .read b none⟩ fun row => ⟨_, .read b row, ?_⟩
  have rest : k.Does (At (.cleaned b (filesOf row))) (do
      recomputeTotals id
      op (.updateDownload id (.finish (jobOutcome b (filesOf row)).1 (jobOutcome b (filesOf row)).2))
      if 0 < (filesOf row).countP (·.status = .COMPLETED) then announce env id
      publishDownload id .finished : Flow Unit) (fun _ => At .ended) fun _ => At .thrown :=
    .bind hE (h.recompute (.totalled b (filesOf row)) (fun _ _ => rfl) (.sumAll b _) (.totalAll b _))
      fun _ => h.finish b _
  cases b with
  | true =>
    exact h.step_to hE (fun _ _ h => h) () (fun _ => .cancelFiles _) fun _ => rest
  | false => exact h.conseq (.keep _) rest

theorem processJob :
    k.Does (At .reading) (Downloads.processJob env id c) (fun _ => At .ended) fun _ => At .thrown := by
  have hE : Err → k.Stable (At .thrown) := fun _ => h.stable _
  refine h.step hE (fun _ _ h => h) ⟨none, _, .missing⟩ ?_
  rintro (_ | d)
  · exact ⟨_, .missing, .pure (h.stable _) fun _ hw => hw⟩
  · refine ⟨_, .found d, ?_⟩
    refine .bind hE (h.publish (s := .between d.folderName d.files.zipIdx) rfl _) fun _ => ?_
    exact .bind hE (h.processFiles _ _) fun b => h.finishJob b

/-- An activation that starts as the outline says ends as it says, and throws nothing. -/
theorem runJob :
    k.Does (At .reading) (Downloads.runJob env id c) (fun _ => At .ended) fun _ _ => False := by
  refine .catch (fun _ => h.stable _) h.processJob fun e => ?_
  have quiet {s : Stage} {m : Flow Unit} {E : Err → W → Prop}
      (hm : k.Does (At s) m (fun _ => At .ended) fun _ => At .ended) :
      k.Does (At s) (tryCatch m fun _ => pure ()) (fun _ => At .ended) E :=
    .catch (fun _ => h.stable _) hm fun _ => .pure (h.stable _) fun _ hw => hw
  refine .bind (fun _ _ _ _ => False.elim) (quiet ?_) fun _ => quiet (h.publish (s := .ended) rfl _)
  exact h.call ⟨(), _, .fail _⟩ fun _ => ⟨_, .fail _, fun _ hw => hw⟩

theorem program_safe {w : W} (hw : At .reading w) :
    (Downloads.runJob env id c).program.Safe k (fun _ => At .ended) w := by
  refine .bind ((h.runJob w hw).mono ?_)
  rintro (e | _) v hv
  · exact hv.elim
  · exact fun u hu => h.stable _ v u hu hv

end Outline
end CircleFtp.Downloads
