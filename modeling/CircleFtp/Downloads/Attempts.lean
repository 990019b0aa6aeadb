import CircleFtp.Concurrent.Alone
import CircleFtp.Downloads.Chain

/-! `processFile` on one file: how often it fetches, what it leaves in the row, and that it
returns. -/
namespace CircleFtp.Downloads
open Concurrent Strings

abbrev FilePool := Pool State Unit Op Reply (State → State) (Except Err FileOutcome)
abbrev FileWorld := World State Unit Op Reply (State → State) (Except Err FileOutcome)
abbrev FileEvent := Event State Unit Op Reply (State → State) (Except Err FileOutcome)

/-- Single calls of `processFile`; what arrives is what the others make of the state. -/
def fileSystem : System State Unit Op Reply Choice (State → State) (Except Err FileOutcome) where
  exec s _ o c := some ((call s o c).1, (call s o c).2, [])
  finish s _ _ := (s, [])
  external s f := some (f s, false, [])

/-- A call of `processFile` that is about to begin. -/
def begun (s : State) (flow : Flow FileOutcome) : FilePool := (Pool.initial s).add ⟨(), flow.run⟩

def State.fileAt (s : State) (id index : Nat) : Option DownloadFile :=
  (s.downloads.rows id).bind (·.files[index]?)

/-- The calls of `fetchFile`: each begins with the directory of its destination. -/
def fetches (trace : List FileEvent) : Nat :=
  trace.countP fun
    | .did _ _ (.makeParent _) _ _ _ => true
    | _ => false

/-- What the others do leaves the file its status and its attempts, and an abort is for good. -/
structure Spares (id index controller : Nat) (f : State → State) : Prop where
  file : ∀ s, ((f s).fileAt id index).map (fun d => (d.attempts, d.status)) =
    (s.fileAt id index).map fun d => (d.attempts, d.status)
  aborted : ∀ s, s.memory.aborted controller = true → (f s).memory.aborted controller = true

def FileOutcome.status : FileOutcome → FileStatus
  | .done => .COMPLETED
  | .failed => .FAILED
  | .cancelled => .CANCELLED

/-- The attempts and the status of the file satisfy `φ` together with the number of fetches. -/
def Has (id index : Nat) (φ : Nat → FileStatus → Nat → Prop) (w : FileWorld) : Prop :=
  ∃ f, w.state.fileAt id index = some f ∧ φ f.attempts f.status (fetches w.trace)

/-- The job is aborted if the error says so. -/
def SaysAborted (controller : Nat) (e : Err) (w : FileWorld) : Prop :=
  e = .cancelled → w.state.memory.aborted controller = true

section
variable {id index controller : Nat} {φ ψ : Nat → FileStatus → Nat → Prop}

abbrev single (id index controller : Nat) : Contract FileWorld Op Reply :=
  fileSystem.undisturbed DatabaseAnswers (Spares id index controller) 0 ()

theorem has_stable : (single id index controller).Stable (Has id index φ) := by
  refine System.undisturbed_stable fun w f s ths hf hs h => ?_
  cases hs
  obtain ⟨file, hfile, hφ⟩ := h
  have := hf.file w.state
  rw [hfile, Option.map_some, Option.map_eq_some_iff] at this
  obtain ⟨file', hfile', he⟩ := this
  obtain ⟨ha, hst⟩ := Prod.mk.inj he
  exact ⟨file', hfile', by rw [ha, hst]; exact hφ⟩

theorem saysAborted_stable {e : Err} : (single id index controller).Stable (SaysAborted controller e) := by
  refine System.undisturbed_stable fun w f s ths hf hs h he => ?_
  cases hs
  exact hf.aborted _ (h he)

theorem file_exec {s s' : State} {o : Op} {c : Choice} {r : Reply o}
    {ths : List (Thread Unit Op Reply (Except Err FileOutcome))}
    (h : fileSystem.exec s () o c = some (r, s', ths)) : call s o c = (r, s') := by
  simp only [fileSystem, Option.some.injEq, Prod.mk.injEq] at h
  exact Prod.ext h.1 h.2.1

/-- The calls that leave the files of every download alone. -/
def Op.sparesFiles : Op → Bool
  | .updateFile _ _ _ | .cancelFiles _ _ | .requeue _ | .deleteDownload _ | .resetRunningFiles => false
  | _ => true

theorem call_fileAt {s s' : State} {o : Op} {c : Choice} {r : Reply o} (h : call s o c = (r, s'))
    (ho : o.sparesFiles = true) {file : DownloadFile} (hf : s.fileAt id index = some file) :
    s'.fileAt id index = some file := by
  obtain ⟨d, hd, hfile⟩ := Option.bind_eq_some_iff.mp hf
  rcases call_row h hd with hsame | ⟨-, hstep⟩
  · exact Option.bind_eq_some_iff.mpr ⟨d, hsame, hfile⟩
  · generalize hrow : s'.downloads.rows id = row at hstep
    cases hstep with
    | update change => exact Option.bind_eq_some_iff.mpr ⟨_, hrow, by cases change <;> exact hfile⟩
    | claim => exact Option.bind_eq_some_iff.mpr ⟨_, hrow, hfile⟩
    | requeueRunning => exact Option.bind_eq_some_iff.mpr ⟨_, hrow, hfile⟩
    | _ => cases ho

theorem fetches_other {o : Op} (ho : ∀ path, o ≠ .makeParent path) (r : Reply o) (s s' : State)
    (trace : List FileEvent) : fetches (.did 0 () o r s s' :: trace) = fetches trace := by
  cases o
  case makeParent path => exact absurd rfl (ho path)
  all_goals exact List.countP_cons_of_neg (by simp)

theorem fetches_makeParent {path : Str} (r : Reply (.makeParent path)) (s s' : State)
    (trace : List FileEvent) :
    fetches (.did 0 () (.makeParent path) r s s' :: trace) = fetches trace + 1 :=
  List.countP_cons_of_pos rfl

/-- A call that does not touch the files keeps what the row has. -/
theorem has_call {o : Op} (hp : ∀ path, o ≠ .makeParent path) (ho : o.sparesFiles = true) :
    (single id index controller).Calls (Has id index φ) o fun _ => Has id index φ := by
  have keeps {w : FileWorld} {c : Choice} {r : Reply o} {s : State} (hw : Has id index φ w)
      (hc : call w.state o c = (r, s)) : Has id index φ ⟨s, .did 0 () o r w.state s :: w.trace⟩ := by
    obtain ⟨file, hfile, hφ⟩ := hw
    exact ⟨file, call_fileAt hc ho hfile, by rwa [fetches_other hp]⟩
  exact System.undisturbed_calls (fun w c v s ths hw _ he => keeps hw (file_exec he))
    fun w c e s ths hw _ he => keeps hw (file_exec he)

/-- The calls of `processFile` that reply whatever happens. -/
def Op.replies : Op → Bool
  | .findDownload _ | .aborted _ | .delay _ | .freeBytes | .probeSize _ | .publish _ => true
  | _ => false

theorem call_replies {s s' : State} {o : Op} {c : Choice} {e : Err} (ho : o.replies = true)
    (hc : DatabaseAnswers o c) : call s o c ≠ (.error e, s') := by
  intro h
  cases o <;> try cases ho
  case findDownload => simp [call, hc rfl, perform] at h
  all_goals
    rw [call_total rfl] at h
    cases h

/-- Such a call, and how it goes on. -/
theorem has_step {o : Op} {α : Type} {f : Val o → Flow α} {Q : α → FileWorld → Prop}
    {E : Err → FileWorld → Prop} (ho : o.replies = true)
    (hf : ∀ v, (single id index controller).Does (Has id index φ) (f v) Q E) :
    (single id index controller).Does (Has id index φ) (op o >>= f) Q E := by
  refine .surely has_stable (has_call ?_ ?_) (fun w e w' _ ha => ?_) hf
  · rintro path rfl
    cases ho
  · cases o <;> first | rfl | cases ho
  · obtain ⟨-, c, ths, hc, he⟩ := ha
    exact call_replies ho hc (file_exec he)

theorem write_goes {change : FileChange} {w : FileWorld} {c : Choice}
    {r : Reply (.updateFile id index change)} {s : State} (hw : Has id index φ w)
    (hc : DatabaseAnswers (.updateFile id index change) c)
    (h : call w.state (.updateFile id index change) c = (r, s))
    (hφ : ∀ d n, φ d.attempts d.status n → ψ (change.apply d).attempts (change.apply d).status n) :
    r = .ok () ∧
      Has id index ψ ⟨s, .did 0 () (.updateFile id index change) r w.state s :: w.trace⟩ := by
  obtain ⟨file, hfile, hφw⟩ := hw
  obtain ⟨d, hd, hfd⟩ := Option.bind_eq_some_iff.mp hfile
  have hok : r = .ok () := by
    have hfind : (w.state.downloads.rows id).bind (·.files[index]?) = some file := hfile
    simp only [call, hc rfl, perform, State.updateFile, hfind, Prod.mk.injEq] at h
    exact h.1.symm
  subst hok
  obtain ⟨d', f', hd', hf', hrow⟩ := call_updateFile h
  cases hd.symm.trans hd'
  cases hfd.symm.trans hf'
  refine ⟨rfl, change.apply file, ?_, ?_⟩
  · exact Option.bind_eq_some_iff.mpr ⟨_, hrow, by simp [hfd]⟩
  · rw [fetches_other (by simp)]
    exact hφ _ _ hφw

/-- A write to the file, and how it goes on. -/
theorem has_write {change : FileChange} {α : Type} {f : Unit → Flow α} {Q : α → FileWorld → Prop}
    {E : Err → FileWorld → Prop}
    (hφ : ∀ d n, φ d.attempts d.status n → ψ (change.apply d).attempts (change.apply d).status n)
    (hf : ∀ v, (single id index controller).Does (Has id index ψ) (f v) Q E) :
    (single id index controller).Does (Has id index φ) (op (.updateFile id index change) >>= f) Q E := by
  refine .surely has_stable (Q := fun _ => Has id index ψ) ⟨fun _ _ _ _ _ => trivial, ?_, ?_⟩ ?_ hf
  · rintro w v ⟨s', trace'⟩ hw ⟨hw', c, ths, hc, he⟩
    rw [hw']
    exact (write_goes hw hc (file_exec he) hφ).2
  · rintro w e w' hw ⟨-, c, ths, hc, he⟩
    cases (write_goes hw hc (file_exec he) hφ).1
  · rintro w e w' hw ⟨-, c, ths, hc, he⟩
    cases (write_goes hw hc (file_exec he) hφ).1

theorem call_not_cancelled {s s' : State} {o : Op} {c : Choice} {e : Err}
    (h : call s o c = (.error e, s')) : e ≠ .cancelled := by
  rcases call_cases s o c with ⟨message, hm⟩ | hp
  · rw [hm] at h
    cases h
    simp
  rw [hp] at h
  rintro rfl
  cases o
  case request =>
    simp only [perform] at h
    split at h <;> cases h
  all_goals
    try cases h
    try simp only [perform, State.updateRow, State.updateFile, State.missing] at h
    try split at h
    all_goals cases h

/-- What a failed fetch leaves. -/
def Failing (id index controller : Nat) (ψ : Nat → FileStatus → Nat → Prop) (e : Err) (w : FileWorld) :
    Prop := Has id index ψ w ∧ SaysAborted controller e w

theorem failing_stable (e : Err) :
    (single id index controller).Stable (Failing id index controller ψ e) := by
  intro w w' hr h
  exact ⟨has_stable w w' hr h.1, saysAborted_stable w w' hr h.2⟩

theorem call_tells {o : Op} (hp : ∀ path, o ≠ .makeParent path) (ho : o.sparesFiles = true)
    {w w' : FileWorld} {e : Err} (hw : Has id index ψ w)
    (ha : (single id index controller).act w o (.error e) w') :
    Failing id index controller ψ e w' := by
  refine ⟨(has_call hp ho).error w e w' hw ha, fun he => ?_⟩
  obtain ⟨-, c, ths, hc, hx⟩ := ha
  exact absurd he (call_not_cancelled (file_exec hx))

/-- A call of the fetch after the first, and how it goes on. -/
theorem fetch_step {o : Op} {α : Type} {f : Val o → Flow α} {Q : α → FileWorld → Prop}
    (hp : ∀ path, o ≠ .makeParent path) (ho : o.sparesFiles = true)
    (hf : ∀ v, (single id index controller).Does (Has id index ψ) (f v) Q
      (Failing id index controller ψ)) :
    (single id index controller).Does (Has id index ψ) (op o >>= f) Q
      (Failing id index controller ψ) :=
  .telling has_stable failing_stable (has_call hp ho) (fun _ _ _ => call_tells hp ho) hf

theorem fetch_throw {message : String} {α : Type} {Q : α → FileWorld → Prop} :
    (single id index controller).Does (Has id index ψ) (throw (.error message)) Q
      (Failing id index controller ψ) :=
  .throw has_stable fun _ hw => ⟨hw, fun he => by cases he⟩

theorem fetch_pure {α : Type} {a : α} :
    (single id index controller).Does (Has id index ψ) (pure a) (fun _ => Has id index ψ)
      (Failing id index controller ψ) := .pure has_stable fun _ hw => hw

/-- After the question whether the job is aborted. -/
def Asked (id index controller : Nat) (ψ : Nat → FileStatus → Nat → Prop) (e : Err) (b : Bool)
    (w : FileWorld) : Prop :=
  Failing id index controller ψ e w ∧ (b = true → w.state.memory.aborted controller = true)

theorem asked_stable {e : Err} {b : Bool} :
    (single id index controller).Stable (Asked id index controller ψ e b) := by
  intro w w' hr h
  refine ⟨failing_stable e w w' hr h.1, fun hb => ?_⟩
  exact saysAborted_stable (e := .cancelled) w w' hr (fun _ => h.2 hb) rfl

theorem aborted_step {e : Err} {α : Type} {f : Bool → Flow α} {Q : α → FileWorld → Prop}
    {E : Err → FileWorld → Prop}
    (hf : ∀ b, (single id index controller).Does (Asked id index controller ψ e b) (f b) Q E) :
    (single id index controller).Does (Failing id index controller ψ e)
      (op (.aborted controller) >>= f) Q E := by
  have asks {w : FileWorld} {c : Choice} {r : Except Err Bool} {s : State}
      (hw : Failing id index controller ψ e w) (h : call w.state (.aborted controller) c = (r, s)) :
      r = .ok (w.state.memory.aborted controller) ∧ s = w.state := by
    rw [call_total rfl, perform, Prod.mk.injEq] at h
    exact ⟨h.1.symm, h.2.symm⟩
  refine .surely (Q := Asked id index controller ψ e) (failing_stable e)
    ⟨fun _ _ _ _ _ => trivial, ?_, ?_⟩ ?_ hf
  · rintro w b ⟨s, trace⟩ hw ⟨hw', c, ths, hc, he⟩
    obtain ⟨hb, rfl⟩ := asks hw (file_exec he)
    rw [hw']
    refine ⟨⟨?_, hw.2⟩, fun hb' => by rw [← Except.ok.inj hb, hb']⟩
    obtain ⟨file, hfile, hψ⟩ := hw.1
    exact ⟨file, hfile, by rwa [fetches_other (by simp)]⟩
  · rintro w e' w' hw ⟨-, c, ths, hc, he⟩
    cases (asks hw (file_exec he)).1
  · rintro w e' w' hw ⟨-, c, ths, hc, he⟩
    cases (asks hw (file_exec he)).1

variable {options : FetchOptions}
  (ho : ∀ n total, ∃ id index, options.onProgress n total = op (.report id index n total))
include ho

theorem progress_does (n : Nat) (total : Option Nat) :
    (single id index controller).Does (Has id index ψ) (options.onProgress n total)
      (fun _ => Has id index ψ) (Failing id index controller ψ) := by
  obtain ⟨id', index', hn⟩ := ho n total
  rw [hn]
  have hp : ∀ path, Op.report id' index' n total ≠ .makeParent path := by simp
  exact .call_telling has_stable (fun _ => has_stable) failing_stable (has_call hp rfl)
    fun _ _ _ => call_tells hp rfl

theorem pipeline_counts (file : Nat) (append : Bool) (total : Option Nat) (ending : Option String)
    (body : Bytes) (written : Nat) :
    (single id index controller).Does (Has id index ψ)
      (pipeline options file append total ending body written) (fun _ => Has id index ψ)
      (Failing id index controller ψ) := by
  induction body generalizing written with
  | nil =>
    cases ending with
    | some message => exact fetch_throw
    | none => exact fetch_pure
  | cons byte body ih =>
    refine .bind failing_stable (progress_does ho _ _) fun _ => ?_
    exact fetch_step (by simp) rfl fun _ => ih (written + 1)

/-- A fetch is cancelled only when it finds its job aborted. -/
theorem receive_counts (hc : options.controller = controller) (response : Response) (offset : Nat) :
    (single id index controller).Does (Has id index ψ) (receive options response offset)
      (fun _ => Has id index ψ) (Failing id index controller ψ) := by
  have stopped (e : Err) : (single id index controller).Does (Failing id index controller ψ e)
      (do if ← op (.aborted options.controller) then throw .cancelled else throw e)
      (fun _ : Nat => Has id index ψ) (Failing id index controller ψ) := by
    rw [hc]
    refine aborted_step fun b => ?_
    cases b with
    | true => exact .throw asked_stable fun w hw => ⟨hw.1.1, fun _ => hw.2 rfl⟩
    | false => exact .throw asked_stable fun w hw => hw.1
  refine .bind failing_stable (.catch (fun _ => has_stable) (fetch_step (by simp) rfl fun file =>
    pipeline_counts ho _ _ _ _ _ _) stopped) fun written => ?_
  refine .bind failing_stable (progress_does ho _ _) fun _ => ?_
  have rest : (single id index controller).Does (Has id index ψ) (do
      op (.rename (partPathFor options.destination) options.destination)
      pure ⟨written, false⟩ : Flow FetchResult) (fun _ => Has id index ψ)
      (Failing id index controller ψ) := fetch_step (by simp) rfl fun _ => fetch_pure
  split
  · exact fetch_throw
  · exact rest

theorem transfer_counts (hc : options.controller = controller) :
    (single id index controller).Does (Has id index ψ) (transfer options) (fun _ => Has id index ψ)
      (Failing id index controller ψ) := by
  refine fetch_step (by simp) rfl fun resumeFrom => fetch_step (by simp) rfl fun response => ?_
  split
  · exact fetch_step (by simp) rfl fun _ => fetch_step (by simp) rfl fun _ => fetch_pure
  split
  · exact fetch_step (by simp) rfl fun _ => receive_counts ho hc _ _
  split
  · exact fetch_step (by simp) rfl fun _ => fetch_throw
  · exact receive_counts ho hc _ _

/-- A fetch counts once, and leaves the row as it is. -/
theorem fetchFile_counts (hc : options.controller = controller)
    (hφ : ∀ a st n, φ a st n → ψ a st (n + 1)) :
    (single id index controller).Does (Has id index φ) (fetchFile options) (fun _ => Has id index ψ)
      (Failing id index controller ψ) := by
  have counted {w : FileWorld} {c : Choice} {r : Reply (.makeParent options.destination)} {s : State}
      (hw : Has id index φ w) (h : call w.state (.makeParent options.destination) c = (r, s)) :
      Has id index ψ ⟨s, .did 0 () (.makeParent options.destination) r w.state s :: w.trace⟩ := by
    obtain ⟨file, hfile, hφw⟩ := hw
    refine ⟨file, call_fileAt h rfl hfile, ?_⟩
    rw [fetches_makeParent]
    exact hφ _ _ _ hφw
  have rest : (single id index controller).Does (Has id index ψ) (do
      let finalSize ← op (.fileSize options.destination)
      if 0 < finalSize then
        if options.expectedSize.all (· = finalSize) then pure ⟨finalSize, true⟩
        else
          op (.remove options.destination)
          transfer options
      else transfer options) (fun _ => Has id index ψ) (Failing id index controller ψ) := by
    refine fetch_step (by simp) rfl fun finalSize => ?_
    split
    · split
      · exact fetch_pure
      · exact fetch_step (by simp) rfl fun _ => transfer_counts ho hc
    · exact transfer_counts ho hc
  intro w hw
  refine Program.Safe.invoke_bind ?_
  rintro w₁ h₁ r ⟨s, trace⟩ ⟨hw₂, c, ths, hdb, he⟩
  have hnext := counted (has_stable w w₁ h₁ hw) (file_exec he)
  rw [← hw₂] at hnext
  refine ⟨trivial, ?_⟩
  cases r with
  | error e =>
    exact fun v hv => failing_stable e _ v hv
      ⟨hnext, fun hcancel => absurd hcancel (call_not_cancelled (file_exec he))⟩
  | ok a => exact rest _ hnext

omit ho in
theorem never_stable : (single id index controller).Stable fun _ => False := fun _ _ _ h => h

omit ho in
theorem recomputeTotals_counts :
    (single id index controller).Does (Has id index φ) (recomputeTotals id)
      (fun _ => Has id index φ) fun _ _ => False := by
  refine has_step rfl fun row => ?_
  refine .call_telling has_stable (fun _ => has_stable) (fun _ => never_stable)
    (has_call (by simp) rfl) ?_
  rintro w e w' ⟨file, hfile, -⟩ ⟨-, c, ths, hc, he⟩
  obtain ⟨d, hd, -⟩ := Option.bind_eq_some_iff.mp hfile
  have hcall := file_exec he
  simp only [call, hc rfl, perform, State.updateRow, hd] at hcall
  cases hcall

omit ho in
theorem publishDownload_counts (event : Nat → Download → ServerEvent) :
    (single id index controller).Does (Has id index φ) (publishDownload id event)
      (fun _ => Has id index φ) fun _ _ => False := by
  refine has_step rfl ?_
  rintro (_ | row)
  · exact .pure has_stable fun _ hw => hw
  · refine .call_telling has_stable (fun _ => has_stable) (fun _ => never_stable)
      (has_call (by simp) rfl) ?_
    rintro w e w' - ⟨-, c, ths, hc, he⟩
    exact call_replies rfl hc (file_exec he)

end

/-- The memory has `m` attempts, as the row, `a` of them from before; the budget is not used up. -/
def Due (M a m : Nat) (stored : Nat) (_ : FileStatus) (n : Nat) : Prop :=
  stored = m ∧ m = a + n ∧ (n = 0 ∨ m < M)

/-- One more attempt has been made. -/
def Spent (M a m : Nat) (stored : Nat) (_ : FileStatus) (n : Nat) : Prop :=
  stored = m + 1 ∧ m + 1 = a + n ∧ (m = a ∨ m < M)

/-- The file is settled with the outcome. -/
def Closed (M a : Nat) (outcome : FileOutcome) (stored : Nat) (status : FileStatus) (n : Nat) : Prop :=
  stored = a + n ∧ n ≤ max 1 (M - a) ∧ status = outcome.status

/-- What the result of `processFile` says is so, and a cancelled job is an aborted one. -/
def Agrees (id index controller M a : Nat) (outcome : FileOutcome) (w : FileWorld) : Prop :=
  Has id index (Closed M a outcome) w ∧
    (outcome = .cancelled → w.state.memory.aborted controller = true)

section
variable {id index controller M a m : Nat}

theorem agrees_stable {outcome : FileOutcome} :
    (single id index controller).Stable (Agrees id index controller M a outcome) := by
  intro w w' hr h
  exact ⟨has_stable w w' hr h.1, fun hc => saysAborted_stable (e := .cancelled) w w' hr (fun _ => h.2 hc) rfl⟩

theorem Spent.within {stored n : Nat} {status : FileStatus} (h : Spent M a m stored status n) :
    stored = a + n ∧ n ≤ max 1 (M - a) := by
  obtain ⟨rfl, hn, hm⟩ := h
  refine ⟨hn, ?_⟩
  rcases hm with rfl | hm
  · exact le_max_of_le_left (by omega)
  · exact le_max_of_le_right (by omega)

theorem Due.within {stored n : Nat} {status : FileStatus} (h : Due M a m stored status n) :
    stored = a + n ∧ n ≤ max 1 (M - a) := by
  obtain ⟨rfl, rfl, hm⟩ := h
  refine ⟨rfl, ?_⟩
  rcases hm with rfl | hm
  · exact Nat.zero_le _
  · exact le_max_of_le_right (by omega)

/-- A mark as failed settles the file. -/
theorem refuse_counts {φ : Nat → FileStatus → Nat → Prop} (message : String)
    (hφ : ∀ stored st n, φ stored st n → stored = a + n ∧ n ≤ max 1 (M - a)) :
    (single id index controller).Does (Has id index φ) (do
      markFileFailed id index message
      pure .failed : Flow FileOutcome) (Agrees id index controller M a) fun _ _ => False := by
  refine has_write (ψ := Closed M a .failed) (fun d n h => ?_) fun _ => ?_
  · obtain ⟨hs, hn⟩ := hφ _ _ _ h
    exact ⟨hs, hn, rfl⟩
  · exact .pure has_stable fun w hw => ⟨hw, fun hc => by cases hc⟩

theorem attempt_counts (url destination : Str) (probed : Option Nat) :
    (single id index controller).Does
      (Has id index fun stored _ n => stored = m + 1 ∧ m = a + n ∧ (m = a ∨ m < M))
      (attempt id index url destination probed controller) (Agrees id index controller M a)
      (Failing id index controller (Spent M a m)) := by
  refine .bind failing_stable (fetchFile_counts (ψ := Spent M a m) (fun n total => ⟨id, index, rfl⟩) rfl
    fun stored st n h => ⟨h.1, by omega, h.2.2⟩) fun result => ?_
  refine has_write (ψ := Closed M a .done) (fun d n h => ?_) fun _ => ?_
  · obtain ⟨hs, hn⟩ := h.within
    exact ⟨hs, hn, rfl⟩
  refine .bind failing_stable (recomputeTotals_counts.conseq (fun _ h => h) (fun _ _ h => h)
    fun _ _ h => h.elim) fun _ => ?_
  refine .bind failing_stable ((publishDownload_counts _).conseq (fun _ h => h) (fun _ _ h => h)
    fun _ _ h => h.elim) fun _ => ?_
  exact .pure has_stable fun w hw => ⟨hw, fun hc => by cases hc⟩

theorem cancel_counts (M : Nat) : (single id index controller).Does
    (fun w => Has id index (Spent M a m) w ∧ SaysAborted controller .cancelled w)
    (do
      op (.updateFile id index .cancelled)
      pure .cancelled : Flow FileOutcome) (Agrees id index controller M a) fun _ _ => False := by
  have goes {w : FileWorld} {c : Choice} {r : Reply (.updateFile id index .cancelled)} {s : State}
      (hw : Has id index (Spent M a m) w) (hc : DatabaseAnswers (.updateFile id index .cancelled) c)
      (h : call w.state (.updateFile id index .cancelled) c = (r, s)) :=
    write_goes (ψ := Closed M a .cancelled) hw hc h fun d n h => ⟨h.within.1, h.within.2, rfl⟩
  refine .surely (Q := fun _ => Agrees id index controller M a .cancelled)
    (fun w w' hr h => ⟨has_stable w w' hr h.1, saysAborted_stable w w' hr h.2⟩)
    ⟨fun _ _ _ _ _ => trivial, ?_, ?_⟩ ?_ fun _ => .pure agrees_stable fun _ hw => hw
  · rintro w v ⟨s', trace'⟩ ⟨hw, htold⟩ ⟨hw', c, ths, hc, he⟩
    rw [hw']
    refine ⟨(goes hw hc (file_exec he)).2, fun _ => ?_⟩
    have hsame := (call_same w.state (.updateFile id index .cancelled) c).aborted
    rw [file_exec he] at hsame
    exact (congrFun hsame controller).trans (htold rfl)
  · rintro w e w' ⟨hw, -⟩ ⟨-, c, ths, hc, he⟩
    cases (goes hw hc (file_exec he)).1
  · rintro w e w' ⟨hw, -⟩ ⟨-, c, ths, hc, he⟩
    cases (goes hw hc (file_exec he)).1

theorem afterFailure_counts {env : Env} {file : DownloadFile} {again : Flow FileOutcome}
    (hm : file.attempts = m)
    (hagain : m + 1 < env.maxAttempts → (single id index controller).Does
      (Has id index (Due env.maxAttempts a (m + 1))) again
      (Agrees id index controller env.maxAttempts a) fun _ _ => False) (e : Err) :
    (single id index controller).Does (Failing id index controller (Spent env.maxAttempts a m) e)
      (afterFailure env id index file controller again e)
      (Agrees id index controller env.maxAttempts a) fun _ _ => False := by
  refine aborted_step fun b => ?_
  by_cases hb : e = .cancelled ∨ b = true
  · rw [if_pos hb]
    refine .conseq (P := fun w => Has id index (Spent env.maxAttempts a m) w ∧
      SaysAborted controller .cancelled w) (cancel_counts env.maxAttempts) (fun w hw => ?_) (fun _ _ h => h)
      fun _ _ h => h
    refine ⟨hw.1.1, fun _ => ?_⟩
    rcases hb with rfl | hb
    · exact hw.1.2 rfl
    · exact hw.2 hb
  · simp only [if_neg hb, hm]
    by_cases ha : m + 1 < env.maxAttempts
    · simp only [if_pos ha]
      refine .conseq (P := Has id index (Spent env.maxAttempts a m)) ?_ (fun w hw => hw.1.1)
        (fun _ _ h => h) fun _ _ h => h
      refine has_write (ψ := Due env.maxAttempts a (m + 1)) (fun d n h => ?_) fun _ =>
        has_step rfl fun _ => hagain ha
      exact ⟨h.1, h.2.1, .inr ha⟩
    · simp only [if_neg ha]
      exact (refuse_counts _ fun _ _ _ h => h.within).conseq (fun w hw => hw.1.1) (fun _ _ h => h)
        fun _ _ h => h

theorem processOnce_counts {env : Env} {folder : Str} {file : DownloadFile} {again : Flow FileOutcome}
    (hm : file.attempts = m)
    (hagain : m + 1 < env.maxAttempts → (single id index controller).Does
      (Has id index (Due env.maxAttempts a (m + 1))) again
      (Agrees id index controller env.maxAttempts a) fun _ _ => False) :
    (single id index controller).Does (Has id index (Due env.maxAttempts a m))
      (processOnce env id folder index file controller again)
      (Agrees id index controller env.maxAttempts a) fun _ _ => False := by
  have refused (message : String) :
      (single id index controller).Does (Has id index (Due env.maxAttempts a m)) (do
        markFileFailed id index message
        pure .failed : Flow FileOutcome) (Agrees id index controller env.maxAttempts a)
        fun _ _ => False := refuse_counts message fun _ _ _ h => h.within
  have rest (destination : Str) (probed : Option Nat) :
      (single id index controller).Does (Has id index (Due env.maxAttempts a m)) (do
        let space ← checkSpace env probed
        if !space.ok then
          markFileFailed id index (noSpace space)
          pure .failed
        else
          op (.updateFile id index .begin)
          tryCatch (attempt id index file.url destination probed controller)
            (afterFailure env id index file controller again) : Flow FileOutcome)
        (Agrees id index controller env.maxAttempts a) fun _ _ => False := by
    refine .bind (fun _ => never_stable) (Q := fun _ => Has id index (Due env.maxAttempts a m))
      (has_step rfl fun free => .pure has_stable fun _ hw => hw) fun space => ?_
    split
    · exact refused _
    refine has_write (fun d n h => ?_) fun _ => .catch (fun _ => agrees_stable)
      (attempt_counts _ _ _) (afterFailure_counts hm hagain)
    obtain ⟨hs, hd, hleft⟩ := h
    exact ⟨congrArg (· + 1) hs, hd, hleft.imp_left fun hn => by omega⟩
  rw [processOnce]
  split
  · exact refused _
  split
  · exact .bind (fun _ => never_stable) (.pure has_stable fun _ hw => hw) fun probed => rest _ probed
  · refine .bind (fun _ => never_stable) (Q := fun _ => Has id index (Due env.maxAttempts a m))
      (has_step rfl ?_) fun probed => rest _ probed
    rintro (_ | size)
    · exact .pure has_stable fun _ hw => hw
    · exact has_write (fun d n h => h) fun _ => .pure has_stable fun _ hw => hw

theorem processFile_counts (env : Env) (folder : Str) (file : DownloadFile) :
    (single id index controller).Does (Has id index (Due env.maxAttempts a file.attempts))
      (processFile env id folder index controller file)
      (Agrees id index controller env.maxAttempts a) fun _ _ => False := by
  rw [processFile]
  generalize hn : env.maxAttempts - file.attempts = n
  induction n generalizing file with
  | zero => exact processOnce_counts rfl fun ha => by omega
  | succ n ih =>
    exact processOnce_counts rfl fun ha => ih { file with attempts := file.attempts + 1 } (by
      show env.maxAttempts - (file.attempts + 1) = n
      omega)

/-- `processFile` on a stored file returns, however often it is disturbed; it has then fetched as
often as the stored attempts have grown, within the budget, and says what the row says. -/
theorem attempts_within_budget (env : Env) (id : Nat) (folder : Str) (index controller : Nat)
    (file : DownloadFile) {s : State}
    (hs : (s.fileAt id index).map (·.attempts) = some file.attempts) :
    (∀ run label, fileSystem.Endless DatabaseAnswers (Spares id index controller) 0 run label →
      run 0 = begun s (processFile env id folder index controller file) →
      ∃ n r, (run n).threads 0 = some ⟨(), .ret r⟩) ∧
    ∀ q k r, fileSystem.Undisturbed DatabaseAnswers (Spares id index controller) 0
        (begun s (processFile env id folder index controller file)) q →
      q.threads 0 = some ⟨k, .ret r⟩ →
      ∃ outcome stored, r = .ok outcome ∧ q.state.fileAt id index = some stored ∧
        fetches q.trace ≤ max 1 (env.maxAttempts - file.attempts) ∧
        stored.attempts = file.attempts + fetches q.trace ∧ stored.status = outcome.status ∧
        (outcome = .cancelled → q.state.memory.aborted controller = true) := by
  have hfresh : (begun s (processFile env id folder index controller file)).Fresh :=
    Pool.spawn_fresh (p := Pool.initial s) (fun _ _ => rfl) [_]
  have hthread : (begun s (processFile env id folder index controller file)).threads 0 =
      some ⟨(), (processFile env id folder index controller file).run⟩ := by
    simp [begun, Pool.add, Pool.initial]
  refine ⟨fun run label hrun h0 => ?_, fun q k r hr hq => ?_⟩
  · refine hrun.returns (n := 0) (fun s f s' dies ths _ he => ?_) _ (h0 ▸ hfresh) (h0 ▸ hthread)
    cases he
    rfl
  · obtain ⟨stored, hstored, ha⟩ := Option.map_eq_some_iff.mp hs
    have hdue : Has id index (Due env.maxAttempts file.attempts file.attempts)
        (begun s (processFile env id folder index controller file)).toWorld :=
      ⟨stored, hstored, ha, rfl, .inl rfl⟩
    have hpost := System.Undisturbed.result hfresh hthread
      (processFile_counts env folder file _ hdue) hr hq
    cases r with
    | error e => exact hpost.elim
    | ok outcome =>
      obtain ⟨⟨f, hf, hattempts, hn, hstatus⟩, habort⟩ := hpost
      exact ⟨outcome, f, rfl, hf, hn, hattempts, hstatus, habort⟩

end

def resultOf (q : FilePool) : Option (Except Err FileOutcome) :=
  match q.threads 0 with
  | some ⟨_, .ret r⟩ => some r
  | _ => none

theorem resultOf_threads {q : FilePool} {r : Except Err FileOutcome} (h : resultOf q = some r) :
    ∃ k, q.threads 0 = some ⟨k, .ret r⟩ := by
  rw [resultOf] at h
  split at h
  · cases h
    exact ⟨_, ‹_›⟩
  · cases h

/-- The check that only the call goes on, and nothing fails. -/
def unfailing (_ : FilePool) : Label Choice (State → State) → Bool
  | .exec t c => t = 0 && c.failure.isNone
  | _ => false

theorem unfailing_undisturbed {quiet : (State → State) → Prop} {p q : FilePool}
    {ls : List (Label Choice (State → State))} (h : fileSystem.replay unfailing p ls = some q) :
    fileSystem.Undisturbed DatabaseAnswers quiet 0 p q := by
  refine System.replay_runs _ (fun p l hl => .inl ?_) h
  cases l with
  | exec t c =>
    obtain ⟨ht, hc⟩ := Bool.and_eq_true_iff.mp hl
    refine ⟨c, by rw [of_decide_eq_true ht], fun k o rest _ _ => ?_⟩
    exact Option.isNone_iff_eq_none.mp hc
  | _ => cases hl

/-- The file of `oneJob`. -/
def oneFile : DownloadFile := { url := ['u'], relPath := ['a'] }

/-- The host does not have the file. -/
theorem attempts_within_budget_missing : ∃ q : FilePool, resultOf q = some (.ok .failed) ∧
    ∃ outcome stored, .ok .failed = (.ok outcome : Except Err FileOutcome) ∧
      q.state.fileAt 0 0 = some stored ∧ fetches q.trace ≤ max 1 ((Env.small 1).maxAttempts - 0) ∧
      stored.attempts = 0 + fetches q.trace ∧ stored.status = outcome.status ∧
      (outcome = .cancelled → q.state.memory.aborted 0 = true) := by
  have hrun : (fileSystem.replay unfailing
      (begun oneJob (processFile (Env.small 1) 0 ['F'] 0 0 oneFile))
      (List.replicate 6 (.exec 0 {}) ++ .exec 0 { response := { status := 404 } } ::
        List.replicate 3 (.exec 0 {}))).any
      (fun q => resultOf q = some (.ok .failed)) = true := by decide +kernel
  obtain ⟨q, hq, hn⟩ := Option.any_eq_true _ _ |>.mp hrun
  obtain ⟨k, hk⟩ := resultOf_threads (of_decide_eq_true hn)
  exact ⟨q, of_decide_eq_true hn, (attempts_within_budget (Env.small 1) 0 ['F'] 0 0 oneFile
    (s := oneJob) rfl).2 q k _ (unfailing_undisturbed hq) hk⟩

end CircleFtp.Downloads
