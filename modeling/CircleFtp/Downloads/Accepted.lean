import CircleFtp.Concurrent.Alone
import CircleFtp.Downloads.Resume

/-! The size of the file that a fetch puts in place, against the size that the host or the probe
told. -/
namespace CircleFtp.Downloads
open Concurrent Files Strings

abbrev FetchEvent := Event State FetchOptions Op Reply FetchArrival (Except Err FetchResult)

/-- The last answer of the host, with the offset that was asked for. -/
def answered : List FetchEvent → Option (Nat × Response)
  | [] => none
  | .did _ _ (.request _ range _) (.ok response) _ _ :: _ => some (range.getD 0, response)
  | _ :: trace => answered trace

/-- Where the body of an answer begins in the file. -/
def Response.start (response : Response) (offset : Nat) : Nat :=
  if response.status = 206 then offset else 0

/-- The size of the file as the headers of an answer tell it, or else the probe. -/
def knownTotal (options : FetchOptions) (offset : Nat) (response : Response) : Option Nat :=
  (if response.status = 416 then rangeTotal response.contentRange
    else totalFromHeaders response (response.start offset)).or options.expectedSize

/-- With `part` bytes in the part file, the answer leaves a file of `n` bytes: a refusal finds all
of them there, a body with a total in its headers brings no more, any other exactly the rest. -/
def FitsTotal (part offset n : Nat) (response : Response) : Prop :=
  if response.status = 416 then part = n
  else if (totalFromHeaders response (response.start offset)).isSome then
    response.start offset + response.body.length ≤ n
  else response.start offset + response.body.length = n

def FetchArrival.isAbort : FetchArrival → Prop
  | .abort _ => True
  | _ => False

/-- The disk satisfies `φ` and the host has answered `a`. -/
def Stood (φ : Disk Str UInt8 → Prop) (a : Option (Nat × Response)) (w : FetchWorld) : Prop :=
  φ w.state.disk ∧ answered w.trace = a

section
variable {url destination : Str} {onProgress : Nat → Option Nat → Flow Unit}
  {options : FetchOptions} {t : Nat} {φ : Disk Str UInt8 → Prop} {a : Option (Nat × Response)}

/-- A single fetch that may be aborted. -/
abbrev lonely (url destination : Str) (onProgress : Nat → Option Nat → Flow Unit) (t : Nat)
    (options : FetchOptions) : Contract FetchWorld Op Reply :=
  (fetchSystem url destination onProgress).undisturbed (fun _ _ => True) FetchArrival.isAbort t
    options

theorem stood_stable : (lonely url destination onProgress t options).Stable (Stood φ a) := by
  refine System.undisturbed_stable fun w x s ths hx hs h => ?_
  cases x with
  | abort controller =>
    cases hs
    exact h
  | fetch => cases hx
  | kill => cases hx

theorem answered_other {k : FetchOptions} {o : Op} (ho : ∀ u range c, o ≠ .request u range c)
    (r : Reply o) (s s' : State) (trace : List FetchEvent) :
    answered (.did t k o r s s' :: trace) = answered trace := by
  cases o
  case request u range c => exact absurd rfl (ho u range c)
  all_goals rfl

theorem answered_error {k : FetchOptions} {o : Op} (e : Err) (s s' : State)
    (trace : List FetchEvent) :
    answered (.did t k o (.error e) s s' :: trace) = answered trace := by
  cases o <;> rfl

theorem fetch_exec {s s' : State} {k : FetchOptions} {o : Op} {c : Choice} {r : Reply o}
    {ths : List (Thread FetchOptions Op Reply (Except Err FetchResult))}
    (h : (fetchSystem url destination onProgress).exec s k o c = some (r, s', ths)) :
    call s o c = (r, s') := by
  simp only [fetchSystem, Option.some.injEq, Prod.mk.injEq] at h
  exact Prod.ext h.1 h.2.1

theorem fetch_exec_disk {s s' : State} {k : FetchOptions} {o : Op} {c : Choice} {r : Reply o}
    {ths : List (Thread FetchOptions Op Reply (Except Err FetchResult))} (hq : o.onDisk = false)
    (h : (fetchSystem url destination onProgress).exec s k o c = some (r, s', ths)) :
    s'.disk = s.disk := by
  have hd := call_disk s c hq
  rwa [fetch_exec h] at hd

/-- Any call but the request leaves the answer; an error leaves the disk. -/
theorem stood_call {o : Op} {ψ : Val o → Disk Str UInt8 → Prop} (ho : ∀ u r c, o ≠ .request u r c)
    (h : ∀ s c v s', φ s.disk → perform s c o = (.ok v, s') → ψ v s'.disk) :
    (lonely url destination onProgress t options).Calls (Stood φ a) o fun v => Stood (ψ v) a := by
  refine System.undisturbed_calls (fun w c v s ths hw _ he => ?_) fun w c e s ths hw _ he => ?_
  · exact ⟨h _ c v s hw.1 (call_ok (fetch_exec he)), (answered_other ho _ _ _ _).trans hw.2⟩
  · refine ⟨?_, (answered_error ..).trans hw.2⟩
    rw [call_error (fetch_exec he)]
    exact hw.1

theorem stood_quiet {o : Op} (ho : ∀ u r c, o ≠ .request u r c) (hq : o.onDisk = false) :
    (lonely url destination onProgress t options).Calls (Stood φ a) o fun _ => Stood φ a := by
  refine System.undisturbed_calls (fun w c v s ths hw _ he => ?_) fun w c e s ths hw _ he => ?_
  · exact ⟨(fetch_exec_disk hq he).symm ▸ hw.1, (answered_other ho _ _ _ _).trans hw.2⟩
  · exact ⟨(fetch_exec_disk hq he).symm ▸ hw.1, (answered_error ..).trans hw.2⟩

theorem stood_report {m : Flow Unit} (hm : m.run.Uses Op.reports) :
    (lonely url destination onProgress t options).Does (Stood φ a) m (fun _ => Stood φ a)
      fun _ => Stood φ a := by
  refine Contract.Does.of_uses stood_stable (fun o ho => ?_) hm
  cases o <;> first | exact ho.elim | exact stood_quiet (by simp) rfl

theorem stood_request {u : Str} {range : Option Nat} {c : Nat} :
    (lonely url destination onProgress t options).Calls (Stood φ a) (.request u range c)
      fun response => Stood φ (some (range.getD 0, response)) := by
  refine System.undisturbed_calls (fun w c v s ths hw _ he => ⟨?_, rfl⟩) fun w c e s ths hw _ he => ?_
  · exact (fetch_exec_disk rfl he).symm ▸ hw.1
  · exact ⟨(fetch_exec_disk rfl he).symm ▸ hw.1, (answered_error ..).trans hw.2⟩

/-- Any failure will do. -/
abbrev anyhow : Err → FetchWorld → Prop := fun _ _ => True

theorem anyhow_stable (e : Err) : (lonely url destination onProgress t options).Stable (anyhow e) :=
  Contract.Stable.true _

/-- The open file is the part file, with so many bytes in it. -/
structure Filled (destination : Str) (file n : Nat) (d : Disk Str UInt8) : Prop where
  link : d.links (partPathFor destination) = some file
  size : (d.contents file).length = n

variable (hp : ∀ n total, (options.onProgress n total).run.Uses Op.reports)
include hp

theorem pipeline_fills (file : Nat) (append : Bool) (total : Option Nat) (ending : Option String)
    (body : Bytes) (written : Nat) :
    (lonely url destination onProgress t options).Does
      (Stood (Filled options.destination file written) a)
      (pipeline options file append total ending body written)
      (fun n => Stood (fun d => n = written + body.length ∧
        Filled options.destination file (written + body.length) d) a) anyhow := by
  induction body generalizing written with
  | nil =>
    cases ending with
    | some message => exact .throw stood_stable fun _ _ => trivial
    | none => exact .pure stood_stable fun _ h => ⟨⟨rfl, h.1⟩, h.2⟩
  | cons byte body ih =>
    refine .bind anyhow_stable ((stood_report (hp _ _)).conseq (fun _ h => h) (fun _ _ h => h)
      fun _ _ _ => trivial) fun _ => ?_
    refine .step (Q := fun _ => Stood (Filled options.destination file (written + 1)) a) stood_stable
      (fun _ => stood_stable) anyhow_stable (stood_call (by simp) ?_) (fun _ _ _ => trivial) fun _ => ?_
    · rintro s c v s' ⟨hl, hn⟩ h
      obtain rfl := congrArg Prod.snd h
      refine ⟨hl, ?_⟩
      have hend : writeAt (s.disk.contents file) (if append then none else some written) byte =
          s.disk.contents file ++ [byte] :=
        writeAt_end _ (fun n h => by cases append <;> simp_all) byte
      simp [perform, Disk.write, Disk.put, hend, hn]
    · refine (ih (written + 1)).conseq (fun _ h => h) (fun n w h => ?_) fun _ _ h => h
      rw [List.length_cons, Nat.add_comm body.length, ← Nat.add_assoc]
      exact h

/-- What is received lands with the bytes it goes on from and those of the body. -/
theorem receive_lands (response : Response) (offset : Nat) :
    (lonely url destination onProgress t options).Does
      (Stood (fun d => 0 < offset → d.size (partPathFor options.destination) = offset) a)
      (receive options response offset)
      (fun _ => Stood (fun d => d.size options.destination = offset + response.body.length ∧
        ∀ n, totalFromHeaders response offset = some n → n ≤ offset + response.body.length) a)
      anyhow := by
  have stopped (e : Err) {Q : Nat → FetchWorld → Prop} :
      (lonely url destination onProgress t options).Does (anyhow e)
        (do if ← op (.aborted options.controller) then throw .cancelled else throw e) Q anyhow := by
    refine .step (Q := fun _ _ => True) (.true _) (fun _ => .true _) anyhow_stable
      ⟨fun _ _ _ _ _ => trivial, fun _ _ _ _ _ => trivial, fun _ _ _ _ _ => trivial⟩
      (fun _ _ _ => trivial) fun b => ?_
    cases b <;> exact .throw (.true _) fun _ _ => trivial
  have opened : (lonely url destination onProgress t options).Does
      (Stood (fun d => 0 < offset → d.size (partPathFor options.destination) = offset) a)
      (do
        let file ← op (.openFile (partPathFor options.destination) (decide (0 < offset)))
        pipeline options file (decide (0 < offset)) (totalFromHeaders response offset)
          response.ending response.body offset)
      (fun n => Stood (fun d => ∃ file, n = offset + response.body.length ∧
        Filled options.destination file n d) a) anyhow := by
    refine .step (Q := fun file => Stood (Filled options.destination file offset) a) stood_stable
      (fun _ => stood_stable) anyhow_stable (stood_call (by simp) ?_) (fun _ _ _ => trivial) fun file => ?_
    · rintro s c file s' hs h
      obtain ⟨hv, rfl⟩ := Prod.mk.inj h
      obtain rfl := Except.ok.inj hv
      refine ⟨Disk.openFile_links .., ?_⟩
      have hc := Disk.openFile_content s.disk (partPathFor options.destination) (decide (0 < offset))
      rw [Disk.content, Disk.openFile_links, Option.map_some, Option.some.injEq] at hc
      rw [hc]
      by_cases hpos : 0 < offset
      · simpa [hpos, Disk.size] using hs hpos
      · simp [hpos]
        omega
    · refine (pipeline_fills hp file _ _ _ _ _).conseq (fun _ h => h) ?_ fun _ _ h => h
      rintro n w ⟨⟨rfl, hf⟩, ha⟩
      exact ⟨⟨file, rfl, hf⟩, ha⟩
  refine .bind anyhow_stable (.catch (fun _ => stood_stable) opened fun e => stopped e)
    fun written => ?_
  refine .bind anyhow_stable ((stood_report (hp _ _)).conseq (fun _ h => h) (fun _ _ h => h)
    fun _ _ _ => trivial) fun _ => ?_
  by_cases hshort : (totalFromHeaders response offset).any (written < ·) = true
  · simp only [hshort, if_true]
    exact .throw stood_stable fun _ _ => trivial
  · simp only [hshort]
    refine .step (Q := fun _ => Stood (fun d => d.size options.destination =
        offset + response.body.length ∧ ∀ n, totalFromHeaders response offset = some n →
        n ≤ offset + response.body.length) a) stood_stable
      (fun _ => stood_stable) anyhow_stable (stood_call (by simp) ?_) (fun _ _ _ => trivial)
      fun _ => .pure stood_stable fun _ h => h
    rintro s c v s' ⟨file, rfl, hl, hn⟩ h
    simp only [perform, hl, Prod.mk.injEq] at h
    obtain ⟨-, rfl⟩ := h
    refine ⟨?_, fun n htotal => ?_⟩
    · rw [Disk.size, Disk.content_rename_new, Disk.content, hl]
      exact hn
    · simpa [htotal] using hshort

/-- The size in place after an answer. -/
def SizedBy (part offset : Nat) (response : Response) (size : Nat) : Prop :=
  if response.status = 416 then size = part
  else size = response.start offset + response.body.length ∧
    ∀ n, totalFromHeaders response (response.start offset) = some n → n ≤ size

omit hp in
theorem SizedBy.fits {part offset n size : Nat} {response : Response} {options : FetchOptions}
    (h : SizedBy part offset response size) (hn : knownTotal options offset response = some n) :
    size = n ↔ FitsTotal part offset n response := by
  by_cases h416 : response.status = 416
  · rw [SizedBy, if_pos h416] at h
    rw [FitsTotal, if_pos h416, h]
  rw [SizedBy, if_neg h416] at h
  rw [knownTotal, if_neg h416] at hn
  rw [FitsTotal, if_neg h416]
  obtain ⟨rfl, hmin⟩ := h
  cases htotal : totalFromHeaders response (response.start offset) with
  | none => rfl
  | some m =>
    rw [htotal, Option.some_or, Option.some.injEq] at hn
    subst hn
    have := hmin m htotal
    simp only [Option.isSome_some, if_true]
    omega

/-- A fetch that is not skipped leaves the size that its answer brings. -/
def Transferred (destination : Str) (part : Nat) (result : FetchResult) (w : FetchWorld) : Prop :=
  result.skipped = false → ∃ offset response, answered w.trace = some (offset, response) ∧
    SizedBy part offset response (w.state.disk.size destination)

theorem transfer_lands (part : Nat) :
    (lonely url destination onProgress t options).Does
      (Stood (fun d => d.size (partPathFor options.destination) = part) none) (transfer options)
      (Transferred options.destination part) anyhow := by
  refine .step (Q := fun offset => Stood (fun d => d.size (partPathFor options.destination) = part ∧
      (0 < offset → offset = part)) none) stood_stable (fun _ => stood_stable) anyhow_stable
    (stood_call (by simp) ?_) (fun _ _ _ => trivial) fun (offset : Nat) => ?_
  · rintro s c offset s' hs h
    simp only [perform, Prod.mk.injEq, Except.ok.injEq] at h
    obtain ⟨rfl, rfl⟩ := h
    refine ⟨hs, fun hpos => ?_⟩
    by_cases hf : c.failure.isSome = true
    · simp [hf] at hpos
    · rw [if_neg hf, hs]
  refine .step (Q := fun response => Stood (fun d => d.size (partPathFor options.destination) = part ∧
      (0 < offset → offset = part)) (some (offset, response))) stood_stable (fun _ => stood_stable)
    anyhow_stable ?_ (fun _ _ _ => trivial) fun (response : Response) => ?_
  · have hr : (if 0 < offset then some offset else none).getD 0 = offset := by
      split
      · rfl
      · exact (Nat.eq_zero_of_not_pos ‹_›).symm
    refine stood_request.mono fun response w h => ?_
    rwa [hr] at h
  have dumped {m : Flow FetchResult} {Q : FetchResult → FetchWorld → Prop}
      (h : (lonely url destination onProgress t options).Does
        (Stood (fun d => d.size (partPathFor options.destination) = part) (some (offset, response)))
        m Q anyhow) :
      (lonely url destination onProgress t options).Does (Stood (fun d =>
        d.size (partPathFor options.destination) = part ∧ (0 < offset → offset = part))
        (some (offset, response))) (op .dump >>= fun _ => m) Q anyhow :=
    .step stood_stable (fun _ => stood_stable) anyhow_stable (stood_quiet (by simp) rfl)
      (fun _ _ _ => trivial) fun _ => h.conseq (fun _ h => ⟨h.1.1, h.2⟩) (fun _ _ h => h) fun _ _ h => h
  split
  · rename_i h416
    refine dumped (.step (Q := fun _ => Stood (fun d => d.size options.destination = part)
      (some (offset, response))) stood_stable (fun _ => stood_stable) anyhow_stable
      (stood_call (by simp) ?_) (fun _ _ _ => trivial) fun _ => ?_)
    · rintro s c v s' hs h
      simp only [perform] at h
      split at h
      · cases h
      · obtain rfl := congrArg Prod.snd h
        rw [Disk.size, Disk.content_rename_new]
        exact hs
    · exact .pure stood_stable fun w h _ => ⟨offset, response, h.2, by rw [SizedBy, if_pos h416, h.1]⟩
  rename_i h416
  split
  · rename_i h200
    refine .step (Q := fun _ => Stood (fun _ => True) (some (offset, response))) stood_stable
      (fun _ => stood_stable) anyhow_stable (stood_call (by simp) fun _ _ _ _ _ _ => trivial)
      (fun _ _ _ => trivial) fun _ => ?_
    refine (receive_lands hp response 0).conseq (fun w h => ⟨by simp, h.2⟩) (fun result w h _ => ?_)
      fun _ _ h => h
    refine ⟨offset, response, h.2, ?_⟩
    rw [SizedBy, if_neg h416, Response.start, if_neg (by omega), h.1.1]
    exact ⟨rfl, h.1.2⟩
  split
  · exact dumped (.throw stood_stable fun _ _ => trivial)
  · rename_i h200 hother
    refine (receive_lands hp response offset).conseq (fun w h => ⟨fun hpos => ?_, h.2⟩)
      (fun result w h _ => ⟨offset, response, h.2, ?_⟩) fun _ _ h => h
    · rw [h.1.1, h.1.2 hpos]
    · have hstart : response.start offset = offset := by
        rw [Response.start]
        split
        · rfl
        · have h : response.status = 200 := Decidable.by_contra fun h => hother ⟨h, ‹_›⟩
          exact (Nat.eq_zero_of_not_pos fun hpos => h200 ⟨h, hpos⟩).symm
      rw [SizedBy, if_neg h416, hstart, h.1.1]
      exact ⟨rfl, h.1.2⟩

theorem fetchFile_lands (part : Nat) :
    (lonely url destination onProgress t options).Does
      (Stood (fun d => d.size (partPathFor options.destination) = part) none) (fetchFile options)
      (Transferred options.destination part) anyhow := by
  refine .step stood_stable (fun _ => stood_stable) anyhow_stable (stood_quiet (by simp) rfl)
    (fun _ _ _ => trivial) fun _ => ?_
  refine .step stood_stable (fun _ => stood_stable) anyhow_stable (stood_quiet (by simp) rfl)
    (fun _ _ _ => trivial) fun finalSize => ?_
  split
  · split
    · exact .pure stood_stable fun _ _ hskip => by cases hskip
    · refine .step stood_stable (fun _ => stood_stable) anyhow_stable (stood_call (by simp) ?_)
        (fun _ _ _ => trivial) fun _ => transfer_lands hp part
      rintro s c v s' hs h
      obtain rfl := congrArg Prod.snd h
      rw [perform, Disk.size, Disk.content_remove_of_ne _ (partPathFor_ne _)]
      exact hs
  · exact transfer_lands hp part

omit hp in
/-- A fetch that nobody disturbs but by aborting it, from any disk: when it resolves and is not
skipped, the file in place has the size that is told exactly if its answer fits it. -/
theorem accepted_size_iff (hp : ∀ n total, (options.onProgress n total).run.Uses Op.reports)
    {s : State} {q : FetchPool}
    (hr : (fetchSystem url destination onProgress).Undisturbed (fun _ _ => True) FetchArrival.isAbort
      0 ((Pool.initial s).add ⟨options, (fetchFile options).run⟩) q) {k : FetchOptions} {bytes : Nat}
    (hq : q.threads 0 = some ⟨k, .ret (.ok ⟨bytes, false⟩)⟩) :
    ∃ offset response, answered q.trace = some (offset, response) ∧
      ∀ n, knownTotal options offset response = some n →
        (q.state.disk.size options.destination = n ↔
          FitsTotal (s.disk.size (partPathFor options.destination)) offset n response) := by
  have hfresh : ((Pool.initial s).add ⟨options, (fetchFile options).run⟩ : FetchPool).Fresh :=
    Pool.spawn_fresh (p := Pool.initial s) (fun _ _ => rfl) [_]
  have hthread : ((Pool.initial s).add ⟨options, (fetchFile options).run⟩ : FetchPool).threads 0 =
      some ⟨options, (fetchFile options).run⟩ := by simp [Pool.add, Pool.initial]
  obtain ⟨offset, response, ha, hs⟩ := System.Undisturbed.result hfresh hthread
    (fetchFile_lands hp (s.disk.size (partPathFor options.destination)) _ ⟨rfl, rfl⟩) hr hq rfl
  exact ⟨offset, response, ha, fun n hn => hs.fits hn⟩

end

/-- What a fetch has resolved with. -/
def fetched (q : FetchPool) : Option FetchResult :=
  match q.threads 0 with
  | some ⟨_, .ret (.ok result)⟩ => some result
  | _ => none

theorem fetched_threads {q : FetchPool} {result : FetchResult} (h : fetched q = some result) :
    ∃ k, q.threads 0 = some ⟨k, .ret (.ok result)⟩ := by
  rw [fetched] at h
  split at h
  · cases h
    exact ⟨_, ‹_›⟩
  · cases h

/-- Fetch `u` to `d`. -/
def fetchToD : FetchOptions where
  url := ['u']
  destination := ['d']
  controller := 0

/-- An empty disk but for the bytes that an earlier attempt has left. -/
def leftOver (part : Bytes) : State := ⟨.empty, (Disk.create .empty "d.part".toList).put 0 part, {}⟩

theorem fetchToD_runs (part : Bytes) (response : Response) (n : Nat) (result : FetchResult)
    (φ : FetchPool → Prop) [DecidablePred φ]
    (h : (((fetchSystem ['u'] ['d'] fun _ _ => pure ()).replay (System.only 0)
      ((Pool.initial (leftOver part)).add ⟨fetchToD, (fetchFile fetchToD).run⟩)
      (List.replicate 3 (.exec 0 {}) ++ .exec 0 { response } :: List.replicate n (.exec 0 {}))).any
      fun q => fetched q = some result && decide (φ q)) = true) :
    ∃ q k, (fetchSystem ['u'] ['d'] fun _ _ => pure ()).Undisturbed (fun _ _ => True)
        FetchArrival.isAbort 0
        ((Pool.initial (leftOver part)).add ⟨fetchToD, (fetchFile fetchToD).run⟩) q ∧
      q.threads 0 = some ⟨k, .ret (.ok result)⟩ ∧ φ q := by
  obtain ⟨q, hq, h⟩ := Option.any_eq_true _ _ |>.mp h
  obtain ⟨hf, hφ⟩ := Bool.and_eq_true_iff.mp h
  obtain ⟨k, hk⟩ := fetched_threads (of_decide_eq_true hf)
  have ha : (fetchSystem ['u'] ['d'] fun _ _ => pure ()).Alone 0 _ q :=
    System.replay_runs _ (fun _ _ => System.only_exec) hq
  exact ⟨q, k, ha.undisturbed fun _ _ => trivial, hk, of_decide_eq_true hφ⟩

/-- Three bytes are left of a file that has two: the refusal of the host puts all three in place. -/
theorem accepted_too_long : ¬ ∀ (url destination : Str) (onProgress : Nat → Option Nat → Flow Unit)
    (options : FetchOptions) (s : State) (q : FetchPool) (k : FetchOptions)
    (bytes offset n : Nat) (response : Response),
    (∀ n total, (options.onProgress n total).run.Uses Op.reports) →
    (fetchSystem url destination onProgress).Undisturbed (fun _ _ => True) FetchArrival.isAbort 0
      ((Pool.initial s).add ⟨options, (fetchFile options).run⟩) q →
    q.threads 0 = some ⟨k, .ret (.ok ⟨bytes, false⟩)⟩ → answered q.trace = some (offset, response) →
    knownTotal options offset response = some n → q.state.disk.size options.destination = n := by
  intro h
  let response : Response := { status := 416, contentRange := "bytes */2".toList }
  obtain ⟨q, k, hr, hq, hsize, ha⟩ := fetchToD_runs [1, 2, 3] response 2 ⟨3, false⟩
    (fun q => q.state.disk.size ['d'] = 3 ∧ (answered q.trace).map (fun a => (a.1, a.2.status,
      a.2.contentRange)) = some (3, 416, "bytes */2".toList)) (by decide)
  obtain ⟨⟨offset, response'⟩, ha, he⟩ := Option.map_eq_some_iff.mp ha
  simp only [Prod.mk.injEq] at he
  obtain ⟨rfl, h416, hrange⟩ := he
  have htotal : knownTotal fetchToD 3 response' = some 2 := by
    rw [knownTotal, if_pos h416, hrange]
    decide
  have := h ['u'] ['d'] (fun _ _ => pure ()) fetchToD (leftOver [1, 2, 3]) q k 3 3 2 response'
    (fun _ _ => trivial) hr hq ha htotal
  rw [show fetchToD.destination = ['d'] from rfl, hsize] at this
  cases this

/-- The last byte of three arrives, and the range says so. -/
theorem accepted_size_resumed : ∃ q : FetchPool, q.state.disk.content ['d'] = some [1, 2, 3] ∧
    ∃ offset response, answered q.trace = some (offset, response) ∧
      ∀ n, knownTotal fetchToD offset response = some n → (q.state.disk.size ['d'] = n ↔
        FitsTotal ((leftOver [1, 2]).disk.size "d.part".toList) offset n response) := by
  obtain ⟨q, k, hr, hq, hφ⟩ := fetchToD_runs [1, 2]
    { status := 206, contentRange := "bytes 2-2/3".toList, body := [3] } 3 ⟨3, false⟩
    (fun q => q.state.disk.content ['d'] = some [1, 2, 3]) (by decide)
  have silent (n : Nat) (total : Option Nat) : (fetchToD.onProgress n total).run.Uses Op.reports := trivial
  exact ⟨q, hφ, accepted_size_iff silent hr hq⟩
end CircleFtp.Downloads
