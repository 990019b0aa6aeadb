import CircleFtp.Downloads.Attempts
import CircleFtp.Downloads.Floor

/-! The space check of `processFile` against the bytes that a file still needs. -/
namespace CircleFtp.Downloads
open Concurrent Files Strings

/-- The free space as the call has just been told it, and the disk that it was told of. -/
def spaceAnswer : List FileEvent → Option (Disk Str UInt8 × Option Nat)
  | .outer _ _ _ :: trace => spaceAnswer trace
  | .did _ _ .freeBytes (.ok free) s _ :: _ => some (s.disk, free)
  | _ => none

/-- The last answer to a probe. -/
def probeAnswer : List FileEvent → Option Nat
  | [] => none
  | .did _ _ (.probeSize _) (.ok size) _ _ :: _ => size
  | _ :: trace => probeAnswer trace

def refusal : String := "Not enough disk space ("

/-- The call marks a file as failed for want of space. -/
def Op.refuses : Op → Bool
  | .updateFile _ _ (.failed message) => refusal.toList.isPrefixOf message.toList
  | _ => false

/-- A space check: what it went by, and whether the file was refused after it. -/
structure SpaceDecision where
  disk : Disk Str UInt8
  probed : Option Nat
  free : Option Nat
  refused : Bool

/-- All space checks that have been acted upon. -/
def decisions (file : DownloadFile) : List FileEvent → List SpaceDecision
  | [] => []
  | .did _ _ o _ _ _ :: trace =>
    match spaceAnswer trace with
    | none => decisions file trace
    | some (disk, free) =>
      ⟨disk, file.sizeBytes.or (probeAnswer trace), free, o.refuses⟩ :: decisions file trace
  | _ :: trace => decisions file trace

namespace SpaceDecision

/-- The bytes still missing: what the part file leaves to the probed size, or none when the
destination has it. -/
def missing (destination : Str) (x : SpaceDecision) : Nat :=
  match x.probed with
  | none => 0
  | some size =>
    if x.disk.size destination = size then 0 else size - x.disk.size (partPathFor destination)

/-- The bytes of the file that the disk holds. -/
def held (destination : Str) (x : SpaceDecision) : Nat :=
  match x.probed with
  | none => 0
  | some size =>
    if x.disk.size destination = size then size else min size (x.disk.size (partPathFor destination))

/-- A refusal is for want of space for the missing bytes. -/
def Justified (env : Env) (destination : Str) (x : SpaceDecision) : Prop :=
  x.refused = true → ∀ free, x.free = some free → (free : Rat) < x.missing destination + env.floor

/-- The space that lacks for the whole file. -/
def shortage (env : Env) (x : SpaceDecision) (free : Nat) : Rat :=
  x.probed.getD 0 + env.floor - free

/-- Nothing lacks, or more than the disk holds of the file. -/
def BeyondHeld (env : Env) (destination : Str) (x : SpaceDecision) : Prop :=
  ∀ free, x.free = some free → x.shortage env free ≤ 0 ∨ x.held destination < x.shortage env free

/-- The check of the code. -/
def passes (env : Env) (probed free : Option Nat) : Bool :=
  free.all fun (n : Nat) => decide ((probed.getD 0 : Nat) + env.minFreeGib * 1024 ^ 3 ≤ n)

theorem held_add_missing (destination : Str) (x : SpaceDecision) :
    x.held destination + x.missing destination = x.probed.getD 0 := by
  rw [held, missing]
  cases x.probed with
  | none => rfl
  | some size =>
    simp only [Option.getD_some]
    split <;> omega

/-- Refusals by the whole size are justified unless what the disk holds makes the difference. -/
theorem justified_iff {env : Env} {x : SpaceDecision}
    (h : x.refused = !passes env x.probed x.free) (destination : Str) :
    x.Justified env destination ↔ x.BeyondHeld env destination := by
  have hsum : (x.held destination : Rat) + x.missing destination = x.probed.getD 0 := by
    exact_mod_cast x.held_add_missing destination
  rw [Justified, BeyondHeld, h]
  cases hfree : x.free with
  | none => simp [passes]
  | some free =>
    simp only [passes, Option.all_some, Bool.not_eq_true', decide_eq_false_iff_not, not_le,
      Option.some.injEq, forall_eq', shortage]
    rw [← Env.floor]
    constructor
    · intro hj
      by_cases hs : (free : Rat) < x.probed.getD 0 + env.floor
      · exact .inr (by linarith [hj hs])
      · exact .inl (by linarith)
    · rintro (hs | hs) hlt <;> linarith

end SpaceDecision

/-- What the call has been told, at its last question and by its last probe. -/
def Sees (φ : Option (Disk Str UInt8 × Option Nat) → Option Nat → Prop) (w : FileWorld) : Prop :=
  φ (spaceAnswer w.trace) (probeAnswer w.trace)

/-- After a check the file is refused or not as the check says. -/
def ActsUpon (env : Env) (file : DownloadFile) (w : FileWorld) (o : Op) (_ : Reply o) (_ : FileWorld) :
    Prop :=
  ∀ disk free, spaceAnswer w.trace = some (disk, free) →
    o.refuses = !SpaceDecision.passes env (file.sizeBytes.or (probeAnswer w.trace)) free

/-- A call among others that do anything to the state. -/
abbrev amid (env : Env) (file : DownloadFile) : Contract FileWorld Op Reply :=
  (fileSystem.undisturbed (fun _ _ => True) (fun _ => True) 0 ()).promising (ActsUpon env file)

/-- No check waits to be acted upon, and the probed size satisfies `χ`. -/
abbrev Calm (χ : Option Nat → Prop) : FileWorld → Prop :=
  Sees fun told probed => told = none ∧ χ probed

abbrev Acted : FileWorld → Prop := Calm fun _ => True

section
variable {env : Env} {file : DownloadFile} {χ : Option Nat → Prop}
  {φ : Option (Disk Str UInt8 × Option Nat) → Option Nat → Prop}

theorem sees_stable : (amid env file).Stable (Sees φ) := by
  show (fileSystem.undisturbed (fun _ _ => True) (fun _ => True) 0 ()).Stable (Sees φ)
  refine System.undisturbed_stable fun w f s ths _ hs h => ?_
  cases hs
  exact h

theorem spaceAnswer_other {o : Op} (ho : o ≠ .freeBytes) (r : Reply o) (s s' : State)
    (trace : List FileEvent) : spaceAnswer (.did 0 () o r s s' :: trace) = none := by
  cases o
  case freeBytes => exact absurd rfl ho
  all_goals rfl

theorem probeAnswer_other {o : Op} (ho : ∀ url, o ≠ .probeSize url) (r : Reply o) (s s' : State)
    (trace : List FileEvent) : probeAnswer (.did 0 () o r s s' :: trace) = probeAnswer trace := by
  cases o
  case probeSize url => exact absurd rfl (ho url)
  all_goals rfl

/-- A call while no check waits. -/
theorem acted_call {o : Op} (hf : o ≠ .freeBytes) (hp : ∀ url, o ≠ .probeSize url) :
    (amid env file).Calls (Calm χ) o fun _ => Calm χ := by
  refine .promising (System.undisturbed_calls (fun w c v s ths hw _ _ => ?_)
    fun w c e s ths hw _ _ => ?_) fun w r w' hw _ disk free hd => ?_
  · exact ⟨spaceAnswer_other hf _ _ _ _, by rw [probeAnswer_other hp]; exact hw.2⟩
  · exact ⟨spaceAnswer_other hf _ _ _ _, by rw [probeAnswer_other hp]; exact hw.2⟩
  · exact absurd (hw.1.symm.trans hd) (by simp)

abbrev acted : Err → FileWorld → Prop := fun _ => Acted

/-- A call while no check waits, and how it goes on. -/
theorem acted_step {o : Op} {α : Type} {f : Val o → Flow α} {Q : α → FileWorld → Prop}
    (hf : o ≠ .freeBytes) (hp : ∀ url, o ≠ .probeSize url)
    (hrest : ∀ v, (amid env file).Does (Calm χ) (f v) Q acted) :
    (amid env file).Does (Calm χ) (op o >>= f) Q acted :=
  .step sees_stable (fun _ => sees_stable) (fun _ => sees_stable) (acted_call hf hp)
    (fun _ _ hw => ⟨hw.1, trivial⟩) hrest

theorem acted_pure {α : Type} {a : α} : (amid env file).Does Acted (pure a) (fun _ => Acted) acted :=
  .pure sees_stable fun _ hw => hw

theorem acted_uses {α : Type} {m : Flow α}
    (hm : m.run.Uses fun o => o ≠ .freeBytes ∧ ∀ url, o ≠ .probeSize url) :
    (amid env file).Does Acted m (fun _ => Acted) acted :=
  .of_uses sees_stable (fun _ ho => acted_call ho.1 ho.2) hm

/-- The size is known to be `probed`, and the answer about the space is `free`. -/
def Judging (file : DownloadFile) (probed free : Option Nat) : FileWorld → Prop :=
  Sees fun told p => (∃ disk, told = some (disk, free)) ∧ file.sizeBytes.or p = probed

theorem checkSpace_judges (probed : Option Nat) :
    (amid env file).Does (Calm fun p => file.sizeBytes.or p = probed) (checkSpace env probed)
      (fun space w => Judging file probed space.free w ∧
        space.ok = SpaceDecision.passes env probed space.free) acted := by
  refine .step (Q := fun free => Judging file probed free) sees_stable (fun _ => sees_stable)
    (fun _ => sees_stable) (.promising (System.undisturbed_calls (fun w c free s ths hw _ _ => ?_)
      fun w c e s ths hw _ _ => ?_) fun w r w' hw _ disk free hd => ?_) (fun _ _ hw => ⟨hw.1, trivial⟩) fun free => ?_
  · exact ⟨⟨_, rfl⟩, hw.2⟩
  · exact ⟨rfl, hw.2⟩
  · exact absurd (hw.1.symm.trans hd) (by simp)
  · refine .pure sees_stable fun w hw => ⟨hw, ?_⟩
    cases free <;> simp [SpaceDecision.passes]

/-- The call that acts upon a check. -/
theorem judged_step {probed free : Option Nat} {o : Op} {α : Type} {f : Val o → Flow α}
    {Q : α → FileWorld → Prop} (hf : o ≠ .freeBytes)
    (ho : o.refuses = !SpaceDecision.passes env probed free)
    (hrest : ∀ v, (amid env file).Does Acted (f v) Q acted) :
    (amid env file).Does (Judging file probed free) (op o >>= f) Q acted := by
  intro w hw
  refine Program.Safe.invoke_bind ?_
  rintro w₁ h₁ r ⟨s, trace⟩ ⟨hw₂, c, ths, -, he⟩
  obtain ⟨⟨disk, hdisk⟩, hprobed⟩ := sees_stable w w₁ h₁ hw
  have hnext : Acted ⟨s, trace⟩ := by
    rw [hw₂]
    exact ⟨spaceAnswer_other hf _ _ _ _, trivial⟩
  refine ⟨fun disk' free' hd => ?_, ?_⟩
  · cases hdisk.symm.trans hd
    rw [hprobed]
    exact ho
  · cases r with
    | error e => exact fun v hv => sees_stable _ v hv hnext
    | ok a => exact hrest a _ hnext

theorem noSpace_refuses (id index : Nat) (space : SpaceCheck) :
    (Op.updateFile id index (.failed (noSpace space))).refuses = true := by
  have starts (a b c d e : String) : ∃ rest, a ++ b ++ c ++ d ++ e = a ++ rest :=
    ⟨b ++ (c ++ (d ++ e)), by simp only [String.append_assoc]⟩
  obtain ⟨rest, hrest⟩ : ∃ rest, noSpace space = refusal ++ rest := by
    delta noSpace
    exact starts _ _ _ _ _
  rw [Op.refuses, hrest, String.toList_append, List.isPrefixOf_iff_prefix]
  exact List.prefix_append _ _

theorem attempt_acts {id index controller : Nat} (url destination : Str) (probed : Option Nat) :
    (amid env file).Does Acted (attempt id index url destination probed controller)
      (fun _ => Acted) acted := by
  refine acted_uses (.except_bind (fetchFile_uses (fun o ho => ?_) fun _ _ => .invoke ?_) fun _ =>
    .except_bind (.invoke ?_) fun _ => .except_bind (.except_bind (.invoke ?_) fun _ => .invoke ?_)
    fun _ => .except_bind ((publishDownload_reads _).mono fun o ho => ?_) fun _ => trivial)
  · constructor
    · rintro rfl
      exact ho.1
    · rintro url rfl
      exact ho.1
  · simp
  · simp
  · simp
  · simp
  · constructor
    · rintro rfl
      exact ho
    · rintro url rfl
      exact ho

theorem afterFailure_acts {id index controller : Nat} {again : Flow FileOutcome} {stored : DownloadFile}
    (hagain : (amid env file).Does Acted again (fun _ => Acted) acted) (e : Err) :
    (amid env file).Does Acted (afterFailure env id index stored controller again e) (fun _ => Acted)
      acted := by
  refine acted_step (by simp) (by simp) fun b => ?_
  split
  · exact acted_step (by simp) (by simp) fun _ => acted_pure
  simp only
  split
  · exact acted_step (by simp) (by simp) fun _ => acted_step (by simp) (by simp) fun _ => hagain
  · exact acted_step (by simp) (by simp) fun _ => acted_pure

theorem processOnce_acts {id index controller : Nat} {folder : Str} {stored : DownloadFile}
    {again : Flow FileOutcome} (hs : stored.sizeBytes = file.sizeBytes)
    (hagain : (amid env file).Does Acted again (fun _ => Acted) acted) :
    (amid env file).Does Acted (processOnce env id folder index stored controller again)
      (fun _ => Acted) acted := by
  have rest (destination : Str) (probed : Option Nat) :
      (amid env file).Does (Calm fun p => file.sizeBytes.or p = probed) (do
        let space ← checkSpace env probed
        if !space.ok then
          markFileFailed id index (noSpace space)
          pure .failed
        else
          op (.updateFile id index .begin)
          tryCatch (attempt id index stored.url destination probed controller)
            (afterFailure env id index stored controller again) : Flow FileOutcome)
        (fun _ => Acted) acted := by
    refine .bind (fun _ => sees_stable) (checkSpace_judges probed) fun space => ?_
    cases hok : space.ok with
    | false =>
      rintro w ⟨hw, hpasses⟩
      refine judged_step (by simp) ?_ (fun _ => acted_pure) w hw
      rw [noSpace_refuses, ← hpasses]
      rfl
    | true =>
      rintro w ⟨hw, hpasses⟩
      refine judged_step (by simp) ?_ (fun _ => .catch (fun _ => sees_stable) (attempt_acts _ _ _)
        (afterFailure_acts hagain)) w hw
      rw [← hpasses]
      rfl
  rw [processOnce]
  split
  · exact acted_step (by simp) (by simp) fun _ => acted_pure
  split
  · rename_i size hsize
    refine .bind (fun _ => sees_stable) (.pure (Q := fun probed => Calm fun p =>
      file.sizeBytes.or p = probed) sees_stable fun w hw => ⟨hw.1, ?_⟩) fun probed => rest _ probed
    rw [← hs, hsize]
    rfl
  · rename_i hsize
    refine .bind (fun _ => sees_stable) (Q := fun probed => Calm fun p =>
      file.sizeBytes.or p = probed) ?_ fun probed => rest _ probed
    have known (p : Option Nat) : file.sizeBytes.or p = p := by
      rw [← hs, hsize]
      rfl
    refine .step (Q := fun size => Calm fun p => p = size) sees_stable (fun _ => sees_stable)
      (fun _ => sees_stable) (.promising (System.undisturbed_calls (fun w c size s ths hw _ _ => ?_)
        fun w c e s ths hw _ _ => ?_) fun w r w' hw _ disk free hd => ?_) (fun _ _ hw => hw) ?_
    · exact ⟨rfl, rfl⟩
    · exact ⟨rfl, trivial⟩
    · exact absurd (hw.1.symm.trans hd) (by simp)
    · rintro (_ | size)
      · exact .pure sees_stable fun w hw => ⟨hw.1, (known _).trans hw.2⟩
      · exact acted_step (by simp) (by simp) fun _ =>
          .pure sees_stable fun w hw => ⟨hw.1, (known _).trans hw.2⟩

theorem processFile_acts {id index controller : Nat} {folder : Str} {stored : DownloadFile}
    (hs : stored.sizeBytes = file.sizeBytes) :
    (amid env file).Does Acted (processFile env id folder index controller stored) (fun _ => Acted)
      acted := by
  rw [processFile]
  generalize env.maxAttempts - stored.attempts = n
  induction n generalizing stored with
  | zero => exact processOnce_acts hs acted_pure
  | succ n ih => exact processOnce_acts hs (ih hs)

end

/-- In every state of every call of `processFile`, whatever the others do to the disk: a file that
was refused for want of space needed that space, exactly if what the disk held of it did not make
the difference. -/
theorem refused_for_missing_iff (env : Env) (id : Nat) (folder : Str) (index controller : Nat)
    (file : DownloadFile) {s : State} {q : FilePool}
    (hr : fileSystem.Undisturbed (fun _ _ => True) (fun _ => True) 0
      (begun s (processFile env id folder index controller file)) q) (destination : Str) :
    ∀ x ∈ decisions file q.trace, x.Justified env destination ↔ x.BeyondHeld env destination := by
  have hfresh : (begun s (processFile env id folder index controller file)).Fresh :=
    Pool.spawn_fresh (p := Pool.initial s) (fun _ _ => rfl) [_]
  have hthread : (begun s (processFile env id folder index controller file)).threads 0 =
      some ⟨(), (processFile env id folder index controller file).run⟩ := by
    simp [begun, Pool.add, Pool.initial]
  have hacts : (amid env file).Does Acted (processFile env id folder index controller file)
      (fun _ => Acted) acted := processFile_acts rfl
  have hall := (System.Undisturbed.keeps (I := fun w => ∀ x ∈ decisions file w.trace,
    x.refused = !SpaceDecision.passes env x.probed x.free) hfresh hthread
    (hacts _ ⟨rfl, trivial⟩) (fun x hx => by cases hx)
    (fun w o r s hw hobeys => ?_) (fun _ _ _ _ _ _ _ hw => hw) hr).2
  · exact fun x hx => SpaceDecision.justified_iff (hall x hx) destination
  · intro x hx
    rw [decisions] at hx
    split at hx
    · exact hw x hx
    · rename_i disk free hd
      rcases List.mem_cons.mp hx with rfl | hx
      · exact hobeys disk free hd
      · exact hw x hx

/-- Two bytes of three are in the part file of `oneJob`. -/
def resumable : State :=
  { oneJob with disk := (Disk.create .empty "/m/F/a.part".toList).put 0 [1, 2] }

/-- One free byte is told, the file is refused. -/
theorem resumable_refused : ∃ q : FilePool,
    fileSystem.Undisturbed (fun _ _ => True) (fun _ => True) 0 (begun resumable (processFile
      (Env.small 1) 0 ['F'] 0 0 { oneFile with sizeBytes := some 3 })) q ∧
    ∃ x ∈ decisions { oneFile with sizeBytes := some 3 } q.trace,
      x.refused = true ∧ x.free = some 1 ∧ x.missing "/m/F/a".toList = 1 := by
  have hrun : (fileSystem.replay unfailing (begun resumable (processFile (Env.small 1) 0 ['F'] 0 0
      { oneFile with sizeBytes := some 3 })) [.exec 0 { free := some 1 }, .exec 0 {}]).any
      (fun q => (decisions { oneFile with sizeBytes := some 3 } q.trace).any fun x =>
        x.refused && decide (x.free = some 1 ∧ x.missing "/m/F/a".toList = 1)) = true := by
    decide +kernel
  obtain ⟨q, hq, hany⟩ := Option.any_eq_true _ _ |>.mp hrun
  obtain ⟨x, hx, hall⟩ := List.any_eq_true.mp hany
  obtain ⟨hrefused, hfree, hmissing⟩ : x.refused = true ∧ x.free = some 1 ∧
      x.missing "/m/F/a".toList = 1 := by simpa using hall
  refine ⟨q, System.Runs.mono _ (fun p l hl => hl.imp_left ?_) (unfailing_undisturbed hq), x, hx,
    hrefused, hfree, hmissing⟩
  rintro ⟨c, hc, -⟩
  exact ⟨c, hc, fun _ _ _ _ => trivial⟩

/-- The byte that is missing would have fitted. -/
theorem resume_refused : ¬ ∀ (env : Env) (id : Nat) (folder : Str) (index controller : Nat)
    (file : DownloadFile) (s : State) (q : FilePool) (destination : Str),
    fileSystem.Undisturbed (fun _ _ => True) (fun _ => True) 0
      (begun s (processFile env id folder index controller file)) q →
    resolveDestination env.media folder file.relPath = .ok destination →
    ∀ x ∈ decisions file q.trace, x.Justified env destination := by
  intro h
  obtain ⟨q, hr, x, hx, hrefused, hfree, hmissing⟩ := resumable_refused
  have hlt := h _ _ _ _ _ _ _ q "/m/F/a".toList hr (by decide +kernel) x hx hrefused 1 hfree
  rw [hmissing, Env.floor, Env.small] at hlt
  norm_num at hlt

theorem refused_for_missing_resumable : ∃ q : FilePool,
    (∃ x ∈ decisions { oneFile with sizeBytes := some 3 } q.trace, x.refused = true) ∧
    ∀ x ∈ decisions { oneFile with sizeBytes := some 3 } q.trace,
      x.Justified (Env.small 1) "/m/F/a".toList ↔ x.BeyondHeld (Env.small 1) "/m/F/a".toList := by
  obtain ⟨q, hr, x, hx, hrefused, -⟩ := resumable_refused
  exact ⟨q, ⟨x, hx, hrefused⟩, refused_for_missing_iff (Env.small 1) 0 ['F'] 0 0
    { oneFile with sizeBytes := some 3 } hr "/m/F/a".toList⟩

end CircleFtp.Downloads
