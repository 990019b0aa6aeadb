import CircleFtp.Concurrent.Triple
import CircleFtp.Downloads.Listing
import CircleFtp.Downloads.Rows
import CircleFtp.Downloads.Slots

/-! Who has settled a job or deleted its row and has still to tell the browsers: whatever a thread
has settled it announces, as long as no call of it fails in between. -/
namespace CircleFtp.Downloads
open Concurrent Strings

def settlesJob (id : Nat) : DownloadEvent → Bool
  | .did _ _ (.updateDownload i change) (.ok _) _ _ =>
    i = id && (Op.updateDownload i change).settles
  | _ => false

def deletesRow (id : Nat) : DownloadEvent → Bool
  | .did _ _ (.deleteDownload i) (.ok _) _ _ => i = id
  | _ => false

def publishes (id : Nat) : DownloadEvent → Bool
  | .did _ _ (.publish e) _ _ _ => e.about = id
  | _ => false

/-- An event about the download, or the row is not there any more. -/
def announces (id : Nat) : DownloadEvent → Bool
  | .did _ _ (.publish e) _ _ _ => e.about = id
  | .did _ _ (.findDownload i) (.ok none) _ _ => i = id
  | _ => false

/-- The thread has settled the job and not announced it since. -/
def settling (id t : Nat) (trace : List DownloadEvent) : Bool :=
  History.outstanding (settlesJob id) (announces id) t trace

/-- The thread has deleted the row and not announced it since. -/
def deleting (id t : Nat) (trace : List DownloadEvent) : Bool :=
  History.outstanding (deletesRow id) (publishes id) t trace

/-- The thread has nothing to announce. -/
def Clear (t : Nat) (w : DownloadWorld) : Prop :=
  ∀ id, settling id t w.trace = false ∧ deleting id t w.trace = false

/-- The job of the thread has come to the `catch` of `runJob`. -/
def Reported (t : Nat) (trace : List DownloadEvent) : Prop :=
  ∃ k id error r s s', .did t k (.updateDownload id (.failed error)) r s s' ∈ trace

/-- A call that fails finds its thread with nothing to announce, or in a job that can still
report the failure. -/
def Prompt (p : DownloadPool) : DownloadLabel → Prop
  | .exec t c => c.failure = none ∨ Clear t p.toWorld ∨
      (∃ id n, p.kindAt t = some (.worker id n)) ∧ ¬ Reported t p.trace
  | _ => True

def debts : Ledger State Task Op Reply Arrival Result where
  admits _ _ _ _ := True
  may t k w o r s := ∃ c, call w.state o c = (r, s) ∧
    (c.failure = none ∨ Clear t w ∨ (∃ id n, k = .worker id n) ∧ ¬ Reported t w.trace)
  guar _ _ _ _ _ _ := True
  post t _ _ w := Clear t w

abbrev debtContract (t : Nat) (k : Task) : Contract DownloadWorld Op Reply :=
  debts.discipline.contract t k

/-- The thread has nothing to announce except what became of one job. -/
def Owing (id t : Nat) (w : DownloadWorld) : Prop :=
  ∀ j, (j ≠ id → settling j t w.trace = false) ∧ deleting j t w.trace = false

/-- The thread has nothing to announce except that one row is gone. -/
def OwingDeletion (id t : Nat) (w : DownloadWorld) : Prop :=
  ∀ j, settling j t w.trace = false ∧ (j ≠ id → deleting j t w.trace = false)

/-- What an error leaves. -/
def Thrown (id t : Nat) (k : Task) (w : DownloadWorld) : Prop :=
  Clear t w ∨ ((∃ i n, k = .worker i n) ∧ ¬ Reported t w.trace ∧ Owing id t w)

section
variable {env : Env} {t id j : Nat} {k : Task} {w : DownloadWorld} {o : Op} {r : Reply o} {s s' : State}
  {c : Choice} {trace : List DownloadEvent}

theorem Clear.owing (h : Clear t w) (id : Nat) : Owing id t w := fun j => ⟨fun _ => (h j).1, (h j).2⟩

theorem clear_fresh (h : ∀ e ∈ w.trace, ¬ e.By t) : Clear t w := fun _ =>
  ⟨History.outstanding_fresh h, History.outstanding_fresh h⟩

/-- The world after a call of the thread. -/
def told (t : Nat) (k : Task) (w : DownloadWorld) (o : Op) (r : Reply o) (s : State) : DownloadWorld :=
  ⟨s, .did t k o r w.state s :: w.trace⟩

theorem told_settling : settling id t (told t k w o r s).trace =
    (settlesJob id (.did t k o r w.state s) ||
      (!announces id (.did t k o r w.state s) && settling id t w.trace)) :=
  History.outstanding_own rfl

theorem told_deleting : deleting id t (told t k w o r s).trace =
    (deletesRow id (.did t k o r w.state s) ||
      (!publishes id (.did t k o r w.state s) && deleting id t w.trace)) :=
  History.outstanding_own rfl

/-- A call that does not settle the job leaves it settled or not. -/
theorem settling_quiet (ho : o.settles = false ∨ ∀ change, o ≠ .updateDownload id change)
    (h : settling id t w.trace = false) : settling id t (told t k w o r s).trace = false := by
  have hs : settlesJob id (.did t k o r w.state s) = false := by
    cases o <;> cases r <;> simp_all [settlesJob]
    rintro rfl
    exact ho.resolve_right fun hn => hn rfl
  rw [told_settling, hs, h]
  simp

theorem deleting_quiet (ho : o ≠ .deleteDownload id) (h : deleting id t w.trace = false) :
    deleting id t (told t k w o r s).trace = false := by
  have hd : deletesRow id (.did t k o r w.state s) = false := by
    cases o <;> cases r <;> simp_all [deletesRow]
  rw [told_deleting, hd, h]
  simp

theorem Op.settles_delete (ho : o.settles = false) : o ≠ .deleteDownload id := by
  rintro rfl
  cases ho

theorem Clear.quiet (h : Clear t w) (ho : o.settles = false) : Clear t (told t k w o r s) :=
  fun j => ⟨settling_quiet (.inl ho) (h j).1, deleting_quiet (Op.settles_delete ho) (h j).2⟩

theorem Clear.failed (h : Clear t w) {e : Err} : Clear t (told t k w o (.error e) s) := by
  intro j
  rw [told_settling, told_deleting, (h j).1, (h j).2]
  cases o <;> simp [settlesJob, deletesRow]

theorem Owing.quiet (h : Owing id t w) (ho : o.settles = false ∨ ∃ change, o = .updateDownload id change) :
    Owing id t (told t k w o r s) := by
  refine fun j => ⟨fun hj => settling_quiet ?_ ((h j).1 hj), deleting_quiet ?_ (h j).2⟩
  · refine ho.imp_right ?_
    rintro ⟨change, rfl⟩ change' he
    cases he
    exact hj rfl
  · rcases ho with ho | ⟨change, rfl⟩
    · exact Op.settles_delete ho
    · exact fun he => Op.noConfusion he

/-- The event that is due. -/
theorem Owing.announced (h : Owing id t w) (ho : o.settles = false)
    (ha : announces id (.did t k o r w.state s) = true) : Clear t (told t k w o r s) := by
  intro j
  refine ⟨?_, deleting_quiet (Op.settles_delete ho) (h j).2⟩
  by_cases e : j = id
  · subst j
    rw [told_settling, ha]
    cases o <;> cases r <;> simp_all [settlesJob]
  · exact settling_quiet (.inl ho) ((h j).1 e)

theorem Clear.deletes (h : Clear t w) {r : Reply (.deleteDownload id)} :
    OwingDeletion id t (told t k w (.deleteDownload id) r s) := by
  refine fun j => ⟨settling_quiet (.inr fun _ he => Op.noConfusion he) (h j).1, fun hj => deleting_quiet ?_ (h j).2⟩
  intro he
  cases he
  exact hj rfl

theorem OwingDeletion.announced (h : OwingDeletion id t w) {event : ServerEvent} (he : event.about = id)
    {r : Reply (.publish event)} : Clear t (told t k w (.publish event) r s) := by
  intro j
  refine ⟨settling_quiet (.inl rfl) (h j).1, ?_⟩
  by_cases e : j = id
  · subst j
    rw [told_deleting]
    simp [publishes, deletesRow, he]
  · exact deleting_quiet (Op.settles_delete rfl) ((h j).2 e)

theorem Thrown.owing (h : Thrown id t k w) : Owing id t w := h.elim (·.owing id) (·.2.2)

/-- Only a job that can still report the failure throws with something to announce. -/
theorem Thrown.clear (h : Thrown id t k w) (hk : (∀ i n, k ≠ .worker i n) ∨ Reported t w.trace) :
    Clear t w := by
  refine h.resolve_right ?_
  rintro ⟨⟨i, n, rfl⟩, hn, -⟩
  exact hk.elim (fun hk => hk i n rfl) hn

theorem reported_told (ho : ∀ i error, o ≠ .updateDownload i (.failed error))
    (h : Reported t (told t k w o r s).trace) : Reported t w.trace := by
  obtain ⟨k', i, error, r', s₁, s₂, hm⟩ := h
  rcases List.mem_cons.mp hm with he | hm
  · cases he
    exact absurd rfl (ho i error)
  · exact ⟨k', i, error, r', s₁, s₂, hm⟩

theorem Reported.more (h : Reported t trace) (e : DownloadEvent) : Reported t (e :: trace) := by
  obtain ⟨k', i, error, r', s₁, s₂, hm⟩ := h
  exact ⟨k', i, error, r', s₁, s₂, List.mem_cons_of_mem e hm⟩

theorem settling_rely {w' : DownloadWorld} (hr : (debtContract t k).rely w w') (id : Nat) :
    settling id t w'.trace = settling id t w.trace ∧ deleting id t w'.trace = deleting id t w.trace := by
  refine History.rely_induct (φ := fun v => settling id t v.trace = settling id t w.trace ∧
    deleting id t v.trace = deleting id t w.trace) (fun v e hv _ ht _ => ?_) hr ⟨rfl, rfl⟩
  exact ⟨(History.outstanding_other ht).trans hv.1, (History.outstanding_other ht).trans hv.2⟩

theorem reported_rely {w' : DownloadWorld} (hr : (debtContract t k).rely w w') :
    Reported t w'.trace ↔ Reported t w.trace := by
  refine History.rely_induct (φ := fun v => Reported t v.trace ↔ Reported t w.trace)
    (fun v e hv _ ht _ => ?_) hr .rfl
  refine .trans ⟨?_, fun h => h.more e⟩ hv
  rintro ⟨k', i, error, r', s₁, s₂, hm⟩
  rcases List.mem_cons.mp hm with rfl | hm
  · exact absurd rfl ht
  · exact ⟨k', i, error, r', s₁, s₂, hm⟩

theorem clear_stable : (debtContract t k).Stable (Clear t) := by
  intro w w' hr h j
  rw [(settling_rely hr j).1, (settling_rely hr j).2]
  exact h j

theorem owing_stable : (debtContract t k).Stable (Owing id t) := by
  intro w w' hr h j
  rw [(settling_rely hr j).1, (settling_rely hr j).2]
  exact h j

theorem owingDeletion_stable : (debtContract t k).Stable (OwingDeletion id t) := by
  intro w w' hr h j
  rw [(settling_rely hr j).1, (settling_rely hr j).2]
  exact h j

theorem reported_stable : (debtContract t k).Stable fun w => Reported t w.trace :=
  fun _ _ hr h => (reported_rely hr).mpr h

theorem thrown_stable : (debtContract t k).Stable (Thrown id t k) := by
  refine fun w w' hr h => h.imp (clear_stable w w' hr) fun hw => ⟨hw.1, ?_, owing_stable w w' hr hw.2.2⟩
  rw [reported_rely hr]
  exact hw.2.1

theorem debt_leads {P : DownloadWorld → Prop} {Q : Val o → DownloadWorld → Prop}
    {E : DownloadWorld → Prop}
    (ok : ∀ w c a s, P w → call w.state o c = (.ok a, s) → Q a (told t k w o (.ok a) s))
    (error : ∀ w c e s, P w → call w.state o c = (.error e, s) →
      (c.failure = none ∨ Clear t w ∨ (∃ id n, k = .worker id n) ∧ ¬ Reported t w.trace) →
      E (told t k w o (.error e) s)) : (debtContract t k).Leads P o Q fun _ => E := by
  refine ⟨fun _ _ _ _ _ => trivial, fun w a w' hP ha => ?_, fun w e w' hP ha => ?_⟩
  · obtain ⟨hw, c, hc, -⟩ := ha
    rw [hw]
    exact ok w c a w'.state hP hc
  · obtain ⟨hw, c, hc, hfail⟩ := ha
    rw [hw]
    exact error w c e w'.state hP hc hfail

/-- A program that settles nothing. -/
theorem clear_does {α : Type} {m : Flow α} (hm : m.run.Uses (Op.settles · = false)) :
    (debtContract t k).Does (Clear t) m (fun _ => Clear t) fun _ => Thrown id t k := by
  refine (Contract.Does.of_uses clear_stable (fun o ho => ⟨fun _ _ _ _ _ => trivial,
    fun w a w' hw ha => ?_, fun w e w' hw ha => ?_⟩) hm).conseq (fun _ h => h) (fun _ _ h => h)
    fun _ _ h => .inl h
  · rw [ha.1]
    exact hw.quiet ho
  · rw [ha.1]
    exact hw.quiet ho

/-- What any task may run settles nothing. -/
theorem clear_does_any {α : Type} {m : Flow α} (hm : ∀ k, m.run.Uses (Op.MadeBy · k)) :
    (debtContract t k).Does (Clear t) m (fun _ => Clear t) fun _ => Thrown id t k :=
  clear_does ((worksOn_of_any hm 0 0).mono fun _ h => h.2)

theorem clear_leads (ho : o.settles = false) : (debtContract t k).Leads (Clear t) o
    (fun _ => Clear t) fun _ => Thrown id t k :=
  debt_leads (fun _ _ _ _ h _ => h.quiet ho) fun _ _ _ _ h _ _ => .inl (h.quiet ho)

theorem settle_leads (change : DownloadChange) : (debtContract t k).Leads (Clear t)
    (.updateDownload id change) (fun _ => Owing id t) fun _ => Thrown id t k :=
  debt_leads (fun _ _ _ _ h _ => (h.owing id).quiet (.inr ⟨change, rfl⟩))
    fun _ _ _ _ h _ _ => .inl h.failed

/-- A call that only fails when the surroundings do. -/
theorem owing_leads (ho : o.settles = false) (hsure : ∀ s c, ∃ a, (perform s c o).1 = .ok a)
    {Q : Val o → DownloadWorld → Prop}
    (ok : ∀ w a s, Owing id t w → Q a (told t k w o (.ok a) s)) :
    (debtContract t k).Leads (Owing id t) o Q fun _ => Thrown id t k := by
  refine debt_leads (fun w _ a s h _ => ok w a s h) fun w c e s h hcall hfail => ?_
  rcases hfail with hnone | hclear | ⟨hk, hn⟩
  · obtain ⟨a, ha⟩ := hsure w.state c
    rw [call, hnone] at hcall
    simp only at hcall
    rw [hcall] at ha
    cases ha
  · exact .inl hclear.failed
  · refine .inr ⟨hk, mt (reported_told ?_) hn, h.quiet (.inl ho)⟩
    rintro i error rfl
    cases ho

/-- The report of a failure, whether it goes through or not. -/
theorem report_leads (error : String) : (debtContract t k).Leads (Owing id t)
    (.updateDownload id (.failed error)) (fun _ w => Owing id t w ∧ Reported t w.trace)
    fun _ w => Owing id t w ∧ Reported t w.trace := by
  have both (w : DownloadWorld) (r : Reply (.updateDownload id (.failed error))) (s : State)
      (h : Owing id t w) : Owing id t (told t k w (.updateDownload id (.failed error)) r s) ∧
      Reported t (told t k w (.updateDownload id (.failed error)) r s).trace :=
    ⟨h.quiet (.inr ⟨_, rfl⟩), k, id, error, r, w.state, s, List.mem_cons_self⟩
  exact debt_leads (fun w _ a s h _ => both w (.ok a) s h) fun w _ e s h _ _ => both w (.error e) s h

theorem publishDownload_tells {event : Nat → Download → ServerEvent}
    (he : ∀ row, (event id row).about = id) :
    (debtContract t k).Does (Owing id t) (publishDownload id event) (fun _ => Clear t)
      fun _ => Thrown id t k := by
  have find : (debtContract t k).Leads (Owing id t) (.findDownload id)
      (fun row w => (row = none → Clear t w) ∧ Owing id t w) fun _ => Thrown id t k :=
    owing_leads rfl (fun s c => ⟨_, rfl⟩) fun w row s h => by
      refine ⟨?_, h.quiet (.inl rfl)⟩
      rintro rfl
      exact h.announced rfl (by simp [announces])
  refine .leads owing_stable (fun _ => thrown_stable) find fun row => ?_
  cases row with
  | none =>
    intro w hw v hv
    exact clear_stable w v hv (hw.1 rfl)
  | some d =>
    have publish : (debtContract t k).Leads (Owing id t) (.publish (event id d)) (fun _ => Clear t)
        fun _ => Thrown id t k := owing_leads rfl (fun s c => ⟨_, rfl⟩) fun _ _ _ h =>
      h.announced rfl (by simp [announces, he])
    exact (Contract.Does.leads_last owing_stable (fun _ => clear_stable) (fun _ => thrown_stable)
      publish).conseq (fun _ h => h.2) (fun _ _ h => h) fun _ _ h => h

theorem announce_tells : (debtContract t k).Does (Owing id t) (announce env id)
    (fun _ => Owing id t) fun _ => Thrown id t k := by
  have post (path : Str) : (debtContract t k).Leads (Owing id t) (.postProcess path)
      (fun _ => Owing id t) fun _ => Thrown id t k :=
    owing_leads rfl (fun s c => ⟨_, rfl⟩) fun _ _ _ h => h.quiet (.inl rfl)
  refine .leads owing_stable (fun _ => thrown_stable) (Q := fun _ => Owing id t)
    (owing_leads rfl (fun s c => ⟨_, rfl⟩) fun _ _ _ h => h.quiet (.inl rfl)) fun row => ?_
  cases row with
  | none => exact .pure owing_stable fun _ h => h
  | some d => exact .leads_last owing_stable (fun _ => owing_stable) (fun _ => thrown_stable) (post _)

theorem finishJob_tells (cancelled : Bool) :
    (debtContract t k).Does (Clear t) (finishJob env id cancelled) (fun _ => Clear t)
      fun _ => Thrown id t k := by
  have ending (files : List DownloadFile) : (debtContract t k).Does (Owing id t) (do
      if 0 < files.countP (·.status = .COMPLETED) then announce env id
      publishDownload id .finished : Flow Unit) (fun _ => Clear t) fun _ => Thrown id t k := by
    split
    · exact .bind (fun _ => thrown_stable) announce_tells fun _ => publishDownload_tells fun _ => rfl
    · exact publishDownload_tells fun _ => rfl
  have rest (files : List DownloadFile) : (debtContract t k).Does (Clear t) (do
      recomputeTotals id
      op (.updateDownload id (.finish (jobOutcome cancelled files).1 (jobOutcome cancelled files).2))
      if 0 < files.countP (·.status = .COMPLETED) then announce env id
      publishDownload id .finished : Flow Unit) (fun _ => Clear t) fun _ => Thrown id t k :=
    .bind (fun _ => thrown_stable) (clear_does_any recomputeTotals_uses) fun _ =>
      .leads clear_stable (fun _ => thrown_stable) (settle_leads _) fun _ => ending _
  refine .bind (fun _ => thrown_stable) (clear_does_any settleProgressWrites_uses) fun _ => ?_
  refine .leads clear_stable (fun _ => thrown_stable) (clear_leads rfl) fun row => ?_
  simp only
  split
  · exact .leads clear_stable (fun _ => thrown_stable) (clear_leads rfl) fun _ => rest _
  · exact rest _

/-- What goes wrong before the report of a failure is announced with it. -/
theorem runJob_tells {controller : Nat} : (debtContract t k).Does (Clear t) (runJob env id controller)
    (fun _ => Clear t) fun _ => Clear t := by
  have process : (debtContract t k).Does (Clear t) (processJob env id controller) (fun _ => Clear t)
      fun _ => Thrown id t k := by
    refine .leads clear_stable (fun _ => thrown_stable) (clear_leads rfl) fun row => ?_
    cases row with
    | none => exact .pure clear_stable fun _ h => h
    | some d =>
      refine .bind (fun _ => thrown_stable) (clear_does_any (publishDownload_uses _)) fun _ => ?_
      exact .bind (fun _ => thrown_stable) (clear_does ((processFiles_uses _ _).mono fun _ h => h.2))
        fun b => finishJob_tells b
  have reported : (debtContract t k).Stable fun w => Owing id t w ∧ Reported t w.trace :=
    fun w w' hr h => ⟨owing_stable w w' hr h.1, reported_stable w w' hr h.2⟩
  have report (error : String) : (debtContract t k).Does (Owing id t)
      (tryCatch (op (.updateDownload id (.failed error))) fun _ => pure ())
      (fun _ w => Owing id t w ∧ Reported t w.trace) fun _ => Clear t :=
    .catch (fun _ => reported) (.leads_last owing_stable (fun _ => reported) (fun _ => reported)
      (report_leads error)) fun _ => .pure reported fun _ h => h
  have publish : (debtContract t k).Does (fun w => Owing id t w ∧ Reported t w.trace)
      (publishDownload id .finished) (fun _ => Clear t) fun _ => Clear t := by
    refine ((publishDownload_tells fun _ => rfl).keeping reported_stable fun w o r w' ha h => ?_).conseq
      (fun _ h => h) (fun _ _ h => h.1) fun _ _ h => h.1.clear (.inr h.2)
    rw [ha.1]
    exact h.more _
  refine .catch (fun _ => clear_stable) process fun error => ?_
  refine .bind (fun _ => clear_stable) ((report error.message).conseq (fun _ h => h.owing)
    (fun _ _ h => h) fun _ _ h => h) fun _ => ?_
  exact .catch (fun _ => clear_stable) publish fun _ => .pure clear_stable fun _ h => h

theorem requestCancel_tells : (debtContract t k).Does (Clear t) (requestCancel id)
    (fun _ => Clear t) fun _ => Thrown id t k := by
  have rest : (debtContract t k).Does (Owing id t) (do
      publishDownload id .progress
      let _ ← getDownload id : Flow Unit) (fun _ => Clear t) fun _ => Thrown id t k :=
    .bind (fun _ => thrown_stable) (publishDownload_tells fun _ => rfl) fun _ =>
      .bind (fun _ => thrown_stable) (clear_does_any getDownload_uses) fun _ =>
        .pure clear_stable fun _ h => h
  refine .bind (fun _ => thrown_stable) (clear_does_any getDownload_uses) fun download => ?_
  split
  · exact .throw clear_stable fun _ h => .inl h
  split
  · exact .leads clear_stable (fun _ => thrown_stable) (settle_leads _) fun _ =>
      .leads owing_stable (fun _ => thrown_stable) (owing_leads rfl (fun s c => ⟨_, rfl⟩)
        fun _ _ _ h => h.quiet (.inl rfl)) fun _ => rest
  · exact .leads clear_stable (fun _ => thrown_stable) (clear_leads rfl) fun _ =>
      rest.conseq (fun _ h => h.owing id) (fun _ _ h => h) fun _ _ h => h

theorem deleteDownload_tells (deleteFiles : Bool) :
    (debtContract t k).Does (Clear t) (deleteDownload env id deleteFiles) (fun _ => Clear t)
      fun _ => Thrown id t k := by
  have rest : (debtContract t k).Does (Clear t) (do
      op (.deleteDownload id)
      op (.publish (.deleted id)) : Flow Unit) (fun _ => Clear t) fun _ => Thrown id t k := by
    refine .leads clear_stable (fun _ => thrown_stable) (Q := fun _ => OwingDeletion id t)
      (debt_leads (fun _ _ _ _ h _ => h.deletes) fun _ _ _ _ h _ _ => .inl h.failed) fun _ => ?_
    exact .leads_last owingDeletion_stable (fun _ => clear_stable) (fun _ => thrown_stable)
      (debt_leads (fun _ _ _ _ h _ => h.announced rfl) fun _ _ _ _ h _ _ => .inl (h.announced rfl))
  refine .bind (fun _ => thrown_stable) (clear_does_any getDownload_uses) fun download => ?_
  split
  · exact .throw clear_stable fun _ h => .inl h
  cases deleteFiles with
  | true =>
    refine .bind (fun _ => thrown_stable) (clear_does ((removeDownloadFiles_uses _ _).mono ?_)) fun _ => rest
    rintro _ ⟨path, rfl⟩
    rfl
  | false => exact rest

/-- Every task ends with nothing left to announce. -/
theorem debt_safe {th : DownloadThread} (h : Begins env th) (hw : Clear t w) :
    debts.discipline.SafeThread t th w := by
  have program {f : Flow Unit} {k : Task} {E : DownloadWorld → Prop}
      (hf : (debtContract t k).Does (Clear t) f (fun _ => Clear t) fun _ => E)
      (hE : ∀ v, E v → Clear t v) : debts.discipline.SafeThread t ⟨k, f.program⟩ w := by
    refine .bind ((hf w hw).mono ?_)
    rintro (e | a) v hv v' hr
    · exact clear_stable v v' hr (hE v hv)
    · exact clear_stable v v' hr hv
  have other (hk : ∀ id c, th.kind ≠ .worker id c) (hc : ∀ id, th.kind ≠ .request (.cancel id))
      (hd : ∀ id b, th.kind ≠ .request (.delete id b)) : debts.discipline.SafeThread t th w :=
    .of_uses_keeping clear_stable (fun v o r v' ho hv ha => ⟨trivial, by
      rw [ha.1]
      exact hv.quiet (ho.settles hk hc hd)⟩) h.uses hw
  cases h with
  | worker id c => exact program runJob_tells fun _ h => h
  | request r =>
    cases r with
    | cancel id => exact program requestCancel_tells fun _ h => h.clear (.inl nofun)
    | delete id b => exact program (deleteDownload_tells b) fun _ h => h.clear (.inl nofun)
    | _ => exact other (by simp) (by simp) (by simp)
  | _ => exact other (by simp) (by simp) (by simp)

end

/-- Only jobs and requests have anything to announce. -/
def Announcers (p : DownloadPool) : Prop := ∀ t th, p.threads t = some th → ¬ Clear t p.toWorld →
  (∃ id n, th.kind = .worker id n) ∨ ∃ r, th.kind = .request r

section
variable {env : Env} {p p' : DownloadPool} {t : Nat} {l : DownloadLabel}

theorem clear_new (h : p.Recorded) {e : DownloadEvent} (he : ∀ u, e.By u → u < p.next)
    (ht : p.next ≤ t) (s : State) : Clear t ⟨s, e :: p.trace⟩ := by
  refine clear_fresh fun d hd hb => ?_
  rcases List.mem_cons.mp hd with rfl | hd
  · have := he t hb
    omega
  · have := h d hd t hb
    omega

theorem clear_other {e : DownloadEvent} {s s' : State} {trace : List DownloadEvent} (h : ¬ e.By t) :
    Clear t ⟨s, e :: trace⟩ ↔ Clear t ⟨s', trace⟩ := by
  simp only [Clear, settling, deleting, History.outstanding_other h]

theorem Announcers.step (h : Announcers p) (hs : SlotsKept env p) (hr : p.Recorded)
    (hst : (system env).step p l = some p') : Announcers p' := by
  rcases (system env).step_cases hst with
    ⟨t, k, o, rest, c, r, s, ths, -, ht, he, rfl⟩ | ⟨t, k, a, -, ht, rfl⟩ |
    ⟨x, s, dies, ths, -, he, rfl⟩
  · intro u th hu hn
    rw [Pool.didCall_world] at hn
    rcases Pool.spawn_threads hu with hu | ⟨hnext, -⟩
    · by_cases e : u = t
      · subst e
        obtain rfl : (⟨k, rest r⟩ : DownloadThread) = th := by simpa [Pool.set] using hu
        by_cases hclear : Clear u p.toWorld
        · by_contra hk
          obtain ⟨hw, hreq⟩ := not_or.mp hk
          refine hn (hclear.quiet ((hs.uses u _ ht).1.settles (fun id n e => hw ⟨id, n, e⟩) ?_ ?_))
          · exact fun id e => hreq ⟨_, e⟩
          · exact fun id b e => hreq ⟨_, e⟩
        · have before := h u _ ht hclear
          exact before
      · refine h u th (by simpa [Pool.set, Pool.log, Function.update_of_ne e] using hu) ?_
        exact mt (clear_other (e := .did t k o r p.state s) fun hb => e hb.symm).mpr hn
    · refine absurd (clear_new hr (fun v hv => ?_) hnext s) hn
      obtain rfl : t = v := hv
      exact hs.fresh.lt ht
  · intro u th hu hn
    rw [Pool.didEnd_world] at hn
    rcases Pool.spawn_threads hu with hu | ⟨hnext, -⟩
    · by_cases e : u = t
      · subst e
        simp [Pool.set] at hu
      · refine h u th (by simpa [Pool.set, Pool.log, Function.update_of_ne e] using hu) ?_
        exact mt (clear_other (e := .ended t k a p.state _) fun hb => e hb.symm).mpr hn
    · refine absurd (clear_new hr (fun v hv => ?_) hnext _) hn
      obtain rfl : t = v := hv
      exact hs.fresh.lt ht
  · intro u th hu hn
    rw [Pool.didOuter_world] at hn
    rcases Pool.spawn_threads hu with hu | ⟨hnext, -⟩
    · cases dies with
      | true => simp at hu
      | false => exact h u th hu (mt (clear_other (e := .outer x p.state s) id).mpr hn)
    · exact absurd (clear_new hr (e := .outer x p.state s) (fun _ => False.elim) hnext s) hn

end

theorem debts_keeps (env : Env) : debts.Keeps (system env) Prompt
    fun p => SlotsKept env p ∧ p.Recorded ∧ Announcers p where
  may hI hok ht he := by
    obtain ⟨-, hc, -⟩ := system_exec he
    refine ⟨_, hc, hok.imp_right (.imp_right (.imp_left ?_))⟩
    rintro ⟨id, n, hk⟩
    rw [kindAt_of ht] at hk
    exact ⟨id, n, Option.some.inj hk⟩
  exec {p t k o rest c r s ths} hI hok ht he _ := by
    have hst : (system env).step p (.exec t c) = some (p.didCall t k o rest r s ths) := by
      simp [System.step, ht, he]
    refine ⟨⟨hI.1.step hst, hI.2.1.step hI.1.fresh hst, hI.2.2.step hI.1 hI.2.1 hst⟩,
      fun _ _ _ _ => trivial, fun th hth u hu => debt_safe ((system_begins env).exec he th hth)
        (clear_new hI.2.1 (fun v hv => ?_) hu s)⟩
    obtain rfl : t = v := hv
    exact hI.1.fresh.lt ht
  finish {p t k a} hI hok ht hpost := by
    have hst : (system env).step p (.finish t) = some (p.didEnd t k a ((system env).finish p.state k a).1
        ((system env).finish p.state k a).2) := by
      simp [System.step, ht]
    refine ⟨⟨hI.1.step hst, hI.2.1.step hI.1.fresh hst, hI.2.2.step hI.1 hI.2.1 hst⟩,
      fun _ _ _ _ => trivial, fun th hth u hu => debt_safe ((system_begins env).finish _ _ _ th hth)
        (clear_new hI.2.1 (fun v hv => ?_) hu _)⟩
    obtain rfl : t = v := hv
    exact hI.1.fresh.lt ht
  external {p x s dies ths} hI hok he := by
    have hst : (system env).step p (.external x) = some (p.didOuter x s dies ths) := by
      simp [System.step, he]
    exact ⟨⟨hI.1.step hst, hI.2.1.step hI.1.fresh hst, hI.2.2.step hI.1 hI.2.1 hst⟩,
      fun _ _ _ _ => trivial, fun th hth u hu => debt_safe ((system_begins env).external he th hth)
        (clear_new hI.2.1 (e := .outer x p.state s) (fun _ => False.elim) hu s)⟩

end CircleFtp.Downloads
