import CircleFtp.Concurrent.History
import CircleFtp.Downloads.Outline
import CircleFtp.Downloads.Slots

/-! A completed file stays completed, unless the worker takes its own bookkeeping after the
transfer for a part of the transfer. -/
namespace CircleFtp.Downloads
open Concurrent Strings

def Download.completed (d : Download) (index : Nat) : Prop :=
  (d.files[index]?).map (·.status) = some .COMPLETED

instance (d : Download) (index : Nat) : Decidable (d.completed index) := by
  unfold Download.completed
  infer_instance

/-- The download is there and the file is completed. -/
def Completed (s : State) (id index : Nat) : Prop :=
  ∃ d, s.downloads.rows id = some d ∧ d.completed index

instance (s : State) (id index : Nat) : Decidable (Completed s id index) :=
  decidable_of_iff ((s.downloads.rows id).any fun d => decide (d.completed index)) (by
    simp [Completed, Option.any_eq_true])

/-- Whatever was completed when the event began or ended is so in `s`, unless its row is gone. -/
def StaysCompleted (s : State) (e : DownloadEvent) : Prop :=
  ∀ id index, Completed e.before id index ∨ Completed e.after id index →
    Completed s id index ∨ Gone s id

section
variable {s s' : State} {id index : Nat} {o : Op} {c : Choice} {r : Reply o}

theorem RowStep.completed {d d' : Download} (h : RowStep id d o (some d'))
    (ho : ∀ change, o = .updateFile id index change → change.moves = false) :
    d'.completed index ↔ d.completed index := by
  have mapped {f : DownloadFile → DownloadFile}
      (hf : ∀ x, (f x).status = .COMPLETED ↔ x.status = .COMPLETED) :
      ((d.files.map f)[index]?).map (·.status) = some .COMPLETED ↔ d.completed index := by
    rw [Download.completed, List.getElem?_map]
    cases d.files[index]? <;> simp [hf]
  cases h with
  | update change => cases change <;> exact Iff.rfl
  | file i change =>
    simp only [Download.completed, List.getElem?_modify]
    by_cases e : i = index
    · subst e
      have same := FileChange.apply_status (ho change rfl)
      cases d.files[i]? <;> simp [same]
    · simp [e]
  | cancelFiles running =>
    refine mapped fun x => ?_
    split
    · rename_i hx
      rcases hx with hx | ⟨-, hx⟩ <;> simp [hx]
    · rfl
  | requeue =>
    refine mapped fun x => ?_
    split
    · rfl
    · rename_i hx
      simp [hx]
  | claim => exact Iff.rfl
  | requeueRunning => exact Iff.rfl
  | resetFiles =>
    refine mapped fun x => ?_
    split
    · rename_i hx
      simp [hx]
    · rfl

/-- A completed file stays so or goes, unless the call writes its status. -/
theorem Completed.call (h : Completed s id index) (hc : call s o c = (r, s'))
    (ho : ∀ change, o = .updateFile id index change → change.moves = false) :
    Completed s' id index ∨ Gone s' id := by
  obtain ⟨d, hd, hf⟩ := h
  cases hd' : s'.downloads.rows id with
  | none =>
    exact .inr ⟨row_known hc hd, hd'⟩
  | some d' =>
    left
    rcases call_row hc hd with hsame | ⟨-, hrow⟩
    · exact ⟨d, hsame, hf⟩
    · rw [hd'] at hrow
      exact ⟨d', hd', (hrow.completed ho).mpr hf⟩

/-- Only its own completion completes a file. -/
theorem Completed.before (h : Completed s' id index) (hc : Downloads.call s o c = (r, s'))
    (hn : ∀ d, o = .createDownload d → ¬ d.completed index)
    (ho : ∀ bytes, o ≠ .updateFile id index (.complete bytes)) : Completed s id index := by
  obtain ⟨d', hd', hf⟩ := h
  cases hd : s.downloads.rows id with
  | none =>
    obtain ⟨rfl, -⟩ := call_new_row hc hd hd'
    exact absurd hf (hn d' rfl)
  | some d =>
    refine ⟨d, hd, ?_⟩
    rcases call_row hc hd with hsame | ⟨-, hrow⟩
    · rw [hd'] at hsame
      cases hsame
      exact hf
    rw [hd'] at hrow
    by_cases hm : ∀ change, o = .updateFile id index change → change.moves = false
    · exact (hrow.completed hm).mp hf
    · push Not at hm
      obtain ⟨change, rfl, hmove⟩ := hm
      cases hrow
      cases change with
      | complete bytes => exact absurd rfl (ho bytes)
      | size => exact absurd rfl hmove
      | progress => exact absurd rfl hmove
      | _ =>
        exfalso
        simp only [Download.completed, List.getElem?_modify, if_true] at hf
        cases hx : d.files[index]? <;> simp [hx, FileChange.apply] at hf

theorem plannedRow_completed (postId : Nat) (plan : Titles.DownloadPlan) (index : Nat) :
    ¬ (plannedRow postId plan).completed index := by
  simp only [Download.completed, plannedRow, List.getElem?_map]
  cases plan.files[index]? <;> simp

/-- A task other than a worker neither completes a file nor takes a completion back. -/
theorem Op.MadeBy.moves {k : Task} {change : FileChange} (h : (Op.updateFile id index change).MadeBy k)
    (hm : change.moves = true) : ∃ c, k = .worker id c := by
  cases change <;> first | exact h | cases hm

end

def completes (t : Nat) : DownloadEvent → Bool
  | .did t' _ (.updateFile _ _ (.complete _)) (.ok _) _ _ => t' = t
  | _ => false

/-- How many calls thread `t` has made since it last completed a file. -/
def sinceComplete (t : Nat) : List DownloadEvent → Option Nat
  | [] => none
  | e :: trace =>
    if completes t e then some 0
    else if e.By t then (sinceComplete t trace).map (· + 1)
    else sinceComplete t trace

/-- The thread is in what is left of the `try` block after a file is completed: the read and the
write of the totals and the read of the row to publish. -/
def InTail (t : Nat) (trace : List DownloadEvent) : Prop := (sinceComplete t trace).any (· < 3) = true

instance (t : Nat) (trace : List DownloadEvent) : Decidable (InTail t trace) := by
  unfold InTail
  infer_instance

/-- No database call fails there. -/
def TailHolds (p : DownloadPool) : DownloadLabel → Prop
  | .exec t c => InTail t p.trace → c.failure = none
  | _ => True

instance (p : DownloadPool) : DecidablePred (TailHolds p) := fun l => by
  cases l <;> unfold TailHolds <;> infer_instance

theorem sinceComplete_other {t : Nat} {e : DownloadEvent} {trace : List DownloadEvent}
    (h : ¬ e.By t) : sinceComplete t (e :: trace) = sinceComplete t trace := by
  have hc : completes t e = false := by
    cases hc : completes t e with
    | false => rfl
    | true =>
      unfold completes at hc
      split at hc
      · exact absurd (of_decide_eq_true hc) h
      · cases hc
  simp [sinceComplete, hc, h]

theorem sinceComplete_own {t n : Nat} {k : Task} {o : Op} {r : Reply o} {s s' : State}
    {trace : List DownloadEvent} (h : sinceComplete t trace = some n)
    (ho : ∀ id index bytes, o ≠ .updateFile id index (.complete bytes)) :
    sinceComplete t (.did t k o r s s' :: trace) = some (n + 1) := by
  have hc : completes t (.did t k o r s s') = false := by
    cases hc : completes t (.did t k o r s s') with
    | false => rfl
    | true =>
      unfold completes at hc
      split at hc
      · rename_i he
        cases he
        exact absurd rfl (ho _ _ _)
      · cases hc
  have hb : (Event.did t k o r s s' : DownloadEvent).By t := rfl
  simp [sinceComplete, hc, hb, h]

/-- How far the worker is in the tail. -/
def Stage.tail : Stage → Option Nat
  | .completed _ => some 0
  | .summed _ _ => some 1
  | .recorded _ => some 2
  | _ => none

/-- The files before the worker are not completed. -/
structure Undone (t id : Nat) (s : Stage) (w : DownloadWorld) : Prop where
  nodup : s.indices.Nodup
  todo : ∀ i ∈ s.todo, ¬ Completed w.state id i
  tail : ∀ n, s.tail = some n → sinceComplete t w.trace = some n

def completions : Ledger State Task Op Reply Arrival Result where
  admits _ k _ e := ∀ id c, k = .worker id c → ∀ i, Completed e.after id i → Completed e.before id i
  may t _ w o r s := ∃ c, call w.state o c = (r, s) ∧ (InTail t w.trace → c.failure = none)
  guar _ k w o _ _ := ∀ id c, k = .worker id c → ∀ i change, o = .updateFile id i change →
    change.moves = true → ¬ Completed w.state id i
  post _ _ _ _ := True

section
variable {env : Env} {t id c : Nat} {s : Stage} {w w' : DownloadWorld} {o : Op} {r : Reply o}

abbrev completionContract (t id c : Nat) : Contract DownloadWorld Op Reply :=
  completions.discipline.contract t (.worker id c)

theorem Undone.stable (h : Undone t id s w) (hr : (completionContract t id c).rely w w') :
    Undone t id s w' := by
  refine History.rely_induct (fun v e hv hb ht hp => ?_) hr h
  refine ⟨hv.nodup, fun i hi hd => hv.todo i hi ?_, fun n hn => ?_⟩
  · rw [← hb]
    exact hp id c rfl i hd
  · rw [sinceComplete_other ht]
    exact hv.tail n hn

theorem Undone.quiet {s' : Stage} (h : Undone t id s w) (ha : (completionContract t id c).act w o r w')
    (hn : s'.indices.Nodup) (hs : s'.todo ⊆ s.todo) (ht : s'.tail = none)
    (hd : ∀ d, o ≠ .createDownload d) (ho : ∀ i bytes, o ≠ .updateFile id i (.complete bytes)) :
    Undone t id s' w' := by
  obtain ⟨ch, hc, -⟩ := ha.2
  refine ⟨hn, fun i hi hdone => h.todo i (hs hi) ?_, fun n hn => by rw [ht] at hn; cases hn⟩
  exact hdone.before hc (fun d e => absurd e (hd d)) (ho i)

theorem Undone.thrown (hs : s.onError e = .thrown ∨ s.onError e = .ended) :
    Undone t id (s.onError e) w' := by
  rcases hs with hs | hs <;> rw [hs] <;>
    exact ⟨List.nodup_nil, fun _ hi => absurd hi List.not_mem_nil, (fun _ hn => by cases hn)⟩

theorem Undone.ok {s' : Stage} {v : Val o} (h : Undone t id s w) (hn : Next env id c s o v s')
    (ha : (completionContract t id c).act w o (.ok v) w') : Undone t id s' w' := by
  have nodup := hn.nodup h.nodup
  have todo := hn.todo
  have trace := congrArg World.trace ha.1
  obtain ⟨ch, hc, -⟩ := ha.2
  cases hn with
  | missing => exact ⟨nodup, fun _ hi => absurd hi List.not_mem_nil, fun _ hn => nomatch hn⟩
  | found d =>
    obtain ⟨hrow, hsame⟩ := call_find hc
    refine ⟨nodup, fun i hi hdone => ?_, fun n hn => nomatch hn⟩
    obtain ⟨d', hd', hf⟩ := hdone
    rw [hsame, hrow] at hd'
    cases hd'
    simp only [Stage.todo, Stage.working, Stage.spot, Stage.rest, Option.map_none, Option.toList_none,
      List.nil_append, List.mem_map, List.mem_filter, decide_eq_true_eq] at hi
    obtain ⟨⟨file, i⟩, ⟨hm, hne⟩, rfl⟩ := hi
    rw [List.mk_mem_zipIdx_iff_getElem?] at hm
    simp only [Download.completed, hm, Option.map_some, Option.some.injEq] at hf
    exact hne hf
  | complete x result =>
    refine ⟨nodup, fun i hi hdone => h.todo i (todo (by simp) hi) ?_, fun n hn => ?_⟩
    · refine hdone.before hc (by simp) fun bytes e => ?_
      have hx : x.index ∈ x.rest.map Prod.snd := by
        cases e
        obtain ⟨y, hy, hi⟩ := List.mem_map.mp hi
        exact List.mem_map.mpr ⟨y, (List.mem_filter.mp hy).1, hi⟩
      exact (List.nodup_cons.mp h.nodup).1 hx
    · cases hn
      rw [trace]
      simp [sinceComplete, completes]
  | sum x row =>
    refine ⟨nodup, fun i hi hdone => h.todo i (todo (by simp) hi) (hdone.before hc (by simp) (by simp)),
      fun n hn => ?_⟩
    cases hn
    rw [trace]
    exact sinceComplete_own (h.tail 0 rfl) (by simp)
  | total x files =>
    refine ⟨nodup, fun i hi hdone => h.todo i (todo (by simp) hi) (hdone.before hc (by simp) (by simp)),
      fun n hn => ?_⟩
    cases hn
    rw [trace]
    exact sinceComplete_own (h.tail 1 rfl) (by simp)
  | look s row hp =>
    cases s <;> first
      | (cases hp; done)
      | exact h.quiet ha nodup (todo (by simp)) rfl (by simp) (by simp)
  | tell s row hp =>
    cases s <;> first
      | (cases hp; done)
      | exact h.quiet ha nodup (todo (by simp [Stage.onShow])) rfl (by simp) (by simp)
  | _ => exact h.quiet ha nodup (todo (by simp)) rfl (by simp) (by simp)

/-- In the tail no call fails but the write to a row that is gone. -/
theorem Undone.error {s' : Stage} {v : Val o} {e : Err} (h : Undone t id s w)
    (hn : Next env id c s o v s') (ha : (completionContract t id c).act w o (.error e) w') :
    Undone t id (s.onError e) w' := by
  obtain ⟨ch, hc, hq⟩ := ha.2
  have same := call_error hc
  have carried {n : Nat} (hn : n < 3) (ht : s.tail = some n) : perform w.state ch o = (.error e, w'.state) := by
    have hf := hq (by simpa [InTail, h.tail n ht] using hn)
    simpa only [call, hf] using hc
  cases hn with
  | complete x result =>
    exact ⟨h.nodup, fun i hi hd => h.todo i hi (by rwa [same] at hd), (fun _ hn => by cases hn)⟩
  | sum x row => cases carried (by decide : 0 < 3) rfl
  | total x files =>
    have hp := carried (by decide : 1 < 3) rfl
    refine ⟨h.nodup, fun i hi hdone => ?_, (fun _ hn => by cases hn)⟩
    obtain ⟨d, hd, -⟩ := hdone
    rw [same] at hd
    simp [perform, State.updateRow, hd] at hp
  | look s row hp =>
    cases s <;> first
      | (cases hp; done)
      | cases carried (by decide : 2 < 3) rfl
      | exact .thrown (.inl rfl)
      | exact .thrown (.inr rfl)
  | tell s event hp =>
    rw [call_publish] at hc
    cases hc
  | fail => exact .thrown (.inr rfl)
  | _ => exact .thrown (.inl rfl)

theorem undone_outline : Outline (completionContract t id c) env id c (Undone t id) where
  stable _ _ _ hr h := h.stable hr
  silent hs h := ⟨hs.nodup h.nodup, fun i hi => h.todo i (hs.todo hi), fun n hn => by
    cases hs <;> cases hn⟩
  guar hn h _ := by
    rintro id' c' hk i change rfl hm
    cases hk
    refine h.todo i (List.mem_append_left _ ?_)
    rw [hn.writes]
    exact List.mem_singleton_self i
  ok hn h ha := h.ok hn ha
  error hn h ha := h.error hn ha
  fetch x destination probed := by
    refine Spot.fetch_does (fun _ _ hr h => h.stable hr) (fun o ho => ?_) (fun _ _ h => ?_) fun _ _ h => ?_
    · have other : (∀ d, o ≠ .createDownload d) ∧ ∀ i change, o ≠ .updateFile id i change := by
        rcases ho with ho | ⟨n, total, rfl⟩
        · exact ⟨fun d e => by rw [e] at ho; exact ho.1, fun i change e => by rw [e] at ho; exact ho.1⟩
        · exact ⟨by simp, by simp⟩
      have keep {w : DownloadWorld} {r : Reply o} {w' : DownloadWorld}
          (h : Undone t id (.trying x destination probed) w) (ha : (completionContract t id c).act w o r w') :
          Undone t id (.trying x destination probed) w' :=
        h.quiet ha h.nodup (fun _ h => h) rfl other.1 fun i bytes => other.2 i _
      refine ⟨fun w r w' _ _ => ?_, fun _ _ _ h ha => keep h ha, fun _ _ _ h ha => keep h ha⟩
      rintro id' c' hk i change ho
      cases hk
      exact absurd ho (other.2 i change)
    · exact ⟨h.nodup, h.todo, fun n hn => nomatch hn⟩
    · exact ⟨h.nodup, h.todo, fun n hn => nomatch hn⟩

end

theorem completion_safe (env : Env) {t : Nat} {th : DownloadThread} {w : DownloadWorld}
    (h : Begins env th) : completions.discipline.SafeThread t th w := by
  have other (hk : ∀ id c, th.kind ≠ .worker id c) : completions.discipline.SafeThread t th w :=
    .of_uses (fun _ _ _ _ _ _ id c e => absurd e (hk id c)) h.uses
  cases h with
  | worker id c =>
    refine (undone_outline.program_safe ⟨List.nodup_nil, fun _ hi => absurd hi List.not_mem_nil,
      fun _ hn => nomatch hn⟩).mono fun _ _ _ => trivial
  | _ => exact other (by simp)

/-- What is completed is still so after one more event, when that event keeps it. -/
theorem stays_completed {p : DownloadPool} {e : DownloadEvent} (hb : e.before = p.state)
    (h : ∀ e ∈ p.trace, StaysCompleted p.state e)
    (keep : ∀ id index, Completed p.state id index → Completed e.after id index ∨ Gone e.after id)
    (gone : ∀ id, Gone p.state id → Gone e.after id) :
    ∀ d ∈ e :: p.trace, StaysCompleted e.after d := by
  intro d hd id index hdone
  rcases List.mem_cons.mp hd with rfl | hd
  · rcases hdone with hdone | hdone
    · exact keep id index (hb ▸ hdone)
    · exact .inl hdone
  · rcases h d hd id index hdone with hdone | hg
    · exact keep id index hdone
    · exact .inr (gone id hg)

theorem completions_keeps (env : Env) (hc : env.concurrency = 1) :
    completions.Keeps (system env) TailHolds
      fun p => SlotsKept env p ∧ ∀ e ∈ p.trace, StaysCompleted p.state e where
  may _ hok ht he := by
    obtain ⟨-, hcall, rfl⟩ := system_exec he
    exact ⟨_, hcall, hok⟩
  exec {p t k o rest c r s ths} hI hok ht he hg := by
    obtain ⟨-, hcall, rfl⟩ := system_exec he
    have made : o.MadeBy k := (hI.1.uses t _ ht).1
    refine ⟨⟨hI.1.exec ht he, ?_⟩, fun t' th hne hth id c' hk i hd => ?_, fun th hth _ _ =>
      completion_safe env ((system_begins env).exec he th hth)⟩
    · rw [Pool.didCall_state, Pool.didCall_trace]
      refine stays_completed rfl hI.2 (fun id index hd => ?_) fun id hg => hg.call hcall
      refine hd.call hcall fun change ho => ?_
      subst ho
      cases hm : change.moves with
      | false => rfl
      | true =>
        obtain ⟨c', rfl⟩ := made.moves hm
        exact absurd hd (hg id c' rfl index change rfl hm)
    · -- with one slot the others are no workers
      have idle : k.slot = false := by
        cases hs : k.slot with
        | false => rfl
        | true =>
          have hs' : th.kind.slot = true := by rw [hk]; rfl
          exact absurd (hI.1.one_worker hc.le hth ht hs' hs) hne
      refine hd.before hcall (fun d ho => ?_) fun bytes ho => ?_
      · subst ho
        obtain ⟨-, plan, hp⟩ := made
        rw [hp]
        exact plannedRow_completed _ _ _
      · subst ho
        obtain ⟨c', rfl⟩ := made
        cases idle
  finish hI _ ht _ := by
    refine ⟨⟨hI.1.finish ht, ?_⟩, fun _ _ _ _ _ _ _ _ h => h, fun th hth _ _ => completion_safe env
      ((system_begins env).finish _ _ _ th hth)⟩
    rw [Pool.didEnd_state, Pool.didEnd_trace]
    exact stays_completed rfl hI.2 (fun _ _ => .inl) fun _ h => h
  external hI _ he := by
    have hrows := (arrive_keeps he).1
    refine ⟨⟨hI.1.external he, ?_⟩, fun _ _ _ _ _ _ _ _ h => ?_, fun th hth _ _ => completion_safe env
      ((system_begins env).external he th hth)⟩
    · rw [Pool.didOuter_state, Pool.didOuter_trace]
      refine stays_completed rfl hI.2 (fun _ _ hd => .inl ?_) fun _ hg => ?_
      · simpa only [Completed, Event.after, hrows] using hd
      · simpa only [Gone, Event.after, hrows] using hg
    · simpa only [Completed, Event.after, Event.before, hrows] using h

/-- With one slot, and as long as no database call fails between the completion of a file and the
end of its `try` block, a completed file stays completed in every run. -/
theorem completed_absorbing (env : Env) (hc : env.concurrency = 1) {s : State} (hs : s.Down)
    {p : DownloadPool} (hr : (system env).Runs TailHolds (.initial s) p) :
    ∀ e ∈ p.trace, StaysCompleted p.state e := by
  have hk := (completions_keeps env hc).keeps
  have h := (system env).invariant (fun _ _ _ h hok hst => hk.step h hok hst)
    ⟨⟨.initial env hs, fun _ h => absurd h List.not_mem_nil⟩, Discipline.allSafe_initial _ s⟩ hr
  exact h.1.2

/-- One attempt at the file of the job, up to its completion. -/
def completeFile : List DownloadLabel := calls 2 10 ++ calls 2 5

/-- The totals cannot be read after the file is completed. -/
theorem completed_then_failed : ¬ ∀ (env : Env) (s : State) (p : DownloadPool), env.concurrency = 1 →
    s.Down → (system env).Runs (fun _ _ => True) (.initial s) p →
    ∀ e ∈ p.trace, StaysCompleted p.state e := by
  intro h
  have hrun : ((system (.small 1)).replay (fun _ _ => true) (.initial oneJob)
      (bootUp ++ completeFile ++ [.exec 2 { failure := some "database is locked" }] ++ calls 2 2)).any
      (fun p => p.trace.any (fun e => decide (Completed e.after 0 0)) ∧ ¬ Completed p.state 0 0 ∧
        (p.state.downloads.rows 0).isSome) = true := by decide
  obtain ⟨p, hp, hn⟩ := Option.any_eq_true _ _ |>.mp hrun
  obtain ⟨hdone, hnot, hthere⟩ := of_decide_eq_true hn
  obtain ⟨e, he, hdone⟩ := List.any_eq_true.mp hdone
  rcases h (.small 1) oneJob p rfl oneJob_down ((system (.small 1)).replay_runs (fun _ _ _ => trivial) hp)
    e he 0 0 (.inr (of_decide_eq_true hdone)) with hd | hg
  · exact hnot hd
  · rw [hg.2] at hthere
    cases hthere

/-- The file is completed, its job ends, and a retry is refused. -/
theorem completed_absorbing_refused : ∃ p, (system (.small 1)).Runs TailHolds (.initial oneJob) p ∧
    (∃ e ∈ p.trace, Completed e.after 0 0) ∧ ∀ e ∈ p.trace, StaysCompleted p.state e := by
  have hrun : ((system (.small 1)).replay (fun p l => decide (TailHolds p l)) (.initial oneJob)
      (bootUp ++ completeFile ++ calls 2 12 ++ [.external (.request (.retry 0))] ++ calls 3 1)).any
      (fun p => p.trace.any (fun e => decide (Completed e.after 0 0))) = true := by decide
  obtain ⟨p, hp, hn⟩ := Option.any_eq_true _ _ |>.mp hrun
  obtain ⟨e, he, hdone⟩ := List.any_eq_true.mp hn
  have hr := (system (.small 1)).replay_runs (fun _ _ => of_decide_eq_true) hp
  exact ⟨p, hr, ⟨e, he, of_decide_eq_true hdone⟩, completed_absorbing (.small 1) rfl oneJob_down hr⟩

end CircleFtp.Downloads
