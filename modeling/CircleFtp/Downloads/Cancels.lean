import CircleFtp.Downloads.Activation
import CircleFtp.Downloads.Outline

/-! A cancelled job asks its host for nothing more: the worker reads the flag before each file, and
the cancel aborts the handle of the file that it is at. -/
namespace CircleFtp.Downloads
open Concurrent Strings

/-- A retry of the download has committed. -/
def requeues (id : Nat) : DownloadEvent → Bool
  | .did _ _ (.requeue id') (.ok _) _ _ => id' = id
  | _ => false

def DownloadChange.cancels : DownloadChange → Bool
  | .cancelQueued | .requestCancel => true
  | _ => false

/-- Request `t` has written that the download is to be cancelled. -/
def cancels (t id : Nat) : DownloadEvent → Bool
  | .did t' _ (.updateDownload id' change) (.ok _) _ _ => t' = t && id' = id && change.cancels
  | _ => false

/-- Request `t` has succeeded in cancelling the download. -/
def acknowledges (t id : Nat) : DownloadEvent → Bool
  | .ended t' (.request (.cancel id')) (.ended (.ok _)) _ _ => t' = t && id' = id
  | _ => false

/-- Request `t` has succeeded, and no retry has committed since. -/
def acknowledged (t id : Nat) : List DownloadEvent → Bool
  | [] => false
  | e :: old => !requeues id e && (acknowledges t id e || acknowledged t id old)

/-- Request `t` has written, and no retry has committed since. -/
def cancelled (t id : Nat) : List DownloadEvent → Bool
  | [] => false
  | e :: old => !requeues id e && (cancels t id e || cancelled t id old)

/-- Request `t` has succeeded, and no retry has committed since it wrote. -/
def standing (t id : Nat) : List DownloadEvent → Bool
  | [] => false
  | e :: old => !requeues id e && (acknowledges t id e && cancelled t id old || standing t id old)

/-- A request for a file of the download goes out: its abort handle has not been used. -/
def asksHost (id : Nat) : DownloadEvent → Bool
  | .did _ (.worker id' _) (.request _ _ c) _ s _ => id' = id && !s.memory.aborted c
  | _ => false

/-- No request goes out for a download that is cancelled in the sense of `φ`. -/
def Silenced (φ : Nat → Nat → List DownloadEvent → Bool) (trace : List DownloadEvent) : Prop :=
  ∀ new e old id, trace = new ++ e :: old → asksHost id e = true → ∀ t, φ t id old = false

theorem Silenced.cons {φ : Nat → Nat → List DownloadEvent → Bool} {trace : List DownloadEvent}
    {e : DownloadEvent} (h : Silenced φ trace)
    (he : ∀ id, asksHost id e = true → ∀ t, φ t id trace = false) : Silenced φ (e :: trace) := by
  intro new d old id htrace
  cases new with
  | nil =>
    obtain ⟨rfl, rfl⟩ := List.cons.inj htrace
    exact he id
  | cons f new =>
    obtain ⟨-, rfl⟩ := List.cons.inj htrace
    exact h new d old id rfl

theorem standing_cancelled {t id : Nat} {trace : List DownloadEvent} (h : standing t id trace = true) :
    cancelled t id trace = true := by
  induction trace with
  | nil => cases h
  | cons e old ih =>
    simp only [standing, cancelled, Bool.and_eq_true, Bool.or_eq_true] at h ⊢
    exact ⟨h.1, .inr (h.2.elim And.right ih)⟩

def Flagged (s : State) (id : Nat) : Prop :=
  ∃ d, s.downloads.rows id = some d ∧ d.cancelRequested = true

/-- There is nothing left of the download for its worker to do. -/
def Withdrawn (s : State) (id : Nat) : Prop := Gone s id ∨ Flagged s id

/-- The row of a cancelled download: flagged as long as it is active. -/
def Cancelled (s : State) (id : Nat) : Prop :=
  Gone s id ∨ ∃ d, s.downloads.rows id = some d ∧ (d.status.active = true → d.cancelRequested = true)

/-- What the events of a run leave to a worker, apart from the flag. -/
structure Leaves (id c : Nat) (e : DownloadEvent) : Prop where
  next : e.before.downloads.next ≤ e.after.downloads.next
  gone : Gone e.before id → Gone e.after id
  flagged : ∀ t, cancels t id e = true → Flagged e.after id
  aborted : e.before.memory.aborted c = true → e.after.memory.aborted c = true
  acknowledged : ∀ t, acknowledges t id e = true → e.after.memory.aborted c = true

section
variable {s s' : State} {id t : Nat} {k : Task} {o : Op} {c : Choice} {r : Reply o}

theorem flagged_of_cancels (h : call s o c = (r, s')) {u : Nat}
    (hc : cancels u id (.did t k o r s s') = true) : Flagged s' id := by
  cases o <;> try cases hc
  case updateDownload id' change =>
    rcases r with e | a
    · cases hc
    simp only [cancels, Bool.and_eq_true, decide_eq_true_eq] at hc
    obtain ⟨⟨-, rfl⟩, hc⟩ := hc
    obtain ⟨d, -, hd⟩ := call_updateDownload h
    refine ⟨_, hd, ?_⟩
    cases change <;> first | rfl | cases hc

theorem call_leaves (h : call s o c = (r, s')) (c' : Nat) : Leaves id c' (.did t k o r s s') where
  next := next_le h
  gone hg := hg.call h
  flagged u hu := flagged_of_cancels h hu
  aborted ha := by
    have := (call_same s o c).aborted
    rw [h] at this
    exact (congrFun this c').trans ha
  acknowledged _ ha := nomatch ha

/-- Only the end of a job and a retry take the flag back. -/
theorem Withdrawn.call (hw : Withdrawn s id) (h : call s o c = (r, s'))
    (hq : requeues id (.did t k o r s s' : DownloadEvent) = false)
    (hf : ∀ status error, o ≠ .updateDownload id (.finish status error)) : Withdrawn s' id := by
  rcases hw with hg | ⟨d, hd, hflag⟩
  · exact .inl (hg.call h)
  rcases call_row h hd with hsame | ⟨⟨a, rfl⟩, hrow⟩
  · exact .inr ⟨d, hsame, hflag⟩
  have known := row_known h hd
  unfold Withdrawn Flagged Gone
  generalize s'.downloads.rows id = row at hrow
  cases hrow with
  | update change => cases change <;> first
      | exact absurd rfl (hf _ _)
      | exact .inr ⟨_, rfl, hflag⟩
      | exact .inr ⟨_, rfl, rfl⟩
  | delete => exact .inl ⟨known, rfl⟩
  | requeue => simp [requeues] at hq
  | _ => exact .inr ⟨_, rfl, hflag⟩

end

/-- The stage from which requests are sent. -/
def Stage.asks : Stage → Bool
  | .trying _ _ _ => true
  | _ => false

structure Obeys (id c : Nat) (s : Stage) (w : DownloadWorld) : Prop where
  known : id < w.state.downloads.next
  flagged : s.live = true → (∃ t, cancelled t id w.trace = true) → Withdrawn w.state id
  stopped : s.spot.isSome = true → (∃ t, standing t id w.trace = true) →
    w.state.memory.aborted c = true ∨ Gone w.state id
  silent : s.asks = true → (∃ t, standing t id w.trace = true) → w.state.memory.aborted c = true

def obedience : Ledger State Task Op Reply Arrival Result where
  admits _ k _ e := ∀ id c, k = .worker id c → Leaves id c e ∧
    (requeues id e = false → Withdrawn e.before id → Withdrawn e.after id)
  may _ _ w o r s := ∃ c, call w.state o c = (r, s)
  guar _ k w o _ _ := ∀ id c, k = .worker id c → ∀ url range c', o = .request url range c' →
    w.state.memory.aborted c' = false → ∀ t, standing t id w.trace = false
  post _ _ _ _ := True

abbrev obedienceContract (t id c : Nat) : Contract DownloadWorld Op Reply :=
  obedience.discipline.contract t (.worker id c)

section
variable {t id c : Nat} {s s' : Stage} {w w' : DownloadWorld} {o : Op} {r : Reply o}

theorem Obeys.after {e : DownloadEvent} (h : Obeys id c s w) (hb : e.before = w.state)
    (hl : Leaves id c e)
    (hw : s.live = true → requeues id e = false → Withdrawn e.before id → Withdrawn e.after id) :
    Obeys id c s ⟨e.after, e :: w.trace⟩ := by
  have stopped {φ : Prop} (hφ : (∃ t, standing t id w.trace = true) → w.state.memory.aborted c = true ∨ φ)
      (hs : ∃ t, standing t id (e :: w.trace) = true) : e.after.memory.aborted c = true ∨ φ := by
    obtain ⟨u, hu⟩ := hs
    simp only [standing, Bool.and_eq_true, Bool.or_eq_true] at hu
    rcases hu.2 with hu | hu
    · exact .inl (hl.acknowledged u hu.1)
    · exact (hφ ⟨u, hu⟩).imp_left fun ha => hl.aborted (hb ▸ ha)
  refine ⟨Nat.lt_of_lt_of_le h.known (hb ▸ hl.next), fun hlive => ?_, fun hs hst => ?_, fun ha hst => ?_⟩
  · rintro ⟨u, hu⟩
    simp only [cancelled, Bool.and_eq_true, Bool.or_eq_true, Bool.not_eq_true'] at hu
    rcases hu.2 with hc | hc
    · exact .inr (hl.flagged u hc)
    · exact hw hlive hu.1 (hb ▸ h.flagged hlive ⟨u, hc⟩)
  · exact (stopped (h.stopped hs) hst).imp_right fun hg => hl.gone (hb ▸ hg)
  · exact (stopped (φ := False) (fun hs => .inl (h.silent ha hs)) hst).resolve_right not_false

theorem Obeys.stable (h : Obeys id c s w) (hr : (obedienceContract t id c).rely w w') :
    Obeys id c s w' :=
  History.rely_induct (fun _ _ hv hb _ hp => hv.after hb (hp id c rfl).1 fun _ => (hp id c rfl).2) hr h

/-- A call of the worker itself. -/
theorem Obeys.call (h : Obeys id c s w) (ha : (obedienceContract t id c).act w o r w')
    (hf : s.live = true → ∀ status error, o ≠ .updateDownload id (.finish status error)) :
    Obeys id c s w' := by
  obtain ⟨ch, hc⟩ := ha.2
  rw [ha.1]
  exact h.after rfl (call_leaves hc c) fun hl hq hw => hw.call hc hq (hf hl)

/-- One stage says no more than another. -/
theorem Obeys.leads (h : Obeys id c s w) (hl : s'.live = true → s.live = true)
    (hs : s'.spot.isSome = true → s.spot.isSome = true) (ha : s'.asks = true → s.asks = true) :
    Obeys id c s' w :=
  ⟨h.known, fun h' => h.flagged (hl h'), fun h' => h.stopped (hs h'), fun h' => h.silent (ha h')⟩

/-- The worker goes on with a file only where nothing is cancelled. -/
theorem Obeys.go {x : Spot} {row : Option Download}
    (h : Obeys id c (.between x.folder ((x.file, x.index) :: x.rest)) w)
    (ha : (obedienceContract t id c).act w (.findDownload id) (.ok row) w')
    (hr : row.any (·.cancelRequested) = false) : Obeys id c (.checked x) w' := by
  obtain ⟨ch, hc⟩ := ha.2
  obtain ⟨hrow, hsame⟩ := call_find hc
  have h' := h.call ha (by simp)
  refine ⟨h'.known, fun _ => h'.flagged rfl, fun _ => ?_, nofun⟩
  rintro ⟨u, hu⟩
  rcases h'.flagged rfl ⟨u, standing_cancelled hu⟩ with hg | ⟨d, hd, hflag⟩
  · exact .inr hg
  · rw [hsame, hrow] at hd
    rw [hd] at hr
    simp [hflag] at hr

theorem Obeys.ok {env : Env} {v : Val o} (h : Obeys id c s w) (hn : Next env id c s o v s')
    (ha : (obedienceContract t id c).act w o (.ok v) w') : Obeys id c s' w' := by
  cases hn with
  | go x row hx hr => exact h.go ha hr
  | look s row hp =>
    refine (h.call ha (by simp)).leads ?_ ?_ ?_ <;> cases s <;> exact fun h => h
  | begin x destination probed hd =>
    have h' := h.call ha (by simp)
    obtain ⟨ch, hc⟩ := ha.2
    obtain ⟨d, f, -, -, hd'⟩ := call_updateFile hc
    refine ⟨h'.known, fun _ => h'.flagged rfl, fun _ => h'.stopped rfl, fun _ hst => ?_⟩
    refine (h'.stopped rfl hst).resolve_right fun hg => ?_
    rw [hg.2] at hd'
    cases hd'
  | finish b files =>
    have hw : Obeys id c .written w := h.leads nofun nofun nofun
    exact hw.call ha nofun
  | tell s event hp => exact h.call ha (by simp)
  | _ =>
    refine (h.call ha (by simp [DownloadChange.sums])).leads (fun hl => ?_) (fun hs => ?_) nofun
    · first | rfl | cases hl
    · first | rfl | cases hs

/-- A call that throws. -/
theorem Obeys.unchanged {e : Err} (h : Obeys id c s w)
    (ha : (obedienceContract t id c).act w o (.error e) w') : Obeys id c s w' := by
  obtain ⟨ch, hc⟩ := ha.2
  rw [ha.1]
  refine h.after rfl (call_leaves hc c) fun _ _ hw => ?_
  exact (call_error hc).symm ▸ hw

theorem Obeys.onError (h : Obeys id c s w) (e : Err) : Obeys id c (s.onError e) w := by
  cases s <;> exact h.leads (fun hl => by first | rfl | cases hl) (fun hs => by first | rfl | cases hs) nofun

theorem obeys_outline (env : Env) : Outline (obedienceContract t id c) env id c (Obeys id c) where
  stable _ _ _ hr h := h.stable hr
  silent hs h := by
    cases hs <;> exact h.leads (fun hl => by first | rfl | cases hl)
      (fun hs => by first | rfl | cases hs) nofun
  guar hn h _ := by
    rintro id' c' - url range c'' rfl
    cases hn
  ok hn h ha := h.ok hn ha
  error hn h ha := (h.unchanged ha).onError _
  fetch x destination probed := by
    refine Spot.fetch_does (fun _ _ hr h => h.stable hr) (fun o ho => ?_)
      (fun _ _ h => h.leads (fun _ => rfl) (fun _ => rfl) nofun)
      fun _ _ h => h.leads (fun _ => rfl) (fun _ => rfl) nofun
    have other : ∀ status error, o ≠ .updateDownload id (.finish status error) := by
      rintro status error rfl
      rcases ho with ho | ⟨n, total, ho⟩
      · exact ho.1
      · cases ho
    refine ⟨?_, fun _ _ _ h ha => h.call ha fun _ => other, fun _ _ _ h ha => h.call ha fun _ => other⟩
    rintro w r w' h ha id' c' hk url range c'' rfl hlive u
    cases hk
    rcases ho with ho | ⟨n, total, ho⟩
    · obtain rfl := ho.2 url range c'' rfl
      by_contra hst
      rw [h.silent rfl ⟨u, by simpa using hst⟩] at hlive
      cases hlive
    · cases ho

end

/-- The rows of cancelled downloads, also of those that the drain is about to start. -/
structure Abides (env : Env) (p : DownloadPool) : Prop where
  slots : SlotsKept env p
  activations : Activations p
  rows : ∀ id, (∃ t, cancelled t id p.trace = true) → Cancelled p.state id
  starting : ∀ t id, p.threads t = some ⟨.drain, .ret (.start id)⟩ → id < p.state.downloads.next ∧
    ((∃ t, cancelled t id p.trace = true) → Withdrawn p.state id)
  silenced : Silenced standing p.trace

theorem Abides.initial (env : Env) {s : State} (hs : s.Down) : Abides env (.initial s) where
  slots := .initial env hs
  activations := .initial s
  rows _ h := by
    obtain ⟨_, h⟩ := h
    cases h
  starting _ _ ht := by cases ht
  silenced new e old id h := by cases new <;> cases h

section
variable {env : Env} {s s' : State} {id t : Nat} {k : Task} {o : Op} {c : Choice} {r : Reply o}

theorem Cancelled.call (hc : Cancelled s id) (h : call s o c = (r, s')) (hm : o.MadeBy k)
    (hq : requeues id (.did t k o r s s' : DownloadEvent) = false) : Cancelled s' id := by
  rcases hc with hg | ⟨d, hd, hflag⟩
  · exact .inl (hg.call h)
  rcases call_row h hd with hsame | ⟨⟨a, rfl⟩, hrow⟩
  · exact .inr ⟨d, hsame, hflag⟩
  have known := row_known h hd
  unfold Cancelled Gone
  generalize s'.downloads.rows id = row at hrow
  cases hrow with
  | update change =>
    refine .inr ⟨_, rfl, ?_⟩
    cases change with
    | totals => exact hflag
    | finish status error =>
      intro ha
      rw [show (DownloadChange.apply (.finish status error) d).status = status from rfl, hm.1] at ha
      cases ha
    | failed => exact nofun
    | cancelQueued => exact fun _ => rfl
    | requestCancel => exact fun _ => rfl
  | delete => exact .inl ⟨known, rfl⟩
  | requeue => simp [requeues] at hq
  | claim hs => exact .inr ⟨_, rfl, fun _ => hflag (by rw [hs]; rfl)⟩
  | requeueRunning hs => exact .inr ⟨_, rfl, fun _ => hflag (by rw [hs]; rfl)⟩
  | _ => exact .inr ⟨_, rfl, hflag⟩

theorem wake_aborted (env : Env) (m : Memory) : (m.wake env).1.aborted = m.aborted := by
  simp only [Memory.wake, Memory.loop]
  split
  · rfl
  · split <;> rfl

/-- An abort lasts as long as the process. -/
theorem after_aborted (env : Env) (m : Memory) {a : Result} (hk : k ≠ .boot) {n : Nat}
    (h : m.aborted n = true) : (m.after env k a).1.aborted n = true := by
  have loop (m' : Memory) (hm : m'.aborted = m.aborted) : (m'.loop env).1.aborted n = true := by
    rw [Memory.loop]
    split <;> exact hm ▸ h
  have wake (m' : Memory) (hm : m'.aborted = m.aborted) : (m'.wake env).1.aborted n = true := by
    rw [wake_aborted, hm]
    exact h
  have abort (id : Nat) : (m.abortJob id).2.aborted n = true := by
    simp only [Memory.abortJob]
    split
    · exact h
    · simp only [Memory.abort, Function.update_apply]
      split <;> first | rfl | exact h
  unfold Memory.after
  split <;> first
    | exact absurd rfl hk
    | exact loop _ rfl
    | exact wake _ rfl
    | exact abort _
    | exact h

/-- A cancel that succeeds aborts the activation on record. -/
theorem acknowledged_aborted {m : Memory} {a : Result} {t u : Nat} {s s' : State}
    (h : acknowledges u id (.ended t k a s s') = true) {n : Nat} (hn : m.aborts.lookup id = some n) :
    (m.after env k a).1.aborted n = true := by
  unfold acknowledges at h
  split at h
  · rename_i heq
    cases heq
    obtain rfl := of_decide_eq_true (Bool.and_eq_true_iff.mp h).2
    simp [Memory.after, Memory.abortJob, hn, Memory.abort]
  · cases h

end

theorem obedience_safe (env : Env) {t : Nat} {th : DownloadThread} {w : DownloadWorld}
    (h : Begins env th) (hr : ∀ id c, th.kind = .worker id c → Obeys id c .reading w) :
    obedience.discipline.SafeThread t th w := by
  have other (hk : ∀ id c, th.kind ≠ .worker id c) : obedience.discipline.SafeThread t th w :=
    .of_uses (fun _ _ _ _ _ _ id c e => absurd e (hk id c)) h.uses
  cases h with
  | worker id c => exact ((obeys_outline env).program_safe (hr id c rfl)).mono fun _ _ _ => trivial
  | _ => exact other (by simp)

section
variable {env : Env} {p : DownloadPool} {t : Nat} {k : Task}

theorem Abides.call (h : Abides env p) (hc : env.concurrency = 1) {o : Op}
    {rest : Reply o → Program Op Reply Result} (ht : p.threads t = some ⟨k, .call o rest⟩)
    {c : Choice} {r : Reply o} {s : State} {ths : List DownloadThread}
    (he : (system env).exec p.state k o c = some (r, s, ths))
    (hg : ∀ id, asksHost id (.did t k o r p.state s) = true → ∀ u, standing u id p.trace = false) :
    Abides env (p.didCall t k o rest r s ths) := by
  have hst : (system env).step p (.exec t c) = some (p.didCall t k o rest r s ths) := by
    simp [System.step, ht, he]
  have hcall := (system_exec he).2.1
  have made : o.MadeBy k := (h.slots.uses t _ ht).1
  refine ⟨h.slots.step hst, h.activations.step h.slots (h.slots.claims_idle hc _) hst, ?_, ?_, ?_⟩
  · rw [Pool.didCall_trace, Pool.didCall_state]
    rintro id ⟨u, hu⟩
    simp only [cancelled, Bool.and_eq_true, Bool.or_eq_true, Bool.not_eq_true'] at hu
    rcases hu.2 with hc | hc
    · obtain ⟨d, hd, hflag⟩ := flagged_of_cancels hcall hc
      exact .inr ⟨d, hd, fun _ => hflag⟩
    · exact (h.rows id ⟨u, hc⟩).call hcall made hu.1
  · intro t' id ht'
    rw [Pool.didCall_trace, Pool.didCall_state]
    have hn := next_le hcall
    -- what a cancel before the step leaves, and one that is the step
    have withdrawn (hw : (∃ u, cancelled u id p.trace = true) → Withdrawn p.state id)
        (hf : ∀ status error, o ≠ .updateDownload id (.finish status error))
        (hst : ∃ u, cancelled u id (.did t k o r p.state s :: p.trace) = true) : Withdrawn s id := by
      obtain ⟨u, hu⟩ := hst
      simp only [cancelled, Bool.and_eq_true, Bool.or_eq_true, Bool.not_eq_true'] at hu
      rcases hu.2 with hc | hc
      · exact .inr (flagged_of_cancels hcall hc)
      · exact (hw ⟨u, hc⟩).call hcall hu.1 hf
    rw [Pool.didCall_threads h.slots.fresh ht] at ht'
    split at ht'
    · split at ht'
      · obtain ⟨rfl, hr⟩ : k = .drain ∧ rest r = .ret (.start id) := by simpa using ht'
        obtain ⟨n, hn0, rfl, hrn⟩ := ((h.activations.shape t _ ht rfl).call r).2 id hr
        cases hrn
        obtain ⟨d, hd, hq⟩ := claim_queued hcall hn0
        refine ⟨row_known hcall hd, withdrawn (fun hst => ?_) (by simp)⟩
        rcases h.rows id hst with hg | ⟨d', hd', hflag⟩
        · exact .inl hg
        · rw [hd] at hd'
          cases hd'
          exact .inr ⟨d, hd, hflag (by rw [hq]; rfl)⟩
      · obtain ⟨known, hw⟩ := h.starting t' id ht'
        refine ⟨Nat.lt_of_lt_of_le known hn, withdrawn hw ?_⟩
        rintro status error rfl
        obtain ⟨-, c', rfl⟩ := made
        exact h.activations.claimed t' id ht' t c' (kindAt_of ht)
    · obtain ⟨-, -, rfl⟩ := system_exec he
      obtain ⟨ticket, hk, -⟩ := reported_begins env (List.mem_of_getElem? ht')
      cases hk
  · rw [Pool.didCall_trace]
    exact h.silenced.cons hg

/-- An event that touches neither the rows nor the threads of the drain. -/
theorem Abides.other {q : DownloadPool} {e : DownloadEvent} (h : Abides env p) (hs : SlotsKept env q)
    (ha : Activations q) (hq : q.trace = e :: p.trace)
    (hd : q.state.downloads = p.state.downloads)
    (hr : ∀ id, requeues id e = false) (hc : ∀ u id, cancels u id e = false)
    (hh : ∀ id, asksHost id e = false)
    (ht : ∀ t id, q.threads t = some ⟨.drain, .ret (.start id)⟩ →
      p.threads t = some ⟨.drain, .ret (.start id)⟩) : Abides env q := by
  have old {id : Nat} (hst : ∃ u, cancelled u id q.trace = true) :
      ∃ u, cancelled u id p.trace = true := by
    obtain ⟨u, hu⟩ := hst
    rw [hq] at hu
    exact ⟨u, by simpa [cancelled, hr, hc] using hu⟩
  refine ⟨hs, ha, fun id hst => ?_, fun t id hth => ?_, ?_⟩
  · have := h.rows id (old hst)
    simpa only [Cancelled, Gone, hd] using this
  · obtain ⟨known, hw⟩ := h.starting t id (ht t id hth)
    refine ⟨by rwa [hd], fun hst => ?_⟩
    simpa only [Withdrawn, Flagged, Gone, hd] using hw (old hst)
  · rw [hq]
    exact h.silenced.cons fun id hask => by rw [hh] at hask; cases hask

theorem Abides.ended (h : Abides env p) {a : Result} (ht : p.threads t = some ⟨k, .ret a⟩) :
    Abides env (p.didEnd t k a ((system env).finish p.state k a).1 ((system env).finish p.state k a).2) := by
  refine h.other (e := .ended t k a p.state ((system env).finish p.state k a).1) (h.slots.finish ht)
    (h.activations.finish h.slots ht) (Pool.didEnd_trace ..) (by rw [Pool.didEnd_state]; rfl)
    (fun _ => rfl) (fun _ _ => rfl) (fun _ => rfl) fun u id hu => ?_
  rcases left_or_new h.slots ht hu with ⟨-, hu⟩ | ⟨-, hu⟩
  · exact hu
  · have hb := (system_begins env).finish _ _ _ _ (List.mem_of_getElem? hu)
    cases hb

theorem Abides.outer (h : Abides env p) {x : Arrival} {s : State} {dies : Bool}
    {ths : List DownloadThread} (he : (system env).external p.state x = some (s, dies, ths)) :
    Abides env (p.didOuter x s dies ths) := by
  refine h.other (e := .outer x p.state s) (h.slots.external he) (h.activations.external h.slots he)
    (Pool.didOuter_trace ..) (by rw [Pool.didOuter_state]; exact (arrive_keeps he).1) (fun _ => rfl)
    (fun _ _ => rfl) (fun _ => rfl) fun u id hu => ?_
  rw [Pool.didOuter_threads h.slots.fresh] at hu
  split at hu
  · split at hu
    · cases hu
    · exact hu
  · have hb := (system_begins env).external he _ (List.mem_of_getElem? hu)
    cases hb

theorem withdrawn_of_eq {s s' : State} {id : Nat} (h : s'.downloads = s.downloads)
    (hw : Withdrawn s id) : Withdrawn s' id := by
  simpa only [Withdrawn, Flagged, Gone, h] using hw

/-- What comes from outside leaves the aborts alone, as long as anything runs. -/
theorem arrive_aborted {s s' : State} {x : Arrival} {dies : Bool} {ths : List DownloadThread}
    (h : arrive env s x = some (s', dies, ths)) (hd : dies = false) (hp : s.memory.phase ≠ .down) {n : Nat}
    (hn : s.memory.aborted n = true) : s'.memory.aborted n = true := by
  have fold (l : List Nat) (m : Memory) (hm : m.aborted n = true) :
      (l.foldl Memory.abort m).aborted n = true := by
    induction l generalizing m with
    | nil => exact hm
    | cons i l ih =>
      refine ih (m.abort i) ?_
      simp only [Memory.abort, Function.update_apply]
      split <;> first | rfl | exact hm
  cases arrives h
  · exact hn
  · exact fold _ _ hn
  · cases hd
  · exact absurd ‹_› hp

theorem obedience_keeps (hc : env.concurrency = 1) :
    obedience.Keeps (system env) (fun _ _ => True) (Abides env) where
  may _ _ _ he := ⟨_, (system_exec he).2.1⟩
  exec {p t k o rest c r s ths} hI _ ht he hg := by
    have hcall := (system_exec he).2.1
    refine ⟨hI.call hc ht he fun id hask u => ?_, fun t' th hne hth id c' hk => ⟨call_leaves hcall c', ?_⟩,
      fun th hth _ _ => ?_⟩
    · unfold asksHost at hask
      split at hask
      · rename_i heq
        cases heq
        simp only [Bool.and_eq_true, decide_eq_true_eq, Bool.not_eq_true'] at hask
        obtain ⟨rfl, hlive⟩ := hask
        exact hg _ _ rfl _ _ _ rfl hlive u
      · cases hask
    · intro hq hw
      refine hw.call hcall hq ?_
      rintro status error rfl
      obtain ⟨-, c'', rfl⟩ := (hI.slots.uses t _ ht).1
      exact hne (hI.activations.once t' t id c' c'' (hk ▸ kindAt_of hth) (kindAt_of ht))
    · obtain ⟨-, -, rfl⟩ := system_exec he
      obtain ⟨ticket, hk, hb⟩ := reported_begins env hth
      exact obedience_safe env hb fun id c' e => by rw [hk] at e; cases e
  finish {p t k a} hI _ ht _ := by
    have hI' := hI.ended ht
    refine ⟨hI', fun t' th hne hth id c' hk => ⟨⟨Nat.le_refl _, fun h => h, nofun, fun ha => ?_, fun u ha => ?_⟩,
      fun _ h => h⟩, fun th hth u _ => ?_⟩
    · have hk' : p.kindAt t' = some (.worker id c') := hk ▸ kindAt_of hth
      refine after_aborted env p.state.memory ?_ ha
      rintro rfl
      have := (hI.slots.slots.boot t' _ hk').mpr ((hI.slots.slots.boot t _ (kindAt_of ht)).mp rfl)
      cases this
    · exact acknowledged_aborted ha (hI.activations.handle t' id c' (hk ▸ kindAt_of hth))
    · refine obedience_safe env ((system_begins env).finish _ _ _ th hth) fun id c' hk => ?_
      obtain ⟨rfl, rfl⟩ := started_worker hth hk
      obtain ⟨known, hw⟩ := hI.starting t id ht
      refine ⟨known, fun _ ⟨u, hu⟩ => ?_, nofun, nofun⟩
      have hu : cancelled u id p.trace = true := by simpa [cancelled, requeues, cancels] using hu
      exact withdrawn_of_eq rfl (hw ⟨u, hu⟩)
  external {p x s dies ths} hI _ he := by
    have hrows := (arrive_keeps he).1
    refine ⟨hI.outer he, fun t' th hd hth id c' hk => ⟨⟨?_, ?_, nofun, fun ha => ?_, nofun⟩,
      fun _ h => withdrawn_of_eq hrows h⟩, fun th hth _ _ =>
        obedience_safe env ((system_begins env).external he th hth) fun id c' hk => ?_⟩
    · exact Nat.le_of_eq (congrArg Table.next hrows).symm
    · exact fun h => by simpa only [Gone, Event.after, Event.before, hrows] using h
    · exact arrive_aborted he hd (hI.slots.slots.down t' _ (kindAt_of hth)) ha
    · obtain ⟨r, rfl⟩ | rfl := (arrives he).spawned hth <;> cases hk

end

/-- With a concurrency of one, no request goes out for a download after its cancel has succeeded,
as long as no retry has committed since the cancel was written. -/
theorem cancel_holds (env : Env) (hc : env.concurrency = 1) {s : State} (hs : s.Down) {p : DownloadPool}
    (hr : (system env).Runs (fun _ _ => True) (.initial s) p) : Silenced standing p.trace :=
  ((obedience_keeps hc).keeps.safe (.initial env hs) (Discipline.allSafe_initial _ s) hr).1.silenced

/-- The newest event is a request that goes out although its download is cancelled. -/
def asksNow (φ : Nat → Nat → List DownloadEvent → Bool) (t id : Nat) : List DownloadEvent → Bool
  | e :: old => asksHost id e && φ t id old
  | [] => false

theorem asksNow_not {φ : Nat → Nat → List DownloadEvent → Bool} {t id : Nat} {trace : List DownloadEvent}
    (h : asksNow φ t id trace = true) : ¬ Silenced φ trace := by
  intro hs
  cases trace with
  | nil => cases h
  | cons e old =>
    simp only [asksNow, Bool.and_eq_true] at h
    rw [hs [] e old id rfl h.1 t] at h
    cases h.2

/-- A retry commits after the cancel has been written and before it succeeds. -/
theorem cancel_overtaken : ¬ ∀ (env : Env) (s : State) (p : DownloadPool), env.concurrency = 1 → s.Down →
    (system env).Runs (fun _ _ => True) (.initial s) p → Silenced acknowledged p.trace := by
  intro h
  have hrun : ((system (.small 1)).replay (fun _ _ => true) (.initial oneJob)
      (.external .boot :: calls 0 2 ++ [.finish 0, .external (.request (.cancel 0))] ++ calls 2 2 ++
        [.external (.request (.retry 0))] ++ calls 3 2 ++ calls 2 4 ++ [.finish 2] ++ calls 1 2 ++
        [.finish 1] ++ calls 4 11)).any (fun p => asksNow acknowledged 2 0 p.trace) = true := by decide
  obtain ⟨p, hp, hn⟩ := Option.any_eq_true _ _ |>.mp hrun
  exact asksNow_not hn (h (.small 1) oneJob p rfl oneJob_down
    ((system (.small 1)).replay_runs (fun _ _ _ => trivial) hp))

/-- The newest event is a request for a file that is held back. -/
def heldBack : List DownloadEvent → Bool
  | .did _ (.worker _ _) (.request _ _ c) (.error _) s _ :: _ => s.memory.aborted c
  | _ => false

/-- The cancel succeeds just before the worker asks for its file. -/
theorem cancel_holds_aborted : ∃ p, (system (.small 1)).Runs (fun _ _ => True) (.initial oneJob) p ∧
    standing 3 0 p.trace = true ∧ heldBack p.trace = true ∧ Silenced standing p.trace := by
  have hrun : ((system (.small 1)).replay (fun _ _ => true) (.initial oneJob)
      (bootUp ++ calls 2 10 ++ [.external (.request (.cancel 0))] ++ calls 3 5 ++ [.finish 3] ++
        calls 2 1)).any (fun p => standing 3 0 p.trace && heldBack p.trace) = true := by decide
  obtain ⟨p, hp, hn⟩ := Option.any_eq_true _ _ |>.mp hrun
  obtain ⟨hst, hheld⟩ := Bool.and_eq_true_iff.mp hn
  have hr := (system (.small 1)).replay_runs (C := fun _ _ => True) (fun _ _ _ => trivial) hp
  exact ⟨p, hr, hst, hheld, cancel_holds (.small 1) rfl oneJob_down hr⟩

end CircleFtp.Downloads
