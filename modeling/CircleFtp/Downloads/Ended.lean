import CircleFtp.Downloads.Rest

/-! Every download ends: where no database call fails and every wake is heard, the process comes to
rest with no download queued or running. -/
namespace CircleFtp.Downloads
open Concurrent Strings

/-- No database call fails and no wake comes while a drain has an empty read in hand. -/
def Untroubled (p : DownloadPool) (l : DownloadLabel) : Prop := DatabaseUp p l ∧ WakeHeard p l

/-- Since thread `t` began, the download has not been claimed without coming to an end. -/
def Over (t id : Nat) : DownloadWorld → Prop :=
  History.Guarded (¬ Claims id ·) (fun v => ¬ Running v.state id) t

/-- A worker leaves its job ended, unless that has been claimed again; a boot leaves none running. -/
def endings : Ledger State Task Op Reply Arrival Result where
  admits _ k _ _ := k ≠ .boot
  may _ _ w o r s := ∃ c, DatabaseAnswers o c ∧ call w.state o c = (r, s)
  guar _ _ _ _ _ _ := True
  post t k a w :=
    match k with
    | .worker id _ => Over t id w
    | .boot => a = .ended (.ok ()) → ∀ id, ¬ Running w.state id
    | _ => True

abbrev endContract (t : Nat) (k : Task) : Contract DownloadWorld Op Reply :=
  endings.discipline.contract t k

def Stage.Over (t id : Nat) : Stage → DownloadWorld → Prop
  | .written | .ended => Downloads.Over t id
  | _ => fun _ => True

section
variable {env : Env} {s s' : State} {t id : Nat} {k : Task} {o : Op} {c : Choice} {r : Reply o}
  {w w' : DownloadWorld}

/-- Only a claim makes a download running. -/
theorem Running.before (h : Running s' id) (hc : Downloads.call s o c = (r, s')) (hm : o.MadeBy k) :
    Running s id ∨ o = .claim id ∧ ∃ n, n ≠ 0 ∧ HEq r (Except.ok n : Reply (.claim id)) := by
  obtain ⟨d', hd', hst⟩ := h
  cases hd : s.downloads.rows id with
  | none =>
    obtain ⟨rfl, -⟩ := call_new_row hc hd hd'
    obtain ⟨-, plan, hp⟩ := hm
    rw [hp] at hst
    cases hst
  | some d =>
    rcases call_row hc hd with hsame | ⟨⟨a, rfl⟩, hrow⟩
    · rw [hd'] at hsame
      cases hsame
      exact .inl ⟨_, hd, hst⟩
    rw [hd'] at hrow
    have same (h : d.status = Status.RUNNING) : Running s id ∨
        o = .claim id ∧ ∃ n, n ≠ 0 ∧ HEq (Except.ok a : Reply o) (Except.ok n : Reply (.claim id)) :=
      .inl ⟨d, hd, h⟩
    cases hrow with
    | update change =>
      cases change with
      | finish status error =>
        obtain rfl : status = .RUNNING := hst
        cases hm.1
      | totals => exact same hst
      | requestCancel => exact same hst
      | failed => cases hst
      | cancelQueued => cases hst
    | file => exact same hst
    | cancelFiles => exact same hst
    | resetFiles => exact same hst
    | requeue => cases hst
    | requeueRunning => cases hst
    | claim hq =>
      refine .inr ⟨rfl, a, ?_, HEq.rfl⟩
      have hp := call_ok hc
      simp only [perform, Prod.mk.injEq, Except.ok.injEq] at hp
      rw [← hp.1]
      exact Table.count_ne_zero.mpr ⟨id, d, hd, by simp [hq]⟩

/-- While a boot is under way there is no other task. -/
theorem SlotsKept.boot_alone {p : DownloadPool} (h : SlotsKept env p) {u : Nat} (hu : p.kindAt u = some .boot)
    (ht : p.kindAt t = some k) : t = u := by
  obtain rfl := (h.slots.boot t k ht).mpr ((h.slots.boot u _ hu).mp rfl)
  exact h.slots.bootOnce t u ht hu

theorem Over.stable : (endContract t k).Stable (Over t id) := fun _ _ hr h => by
  refine History.Guarded.stable (fun v e hv hb he => ?_) h hr
  intro hrun
  exact he ⟨hb ▸ hv, hrun⟩

theorem Stage.over_stable (s : Stage) : (endContract t k).Stable (s.Over t id) := by
  cases s <;> first | exact Downloads.Over.stable | exact fun _ _ _ _ => trivial

/-- A call of the thread itself that claims nothing. -/
theorem Over.act (h : Over t id w) (ha : (endContract t k).act w o r w') (hm : o.MadeBy k)
    (ho : o ≠ .claim id) : Over t id w' := by
  obtain ⟨hw, ch, -, hc⟩ := ha
  exact History.Guarded.act h hw fun hn hrun => (hrun.before hc hm).elim hn fun hcl => ho hcl.1

/-- A call after which the download is not running. -/
theorem Over.found (ha : (endContract t k).act w o r w') (h : ¬ Running w'.state id) : Over t id w' :=
  History.Guarded.read ha.1 h

theorem not_running_of (h : ∀ d, s.downloads.rows id = some d → d.status ≠ .RUNNING) : ¬ Running s id := by
  rintro ⟨d, hd, hst⟩
  exact h d hd hst

/-- A write to the row that gives it an end, or does not find it. -/
theorem update_over {change : DownloadChange} (hch : ∀ d, (change.apply d).status ≠ .RUNNING)
    {r : Reply (.updateDownload id change)}
    (ha : (endContract t k).act w (.updateDownload id change) r w') : Over t id w' := by
  refine Over.found ha (not_running_of fun d hd => ?_)
  obtain ⟨-, ch, hf, hc⟩ := ha
  rcases r with e | a
  · rw [hf.performed rfl] at hc
    simp only [perform, State.updateRow] at hc
    split at hc
    · rename_i hnone
      rw [← (Prod.mk.inj hc).2, hnone] at hd
      cases hd
    · cases hc
  · obtain ⟨d₀, -, hrow⟩ := call_updateDownload hc
    rw [hd] at hrow
    cases hrow
    exact hch d₀

theorem endings_outline (env : Env) (id c : Nat) :
    Outline (endContract t (.worker id c)) env id c (Stage.Over t id) where
  stable s := s.over_stable
  silent {s s' w} h hw := by cases h <;> exact hw
  guar _ _ _ := trivial
  ok {s o v s' w w'} h hw ha := by
    cases h with
    | missing =>
      refine Over.found ha (not_running_of fun d hd => ?_)
      obtain ⟨-, ch, -, hc⟩ := ha
      obtain ⟨hrow, hs⟩ := call_find hc
      rw [hs, hrow] at hd
      cases hd
    | look s row hs =>
      cases s <;> first | exact trivial | cases hs; done | exact Over.act hw ha trivial nofun
    | tell s event hs =>
      cases s <;> first | exact trivial | cases hs; done | exact Over.act hw ha trivial nofun
    | finish b files =>
      refine update_over (fun d hst => ?_) ha
      have hover := jobOutcome_over b files
      rw [show (jobOutcome b files).1 = .RUNNING from hst] at hover
      cases hover
    | announce path => exact Over.act hw ha trivial nofun
    | fail message => exact update_over (fun d hst => by cases hst) ha
    | _ => exact trivial
  error {s o v s' w e w'} h hw ha := by
    cases h with
    | look s row hs =>
      cases s <;> first | exact trivial | cases hs; done | exact Over.act hw ha trivial nofun
    | tell s event hs =>
      cases s <;> first | exact trivial | cases hs; done | exact Over.act hw ha trivial nofun
    | fail message => exact update_over (fun d hst => by cases hst) ha
    | _ => exact trivial
  fetch x destination probed := by
    refine Spot.fetch_does (Stage.over_stable _) (fun o ho => ⟨fun _ _ _ _ _ => trivial,
      fun _ _ _ _ _ => trivial, fun _ _ _ _ _ => trivial⟩) (fun _ _ _ => trivial) fun _ _ _ => trivial

/-- A boot that goes through leaves no download running: nothing else is under way. -/
theorem boot_over : recoverFromCrash.program.Safe (endContract t .boot) (endings.post t .boot) w := by
  let idle : DownloadWorld → Prop := fun v => ∀ id, ¬ Running v.state id
  have alone (P : DownloadWorld → Prop) : (endContract t .boot).Stable P := fun _ _ hr h =>
    History.rely_induct (φ := P) (fun _ _ _ _ _ hne => absurd rfl hne) hr h
  have requeue : (endContract t .boot).Calls (fun _ => True) .requeueRunning fun _ => idle := by
    refine ⟨fun _ _ _ _ _ => trivial, fun v a v' _ ha id => not_running_of fun d hd => ?_, fun _ _ _ h _ => h⟩
    obtain ⟨-, ch, hf, hc⟩ := ha
    rw [hf.performed rfl] at hc
    rw [← (Prod.mk.inj hc).2] at hd
    obtain ⟨d₀, -, hrow⟩ := Table.mapMany_rows.mp hd
    cases hrow
    simp only
    split
    · simp
    · assumption
  have reset : (endContract t .boot).Calls idle .resetRunningFiles fun _ => idle := by
    refine ⟨fun _ _ _ _ _ => trivial, fun v a v' h ha id hrun => ?_, fun v e v' h ha id hrun => ?_⟩ <;>
    · obtain ⟨-, ch, -, hc⟩ := ha
      rcases hrun.before hc (k := .boot) rfl with hold | ⟨ho, -⟩
      · exact h id hold
      · cases ho
  have done : (endContract t .boot).Does (fun _ => True) recoverFromCrash (fun _ => idle) fun _ _ => True :=
    .step (alone _) (fun _ => alone _) (fun _ => alone _) requeue (fun _ _ h => h) fun _ =>
      (Contract.Does.call (alone _) (fun _ => alone _) reset).conseq (fun _ h => h) (fun _ _ h => h)
        fun _ _ _ => trivial
  refine .bind ((done w trivial).mono ?_)
  rintro (e | _) v hv u hu
  · exact fun ha => by cases ha
  · exact fun _ => alone idle v u hu hv

theorem ending_safe {th : DownloadThread} (h : Begins env th) : endings.discipline.SafeThread t th w := by
  have other (hk : ∀ a v, endings.post t th.kind a v) : endings.discipline.SafeThread t th w :=
    (Program.Safe.of_uses (fun _ _ _ _ _ _ => trivial) h.uses).mono fun a v _ => hk a v
  cases h with
  | boot => exact boot_over
  | worker id c => exact (endings_outline env id c).program_safe trivial
  | _ => exact other fun _ _ => trivial

end

theorem endings_keeps (env : Env) : endings.Keeps (system env) DatabaseUp (SlotsKept env) where
  may _ hok ht he := ⟨_, hok _ _ _ ht, (system_exec he).2.1⟩
  exec {p t k o rest c r s ths} h _ ht he _ := by
    refine ⟨h.exec ht he, fun u th hne hu hk => ?_, fun th hth _ _ => ending_safe ((system_begins env).exec he th hth)⟩
    exact hne (h.boot_alone (hk ▸ kindAt_of hu) (kindAt_of ht)).symm
  finish {p t k a} h _ ht _ := by
    refine ⟨h.finish ht, fun u th hne hu hk => ?_,
      fun th hth _ _ => ending_safe ((system_begins env).finish _ _ _ th hth)⟩
    exact hne (h.boot_alone (hk ▸ kindAt_of hu) (kindAt_of ht)).symm
  external {p x s dies ths} h _ he := by
    refine ⟨h.step (l := .external x) (by simp [System.step, he]), fun u th hd hu hk => ?_,
      fun th hth _ _ => ending_safe ((system_begins env).external he th hth)⟩
    have hbooting := (h.slots.boot u _ (kindAt_of hu)).mp hk
    cases arrives he with
    | request request hp => exact absurd (hp.symm.trans hbooting) (by simp)
    | shutdown hp => exact absurd (hp.symm.trans hbooting) (by simp)
    | crash hp => cases hd
    | boot hp => exact absurd (hp.symm.trans hbooting) (by simp)

/-- Thread `t` will end the download: it has claimed it, or it is the worker of the last claim. -/
inductive Attends (p : DownloadPool) (id t : Nat) : Prop where
  | holds (h : Holds id p t)
  | works (c : Nat) (h : p.kindAt t = some (.worker id c))
      (hs : History.Since (¬ Claims id ·) p.trace t)

/-- What every state of an untroubled run satisfies. -/
structure Attended (env : Env) (p : DownloadPool) : Prop where
  slots : SlotsKept env p
  recorded : p.Recorded
  drains : p.Each DrainShaped
  attended : p.state.memory.phase = .up → ∀ id, Running p.state id → ∃ t, Attends p id t

section
variable {env : Env} {p p' : DownloadPool} {t : Nat} {k : Task}

/-- A task that goes on attends to the download, unless that is claimed now. -/
theorem Attends.stays {id u : Nat} (h : Attends p id u) {e : DownloadEvent} (htrace : p'.trace = e :: p.trace)
    (he : ¬ Claims id e) (hh : Holds id p u → Holds id p' u)
    (hk : ∀ c, p.kindAt u = some (.worker id c) → p'.kindAt u = some (.worker id c)) : Attends p' id u := by
  cases h with
  | holds h => exact .holds (hh h)
  | works c h hs => exact .works c (hk c h) (htrace ▸ hs.cons (.inr he))

theorem Attended.exec (h : Attended env p) {o : Op} {rest : Reply o → Program Op Reply Result}
    (ht : p.threads t = some ⟨k, .call o rest⟩) {c : Choice} {r : Reply o} {s : State}
    {ths : List DownloadThread} (he : (system env).exec p.state k o c = some (r, s, ths)) (id : Nat)
    (hrun : Running s id) : (Running p.state id → ∃ u, Attends p id u) →
      ∃ u, Attends (p.didCall t k o rest r s ths) id u := by
  intro hatt
  obtain ⟨-, hc, rfl⟩ := system_exec he
  have hf := h.slots.fresh
  rcases hrun.before hc (h.slots.uses t _ ht).1 with hold | ⟨rfl, n, hn, hr⟩
  · obtain ⟨u, hu⟩ := hatt hold
    refine ⟨u, hu.stays (Pool.didCall_trace ..) (fun hcl => hcl.1 hold)
      (fun hh => (didCall_holds hf ht id u).mpr (.inr hh)) fun c' hk => ?_⟩
    rw [Pool.didCall_kindAt hf ht, if_pos (Pool.kindAt_lt hf hk)]
    exact hk
  · cases hr
    obtain rfl : k = .drain := (h.slots.uses t _ ht).1
    exact ⟨t, .holds ((didCall_holds hf ht id t).mpr (.inl ⟨rfl, rfl, (h.drains t _ ht rfl).claim_next hn⟩))⟩

theorem Attended.finish (h : Attended env p) {a : Result} (ht : p.threads t = some ⟨k, .ret a⟩)
    (hpost : endings.post t k a p.toWorld)
    (hup : ((system env).finish p.state k a).1.memory.phase = .up) (id : Nat) (hrun : Running p.state id) :
    ∃ u, Attends (p.didEnd t k a ((system env).finish p.state k a).1
      ((system env).finish p.state k a).2) id u := by
  have hf := h.slots.fresh
  by_cases hboot : k = .boot
  · -- a boot that goes through leaves none running, and any other leaves the server down
    subst hboot
    rcases a with (e | ⟨⟩) | _ | _ | _
    case ended.ok => exact absurd hrun (hpost rfl id)
    all_goals cases hup
  obtain ⟨u, hu⟩ := h.attended (h.slots.phase (kindAt_of ht) hboot) id hrun
  by_cases hut : u = t
  · subst hut
    cases hu with
    | holds hh =>
      rw [Holds, ht] at hh
      cases hh
      -- the drain hands the download over to a new worker
      have hths : ((system env).finish p.state .drain (.start id)).2 =
          (p.state.memory.start env id).2 :: ((p.state.memory.start env id).1.loop env).2 := rfl
      refine ⟨p.next, .works p.state.memory.controllers ?_ ?_⟩
      · rw [Pool.didEnd_kindAt hf ht, if_neg (Nat.lt_irrefl _), hths]
        simp [Memory.start]
      · refine History.Since.unbegun fun e he hb => ?_
        rw [Pool.didEnd_trace] at he
        rcases List.mem_cons.mp he with rfl | he
        · obtain rfl : u = p.next := hb
          exact absurd (hf.lt ht) (Nat.lt_irrefl _)
        · exact absurd (h.recorded e he p.next hb) (Nat.lt_irrefl _)
    | works c hk hs =>
      rw [kindAt_of ht] at hk
      cases hk
      exact absurd hrun (hpost.2 hs)
  · refine ⟨u, hu.stays (Pool.didEnd_trace ..) (fun hcl => hcl.1 hrun)
      (fun hh => (didEnd_holds hf ht id u).mpr ⟨hut, hh⟩) fun c' hk => ?_⟩
    rw [Pool.didEnd_kindAt hf ht, if_pos (Pool.kindAt_lt hf hk), if_neg hut]
    exact hk

theorem Attended.external (h : Attended env p) {x : Arrival} {s : State} {dies : Bool}
    {ths : List DownloadThread} (he : (system env).external p.state x = some (s, dies, ths))
    (hup : s.memory.phase = .up) (id : Nat) (hrun : Running s id) :
    ∃ u, Attends (p.didOuter x s dies ths) id u := by
  have hf := h.slots.fresh
  have hold : Running p.state id := by
    rwa [Running, (arrive_keeps he).1] at hrun
  have going (hd : dies = false) (hphase : p.state.memory.phase = .up) :
      ∃ u, Attends (p.didOuter x s dies ths) id u := by
    subst hd
    obtain ⟨u, hu⟩ := h.attended hphase id hold
    refine ⟨u, hu.stays (Pool.didOuter_trace ..) (fun hcl => hcl.1 hold)
      (fun hh => (didOuter_holds hf he id u).mpr ⟨rfl, hh⟩) fun c' hk => ?_⟩
    rw [Pool.didOuter_kindAt hf, if_pos (Pool.kindAt_lt hf hk)]
    exact hk
  cases arrives he with
  | request request hp => exact going rfl hp
  | shutdown hp => exact going rfl hp
  | crash hp => cases hup
  | boot hp => cases hup

theorem Attended.step (h : Attended env p) (hs : endings.discipline.AllSafe p) {l : DownloadLabel}
    (hst : (system env).step p l = some p') : Attended env p' := by
  have hslots := h.slots.step hst
  have hrec := h.recorded.step h.slots.fresh hst
  have hdrains : p'.Each DrainShaped := h.drains.step (system_drains env)
    (fun _ _ _ r hφ hk => ((hφ hk).call r).1) hst
  refine ⟨hslots, hrec, hdrains, ?_⟩
  rcases (system env).step_cases hst with
    ⟨t, k, o, rest, c, r, s, ths, -, ht, he, rfl⟩ | ⟨t, k, a, -, ht, rfl⟩ |
    ⟨x, s, dies, ths, -, he, rfl⟩
  · rw [Pool.didCall_state]
    intro hup id hrun
    refine h.exec ht he id hrun (h.attended ?_ id)
    have same := (call_same p.state o c).phase
    rw [(system_exec he).2.1] at same
    exact same.symm.trans hup
  · rw [Pool.didEnd_state]
    intro hup id hrun
    refine h.finish ht (hs t _ ht p.toWorld .refl) hup id ?_
    exact hrun
  · rw [Pool.didOuter_state]
    exact fun hup id hrun => h.external he hup id hrun

theorem Attended.initial (env : Env) {s : State} (hs : s.Down) : Attended env (.initial s) where
  slots := .initial env hs
  recorded := .initial s
  drains t th h := by cases h
  attended hup := by
    have hm : (Pool.initial s : DownloadPool).state.memory = {} := hs
    rw [hm] at hup
    cases hup

end

theorem Untroubled.watch (env : Env) (hc : 1 ≤ env.concurrency) {s : State} (hs : s.Down) {p : DownloadPool}
    (hr : (system env).Runs Untroubled (.initial s) p) : Watch p := by
  have hk := (wakers_keeps env).keeps
  have start : Watch (.initial s) := by
    have hm : (Pool.initial s : DownloadPool).state.memory = {} := hs
    refine ⟨nofun, ?_, ?_, ?_⟩ <;> rw [hm] <;> exact nofun
  refine ((system env).invariant (I := fun q => ((SlotsKept env q ∧ q.Recorded) ∧
    wakers.discipline.AllSafe q) ∧ Shaped env q ∧ Watch q) (fun q l q' h hl hst => ?_)
    ⟨⟨⟨.initial env hs, .initial s⟩, Discipline.allSafe_initial _ s⟩,
      ⟨.initial env hs, fun t th ht => by cases ht⟩, start⟩ hr).2.2
  obtain ⟨hsafe, hshaped, hwatch⟩ := h
  refine ⟨hk.step hsafe hl.1 hst, hshaped.step hst, ?_⟩
  rcases (system env).step_cases hst with
    ⟨t, k, o, rest, c, r, s, ths, rfl, ht, he, rfl⟩ | ⟨t, k, a, rfl, ht, rfl⟩ |
    ⟨x, s, dies, ths, rfl, he, rfl⟩
  · exact hwatch.exec hshaped.slots hshaped.drains ht (hl.1 _ _ _ ht) he
  · refine hwatch.finish hshaped.slots hc ht (hsafe.2 t _ ht q.toWorld .refl) fun hw => ?_
    rintro ⟨u, hu⟩
    exact hl.2 k a ht hw u hu
  · exact hwatch.external hshaped.slots he

theorem Untroubled.attended (env : Env) {s : State} (hs : s.Down) {p : DownloadPool}
    (hr : (system env).Runs Untroubled (.initial s) p) : Attended env p := by
  have hk := (endings_keeps env).keeps
  refine ((system env).invariant (I := fun q => (SlotsKept env q ∧ endings.discipline.AllSafe q) ∧ Attended env q)
    (fun q l q' h hl hst => ⟨hk.step h.1 hl.1 hst, h.2.step h.1.2 hst⟩)
    ⟨⟨.initial env hs, Discipline.allSafe_initial _ s⟩, .initial env hs⟩ hr).2

/-- A step that some thread can take without trouble: a wake waits until a drain that has read that
nothing is queued is over. -/
theorem Moves.untroubled {env : Env} {p : DownloadPool} {u : Nat} (h : Moves env p u) :
    ∃ l p', l.Inner ∧ Untroubled p l ∧ (system env).step p l = some p' := by
  rcases h with h | h
  · obtain ⟨p', hst⟩ := Option.isSome_iff_exists.mp h
    by_cases hw : WakeHeard p (.finish u)
    · exact ⟨.finish u, p', trivial, ⟨trivial, hw⟩, hst⟩
    · simp only [WakeHeard, not_forall, not_not] at hw
      obtain ⟨k, a, hk, hwakes, v, hv⟩ := hw
      refine ⟨.finish v, _, trivial, ⟨trivial, fun k' a' hv' hw' => ?_⟩,
        (by simp only [System.step, hv]; rfl)⟩
      rw [hv] at hv'
      cases hv'
      cases hw'
  · obtain ⟨p', hst⟩ := Option.isSome_iff_exists.mp (h {})
    exact ⟨.exec u {}, p', trivial, ⟨fun _ _ _ _ _ => rfl, trivial⟩, hst⟩

/-- Every download that is accepted ends. From every state of a run in which no database call fails and
every wake is heard, and without new arrivals, each such run goes on to a state in which no task is left
and, unless the server is down or shutting down, no download is queued or running. -/
theorem every_download_ends (env : Env) (hc : 1 ≤ env.concurrency) {s : State} (hs : s.Down) {p : DownloadPool}
    (hr : (system env).Runs Untroubled (.initial s) p) :
    (system env).Ends (fun q l => l.Inner ∧ Untroubled q l) p ∧
    ∀ q, (system env).Runs (fun q l => l.Inner ∧ Untroubled q l) p q →
      (system env).Still (fun q l => l.Inner ∧ Untroubled q l) q →
      (∀ t, q.threads t = none) ∧
      (q.state.memory.phase = .up → q.state.memory.stopped = false →
        ∀ id d, q.state.downloads.rows id = some d → d.status.active = false) := by
  have shaped : Shaped env p := (system env).invariant (fun _ _ _ h _ hst => h.step hst)
    ⟨.initial env hs, fun t th ht => by cases ht⟩ hr
  refine ⟨shaped.ends.mono _ fun _ _ h => h.1, fun q hq still => ?_⟩
  have hrun : (system env).Runs Untroubled (.initial s) q := hr.trans (hq.mono _ fun _ _ h => h.2)
  have none_left (t : Nat) : q.threads t = none := by
    cases ht : q.threads t with
    | none => rfl
    | some th =>
      obtain ⟨hI, hA⟩ := (waits_keeps env).keeps.safe (.initial env hs) (waits.discipline.allSafe_initial s)
        (hrun.mono _ fun _ _ _ => trivial)
      obtain ⟨u, hu⟩ := hI.moves hA ht
      obtain ⟨l, q', hl, hun, hst⟩ := hu.untroubled
      exact absurd ⟨l, ⟨hl, hun⟩, hst⟩ (still q')
  refine ⟨none_left, fun hup hon id d hd => ?_⟩
  have gone {t : Nat} {k : Task} (ht : q.kindAt t = some k) : False := by
    simp [Pool.kindAt, none_left t] at ht
  cases hst : d.status with
  | QUEUED =>
    cases (Untroubled.watch env hc hs hrun).watched hup hon id d hd hst with
    | drain t prog ht => exact (gone (kindAt_of ht)).elim
    | request t r ht => exact (gone ht).elim
    | wake t k ht => exact (gone ht).elim
  | RUNNING =>
    obtain ⟨t, ht⟩ := (Untroubled.attended env hs hrun).attended hup id ⟨d, hd, hst⟩
    cases ht with
    | holds h => exact (gone (kindAt_of h)).elim
    | works c h => exact (gone h).elim
  | _ => rfl

/-- A job is created, and from there on the run ends with the job over. -/
theorem every_download_ends_created : ∃ p q, (system (.small 1)).Runs Untroubled (.initial noJobs) p ∧
    (p.state.downloads.rows 0).any (·.status = .QUEUED) ∧
    (system (.small 1)).Runs (fun q l => l.Inner ∧ Untroubled q l) p q ∧ ∀ t, q.threads t = none := by
  have hrun : ((system (.small 1)).replay (fun p l => databaseUp p l && wakeHeard p l) (.initial noJobs)
      (.external .boot :: calls 0 2 ++ [.finish 0] ++ calls 1 1 ++ createOne 2)).any (fun p =>
      (p.state.downloads.rows 0).any (·.status = .QUEUED)) = true := by decide
  obtain ⟨p, hp, hq⟩ := Option.any_eq_true _ _ |>.mp hrun
  have hr := wakeHeard_runs noJobs_down hp
  obtain ⟨hends, hall⟩ := every_download_ends (.small 1) (by decide) noJobs_down hr
  obtain ⟨q, hrest, hstill⟩ := hends.still
  exact ⟨p, q, hr, hq, hrest, (hall q hrest hstill).1⟩

end CircleFtp.Downloads
