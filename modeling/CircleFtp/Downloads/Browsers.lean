import CircleFtp.Downloads.Announced

/-! The lists that the browsers show: each connection reads the rows, sends them as a snapshot and
subscribes, and from then on every event that is published is appended to what it has in flight. -/
namespace CircleFtp.Downloads
open Concurrent Strings

/-- A connection has read the list and not sent it, or it is subscribed, with what is on its way
to the browser and what the browser has. -/
inductive Connection where
  | reading (list : List Entry)
  | subscribed (sent : List Frame) (downloads : List Entry)

/-- What the browser has once everything sent has arrived. -/
def Connection.final : Connection → List Entry
  | .reading list => list
  | .subscribed sent downloads => sent.foldl applyEvent downloads

def Connection.hear (e : ServerEvent) : Connection → Connection
  | .reading list => .reading list
  | .subscribed sent downloads => .subscribed (sent ++ [.event e]) downloads

/-- The process and its connections. -/
structure Live where
  pool : DownloadPool
  connections : Table Connection

inductive LiveLabel where
  | server (l : DownloadLabel)
  | connect (order : Entry → Entry → Bool)
  | subscribe (n : Nat)
  | deliver (n : Nat)
  | close (n : Nat)

namespace Live

def initial (s : State) : Live := ⟨.initial s, .empty⟩

def published (p : DownloadPool) : DownloadLabel → Option ServerEvent
  | .exec t _ =>
    match p.threads t with
    | some ⟨_, .call (.publish e) _⟩ => some e
    | _ => none
  | _ => none

/-- What a step of the process does to a connection; with the process all of them end. -/
def hears (p : DownloadPool) (l : DownloadLabel) (c : Connection) : Option Connection :=
  match l with
  | .external .crash => none
  | l => some ((published p l).elim c c.hear)

def step (env : Env) (v : Live) : LiveLabel → Option Live
  | .server l => ((system env).step v.pool l).map fun p =>
      ⟨p, v.connections.mapMany fun _ c => hears v.pool l c⟩
  | .connect order =>
    if v.pool.state.memory.phase = .up then
      some ⟨v.pool, v.connections.insert (.reading (listDownloads v.pool.state order .all 50))⟩
    else none
  | .subscribe n =>
    match v.connections.rows n with
    | some (.reading list) =>
      some ⟨v.pool, v.connections.modify n fun _ => .subscribed [.snapshot list] []⟩
    | _ => none
  | .deliver n =>
    match v.connections.rows n with
    | some (.subscribed (frame :: sent) downloads) =>
      some ⟨v.pool, v.connections.modify n fun _ => .subscribed sent (applyEvent downloads frame)⟩
    | _ => none
  | .close n => some ⟨v.pool, v.connections.erase n⟩

/-- The steps in turn, as long as each passes the check. -/
def replay (env : Env) (check : Live → LiveLabel → Bool) (v : Live) : List LiveLabel → Option Live
  | [] => some v
  | l :: ls => if check v l then (step env v l).bind fun v' => replay env check v' ls else none

def Runs (env : Env) (ok : Live → LiveLabel → Prop) : Live → Live → Prop :=
  Relation.ReflTransGen fun v v' => ∃ l, ok v l ∧ step env v l = some v'

theorem replay_runs {env : Env} {check : Live → LiveLabel → Bool} {C : Live → LiveLabel → Prop}
    (hc : ∀ v l, check v l = true → C v l) {v v' : Live} {ls : List LiveLabel}
    (h : replay env check v ls = some v') : Runs env C v v' := by
  induction ls generalizing v with
  | nil => cases h; exact .refl
  | cons l ls ih =>
    simp only [replay] at h
    split at h
    · obtain ⟨q, hq, hr⟩ := Option.bind_eq_some_iff.mp h
      exact .head ⟨l, hc v l ‹_›, hq⟩ (ih hr)
    · cases h

end Live

def statusOf (s : State) (id : Nat) : Option Status := (s.downloads.rows id).map (·.status)

def listed (list : List Entry) (id : Nat) : Option Status := (Replica.shown list id).map (·.status)

/-- The list has exactly the rows, each once and with its status. -/
structure Mirrors (s : State) (downloads : List Entry) : Prop where
  once : (Replica.keys downloads).Nodup
  same : ∀ id status, (∃ d, (id, d) ∈ downloads ∧ d.status = status) ↔
    ∃ d, s.downloads.rows id = some d ∧ d.status = status

/-- No job is active, and no job, progress write or request is under way. -/
structure Idle (p : DownloadPool) : Prop where
  inactive : ∀ id d, p.state.downloads.rows id = some d → d.status.active = false
  jobs : ∀ t id n, p.kindAt t ≠ some (.worker id n)
  writes : ∀ t ticket, p.kindAt t ≠ some (.progress ticket)
  requests : ∀ t r, p.kindAt t ≠ some (.request r)

def ServerEvent.tells : ServerEvent → Option Status
  | .created _ d | .progress _ d | .finished _ d => some d.status
  | .deleted _ => none

/-- The row is active, or one of the threads has still to announce what became of it. -/
def Unsettled (threads : Nat → Prop) (p : DownloadPool) (id : Nat) : Prop :=
  match p.state.downloads.rows id with
  | some d => d.status.active = true ∨
      ∃ u, threads u ∧ (p.threads u).isSome = true ∧ settling id u p.trace = true
  | none => ∃ u, threads u ∧ (p.threads u).isSome = true ∧ deleting id u p.trace = true

/-- An event goes out while its job is active or another thread has still to announce what became of
it; or else it tells how the row stands, and so does every list that was read for a connection
and not sent. -/
def Timely (v : Live) : LiveLabel → Prop
  | .server (.exec t _) => ∀ k e rest, v.pool.threads t = some ⟨k, .call (.publish e) rest⟩ →
      Unsettled (· ≠ t) v.pool e.about ∨
      (e.tells = statusOf v.pool.state e.about ∧ ∀ n list, v.connections.rows n = some (.reading list) →
        listed list e.about = statusOf v.pool.state e.about)
  | _ => True

/-- The list has room for every row. -/
def Few (v : Live) : LiveLabel → Prop
  | .connect _ => v.pool.state.downloads.entries.length < 50
  | _ => True

def Live.Prompt (v : Live) : LiveLabel → Prop
  | .server l => CircleFtp.Downloads.Prompt v.pool l
  | _ => True

section
variable {env : Env} {p p' : DownloadPool} {v v' : Live} {s s' : State} {id t : Nat} {k : Task}
  {o : Op} {r : Reply o} {c : Choice} {list : List Entry} {e : ServerEvent} {threads : Nat → Prop}

theorem listed_apply (list : List Entry) (e : ServerEvent) (id : Nat) :
    listed (applyEvent list (.event e)) id = if id = e.about then e.tells else listed list id := by
  rw [listed, shown_apply, Frame.word]
  by_cases h : e.about = id
  · rw [if_pos h, if_pos h.symm]
    cases e <;> rfl
  · rw [if_neg h, if_neg fun h' => h h'.symm]
    rfl

theorem final_hear (c : Connection) (e : ServerEvent) : (c.hear e).final = c.final ∨
    (c.hear e).final = applyEvent c.final (.event e) := by
  cases c with
  | reading list => exact .inl rfl
  | subscribed sent downloads => exact .inr (by simp [Connection.hear, Connection.final])

theorem Mirrors.of_listed (hn : (Replica.keys list).Nodup)
    (h : ∀ id, listed list id = statusOf s id) : Mirrors s list := by
  refine ⟨hn, fun id status => ?_⟩
  have hl : listed list id = some status ↔ ∃ d, (id, d) ∈ list ∧ d.status = status := by
    simp only [listed, Option.map_eq_some_iff, Replica.shown_iff hn]
  have hr : statusOf s id = some status ↔ ∃ d, s.downloads.rows id = some d ∧ d.status = status := by
    simp only [statusOf, Option.map_eq_some_iff]
  rw [← hl, ← hr, h id]

/-- A list with room for every row shows them as they are. -/
theorem listDownloads_listed (order : Entry → Entry → Bool) (h : s.downloads.entries.length < 50) :
    (Replica.keys (listDownloads s order .all 50)).Nodup ∧
    ∀ id, listed (listDownloads s order .all 50) id = statusOf s id := by
  have hall : s.downloads.entries.filter (fun x => ListFilter.all.keeps x.2.status) = s.downloads.entries :=
    List.filter_eq_self.mpr fun _ _ => rfl
  have hperm : (listDownloads s order .all 50).Perm s.downloads.entries := by
    rw [listDownloads, hall, List.take_of_length_le (by rw [List.length_mergeSort]; omega)]
    exact List.mergeSort_perm _ _
  have hn : (Replica.keys s.downloads.entries).Nodup := by
    rw [Replica.keys, Table.entries_keys]
    exact List.nodup_range.filter _
  have hn' := (hperm.map Prod.fst).nodup_iff.mpr hn
  refine ⟨hn', fun id => ?_⟩
  rw [listed, statusOf, Replica.shown_perm hperm hn']
  congr 1
  refine Option.ext fun d => ?_
  rw [Replica.shown_iff hn, Table.mem_entries]

/-- With the status of the row nothing that is due is lost. -/
theorem Unsettled.kept {others : Nat → Prop} (h : Unsettled threads p id)
    (hstatus : statusOf p'.state id = statusOf p.state id)
    (hset : ∀ u d, p.state.downloads.rows id = some d → threads u → (p.threads u).isSome = true →
      settling id u p.trace = true → others u ∧ (p'.threads u).isSome = true ∧ settling id u p'.trace = true)
    (hdel : ∀ u, threads u → (p.threads u).isSome = true → deleting id u p.trace = true →
      others u ∧ (p'.threads u).isSome = true ∧ deleting id u p'.trace = true) :
    Unsettled others p' id := by
  simp only [Unsettled] at h ⊢
  cases hd : p.state.downloads.rows id with
  | some d =>
    obtain ⟨d', hd', hs⟩ : ∃ d', p'.state.downloads.rows id = some d' ∧ d'.status = d.status := by
      simpa [statusOf, hd] using hstatus
    simp only [hd, hd', hs] at h ⊢
    refine h.imp_right ?_
    rintro ⟨u, hu, hlive, hdue⟩
    exact ⟨u, hset u d hd hu hlive hdue⟩
  | none =>
    have hd' : p'.state.downloads.rows id = none := by simpa [statusOf, hd] using hstatus
    simp only [hd, hd'] at h ⊢
    obtain ⟨u, hu, hlive, hdue⟩ := h
    exact ⟨u, hdel u hu hlive hdue⟩

/-- The threads other than the one that moves. -/
theorem other_kept {e : DownloadEvent} {trace : List DownloadEvent} (h : ¬ e.By t) :
    settling id t (e :: trace) = settling id t trace ∧ deleting id t (e :: trace) = deleting id t trace :=
  ⟨History.outstanding_other h, History.outstanding_other h⟩

/-- A call that does not announce the job. -/
theorem own_kept (hpub : ∀ e, o = .publish e → e.about ≠ id) (hcall : call p.state o c = (r, s)) :
    (∀ d, p.state.downloads.rows id = some d → settling id t p.trace = true →
      settling id t (told t k p.toWorld o r s).trace = true) ∧
    (deleting id t p.trace = true → deleting id t (told t k p.toWorld o r s).trace = true) := by
  have hp : publishes id (.did t k o r p.state s) = false := by
    cases o <;> first | rfl | exact decide_eq_false (hpub _ rfl)
  refine ⟨fun d hd h => ?_, fun h => ?_⟩
  · have ha : announces id (.did t k o r p.state s) = false := by
      cases o
      case publish e => exact decide_eq_false (hpub e rfl)
      case findDownload i =>
        rcases r with er | _ | d'
        · rfl
        · refine decide_eq_false ?_
          rintro rfl
          rw [(call_find hcall).1] at hd
          cases hd
        · rfl
      all_goals rfl
    rw [told_settling, ha, h]
    simp
  · rw [told_deleting, hp, h]
    simp

/-- After a call the job is due, or it is as it was. -/
theorem unsettled_call (hf : p.Fresh) {rest : Reply o → Program Op Reply Result}
    (ht : p.threads t = some ⟨k, .call o rest⟩) (hm : o.MadeBy k) (hcall : call p.state o c = (r, s))
    (hpub : ∀ e, o = .publish e → e.about ≠ id) (ths : List DownloadThread) :
    Unsettled (fun _ => True) (p.didCall t k o rest r s ths) id ∨
    (statusOf s id = statusOf p.state id ∧ (Unsettled (fun _ => True) p id →
      Unsettled (fun _ => True) (p.didCall t k o rest r s ths) id)) := by
  have live {u : Nat} (hu : (p.threads u).isSome = true) :
      ((p.didCall t k o rest r s ths).threads u).isSome = true := by
    obtain ⟨th, hth⟩ := Option.isSome_iff_exists.mp hu
    rw [Pool.didCall_threads hf ht, if_pos (hf.lt hth)]
    split
    · rfl
    · exact hu
  have htrace : (p.didCall t k o rest r s ths).trace = (told t k p.toWorld o r s).trace := Pool.didCall_trace ..
  -- the row keeps its status
  have kept (hstatus : statusOf s id = statusOf p.state id) (h : Unsettled (fun _ => True) p id) :
      Unsettled (fun _ => True) (p.didCall t k o rest r s ths) id := by
    have own := own_kept (t := t) (k := k) hpub hcall
    refine h.kept (by rw [Pool.didCall_state]; exact hstatus) (fun u d hd _ hu hs => ⟨trivial, live hu, ?_⟩)
      fun u _ hu hs => ⟨trivial, live hu, ?_⟩
    · rw [htrace]
      by_cases he : t = u
      · subst he
        exact own.1 d hd hs
      · exact (other_kept (e := .did t k o r p.state s) he).1.trans hs
    · rw [htrace]
      by_cases he : t = u
      · subst he
        exact own.2 hs
      · exact (other_kept (e := .did t k o r p.state s) he).2.trans hs
  -- the thread has settled the job, or taken its row away
  have settled {d : Download} (hd : s.downloads.rows id = some d)
      (h : settlesJob id (.did t k o r p.state s) = true) :
      Unsettled (fun _ => True) (p.didCall t k o rest r s ths) id := by
    simp only [Unsettled, Pool.didCall_state, hd]
    refine .inr ⟨t, trivial, live (by simp [ht]), ?_⟩
    rw [htrace, told_settling, h]
    rfl
  have deleted (hd : s.downloads.rows id = none) (h : deletesRow id (.did t k o r p.state s) = true) :
      Unsettled (fun _ => True) (p.didCall t k o rest r s ths) id := by
    simp only [Unsettled, Pool.didCall_state, hd]
    refine ⟨t, trivial, live (by simp [ht]), ?_⟩
    rw [htrace, told_deleting, h]
    rfl
  have active {d : Download} (hd : s.downloads.rows id = some d) (ha : d.status.active = true) :
      Unsettled (fun _ => True) (p.didCall t k o rest r s ths) id := by
    simp only [Unsettled, Pool.didCall_state, hd]
    exact .inl ha
  cases hd : p.state.downloads.rows id with
  | none =>
    cases hd' : s.downloads.rows id with
    | none =>
      have same : statusOf s id = statusOf p.state id := by rw [statusOf, statusOf, hd, hd']
      exact .inr ⟨same, kept same⟩
    | some d' =>
      obtain ⟨rfl, -⟩ := call_new_row hcall hd hd'
      obtain ⟨plan, hplan⟩ := hm.2
      exact .inl (active hd' (by rw [hplan]; rfl))
  | some d =>
    have same {d' : Download} (hd' : s.downloads.rows id = some d') (hs : d'.status = d.status) :
        statusOf s id = statusOf p.state id := by simp [statusOf, hd, hd', hs]
    rcases call_row hcall hd with hrow | ⟨⟨a, rfl⟩, hrow⟩
    · exact .inr ⟨same hrow rfl, kept (same hrow rfl)⟩
    · generalize hd' : s.downloads.rows id = row at hrow
      cases hrow with
      | update change =>
        cases change with
        | totals => exact .inr ⟨same hd' rfl, kept (same hd' rfl)⟩
        | requestCancel => exact .inr ⟨same hd' rfl, kept (same hd' rfl)⟩
        | finish status error => exact .inl (settled hd' (by simp [settlesJob, Op.settles]))
        | failed error => exact .inl (settled hd' (by simp [settlesJob, Op.settles]))
        | cancelQueued => exact .inl (settled hd' (by simp [settlesJob, Op.settles]))
      | file => exact .inr ⟨same hd' rfl, kept (same hd' rfl)⟩
      | cancelFiles => exact .inr ⟨same hd' rfl, kept (same hd' rfl)⟩
      | requeue => exact .inl (active hd' rfl)
      | delete => exact .inl (deleted hd' (by simp [deletesRow]))
      | claim => exact .inl (active hd' rfl)
      | requeueRunning => exact .inl (active hd' rfl)
      | resetFiles => exact .inr ⟨same hd' rfl, kept (same hd' rfl)⟩

/-- Every list will show a job as it is, unless it is active or a thread has still to announce it. -/
structure InStep (env : Env) (v : Live) : Prop where
  tasks : (SlotsKept env v.pool ∧ v.pool.Recorded ∧ Announcers v.pool) ∧ debts.discipline.AllSafe v.pool
  once : ∀ n c, v.connections.rows n = some c → (Replica.keys c.final).Nodup
  same : ∀ id, Unsettled (fun _ => True) v.pool id ∨ ∀ n c, v.connections.rows n = some c →
    listed c.final id = statusOf v.pool.state id

theorem InStep.initial (hs : s.Down) : InStep env (.initial s) where
  tasks := ⟨⟨.initial env hs, .initial s, fun _ _ h => by cases h⟩, Discipline.allSafe_initial _ s⟩
  once _ _ h := by cases h
  same _ := .inr fun _ _ h => by cases h

/-- A step of one connection by itself. -/
theorem InStep.of_final (h : InStep env v) (hp : v'.pool = v.pool) (hc : ∀ n c', v'.connections.rows n = some c' →
    ∃ m c, v.connections.rows m = some c ∧ c.final = c'.final) : InStep env v' := by
  refine ⟨hp ▸ h.tasks, fun n c' hn => ?_, fun id => ?_⟩
  · obtain ⟨m, c, hm, hfinal⟩ := hc n c' hn
    exact hfinal ▸ h.once m c hm
  · rw [hp]
    refine (h.same id).imp_right fun hall n c' hn => ?_
    obtain ⟨m, c, hm, hfinal⟩ := hc n c' hn
    exact hfinal ▸ hall m c hm

theorem hears_final {l : DownloadLabel} {c c' : Connection} (h : Live.hears p l c = some c') :
    c'.final = c.final ∨ ∃ e, Live.published p l = some e ∧ c' = c.hear e := by
  have told (h : (Live.published p l).elim c c.hear = c') :
      c'.final = c.final ∨ ∃ e, Live.published p l = some e ∧ c' = c.hear e := by
    cases hp : Live.published p l with
    | none =>
      rw [hp] at h
      exact .inl (congrArg Connection.final h.symm)
    | some e =>
      rw [hp] at h
      exact .inr ⟨e, rfl, h.symm⟩
  cases l with
  | exec t c => exact told (Option.some.inj h)
  | finish t => exact told (Option.some.inj h)
  | external x =>
    cases x with
    | crash => cases h
    | _ => exact told (Option.some.inj h)

theorem published_exec {rest : Reply o → Program Op Reply Result} {choice : Choice}
    (ht : p.threads t = some ⟨k, .call o rest⟩) (h : Live.published p (.exec t choice) = some e) :
    o = .publish e := by
  simp only [Live.published, ht] at h
  cases o <;> cases h
  rfl

/-- A call of a thread. -/
theorem InStep.exec (h : InStep env v) {rest : Reply o → Program Op Reply Result} {choice : Choice}
    (ht : v.pool.threads t = some ⟨k, .call o rest⟩) (hcall : call v.pool.state o choice = (r, s))
    (htimely : Timely v (.server (.exec t choice))) (ths : List DownloadThread) (id : Nat) :
    Unsettled (fun _ => True) (v.pool.didCall t k o rest r s ths) id ∨
    ∀ n c c', v.connections.rows n = some c → Live.hears v.pool (.exec t choice) c = some c' →
      listed c'.final id = statusOf s id := by
  have hslots := h.tasks.1.1
  have heard {c c' : Connection} (hc : Live.hears v.pool (.exec t choice) c = some c') :
      c'.final = c.final ∨ ∃ e, o = .publish e ∧ c' = c.hear e :=
    (hears_final hc).imp_right fun hx => hx.imp fun e he => ⟨published_exec ht he.1, he.2⟩
  by_cases ho : ∃ e, o = .publish e ∧ e.about = id
  · obtain ⟨e, rfl, rfl⟩ := ho
    obtain rfl : v.pool.state = s := by
      rw [call_publish] at hcall
      exact congrArg Prod.snd hcall
    rcases htimely k e rest ht with hdue | ⟨htells, hreading⟩
    · have live {u : Nat} (hu : (v.pool.threads u).isSome = true) (hne : u ≠ t) :
          ((v.pool.didCall t k (.publish e) rest r v.pool.state ths).threads u).isSome = true := by
        obtain ⟨th, hth⟩ := Option.isSome_iff_exists.mp hu
        rw [Pool.didCall_threads hslots.fresh ht, if_pos (hslots.fresh.lt hth), if_neg hne]
        exact hu
      let event : DownloadEvent := .did t k (.publish e) r v.pool.state v.pool.state
      have kept (u : Nat) (hne : u ≠ t) :
          settling e.about u (event :: v.pool.trace) = settling e.about u v.pool.trace ∧
          deleting e.about u (event :: v.pool.trace) = deleting e.about u v.pool.trace :=
        other_kept fun hb : t = u => hne hb.symm
      refine .inl (hdue.kept (by rw [Pool.didCall_state]) (fun u d _ hne hu hs => ⟨trivial, live hu hne, ?_⟩)
        fun u hne hu hs => ⟨trivial, live hu hne, ?_⟩)
      · rw [Pool.didCall_trace]
        exact (kept u hne).1.trans hs
      · rw [Pool.didCall_trace]
        exact (kept u hne).2.trans hs
    · refine .inr fun n c c' hn hc => ?_
      have hc' : c' = c.hear e := by
        simpa [Live.hears, Live.published, ht] using hc.symm
      subst hc'
      cases c with
      | reading list => exact hreading n list hn
      | subscribed sent downloads =>
        have hfinal : (Connection.hear e (.subscribed sent downloads)).final =
            applyEvent (sent.foldl applyEvent downloads) (.event e) := by
          simp [Connection.hear, Connection.final]
        rw [hfinal, listed_apply, if_pos rfl, htells]
  · have hpub (e : ServerEvent) (he : o = .publish e) : e.about ≠ id := fun ha => ho ⟨e, he, ha⟩
    refine (unsettled_call hslots.fresh ht (hslots.uses t _ ht).1 hcall hpub ths).elim .inl ?_
    rintro ⟨hstatus, hkeep⟩
    refine (h.same id).imp hkeep fun hall n c c' hn hc => ?_
    rw [hstatus, ← hall n c hn]
    rcases heard hc with hfinal | ⟨e, he, rfl⟩
    · rw [hfinal]
    · rcases final_hear c e with hfinal | hfinal
      · rw [hfinal]
      · rw [hfinal, listed_apply, if_neg fun hid => hpub e he hid.symm]

/-- A step that leaves the rows as they are and announces nothing. -/
theorem InStep.still (h : InStep env v) {l : DownloadLabel} (hl : ∀ e, Live.published v.pool l ≠ some e)
    (hstatus : p.state.downloads = v.pool.state.downloads)
    (hu : ∀ u, (v.pool.threads u).isSome = true →
      ((p.threads u).isSome = true ∧ settling id u p.trace = settling id u v.pool.trace ∧
        deleting id u p.trace = deleting id u v.pool.trace) ∨
      (settling id u v.pool.trace = false ∧ deleting id u v.pool.trace = false)) :
    Unsettled (fun _ => True) p id ∨ ∀ n c', (v.connections.mapMany fun _ c =>
      Live.hears v.pool l c).rows n = some c' → listed c'.final id = statusOf p.state id := by
  have same : statusOf p.state id = statusOf v.pool.state id := by rw [statusOf, statusOf, hstatus]
  rcases h.same id with hdue | hall
  · refine .inl (hdue.kept same (fun u d _ _ hlive hs => ?_) fun u _ hlive hs => ?_)
    · rcases hu u hlive with ⟨hlive', hset, -⟩ | ⟨hset, -⟩
      · exact ⟨trivial, hlive', hset.trans hs⟩
      · rw [hset] at hs
        cases hs
    · rcases hu u hlive with ⟨hlive', -, hdel⟩ | ⟨-, hdel⟩
      · exact ⟨trivial, hlive', hdel.trans hs⟩
      · rw [hdel] at hs
        cases hs
  · refine .inr fun n c' hn => ?_
    obtain ⟨c, hc, hh⟩ := Table.mapMany_rows.mp hn
    rw [same, ← hall n c hc]
    rcases hears_final hh with hfinal | ⟨e, he, -⟩
    · rw [hfinal]
    · exact absurd he (hl e)

theorem InStep.step (h : InStep env v) {l : LiveLabel} (hfew : Few v l) (htimely : Timely v l)
    (hprompt : v.Prompt l) (hst : Live.step env v l = some v') : InStep env v' := by
  cases l with
  | server l =>
    obtain ⟨p, hp, rfl⟩ := Option.map_eq_some_iff.mp hst
    have heard {n : Nat} {c' : Connection} (hn : (v.connections.mapMany fun _ c =>
        Live.hears v.pool l c).rows n = some c') : ∃ c, v.connections.rows n = some c ∧
        Live.hears v.pool l c = some c' := Table.mapMany_rows.mp hn
    refine ⟨(debts_keeps env).keeps.step h.tasks hprompt hp, fun n c' hn => ?_, fun id => ?_⟩
    · obtain ⟨c, hc, hh⟩ := heard hn
      rcases hears_final hh with hfinal | ⟨e, -, rfl⟩
      · exact hfinal ▸ h.once n c hc
      · rcases final_hear c e with hfinal | hfinal <;> rw [hfinal]
        · exact h.once n c hc
        · exact keys_apply (h.once n c hc) trivial
    rcases (system env).step_cases hp with
      ⟨t, k, o, rest, choice, r, s, ths, rfl, ht, he, rfl⟩ | ⟨t, k, a, rfl, ht, rfl⟩ |
      ⟨x, s, dies, ths, rfl, he, rfl⟩
    · obtain ⟨-, hcall, -⟩ := system_exec he
      refine (h.exec ht hcall htimely ths id).imp_right fun hall n c' hn => ?_
      obtain ⟨c, hc, hh⟩ := heard hn
      rw [Pool.didCall_state]
      exact hall n c c' hc hh
    · have hclear : Clear t v.pool.toWorld := h.tasks.2 t _ ht v.pool.toWorld ((debtContract t k).refl _)
      refine h.still (fun e he => by cases he) (by rw [Pool.didEnd_state]; rfl) fun u hu => ?_
      by_cases hut : t = u
      · subst hut
        exact .inr (hclear id)
      · refine .inl ⟨?_, ?_⟩
        · obtain ⟨th, hth⟩ := Option.isSome_iff_exists.mp hu
          rw [Pool.didEnd_threads h.tasks.1.1.fresh ht, if_pos (h.tasks.1.1.fresh.lt hth), if_neg fun e => hut e.symm]
          exact hu
        · rw [Pool.didEnd_trace]
          exact other_kept hut
    · cases dies with
      | true =>
        have hx : x = .crash := by
          cases arrives he
          rfl
        subst hx
        refine .inr fun n c' hn => ?_
        obtain ⟨c, -, hh⟩ := heard hn
        cases hh
      | false =>
        refine h.still (fun e he => by cases he) (by rw [Pool.didOuter_state]; exact (arrive_keeps he).1)
          fun u hu => .inl ⟨?_, ?_⟩
        · obtain ⟨th, hth⟩ := Option.isSome_iff_exists.mp hu
          rw [Pool.didOuter_threads h.tasks.1.1.fresh, if_pos (h.tasks.1.1.fresh.lt hth)]
          exact hu
        · rw [Pool.didOuter_trace]
          exact other_kept (e := .outer x v.pool.state s) fun hb => hb
  | connect order =>
    simp only [Live.step] at hst
    split at hst
    · cases hst
      obtain ⟨hn, hl⟩ := listDownloads_listed order hfew
      refine ⟨h.tasks, fun n c hc => ?_, fun id => (h.same id).imp_right fun hall n c hc => ?_⟩
      · rcases Table.insert_rows hc with ⟨-, rfl⟩ | ⟨-, hc⟩
        · exact hn
        · exact h.once n c hc
      · rcases Table.insert_rows hc with ⟨-, rfl⟩ | ⟨-, hc⟩
        · exact hl id
        · exact hall n c hc
    · cases hst
  | subscribe m =>
    simp only [Live.step] at hst
    split at hst
    · rename_i list hm
      cases hst
      refine h.of_final rfl fun n c' hn => ?_
      obtain ⟨c, hc, hif⟩ := Table.modify_rows.mp hn
      refine ⟨n, c, hc, ?_⟩
      split at hif
      · subst n
        obtain rfl := Option.some.inj (hm.symm.trans hc)
        rw [← hif]
        rfl
      · rw [hif]
    · cases hst
  | deliver m =>
    simp only [Live.step] at hst
    split at hst
    · rename_i frame sent downloads hm
      cases hst
      refine h.of_final rfl fun n c' hn => ?_
      obtain ⟨c, hc, hif⟩ := Table.modify_rows.mp hn
      refine ⟨n, c, hc, ?_⟩
      split at hif
      · subst n
        obtain rfl := Option.some.inj (hm.symm.trans hc)
        rw [← hif]
        rfl
      · rw [hif]
    · cases hst
  | close m =>
    cases hst
    exact h.of_final rfl fun n c' hn => ⟨n, c', (Table.erase_rows.mp hn).2, rfl⟩

/-- When nothing is due every list is right. -/
theorem InStep.mirrors (h : InStep env v) (hidle : Idle v.pool) {n : Nat} {downloads : List Entry}
    (hc : v.connections.rows n = some (.subscribed [] downloads)) : Mirrors v.pool.state downloads := by
  have clear {u : Nat} (hu : (v.pool.threads u).isSome = true) : Clear u v.pool.toWorld := by
    by_contra hn
    obtain ⟨th, hth⟩ := Option.isSome_iff_exists.mp hu
    rcases h.tasks.1.2.2 u th hth hn with ⟨i, m, hk⟩ | ⟨r, hk⟩
    · exact hidle.jobs u i m (hk ▸ kindAt_of hth)
    · exact hidle.requests u r (hk ▸ kindAt_of hth)
  refine .of_listed (h.once n _ hc) fun id => (h.same id).elim (fun hdue => ?_) fun hall => hall n _ hc
  simp only [Unsettled] at hdue
  split at hdue
  · rename_i d hd
    rcases hdue with hactive | ⟨u, -, hu, hs⟩
    · rw [hidle.inactive id d hd] at hactive
      cases hactive
    · rw [(clear hu id).1] at hs
      cases hs
  · obtain ⟨u, -, hu, hs⟩ := hdue
    rw [(clear hu id).2] at hs
    cases hs

end

/-- As long as no event goes out late and none is lost, every browser that has received what was sent
shows the downloads as they are whenever nothing is under way. -/
theorem browsers_converge (env : Env) {s : State} (hs : s.Down) {v : Live}
    (hr : Live.Runs env (fun v l => Few v l ∧ Timely v l ∧ v.Prompt l) (.initial s) v)
    (hidle : Idle v.pool) {n : Nat} {downloads : List Entry}
    (hc : v.connections.rows n = some (.subscribed [] downloads)) : Mirrors v.pool.state downloads := by
  suffices InStep env v from this.mirrors hidle hc
  clear hidle hc
  induction hr with
  | refl => exact .initial hs
  | tail _ hst ih =>
    obtain ⟨l, ⟨hfew, htimely, hprompt⟩, hst⟩ := hst
    exact ih.step hfew htimely hprompt hst

theorem Live.Runs.pool {env : Env} {C : Live → LiveLabel → Prop} {v v' : Live} (h : Live.Runs env C v v') :
    (system env).Runs (fun _ _ => True) v.pool v'.pool := by
  induction h with
  | refl => exact .refl
  | @tail w w' _ hst ih =>
    obtain ⟨l, -, hst⟩ := hst
    cases l with
    | server l =>
      obtain ⟨p, hp, rfl⟩ := Option.map_eq_some_iff.mp hst
      exact ih.tail ⟨l, trivial, hp⟩
    | close n =>
      cases hst
      exact ih
    | _ =>
      simp only [Live.step] at hst
      split at hst <;> cases hst
      exact ih

/-- No job, no progress write and no request is under way. -/
def idle (p : DownloadPool) : Bool :=
  (List.range p.state.downloads.next).all (fun id =>
    (p.state.downloads.rows id).all fun d => !d.status.active) &&
  (List.range p.next).all fun t => (p.kindAt t).all fun k =>
    match k with
    | .worker _ _ | .progress _ | .request _ => false
    | _ => true

theorem idle_idle {p : DownloadPool} (hf : p.Fresh) (h : idle p = true) : Idle p := by
  simp only [idle, Bool.and_eq_true, List.all_eq_true, List.mem_range] at h
  have kind {t : Nat} {k : Task} (ht : p.kindAt t = some k) := h.2 t (Pool.kindAt_lt hf ht)
  refine ⟨fun id d hd => ?_, fun t id n ht => ?_, fun t ticket ht => ?_, fun t r ht => ?_⟩
  · simpa [hd] using h.1 id (Table.lt_next hd)
  all_goals
    have := kind ht
    simp [ht] at this

/-- The events that go out tell how things stand. -/
def timely (v : Live) : LiveLabel → Bool
  | .server (.exec t _) =>
    match v.pool.threads t with
    | some ⟨_, .call (.publish e) _⟩ =>
      (v.pool.state.downloads.rows e.about).any (·.status.active) ||
      (decide (e.tells = statusOf v.pool.state e.about) && (List.range v.connections.next).all fun n =>
        (v.connections.rows n).all fun c =>
          match c with
          | .reading list => decide (listed list e.about = statusOf v.pool.state e.about)
          | .subscribed _ _ => true)
    | _ => true
  | _ => true

theorem timely_timely {v : Live} {l : LiveLabel} (h : timely v l = true) : Timely v l := by
  cases l with
  | server l =>
    cases l with
    | exec t c =>
      intro k e rest ht
      simp only [timely, ht, Bool.or_eq_true, Bool.and_eq_true, decide_eq_true_eq, List.all_eq_true,
        List.mem_range] at h
      refine h.imp (fun hactive => ?_) fun htells => ⟨htells.1, fun n list hn => ?_⟩
      · obtain ⟨d, hd, ha⟩ := Option.any_eq_true _ _ |>.mp hactive
        simp only [Unsettled, hd]
        exact .inl ha
      · simpa [hn] using htells.2 n (Table.lt_next hn)
    | _ => trivial
  | _ => trivial

def few (v : Live) : LiveLabel → Bool
  | .connect _ => v.pool.state.downloads.entries.length < 50
  | _ => true

theorem few_few {v : Live} {l : LiveLabel} (h : few v l = true) : Few v l := by
  cases l with
  | connect order =>
    have hlt : v.pool.state.downloads.entries.length < 50 := of_decide_eq_true h
    exact hlt
  | _ => trivial

def surely : LiveLabel → Bool
  | .server (.exec _ c) => c.failure.isNone
  | _ => true

theorem surely_prompt {v : Live} {l : LiveLabel} (h : surely l = true) : v.Prompt l := by
  cases l with
  | server l =>
    cases l with
    | exec t c => exact .inl (Option.isNone_iff_eq_none.mp h)
    | _ => trivial
  | _ => trivial

/-- The list of a browser that has received everything. -/
def Connection.received : Connection → Option (List Entry)
  | .subscribed [] downloads => some downloads
  | _ => none

theorem received_eq {c : Connection} {downloads : List Entry} (h : c.received = some downloads) :
    c = .subscribed [] downloads := by
  cases c with
  | reading list => cases h
  | subscribed sent downloads' =>
    cases sent with
    | nil => exact congrArg _ (Option.some.inj h)
    | cons frame sent => cases h

/-- A browser connects while the job runs, and the job fails. -/
def failedMeanwhile : List LiveLabel :=
  bootUp.map .server ++ [.connect fun _ _ => true, .subscribe 0] ++ (failJob ++ calls 2 2).map .server ++
  [.server (.finish 2), .deliver 0, .deliver 0, .deliver 0]

theorem browsers_converge_failed : ∃ v downloads, Live.Runs (.small 2)
    (fun v l => Few v l ∧ Timely v l ∧ v.Prompt l) (.initial oneJob) v ∧
    v.connections.rows 0 = some (.subscribed [] downloads) ∧ downloads.length = 1 ∧
    Mirrors v.pool.state downloads := by
  have hrun : (Live.replay (.small 2) (fun v l => few v l && timely v l && surely l) (.initial oneJob)
      failedMeanwhile).any (fun v => idle v.pool && (v.connections.rows 0).any fun c =>
        c.received.any fun downloads => downloads.length = 1) = true := by
    decide +kernel
  obtain ⟨v, hv, hn⟩ := Option.any_eq_true _ _ |>.mp hrun
  obtain ⟨hidle, hconn⟩ := Bool.and_eq_true_iff.mp hn
  obtain ⟨c, hc, hshown⟩ := Option.any_eq_true _ _ |>.mp hconn
  have hr := Live.replay_runs (C := fun v l => Few v l ∧ Timely v l ∧ v.Prompt l) (fun v l h => by
    simp only [Bool.and_eq_true] at h
    exact ⟨few_few h.1.1, timely_timely h.1.2, surely_prompt h.2⟩) hv
  obtain ⟨downloads, hd, hlength⟩ := Option.any_eq_true _ _ |>.mp hshown
  obtain rfl := received_eq hd
  exact ⟨v, downloads, hr, hc, of_decide_eq_true hlength, browsers_converge (.small 2) oneJob_down hr
    (idle_idle (system_fresh oneJob_down hr.pool) hidle) hc⟩

/-- One download that was fetched before. -/
def doneJob : State :=
  ⟨Table.empty.insert { postId := 1, folderName := ['F'], status := .COMPLETED, files := [] }, .empty, {}⟩

theorem doneJob_down : doneJob.Down := rfl

/-- A job is deleted after a new connection has read the list and before it subscribes. -/
def deletedMeanwhile : List LiveLabel :=
  (.external .boot :: calls 0 2 ++ [.finish 0, .exec 1 {}, .finish 1] : List DownloadLabel).map .server ++
  [.connect fun _ _ => true] ++
  (.external (.request (.delete 0 false)) :: calls 2 3 ++ [.finish 2] : List DownloadLabel).map .server ++
  [.subscribe 0, .deliver 0]

theorem deleted_job_reappears : ¬ ∀ (env : Env) (s : State) (v : Live), s.Down →
    Live.Runs env Few (.initial s) v → Idle v.pool → (∀ n list, v.connections.rows n ≠ some (.reading list)) →
    ∀ n downloads, v.connections.rows n = some (.subscribed [] downloads) →
      Mirrors v.pool.state downloads := by
  intro h
  have hrun : (Live.replay (.small 2) few (.initial doneJob) deletedMeanwhile).any (fun v =>
      idle v.pool && (v.pool.state.downloads.rows 0).isNone && v.connections.next = 1 &&
      (v.connections.rows 0).any fun c => c.received.any fun downloads =>
        (Replica.shown downloads 0).isSome) = true := by
    decide +kernel
  obtain ⟨v, hv, hn⟩ := Option.any_eq_true _ _ |>.mp hrun
  simp only [Bool.and_eq_true, decide_eq_true_eq, Option.isNone_iff_eq_none] at hn
  obtain ⟨⟨⟨hidle, hgone⟩, hone⟩, hconn⟩ := hn
  obtain ⟨c, hc, hshown⟩ := Option.any_eq_true _ _ |>.mp hconn
  have hr := Live.replay_runs (C := Few) (fun _ _ => few_few) hv
  obtain ⟨downloads, hd, hstill⟩ := Option.any_eq_true _ _ |>.mp hshown
  obtain rfl := received_eq hd
  have hsub (n : Nat) (list : List Entry) : v.connections.rows n ≠ some (.reading list) := fun hn => by
    have hlt := Table.lt_next hn
    obtain rfl : n = 0 := by omega
    cases hc.symm.trans hn
  have hmirror := h (.small 2) doneJob v doneJob_down hr
    (idle_idle (system_fresh doneJob_down hr.pool) hidle) hsub 0 _ hc
  obtain ⟨d, hd⟩ := Option.isSome_iff_exists.mp hstill
  obtain ⟨d', hd', -⟩ := (hmirror.same 0 d.status).mp ⟨d, (Replica.shown_iff hmirror.once).mp hd, rfl⟩
  cases hgone.symm.trans hd'

end CircleFtp.Downloads
