import CircleFtp.Downloads.Places
import CircleFtp.Downloads.Wakeups

/-! A completed file holds what its own url serves, when no path is used for two urls and nothing is
deleted while it is fetched. -/
namespace CircleFtp.Downloads
open Concurrent Files Strings

/-- What a host that serves `R` answers, with totals that are right as far as they are given. -/
structure Reliable (R : Bytes) (offset : Nat) (response : Response) : Prop where
  honest : Honest R offset response
  total : response.status = 200 → (totalFromHeaders response 0).all (· = R.length) = true
  totalRest : response.status = 206 → (totalFromHeaders response offset).all (· = R.length) = true

/-- The remote contents do not change, and a probe finds the right size or none. -/
def Answered (remote : Str → Bytes) (c : Choice) : Op → Prop
  | .probeSize url => c.size.all (· = (remote url).length) = true
  | .request url range _ => Reliable (remote url) (range.getD 0) c.response
  | _ => True

/-- A condition on the steps that carry a call out. -/
def OnCall (φ : Task → Op → Choice → Prop) (p : DownloadPool) : DownloadLabel → Prop
  | .exec t c =>
    match p.threads t with
    | some ⟨k, .call o _⟩ => φ k o c
    | _ => True
  | _ => True

def Unchanging (remote : Str → Bytes) : DownloadPool → DownloadLabel → Prop :=
  OnCall fun _ o c => Answered remote c o

/-- Where the file lands that a thread is at after its event: from its begin to the next write about
it. -/
def fetchingAfter (env : Env) (destination : Option Str) : DownloadEvent → Option Str
  | .did _ _ (.updateFile id index .begin) (.ok _) _ s =>
    (s.placeAt id index).bind fun place => (place.destination env).toOption
  | .did _ _ (.updateFile _ _ _) _ _ _ => none
  | _ => destination

def fetching (env : Env) (t : Nat) (trace : List DownloadEvent) : Option Str :=
  trace.foldr (fun e destination => if e.By t then fetchingAfter env destination e else destination) none

/-- New rows have destinations of their own. -/
def Exclusive (env : Env) (owner : Str → Option Holding) : DownloadPool → DownloadLabel → Prop :=
  OnCall fun _ o _ => o.Separates env owner

def Op.removes : Op → Option Str
  | .remove path => some path
  | _ => none

/-- No request removes what a worker is fetching. -/
def Undisturbed (env : Env) (p : DownloadPool) : DownloadLabel → Prop :=
  OnCall (fun k o _ => k.works = false → ∀ path ∈ o.removes, ∀ u < p.next,
    (p.kindAt u).any Task.works = true → ∀ destination ∈ fetching env u p.trace,
    path ≠ destination ∧ path ≠ partPathFor destination) p

/-- What a thread relies on: files keep their places, and what a worker fetches is left alone. -/
def holdings (env : Env) (owner : Str → Option Holding) (remote : Str → Bytes) :
    Ledger State Task Op Reply Arrival Result where
  admits t k w e := SamePlaces e.before e.after ∧ (k.works = true → ∀ destination ∈ fetching env t w.trace,
    Alike destination e.before.disk e.after.disk)
  may _ _ w o r s := Sound env owner remote w.state ∧ ∃ c, call w.state o c = (r, s) ∧ Answered remote c o
  guar _ k w o _ w' := Fair env owner remote k w.state o w'.state
  post _ _ _ _ := True

/-- A file as the worker has read it. -/
structure Located (env : Env) (owner : Str → Option Holding) (remote : Str → Bytes) (s : State) (id : Nat)
    (folder : Str) (x : DownloadFile × Nat) : Prop where
  known : id < s.downloads.next
  size : x.1.sizeBytes.all (· = (remote x.1.url).length) = true
  place : ∀ place, s.placeAt id x.2 = some place → place = ⟨folder, x.1.relPath, x.1.url⟩
  owned : Place.Owned env owner ⟨folder, x.1.relPath, x.1.url⟩

/-- The folder that the worker is in. -/
def Stage.folder : Stage → Option Str
  | .between folder _ => some folder
  | s => s.spot.map (·.folder)

/-- What the worker knows of the file that it is at. -/
def Stage.Backed (env : Env) (remote : Str → Bytes) (t : Nat) (w : DownloadWorld) : Stage → Prop
  | .probed x n => n = (remote x.file.url).length
  | .sized x size | .cleared x size => size.all (· = (remote x.file.url).length) = true
  | .trying x destination size => size.all (· = (remote x.file.url).length) = true ∧
    x.resolved env = .ok destination ∧ fetching env t w.trace = some destination
  | .fetched x result => ∃ destination, x.resolved env = .ok destination ∧
    fetching env t w.trace = some destination ∧
    w.state.disk.content destination = some (remote x.file.url) ∧
    result.bytes = (remote x.file.url).length
  | _ => True

structure Tending (env : Env) (owner : Str → Option Holding) (remote : Str → Bytes) (t id : Nat)
    (s : Stage) (w : DownloadWorld) : Prop where
  ahead : ∀ folder ∈ s.folder, ∀ x ∈ s.ahead, Located env owner remote w.state id folder x
  backed : s.Backed env remote t w

section
variable {env : Env} {owner : Str → Option Holding} {remote : Str → Bytes} {t id c : Nat} {s s' : Stage}
  {w w' : DownloadWorld} {o : Op} {r : Reply o} {e : DownloadEvent} {trace : List DownloadEvent}

theorem fetching_other (h : ¬ e.By t) : fetching env t (e :: trace) = fetching env t trace := if_neg h

theorem fetching_own {k : Task} {v v' : State} : fetching env t (.did t k o r v v' :: trace) =
    fetchingAfter env (fetching env t trace) (.did t k o r v v') := if_pos rfl

/-- A call that is no write about a file leaves what the thread fetches. -/
theorem fetchingAfter_other {k : Task} {v v' : State} {destination : Option Str}
    (ho : ∀ id index change, o ≠ .updateFile id index change) :
    fetchingAfter env destination (.did t k o r v v') = destination := by
  unfold fetchingAfter
  split
  · rename_i he
    cases he
    exact absurd rfl (ho _ _ _)
  · rename_i he
    cases he
    exact absurd rfl (ho _ _ _)
  · rfl

theorem fetchingAfter_begin {k : Task} {index : Nat} {a : Unit} {v v' : State} {place : Place}
    {before : Option Str} {destination : Str} (hp : v'.placeAt id index = some place)
    (hd : place.destination env = .ok destination) :
    fetchingAfter env before (.did t k (.updateFile id index .begin) (.ok a) v v') = some destination := by
  simp [fetchingAfter, hp, hd, Except.toOption]

abbrev holdingContract (env : Env) (owner : Str → Option Holding) (remote : Str → Bytes) (t id c : Nat) :
    Contract DownloadWorld Op Reply :=
  (holdings env owner remote).discipline.contract t (.worker id c)

theorem Located.after {folder : Str} {x : DownloadFile × Nat} {v v' : State}
    (h : Located env owner remote v id folder x) (hs : SamePlaces v v') :
    Located env owner remote v' id folder x :=
  ⟨Nat.lt_of_lt_of_le h.known hs.next, h.size,
    fun place hp => h.place place (hs.places id x.2 place h.known hp), h.owned⟩

theorem Located.measured {folder : Str} {x : DownloadFile × Nat} {v : State} {total : Option Nat}
    (h : Located env owner remote v id folder x) (ht : total.all (· = (remote x.1.url).length) = true) :
    Measured remote v id x.2 total := by
  refine ⟨h.known, fun place hp => ?_⟩
  rw [h.place place hp]
  exact ht

/-- What the others leave to a worker. -/
theorem fetching_rely (hr : (holdingContract env owner remote t id c).rely w w') :
    fetching env t w'.trace = fetching env t w.trace ∧ SamePlaces w.state w'.state ∧
      ∀ destination ∈ fetching env t w.trace, Alike destination w.state.disk w'.state.disk := by
  refine History.rely_induct (φ := fun v => fetching env t v.trace = fetching env t w.trace ∧
      SamePlaces w.state v.state ∧
      ∀ destination ∈ fetching env t w.trace, Alike destination w.state.disk v.state.disk)
    (fun v e hv hb ht hp => ?_) hr
    ⟨rfl, .of_rows rfl, fun destination _ => .refl destination _⟩
  obtain ⟨hf, hs, ha⟩ := hv
  obtain ⟨hs', ha'⟩ := hp
  rw [hb] at hs' ha'
  refine ⟨(fetching_other ht).trans hf, hs.trans hs', fun destination hd => ?_⟩
  exact (ha destination hd).trans (ha' rfl destination (hf ▸ hd))

theorem Tending.stable (h : Tending env owner remote t id s w)
    (hr : (holdingContract env owner remote t id c).rely w w') : Tending env owner remote t id s w' := by
  obtain ⟨hf, hs, ha⟩ := fetching_rely hr
  refine ⟨fun folder hfolder x hx => (h.ahead folder hfolder x hx).after hs, ?_⟩
  have backed := h.backed
  cases s <;> try exact backed
  case trying x destination size =>
    obtain ⟨hsize, hres, hfetch⟩ := backed
    exact ⟨hsize, hres, hf.trans hfetch⟩
  case fetched x result =>
    obtain ⟨destination, hres, hfetch, hcontent, hbytes⟩ := backed
    exact ⟨destination, hres, hf.trans hfetch, (ha destination hfetch).file.trans hcontent, hbytes⟩

theorem holding_places (ha : (holdingContract env owner remote t id c).act w o r w') :
    SamePlaces w.state w'.state := by
  obtain ⟨-, ch, hc, -⟩ := ha.2
  have := call_samePlaces w.state o ch
  rwa [hc] at this

theorem holding_trace (ha : (holdingContract env owner remote t id c).act w o r w') :
    w'.trace = .did t (.worker id c) o r w.state w'.state :: w.trace := by rw [ha.1]

theorem Silent.folder (h : Silent env s s') : ∀ folder ∈ s'.folder, folder ∈ s.folder := by
  cases h with
  | done => exact fun _ h => absurd h (by simp [Stage.folder, Stage.spot])
  | _ => exact fun _ h => h

theorem Next.folder {v : Val o} (h : Next env id c s o v s') (hr : s ≠ .reading) :
    ∀ folder ∈ s'.folder, folder ∈ s.folder := by
  cases h with
  | missing => exact absurd rfl hr
  | found => exact absurd rfl hr
  | look s row h => cases s <;> exact fun _ h => h
  | stop => exact fun _ h => absurd h (by simp [Stage.folder, Stage.spot])
  | giveUp => exact fun _ h => absurd h (by simp [Stage.folder, Stage.spot])
  | _ => exact fun _ h => h

theorem Stage.onError_folder (s : Stage) (e : Err) : ∀ folder ∈ (s.onError e).folder, folder ∈ s.folder := by
  cases s <;> first | exact fun _ h => h | exact fun _ h => absurd h (by simp [Stage.onError, Stage.folder, Stage.spot])

theorem Stage.onError_backed (s : Stage) (e : Err) : (s.onError e).Backed env remote t w := by
  cases s <;> trivial

/-- A call that leads to no file that was not ahead. -/
theorem Tending.call (h : Tending env owner remote t id s w)
    (ha : (holdingContract env owner remote t id c).act w o r w') (hs : s'.ahead ⊆ s.ahead)
    (hf : ∀ folder ∈ s'.folder, folder ∈ s.folder) (hb : s'.Backed env remote t w') :
    Tending env owner remote t id s' w' :=
  ⟨fun folder hfolder x hx => (h.ahead folder (hf folder hfolder) x (hs hx)).after (holding_places ha), hb⟩

/-- The file that the worker is at. -/
theorem Tending.located (h : Tending env owner remote t id s w) {x : Spot} (hs : s.spot = some x) :
    Located env owner remote w.state id x.folder (x.file, x.index) := by
  refine h.ahead x.folder ?_ (x.file, x.index) ?_
  · cases s <;> cases hs <;> rfl
  · simp [Stage.ahead, hs]

theorem call_request {v v' : State} {url : Str} {range : Option Nat} {controller : Nat} {ch : Choice}
    {response : Response} (hc : call v (.request url range controller) ch = (.ok response, v')) :
    response = ch.response := by
  have hp := congrArg Prod.fst (call_ok hc)
  simp only [perform] at hp
  split at hp
  · cases hp
  · cases hp
    rfl

theorem Answered.reliable {url : Str} {range : Option Nat} {controller : Nat} {response : Response}
    (ha : (holdingContract env owner remote t id c).act w (.request url range controller) (.ok response) w') :
    Reliable (remote url) (range.getD 0) response := by
  obtain ⟨-, ch, hc, hans⟩ := ha.2
  rw [call_request hc]
  exact hans

theorem Tending.keep {x : Spot} {destination : Str} {size : Option Nat}
    (h : Tending env owner remote t id (.trying x destination size) w)
    (ha : (holdingContract env owner remote t id c).act w o r w')
    (ho : ∀ id index change, o ≠ .updateFile id index change) :
    Tending env owner remote t id (.trying x destination size) w' := by
  obtain ⟨hsize, hres, hfetch⟩ := h.backed
  refine h.call ha (fun _ h => h) (fun _ h => h) ⟨hsize, hres, ?_⟩
  rw [holding_trace ha, fetching_own, fetchingAfter_other ho, hfetch]

/-- The transfer of a file finds its own content, and what it reports is right. -/
theorem tending_serves {x : Spot} {destination : Str} {size : Option Nat}
    (h : Tending env owner remote t id (.trying x destination size) w) :
    Serves (holdingContract env owner remote t id c) (·.state.disk) (remote x.file.url)
      { url := x.file.url, destination, expectedSize := size, controller := c
        onProgress := fun bytesOnDisk totalBytes => op (.report id x.index bytesOnDisk totalBytes) }
      (Tending env owner remote t id (.trying x destination size))
      fun total => total.all (· = (remote x.file.url).length) = true := by
  obtain ⟨hsize, hres, -⟩ := h.backed
  have own : Owns owner x.file.url destination := (h.located rfl).owned destination hres
  have plain {o : Op} (ho : o.transfers) (id index : Nat) (change : FileChange) :
      o ≠ .updateFile id index change := by
    rintro rfl
    exact ho
  refine ⟨by simpa using hsize, fun hQ hr => ⟨hQ.stable hr, ?_⟩, fun _ ha => ha.2.1.landing _ _ own, ?_,
    fun hQ ho ha => hQ.keep ha (plain ho), fun hQ ho ha hadv => ?_, fun _ ha => (Answered.reliable ha).honest,
    fun {w range response w'} hQ ha hst offset h200 h206 => ?_, fun {w n total} hQ ht => ?_⟩
  · exact (fetching_rely hr).2.2 destination hQ.backed.2.2
  · intro w o r w' ha
    obtain ⟨-, ch, hc, -⟩ := ha.2
    exact ⟨_, _, ch, hc, rfl, rfl⟩
  · exact .of_writes ho.measures fun _ _ => ⟨_, _, own, hadv⟩
  · have told := Answered.reliable ha
    rcases hst with hst | hst
    · rw [h200 hst]
      exact told.total hst
    · rw [h206 hst]
      exact told.totalRest hst
  · have alike {v v' : DownloadWorld} (hv : Tending env owner remote t id (.trying x destination size) v)
        (hr : (holdingContract env owner remote t id c).rely v v') :
        Alike destination v.state.disk v'.state.disk :=
      (fetching_rely hr).2.2 destination hv.backed.2.2
    refine Program.Safe.invoke fun w₁ h₁ r w₂ ha => ?_
    have hQ₁ := hQ.stable h₁
    have hQ₂ := hQ₁.keep ha (by simp)
    have same : w₂.state.disk = w₁.state.disk := by
      obtain ⟨-, ch, hc, -⟩ := ha.2
      have := call_disk w₁.state ch (o := .report id x.index n total) rfl
      rwa [hc] at this
    refine ⟨.of_measured rfl (by simp) ?_, fun v hv => ⟨hQ₂.stable hv, ?_⟩⟩
    · rintro _ _ _ ⟨⟩
      exact (hQ₁.located rfl).measured ht
    · exact (alike hQ h₁).trans (same ▸ alike hQ₂ hv)

theorem Tending.ok {v : Val o} (h : Tending env owner remote t id s w) (hn : Next env id c s o v s')
    (ha : (holdingContract env owner remote t id c).act w o (.ok v) w') :
    Tending env owner remote t id s' w' := by
  have ahead := hn.ahead
  have folder := hn.folder
  have backed := h.backed
  obtain ⟨hsound, ch, hc, hans⟩ := ha.2
  cases hn with
  | missing => exact h.call ha (List.nil_subset _) (fun _ h => absurd h (by simp [Stage.folder, Stage.spot])) trivial
  | found d =>
    obtain ⟨hrow, hsame⟩ := call_find hc
    refine ⟨fun folder hfolder y hy => ?_, trivial⟩
    obtain rfl : d.folderName = folder := by simpa [Stage.folder] using hfolder
    obtain ⟨hm, -⟩ : y ∈ d.files.zipIdx ∧ y.1.status ≠ .COMPLETED := by
      simpa [Stage.ahead, Stage.spot, Stage.rest] using hy
    have hf : d.files[y.2]? = some y.1 := List.mem_zipIdx_iff_getElem?.mp hm
    rw [hsame]
    refine ⟨Table.lt_next hrow, hsound.sized id d hrow y.1 (List.mem_of_getElem? hf), fun place hp => ?_,
      hsound.owned id d hrow y.1 (List.mem_of_getElem? hf)⟩
    rw [State.placeAt_of hrow hf] at hp
    exact (Option.some.inj hp).symm
  | delay x =>
    refine ⟨fun folder hfolder y hy => ?_, trivial⟩
    have old := fun y hy => (h.ahead folder hfolder y hy).after (holding_places ha)
    rcases List.mem_cons.mp hy with rfl | hy
    · have hx := old (x.file, x.index) List.mem_cons_self
      exact ⟨hx.known, hx.size, hx.place, hx.owned⟩
    · exact old y (List.mem_cons_of_mem _ hy)
  | unknown x hx => exact h.call ha (ahead (by simp) (by simp)) (folder (by simp)) rfl
  | probe x n hx =>
    rw [call_probeSize] at hc
    have found : ch.size = some n := by simpa using congrArg Prod.fst hc
    have right : n = (remote x.file.url).length := by simpa [Answered, found] using hans
    exact h.call ha (ahead (by simp) (by simp)) (folder (by simp)) right
  | store x n => exact h.call ha (ahead (by simp) (by simp)) (folder (by simp)) (by simpa [Stage.Backed] using backed)
  | room x probed bytes hb => exact h.call ha (ahead (by simp) (by simp)) (folder (by simp)) backed
  | begin x destination size hd =>
    obtain ⟨d, f, hrow, hf, hrow'⟩ := call_updateFile hc
    have place := (h.located rfl).place _ (State.placeAt_of hrow hf)
    have after : w'.state.placeAt id x.index = some (d.place f) := by
      rw [State.placeAt_of hrow' (f := FileChange.begin.apply f) (by simp [hf])]
      rfl
    refine h.call ha (ahead (by simp) (by simp)) (folder (by simp)) ⟨backed, hd, ?_⟩
    rw [holding_trace ha, fetching_own]
    exact fetchingAfter_begin after (by rw [place]; exact hd)
  | look s row hp =>
    cases s <;> first
      | (cases hp; done)
      | exact h.call ha (ahead (by simp) (by simp)) (folder (by simp)) trivial
  | tell s event hp =>
    cases s <;> first
      | (cases hp; done)
      | exact h.call ha (ahead (by simp [Stage.onShow]) (by simp [Stage.onShow]))
          (folder (by simp [Stage.onShow])) trivial
  | _ => exact h.call ha (ahead (by simp) (by simp)) (folder (by simp)) trivial

theorem tending_outline : Outline (holdingContract env owner remote t id c) env id c
    (Tending env owner remote t id) where
  stable _ _ _ hr h := h.stable hr
  silent hs h := by
    refine ⟨fun folder hfolder x hx => h.ahead folder (hs.folder folder hfolder) x (hs.ahead hx), ?_⟩
    cases hs with
    | known x n hn =>
      have hx := (h.located rfl).size
      rwa [hn] at hx
    | _ => trivial
  guar hn h ha := by
    cases hn with
    | store x n =>
      refine .of_measured rfl (by simp) ?_
      rintro _ _ _ ⟨⟩
      exact (h.located rfl).measured (by simpa [Stage.Backed] using h.backed)
    | complete x result =>
      obtain ⟨destination, hres, -, hcontent, hbytes⟩ := h.backed
      refine ⟨?_, ?_, fun _ ho => by cases ho⟩
      · rintro _ _ _ ⟨⟩
        exact (h.located rfl).measured (by simp [hbytes])
      · rintro _ _ _ ⟨⟩ place destination' hp hd
        obtain rfl := (h.located rfl).place place hp
        obtain rfl : destination = destination' := Except.ok.inj (hres.symm.trans hd)
        exact hcontent
    | _ => exact .quiet rfl rfl
  ok hn h ha := h.ok hn ha
  error {s o v s' w e w'} hn h ha := h.call ha (s.onError_ahead e) (s.onError_folder e) (s.onError_backed e)
  fetch x destination size := by
    intro w hw
    have hres := hw.backed.2.1
    refine (fetchFile_safe (tending_serves hw) hw).mono ?_
    rintro (e | result) v hv
    · exact ⟨hv.ahead, trivial⟩
    · exact ⟨hv.1.ahead, destination, hres, hv.1.backed.2.2, hv.2.1, hv.2.2⟩

end

/-- The paths and the sizes are right, and every completed file holds its own content. -/
structure Orderly (env : Env) (owner : Str → Option Holding) (remote : Str → Bytes) (p : DownloadPool) :
    Prop where
  slots : SlotsKept env p
  sound : Sound env owner remote p.state
  own : OwnContent env remote p.toWorld

section
variable {env : Env} {owner : Str → Option Holding} {remote : Str → Bytes} {p : DownloadPool} {t : Nat}

/-- Exclusive from workers and progress writes, no task names a size. -/
theorem unmeasured {o : Op} {k : Task} (made : o.MadeBy k) (counted : o.CountedBy k)
    (hw : ∀ id c, k ≠ .worker id c) (hp : ∀ x, k ≠ .progress x) : o.measures = none := by
  cases o with
  | report => exact absurd made.choose_spec (hw _ _)
  | updateFile id index change =>
    cases change with
    | size => exact absurd made.choose_spec (hw _ _)
    | complete => exact absurd made.choose_spec (hw _ _)
    | progress => exact absurd counted.choose_spec (hp _)
    | _ => rfl
  | _ => rfl

theorem holding_safe (env : Env) {th : DownloadThread} {w : DownloadWorld} (h : Begins env th)
    (hp : ∀ x, th.kind ≠ .progress x) : (holdings env owner remote).discipline.SafeThread t th w := by
  have other (hw : ∀ id c, th.kind ≠ .worker id c) :
      (holdings env owner remote).discipline.SafeThread t th w := by
    refine .of_uses (fun v o r v' ho _ => ?_) (h.uses.and (h.counted hw))
    refine .of_writes (unmeasured ho.1 ho.2 hw hp) fun hk => ?_
    generalize th.kind = k at hk hw
    cases k <;> first | exact absurd rfl (hw _ _) | cases hk
  cases h with
  | worker id c =>
    exact (tending_outline.program_safe ⟨fun _ h => absurd h (by simp [Stage.folder, Stage.spot]), trivial⟩).mono
      fun _ _ _ => trivial
  | _ => exact other (by simp)

/-- A progress write stores the total that it was given. -/
theorem persistProgress_measures (previous total : Option Nat) (id index bytes : Nat) :
    (persistProgress previous id index bytes total).program.Uses fun o =>
      ∀ m, o.measures = some m → m = (id, index, total) := by
  have none {o : Op} (ho : o.measures = none) : ∀ m, o.measures = some m → m = (id, index, total) :=
    fun m hm => by rw [ho] at hm; cases hm
  have write : (tryCatch (do
      op (.updateFile id index (.progress bytes total))
      recomputeTotals id
      publishDownload id .progress) fun _ => pure () : Flow Unit).run.Uses fun o =>
        ∀ m, o.measures = some m → m = (id, index, total) := by
    refine .tryCatch (.except_bind (.invoke fun m hm => (Option.some.inj hm).symm) fun _ => ?_) fun _ => trivial
    refine .except_bind (.except_bind (.invoke (none rfl)) fun _ => .invoke (none rfl)) fun _ => ?_
    exact (publishDownload_reads _).mono fun o ho => none (by cases o <;> first | exact ho.elim | rfl)
  refine .bind ?_ fun _ => trivial
  cases previous with
  | none => exact write
  | some ticket => exact .except_bind (.invoke (none rfl)) fun _ => write

theorem progress_safe {x id index bytes : Nat} {previous total : Option Nat} {w : DownloadWorld}
    (hm : Measured remote w.state id index total) : (holdings env owner remote).discipline.SafeThread t
      ⟨.progress x, (persistProgress previous id index bytes total).program⟩ w := by
  refine (Program.Safe.of_uses_keeping (φ := fun v : DownloadWorld => Measured remote v.state id index total)
    (fun v v' hr hv => ?_) (fun v o r v' ho hv ha => ?_)
    ((persistProgress_measures previous total id index bytes).and
      (persistProgress_progresses previous index bytes total)) hm).mono fun _ _ _ => trivial
  · exact History.rely_induct (φ := fun v : DownloadWorld => Measured remote v.state id index total)
      (fun v e hv hb _ hp => hv.after (hb ▸ hp.1)) hr hv
  · obtain ⟨-, -, ch, hc, -⟩ := ha
    have places := call_samePlaces v.state o ch
    rw [hc] at places
    obtain ⟨hm, hp⟩ := ho
    refine ⟨.of_measured ?_ ?_ fun id' index' total' e => ?_, hv.after places⟩
    · cases o <;> first | rfl | exact hp.elim
    · rintro id' index' n rfl
      exact hp
    · cases hm _ e
      exact hv

theorem Task.works_slot {k : Task} (h : k.works = true) : k.slot = true := by
  cases k <;> first | rfl | cases h

theorem Alike.remove {destination path : Str} (hf : path ≠ destination)
    (hp : path ≠ partPathFor destination) (disk : Disk Str UInt8) :
    Alike destination disk (disk.remove path) :=
  ⟨Disk.remove_links_of_ne disk hp.symm, Disk.content_remove_of_ne disk hp.symm,
    Disk.content_remove_of_ne disk hf.symm⟩

theorem holdings_keeps (hc : env.concurrency = 1) : (holdings env owner remote).Keeps (system env)
    (fun p l => Unchanging remote p l ∧ Exclusive env owner p l ∧ Undisturbed env p l) (Orderly env owner remote) where
  may {p t k o rest c r s ths} hI hok ht he := by
    have answered := hok.1
    simp only [Unchanging, OnCall, ht] at answered
    exact ⟨hI.sound, c, (system_exec he).2.1, answered⟩
  exec {p t k o rest c r s ths} hI hok ht he hg := by
    have made : o.MadeBy k := (hI.slots.uses t _ ht).1
    obtain ⟨-, hcall, rfl⟩ := system_exec he
    have separates : o.Separates env owner := by simpa only [Exclusive, OnCall, ht] using hok.2.1
    have places : SamePlaces p.state s := by
      have := call_samePlaces p.state o c
      rwa [hcall] at this
    refine ⟨⟨hI.slots.exec ht he, ?_, ?_⟩, fun t' th hne hth => ⟨places, fun hw destination hd => ?_⟩,
      fun th hth t' _ => ?_⟩
    · rw [Pool.didCall_state]
      exact hI.sound.call hcall made hg separates
    · rw [Pool.didCall_world]
      exact OwnContent.call hcall made hg hI.sound hI.own separates
    · cases ho : o.onDisk with
      | false =>
        have := call_disk p.state c ho
        rw [hcall] at this
        simp only [Event.before, Event.after, show s.disk = p.state.disk from this]
        exact .refl _ _
      | true =>
        cases hk : k.works with
        | true => exact absurd (hI.slots.one_worker hc.le hth ht (Task.works_slot hw) (Task.works_slot hk)) hne
        | false =>
          obtain ⟨path, rfl, -, ⟨-, rfl⟩ | ⟨-, hdisk⟩⟩ := call_removes hcall made hk ho
          · exact .refl _ _
          · have undisturbed := hok.2.2
            simp only [Undisturbed, OnCall, ht] at undisturbed
            obtain ⟨hf, hp⟩ := undisturbed hk path rfl t' (hI.slots.fresh.lt hth)
              (by rw [kindAt_of hth]; exact hw) destination hd
            simp only [Event.before, Event.after, hdisk]
            exact .remove hf hp _
    · cases o <;> simp only [reported, List.not_mem_nil] at hth
      case report id index bytes total =>
        split at hth
        · exact absurd hth List.not_mem_nil
        · rw [List.mem_singleton.mp hth]
          exact progress_safe ((hg.measured id index total rfl).after places)
  finish {p t k a} hI _ ht _ := by
    refine ⟨⟨hI.slots.finish ht, ?_, ?_⟩, fun _ _ _ _ => ⟨.of_rows rfl, fun _ _ _ => .refl _ _⟩,
      fun th hth _ _ => holding_safe env ((system_begins env).finish _ _ _ th hth)
        ((after_chains env p.state.memory k a).1 th hth)⟩
    · rw [Pool.didEnd_state]
      exact hI.sound.silent rfl rfl
    · rw [Pool.didEnd_world]
      exact hI.own.silent rfl rfl fun _ _ => rfl
  external {p x s dies ths} hI _ he := by
    obtain ⟨hrows, hdisk⟩ := arrive_keeps he
    refine ⟨⟨hI.slots.external he, ?_, ?_⟩, fun _ _ _ _ => ⟨.of_rows hrows, fun _ _ _ => ?_⟩,
      fun th hth _ _ => holding_safe env ((system_begins env).external he th hth) fun ticket => ?_⟩
    · rw [Pool.didOuter_state]
      exact hI.sound.silent hrows hdisk
    · rw [Pool.didOuter_world]
      exact hI.own.silent hrows hdisk fun _ _ => rfl
    · simp only [Event.before, Event.after, hdisk]
      exact .refl _ _
    · obtain ⟨r, rfl⟩ | rfl := (arrives he).spawned hth <;> simp

end

/-- With one slot, as long as every path is used for one url and no request removes what a worker is
fetching, every completed file holds what its own url serves, or has been deleted. -/
theorem own_content (env : Env) (hc : env.concurrency = 1) (owner : Str → Option Holding)
    (remote : Str → Bytes) {s : State} (hs : s.Down) (hsound : Sound env owner remote s)
    (hown : OwnContent env remote ⟨s, []⟩) {p : DownloadPool}
    (hr : (system env).Runs (fun p l => Unchanging remote p l ∧ Exclusive env owner p l ∧ Undisturbed env p l)
      (.initial s) p) : OwnContent env remote p.toWorld :=
  ((holdings_keeps hc).keeps.safe ⟨.initial env hs, hsound, hown⟩ (Discipline.allSafe_initial _ s) hr).1.own

instance (R : Bytes) (offset : Nat) (response : Response) : Decidable (Reliable R offset response) :=
  decidable_of_iff (Honest R offset response ∧
      (response.status = 200 → (totalFromHeaders response 0).all (· = R.length) = true) ∧
      (response.status = 206 → (totalFromHeaders response offset).all (· = R.length) = true))
    ⟨fun ⟨a, b, c⟩ => ⟨a, b, c⟩, fun ⟨a, b, c⟩ => ⟨a, b, c⟩⟩

instance (remote : Str → Bytes) (c : Choice) (o : Op) : Decidable (Answered remote c o) := by
  cases o <;> unfold Answered <;> infer_instance

instance (env : Env) (owner : Str → Option Holding) (place : Place) : Decidable (place.Owned env owner) :=
  match h : place.destination env with
  | .ok destination => decidable_of_iff (owner destination = some (.file place.url) ∧
      owner (partPathFor destination) = some (.part place.url))
      ⟨fun own destination' hd => by cases h.symm.trans hd; exact own, fun own => own destination h⟩
  | .error _ => isTrue fun _ hd => by cases h.symm.trans hd

instance (env : Env) (owner : Str → Option Holding) (o : Op) : Decidable (o.Separates env owner) := by
  cases o
  case createDownload row =>
    exact decidable_of_iff (∀ f ∈ row.files, (row.place f).Owned env owner)
      ⟨fun own row' e => by cases e; exact own, fun own => own row rfl⟩
  all_goals exact isTrue fun _ e => by cases e

def onCall (f : Task → Op → Choice → Bool) (p : DownloadPool) : DownloadLabel → Bool
  | .exec t c =>
    match p.threads t with
    | some ⟨k, .call o _⟩ => f k o c
    | _ => true
  | _ => true

theorem onCall_onCall {φ : Task → Op → Choice → Prop} {f : Task → Op → Choice → Bool} {p : DownloadPool}
    {l : DownloadLabel} (hf : ∀ k o c, f k o c = true → φ k o c) (h : onCall f p l = true) :
    OnCall φ p l := by
  cases l with
  | exec t c =>
    rcases ht : p.threads t with _ | ⟨k, _ | ⟨o, rest⟩⟩ <;> simp only [OnCall, onCall, ht] at h ⊢
    exact hf k o c h
  | _ => trivial

def unchanging (remote : Str → Bytes) : DownloadPool → DownloadLabel → Bool :=
  onCall fun _ o c => decide (Answered remote c o)

def exclusive (env : Env) (owner : Str → Option Holding) : DownloadPool → DownloadLabel → Bool :=
  onCall fun _ o _ => decide (o.Separates env owner)

def undisturbed (env : Env) (p : DownloadPool) : DownloadLabel → Bool :=
  onCall (fun k o _ => k.works || o.removes.all fun path => (List.range p.next).all fun u =>
    !(p.kindAt u).any Task.works || (fetching env u p.trace).all fun destination =>
      path ≠ destination && path ≠ partPathFor destination) p

theorem unchanging_unchanging {remote : Str → Bytes} {p : DownloadPool} {l : DownloadLabel}
    (h : unchanging remote p l = true) : Unchanging remote p l :=
  onCall_onCall (fun _ _ _ => of_decide_eq_true) h

theorem exclusive_exclusive {env : Env} {owner : Str → Option Holding} {p : DownloadPool}
    {l : DownloadLabel} (h : exclusive env owner p l = true) : Exclusive env owner p l :=
  onCall_onCall (fun _ _ _ => of_decide_eq_true) h

theorem undisturbed_undisturbed {env : Env} {p : DownloadPool} {l : DownloadLabel}
    (h : undisturbed env p l = true) : Undisturbed env p l := by
  refine onCall_onCall (fun k o c hf hk path hpath u hu hw destination hd => ?_) h
  simp only [hk, Bool.false_or, Option.all_eq_true, List.all_eq_true, List.mem_range] at hf
  have free := hf path hpath u hu
  rw [hw, Bool.not_true, Bool.false_or] at free
  simpa using Option.all_eq_true _ _ |>.mp free destination hd

/-- One destination, used for one url. -/
def onlyFile (url destination : Str) (path : Str) : Option Holding :=
  if path = destination then some (.file url)
  else if path = partPathFor destination then some (.part url)
  else none

/-- A post with one file. -/
def postOf (url : Str) : Titles.RawPost where
  name := some ['G']
  type := some "singleFile".toList
  content := .text url

/-- A request creates a job as thread `t`. -/
def createFrom (t id : Nat) (url : Str) : List DownloadLabel :=
  [.external (.request (.create id [])), .exec t {}, .exec t { post := .ok (postOf url) }] ++ calls t 2 ++
    [.finish t]

/-- Two jobs are created, and the first starts as thread `5`. -/
def twoCreated (url url' : Str) : List DownloadLabel :=
  .external .boot :: calls 0 2 ++ [.finish 0] ++ calls 1 1 ++ [.finish 1] ++ createFrom 2 1 url ++
    createFrom 4 2 url' ++ calls 3 2 ++ [.finish 3]

/-- The first job fetches a byte, and the second, as thread `9`, comes to its file. -/
def fetchThenSkip : List DownloadLabel :=
  calls 5 10 ++ [.exec 5 { response := { body := [1] } }] ++ calls 5 19 ++ [.finish 5, .finish 6, .finish 7] ++
    calls 8 2 ++ [.finish 8] ++ calls 9 10

/-- The first job breaks off after a byte and fails; its files are deleted while the second, as thread
`9`, goes on from the part file. -/
def deleteThenResume : List DownloadLabel :=
  calls 5 10 ++ [.exec 5 { response := { body := [1], ending := some "reset" } }] ++ calls 5 13 ++
    [.finish 5, .finish 6, .finish 7] ++ calls 8 2 ++ [.finish 8] ++ calls 9 10 ++
    [.external (.request (.delete 0 true))] ++ calls 10 3 ++
    [.exec 9 { response := { status := 206, body := [2] } }] ++ calls 9 6

/-- A completed file whose destination holds other bytes than its url serves. -/
def strange (env : Env) (remote : Str → Bytes) (s : State) (id index : Nat) (destination : Str) : Bool :=
  (s.downloads.rows id).any fun d => (d.files[index]?).any fun f => decide (f.status = .COMPLETED) &&
    decide ((d.place f).destination env = .ok destination) &&
    (s.disk.content destination).any (· ≠ remote f.url)

theorem OwnContent.not_strange {env : Env} {remote : Str → Bytes} {w : DownloadWorld} {id index : Nat}
    {destination : Str} (h : OwnContent env remote w) :
    strange env remote w.state id index destination = false := by
  by_contra hs
  rw [Bool.not_eq_false] at hs
  obtain ⟨d, hd, hs⟩ := Option.any_eq_true _ _ |>.mp hs
  obtain ⟨f, hf, hs⟩ := Option.any_eq_true _ _ |>.mp hs
  simp only [Bool.and_eq_true, decide_eq_true_eq] at hs
  obtain ⟨⟨hst, hdest⟩, hs⟩ := hs
  obtain ⟨b, hb, hne⟩ := Option.any_eq_true _ _ |>.mp hs
  rcases h id index d f destination hd hf hst hdest with hc | ⟨hc, -⟩
  · obtain rfl : b = remote f.url := Option.some.inj (hb.symm.trans hc)
    simp at hne
  · cases hb.symm.trans hc

/-- The second job finds the file of the first one, which is from another url. -/
theorem foreign_file_adopted : ¬ ∀ (env : Env) (remote : Str → Bytes) (s : State) (p : DownloadPool),
    env.concurrency = 1 → s.Down → (∀ id, s.downloads.rows id = none) →
    (∀ path, s.disk.content path = none) →
    (system env).Runs (Unchanging remote) (.initial s) p → OwnContent env remote p.toWorld := by
  intro h
  let remote : Str → Bytes := fun url => if url = "u/v".toList then [1] else [2]
  have hrun : ((system (.small 1)).replay (unchanging remote) (.initial noJobs)
      (twoCreated "u/v".toList "w/v".toList ++ fetchThenSkip)).any (fun p =>
        strange (.small 1) remote p.state 1 0 "/m/G/v".toList) = true := by decide +kernel
  obtain ⟨p, hp, hn⟩ := Option.any_eq_true _ _ |>.mp hrun
  have own := h (.small 1) remote noJobs p rfl noJobs_down (fun _ => rfl) (fun _ => rfl)
    ((system (.small 1)).replay_runs (fun _ _ => unchanging_unchanging) hp)
  exact absurd hn (by simp [own.not_strange])

/-- Even when both jobs fetch one url, a deletion at the wrong moment leaves the rest for the whole. -/
theorem rest_for_whole : ¬ ∀ (env : Env) (owner : Str → Option Holding) (remote : Str → Bytes) (s : State)
    (p : DownloadPool), env.concurrency = 1 → s.Down → (∀ id, s.downloads.rows id = none) →
    (∀ path, s.disk.content path = none) →
    (system env).Runs (fun p l => Unchanging remote p l ∧ Exclusive env owner p l) (.initial s) p →
    OwnContent env remote p.toWorld := by
  intro h
  let remote : Str → Bytes := fun _ => [1, 2]
  let owner := onlyFile "u/v".toList "/m/G/v".toList
  have hrun : ((system (.small 1)).replay (fun p l => unchanging remote p l && exclusive (.small 1) owner p l)
      (.initial noJobs) (twoCreated "u/v".toList "u/v".toList ++ deleteThenResume)).any (fun p =>
        strange (.small 1) remote p.state 1 0 "/m/G/v".toList) = true := by decide +kernel
  obtain ⟨p, hp, hn⟩ := Option.any_eq_true _ _ |>.mp hrun
  have own := h (.small 1) owner remote noJobs p rfl noJobs_down (fun _ => rfl) (fun _ => rfl)
    ((system (.small 1)).replay_runs (fun _ _ h =>
      (Bool.and_eq_true_iff.mp h).imp unchanging_unchanging exclusive_exclusive) hp)
  exact absurd hn (by simp [own.not_strange])

/-- Nothing is there yet. -/
theorem noJobs_sound (env : Env) (owner : Str → Option Holding) (remote : Str → Bytes) :
    Sound env owner remote noJobs ∧ OwnContent env remote ⟨noJobs, []⟩ :=
  ⟨⟨fun _ _ h => (Option.some_ne_none _ h.symm).elim, fun _ _ h => (Option.some_ne_none _ h.symm).elim,
    fun _ _ _ => ⟨fun _ h => (Option.some_ne_none _ h.symm).elim, fun _ h => (Option.some_ne_none _ h.symm).elim⟩⟩,
    fun _ _ _ _ _ h => (Option.some_ne_none _ h.symm).elim⟩

/-- Two jobs share a url and the file. -/
theorem own_content_shared : ∃ p, (system (.small 1)).Runs (fun p l => Unchanging (fun _ => [1]) p l ∧
      Exclusive (.small 1) (onlyFile "u/v".toList "/m/G/v".toList) p l ∧ Undisturbed (.small 1) p l) (.initial noJobs) p ∧
    Completed p.state 0 0 ∧ Completed p.state 1 0 ∧ p.state.disk.content "/m/G/v".toList = some [1] ∧
    OwnContent (.small 1) (fun _ => [1]) p.toWorld := by
  have hrun : ((system (.small 1)).replay (fun p l => unchanging (fun _ => [1]) p l &&
      (exclusive (.small 1) (onlyFile "u/v".toList "/m/G/v".toList) p l && undisturbed (.small 1) p l)) (.initial noJobs)
      (twoCreated "u/v".toList "u/v".toList ++ fetchThenSkip)).any (fun p => Completed p.state 0 0 ∧
        Completed p.state 1 0 ∧ p.state.disk.content "/m/G/v".toList = some [1]) = true := by decide +kernel
  obtain ⟨p, hp, hn⟩ := Option.any_eq_true _ _ |>.mp hrun
  obtain ⟨first, second, hdisk⟩ := of_decide_eq_true hn
  have hr := (system (.small 1)).replay_runs (fun _ _ h => (Bool.and_eq_true_iff.mp h).imp unchanging_unchanging
    fun h => (Bool.and_eq_true_iff.mp h).imp exclusive_exclusive undisturbed_undisturbed) hp
  obtain ⟨sound, own⟩ := noJobs_sound (.small 1) (onlyFile "u/v".toList "/m/G/v".toList) fun _ => [1]
  exact ⟨p, hr, first, second, hdisk, own_content (.small 1) rfl _ _ noJobs_down sound own hr⟩

end CircleFtp.Downloads
