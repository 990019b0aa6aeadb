import CircleFtp.Downloads.Chain

/-! The byte counts of a finished job: those that its transfers returned, as long as no progress
write is outstanding when a file is completed or the activation ends. -/
namespace CircleFtp.Downloads
open Concurrent Strings

/-- The two counts of a file. -/
def DownloadFile.counts (f : DownloadFile) : Nat × Option Nat := (f.downloadedBytes, f.sizeBytes)

def Download.counts (d : Download) : List (Nat × Option Nat) := d.files.map (·.counts)

/-- The totals are those of the files, and each file is as long as it is said to be. -/
structure Download.Tallied (d : Download) : Prop where
  files : ∀ f ∈ d.files, f.sizeBytes = some f.downloadedBytes
  downloaded : d.downloadedBytes = (d.files.map (·.downloadedBytes)).sum
  total : d.totalBytes = some d.downloadedBytes

/-- The completed files of the download are as long as they are said to be. -/
def Download.Measured (d : Download) : Prop :=
  ∀ f ∈ d.files, f.status = .COMPLETED → f.sizeBytes = some f.downloadedBytes

/-- The counts of what the tables hold as completed. -/
def State.Tallied (s : State) : Prop :=
  ∀ id d, s.downloads.rows id = some d → d.Measured ∧ (d.status = .COMPLETED → d.Tallied)

/-- The bytes that a completion of the file records, as its transfer returned them. -/
def completion (id index : Nat) : DownloadEvent → Option Nat
  | .did _ _ (.updateFile id' index' (.complete bytes)) (.ok _) _ _ =>
    if id' = id ∧ index' = index then some bytes else none
  | _ => none

/-- What the last transfer of the file has returned. -/
def returned (id index : Nat) (trace : List DownloadEvent) : Option Nat :=
  trace.findSome? (completion id index)

/-- The counts of a completed job are final: the totals add up, and each of its files has the count
that its transfer returned. -/
def FinalCounts (p : DownloadPool) : Prop :=
  ∀ id d, p.state.downloads.rows id = some d → d.status = .COMPLETED → d.Tallied ∧
    ∀ index f bytes, d.files[index]? = some f → f.status = .COMPLETED →
      returned id index p.trace = some bytes → f.downloadedBytes = bytes ∧ f.sizeBytes = some bytes

def FileChange.counting : FileChange → Bool
  | .size _ | .progress _ _ | .complete _ => true
  | _ => false

/-- The download whose counts a call writes. -/
def Op.counting : Op → Option Nat
  | .updateDownload id (.totals _ _) => some id
  | .updateFile id _ change => if change.counting then some id else none
  | _ => none

structure Download.SameCounts (d d' : Download) : Prop where
  files : d'.counts = d.counts
  downloaded : d'.downloadedBytes = d.downloadedBytes
  total : d'.totalBytes = d.totalBytes

theorem FileChange.apply_counts {change : FileChange} (h : change.counting = false) (f : DownloadFile) :
    (change.apply f).counts = f.counts := by
  cases change <;> first | rfl | cases h

section
variable {s s' : State} {id index : Nat} {o : Op} {c : Choice} {r : Reply o} {d d' : Download}

theorem RowStep.counts (h : RowStep id d o (some d'))
    (ho : ∀ change, o = .updateFile id index change → change.counting = false) :
    d'.counts[index]? = d.counts[index]? := by
  have mapped {f : DownloadFile → DownloadFile} (hf : ∀ x, (f x).counts = x.counts) :
      ((d.files.map f).map (·.counts))[index]? = d.counts[index]? := by
    rw [List.map_map]
    exact congrArg (·[index]?) (List.map_congr_left fun x _ => hf x)
  cases h with
  | update change => cases change <;> rfl
  | file i change =>
    simp only [Download.counts, List.getElem?_map, List.getElem?_modify]
    by_cases e : i = index
    · subst e
      have same := FileChange.apply_counts (ho change rfl)
      cases d.files[i]? <;> simp [same]
    · simp [e]
  | cancelFiles running =>
    refine mapped fun x => ?_
    split <;> rfl
  | requeue =>
    refine mapped fun x => ?_
    split <;> rfl
  | claim => rfl
  | requeueRunning => rfl
  | resetFiles =>
    refine mapped fun x => ?_
    split <;> rfl

theorem RowStep.sameCounts (h : RowStep id d o (some d')) (ho : o.counting ≠ some id) :
    d.SameCounts d' where
  files := List.ext_getElem? fun i => h.counts fun change e => by
    subst e
    simpa [Op.counting] using ho
  downloaded := by
    cases h with
    | update change => cases change <;> first | rfl | exact absurd rfl ho
    | _ => rfl
  total := by
    cases h with
    | update change => cases change <;> first | rfl | exact absurd rfl ho
    | _ => rfl

theorem Download.SameCounts.refl (d : Download) : d.SameCounts d := ⟨rfl, rfl, rfl⟩

theorem call_sameCounts (hc : call s o c = (r, s')) (hd : s.downloads.rows id = some d)
    (hd' : s'.downloads.rows id = some d') (ho : o.counting ≠ some id) : d.SameCounts d' := by
  rcases call_row hc hd with hsame | ⟨-, hrow⟩
  · rw [hd'] at hsame
    cases hsame
    exact .refl d
  · rw [hd'] at hrow
    exact hrow.sameCounts ho

theorem call_counts (hc : call s o c = (r, s')) (hd : s.downloads.rows id = some d)
    (hd' : s'.downloads.rows id = some d')
    (ho : ∀ change, o = .updateFile id index change → change.counting = false) :
    d'.counts[index]? = d.counts[index]? := by
  rcases call_row hc hd with hsame | ⟨-, hrow⟩
  · rw [hd'] at hsame
    cases hsame
    rfl
  · rw [hd'] at hrow
    exact hrow.counts ho

theorem Download.SameCounts.tallied (h : d.SameCounts d') (ht : d.Tallied) : d'.Tallied := by
  have counts : d'.files.map (·.downloadedBytes) = d.files.map (·.downloadedBytes) := by
    have := congrArg (List.map Prod.fst) h.files
    simpa [Download.counts, DownloadFile.counts, Function.comp_def] using this
  refine ⟨fun f hf => ?_, ?_, ?_⟩
  · have : f.counts ∈ d.counts := h.files ▸ List.mem_map_of_mem hf
    obtain ⟨g, hg, he⟩ := List.mem_map.mp this
    have := ht.files g hg
    simp only [DownloadFile.counts, Prod.mk.injEq] at he
    rwa [he.1, he.2] at this
  · rw [h.downloaded, ht.downloaded, counts]
  · rw [h.total, h.downloaded, ht.total]

end

/-- The counts of the row are those of the files that the worker has read. -/
def Download.Agrees (d : Download) (files : List DownloadFile) : Prop :=
  d.counts = files.map (·.counts) ∧ ∀ f ∈ files, f.status = .COMPLETED → f.sizeBytes = some f.downloadedBytes

namespace Stage

/-- After the worker has waited for its progress writes, until it writes the outcome. -/
def quiet : Stage → Bool
  | .settled _ | .decided _ _ | .cleaned _ _ | .totalled _ _ _ | .finishing _ _ => true
  | _ => false

/-- Before that, or after it. -/
def loud : Stage → Bool
  | .awaiting _ _ | .awaited _ => false
  | s => !s.quiet

/-- What the worker knows of its chain. -/
def Chained (s : Stage) (id : Nat) (m : Memory) : Prop :=
  match s with
  | .awaiting _ ticket => m.progressWrites id = some ticket
  | .awaited _ => ∃ ticket, m.progressWrites id = some ticket ∧ m.settled ticket = true
  | s => s.quiet = true → m.progressWrites id = none

/-- What the worker knows of the counts of its row. -/
def Counts (s : Stage) (d : Download) : Prop :=
  match s with
  | .decided _ files | .cleaned _ files => d.Agrees files
  | .totalled _ files latest => d.Agrees files ∧ latest.map (·.counts) = files.map (·.counts)
  | .finishing _ files => d.Agrees files ∧ (DownloadChange.sums files).apply d = d
  | _ => True

/-- The files that are not completed: the one that the worker is about to fetch or fetches, and the
ones after it. -/
def unset (s : Stage) : List Nat :=
  (match s with
    | .checked x | .probed x _ | .sized x _ | .cleared x _ | .trying x _ _ | .fetched x _
    | .waiting x => [x.index]
    | _ => []) ++ (s.rest.filter (·.1.status ≠ .COMPLETED)).map Prod.snd

end Stage

structure Counting (id : Nat) (s : Stage) (w : DownloadWorld) : Prop where
  nodup : s.indices.Nodup
  known : id < w.state.downloads.next
  opened : s.live = true → ¬ Finished w.state id
  unset : ∀ i ∈ s.unset, ¬ Completed w.state id i
  chain : s.Chained id w.state.memory
  counts : ∀ d, w.state.downloads.rows id = some d → s.Counts d

/-- What the others leave to the worker of a job. -/
structure Meanwhile (id : Nat) (s s' : State) : Prop where
  next : s.downloads.next ≤ s'.downloads.next
  chain : s'.memory.progressWrites id = s.memory.progressWrites id
  settled : ∀ ticket, s.memory.settled ticket = true → s'.memory.settled ticket = true
  finished : Finished s' id → Finished s id
  completed : ∀ i, Completed s' id i → Completed s id i
  counts : id < s.downloads.next → s.memory.progressWrites id = none →
    ∀ d', s'.downloads.rows id = some d' → ∃ d, s.downloads.rows id = some d ∧ d.SameCounts d'

/-- What the worker takes care of. -/
structure Careful (s : State) (o : Op) : Prop where
  report : ∀ id index n total, o = .report id index n total →
    ¬ Completed s id index ∧ ¬ Finished s id
  forget : ∀ id, o = .forgetProgress id → Settled s id
  size : ∀ id index n, o = .updateFile id index (.size n) → ¬ Completed s id index
  finish : ∀ id error, o = .updateDownload id (.finish .COMPLETED error) →
    s.memory.progressWrites id = none ∧ ∀ d, s.downloads.rows id = some d → d.Tallied
  counting : ∀ id, o.counting = some id → ¬ Finished s id

def tallies : Ledger State Task Op Reply Arrival Result where
  admits _ k _ e := ∀ id c, k = .worker id c → Meanwhile id e.before e.after
  may _ k w o r s := blocked w.state o = false ∧ (∃ c, call w.state o c = (r, s)) ∧ o.MadeBy k ∧
    ∀ id d, w.state.downloads.rows id = some d → d.Measured
  guar _ k w o _ _ := o.CountedBy k ∧ ((∃ id c, k = .worker id c) → Careful w.state o)
  post _ _ _ _ := True

section
variable {env : Env} {t id c : Nat} {s s' : Stage} {w w' : DownloadWorld} {o : Op} {r : Reply o}
  {d d' : Download}

abbrev tallyContract (t id c : Nat) : Contract DownloadWorld Op Reply :=
  tallies.discipline.contract t (.worker id c)

theorem Stage.Chained.quiet {m : Memory} (h : s.Chained id m) (hq : s.quiet = true) :
    m.progressWrites id = none := by
  cases s <;> first | exact h hq | cases hq

theorem Stage.Counts.of_not_quiet (h : s.quiet = false) : s.Counts d := by
  cases s <;> trivial

theorem sums_apply {files : List DownloadFile} (h : (DownloadChange.sums files).apply d = d) :
    d.downloadedBytes = (files.map (·.downloadedBytes)).sum ∧ d.totalBytes =
      if files.all (·.sizeBytes.isSome) then some (files.map (·.sizeBytes.getD 0)).sum else none :=
  ⟨(congrArg Download.downloadedBytes h).symm, (congrArg Download.totalBytes h).symm⟩

theorem Stage.Counts.same (h : s.Counts d) (hs : d.SameCounts d') : s.Counts d' := by
  have agrees {files : List DownloadFile} (h : d.Agrees files) : d'.Agrees files :=
    ⟨hs.files.trans h.1, h.2⟩
  cases s with
  | decided => exact agrees h
  | cleaned => exact agrees h
  | totalled => exact ⟨agrees h.1, h.2⟩
  | finishing b files =>
    refine ⟨agrees h.1, ?_⟩
    have hsum := sums_apply h.2
    rw [← hs.downloaded, ← hs.total] at hsum
    simp only [DownloadChange.sums, DownloadChange.apply, ← hsum.1, ← hsum.2]
  | _ => trivial

theorem Counting.after {v : State} (h : Counting id s w) (hm : Meanwhile id w.state v)
    (hv : w'.state = v) : Counting id s w' := by
  subst hv
  refine ⟨h.nodup, Nat.lt_of_lt_of_le h.known hm.next, fun hl hf => h.opened hl (hm.finished hf),
    fun i hi hd => h.unset i hi (hm.completed i hd), ?_, fun d' hd' => ?_⟩
  · have hchain := h.chain
    cases s <;> simp only [Stage.Chained, hm.chain] at hchain ⊢ <;> try exact hchain
    exact hchain.imp fun _ hy => ⟨hy.1, hm.settled _ hy.2⟩
  · cases hq : s.quiet with
    | false => exact .of_not_quiet hq
    | true =>
      obtain ⟨d, hd, hsame⟩ := hm.counts h.known (h.chain.quiet hq) d' hd'
      exact (h.counts d hd).same hsame

theorem Counting.stable (h : Counting id s w) (hr : (tallyContract t id c).rely w w') :
    Counting id s w' :=
  History.rely_induct (fun _ _ hv hb _ hp => hv.after (hb ▸ hp id c rfl) rfl) hr h

/-- A call of the worker that writes nothing but what the stage after it allows. -/
theorem Counting.call (h : Counting id s w) (ha : (tallyContract t id c).act w o r w')
    (hn : s'.indices.Nodup) (hl : s'.live = true → s.live = true)
    (hf : s'.live = true → ∀ error, o ≠ .updateDownload id (.finish .COMPLETED error))
    (hu : ∀ i ∈ s'.unset, i ∈ s.unset ∧ ∀ bytes, o ≠ .updateFile id i (.complete bytes))
    (hc : s'.Chained id w'.state.memory) (hcounts : ∀ d, w'.state.downloads.rows id = some d → s'.Counts d) :
    Counting id s' w' := by
  obtain ⟨-, ⟨ch, hcall⟩, hm, -⟩ := ha.2
  have hnext := next_le hcall
  refine ⟨hn, Nat.lt_of_lt_of_le h.known hnext, fun hlive hfin => ?_, fun i hi hd => ?_, hc, hcounts⟩
  · exact h.opened (hl hlive) (hfin.before hcall hm (hf hlive))
  · obtain ⟨hi, hb⟩ := hu i hi
    refine h.unset i hi (hd.before hcall (fun d e => ?_) hb)
    subst e
    obtain ⟨⟨seasons, hk⟩, -⟩ := hm
    cases hk

theorem Silent.unset (h : Silent env s s') : s'.unset ⊆ s.unset := by
  cases h with
  | skip folder file index rest hc =>
    intro i hi
    simpa [Stage.unset, Stage.rest, hc] using hi
  | done => exact List.nil_subset _
  | unresolved x e he => exact List.subset_append_right [x.index] _
  | next x => exact fun _ h => h
  | _ => exact fun _ h => h

/-- No file of which the worker knows it not to be completed is new, unless it reads the row or puts
the file back. -/
theorem Next.unset {v : Val o} (h : Next env id c s o v s') (hr : s ≠ .reading)
    (hp : ∀ x, s ≠ .pausing x) : s'.unset ⊆ s.unset := by
  cases h with
  | missing => exact absurd rfl hr
  | found => exact absurd rfl hr
  | pend x => exact absurd rfl (hp x)
  | look s row h => cases s <;> exact fun _ h => h
  | stop => exact List.nil_subset _
  | giveUp => exact List.nil_subset _
  | go x row hc hr =>
    intro i hi
    simpa [Stage.unset, Stage.rest, Stage.spot, hc] using hi
  | full x => exact List.subset_append_right [x.index] _
  | complete x => exact List.subset_append_right [x.index] _
  | _ => exact fun _ h => h

/-- Outside the stages where the worker counts. -/
theorem Counting.loud (h : Counting id s w) (ha : (tallyContract t id c).act w o r w')
    (hn : s'.indices.Nodup) (hl : s'.live = true → s.live = true) (hs : s'.loud = true)
    (hf : s'.live = true → ∀ error, o ≠ .updateDownload id (.finish .COMPLETED error))
    (hu : s'.unset ⊆ s.unset) (hb : ∀ i bytes, o ≠ .updateFile id i (.complete bytes)) :
    Counting id s' w' := by
  refine h.call ha hn hl hf (fun i hi => ⟨hu hi, hb i⟩) ?_ fun d _ => ?_
  · cases s' <;> first | (cases hs; done) | exact fun hq => absurd hq Bool.false_ne_true
  · cases s' <;> trivial

theorem sums_congr {files latest : List DownloadFile} (h : latest.map (·.counts) = files.map (·.counts)) :
    DownloadChange.sums latest = DownloadChange.sums files := by
  have downloaded : latest.map (·.downloadedBytes) = files.map (·.downloadedBytes) := by
    have := congrArg (List.map Prod.fst) h
    rw [List.map_map, List.map_map] at this
    exact this
  have sizes : latest.map (·.sizeBytes) = files.map (·.sizeBytes) := by
    have := congrArg (List.map Prod.snd) h
    rw [List.map_map, List.map_map] at this
    exact this
  have all (l : List DownloadFile) : l.all (·.sizeBytes.isSome) = (l.map (·.sizeBytes)).all (·.isSome) := by
    rw [List.all_map]
    rfl
  have sum (l : List DownloadFile) : l.map (·.sizeBytes.getD 0) = (l.map (·.sizeBytes)).map (·.getD 0) := by
    rw [List.map_map]
    rfl
  simp only [DownloadChange.sums, all, sum, downloaded, sizes]

theorem Download.Agrees.counts {files : List DownloadFile} (h : d.Agrees files) :
    d.files.map (·.counts) = files.map (·.counts) := h.1

/-- The worker finds every file completed, and its totals add up. -/
theorem Download.Agrees.tallied {files : List DownloadFile} (h : d.Agrees files)
    (hs : (DownloadChange.sums files).apply d = d) (hc : ∀ f ∈ files, f.status = .COMPLETED) : d.Tallied := by
  have measured (f : DownloadFile) (hf : f ∈ d.files) : f.sizeBytes = some f.downloadedBytes := by
    have : f.counts ∈ files.map (·.counts) := h.1 ▸ List.mem_map_of_mem hf
    obtain ⟨g, hg, he⟩ := List.mem_map.mp this
    have hsize := h.2 g hg (hc g hg)
    simp only [DownloadFile.counts, Prod.mk.injEq] at he
    rwa [he.1, he.2] at hsize
  rw [← sums_congr h.counts] at hs
  obtain ⟨hdown, htotal⟩ := sums_apply hs
  refine ⟨measured, hdown, ?_⟩
  have hall : d.files.all (·.sizeBytes.isSome) = true := List.all_eq_true.mpr fun f hf => by
    rw [measured f hf]
    rfl
  have hsum : d.files.map (·.sizeBytes.getD 0) = d.files.map (·.downloadedBytes) :=
    List.map_congr_left fun f hf => by
      rw [measured f hf]
      rfl
  rw [htotal, if_pos hall, hsum, hdown]

theorem jobOutcome_completed {b : Bool} {files : List DownloadFile} (h : (jobOutcome b files).1 = .COMPLETED) :
    ∀ f ∈ files, f.status = .COMPLETED := by
  simp only [jobOutcome] at h
  split at h
  · cases h
  split at h
  · rename_i hall
    simpa using List.countP_eq_length.mp hall
  split at h <;> cases h

theorem Counting.ok {v : Val o} (h : Counting id s w) (hn : Next env id c s o v s')
    (ha : (tallyContract t id c).act w o (.ok v) w') : Counting id s' w' := by
  have nodup := hn.nodup h.nodup
  obtain ⟨hb, ⟨ch, hcall⟩, -, hmeasured⟩ := ha.2
  have unset := hn.unset
  cases hn with
  | missing =>
    exact h.loud ha nodup (fun hq => absurd hq Bool.false_ne_true) rfl
      (fun hq => absurd hq Bool.false_ne_true) (List.nil_subset _) (by simp)
  | found d =>
    obtain ⟨hrow, hsame⟩ := call_find hcall
    refine ⟨nodup, hsame ▸ h.known, fun _ => hsame ▸ h.opened rfl, fun i hi hd => ?_,
      fun hq => absurd hq Bool.false_ne_true, fun _ _ => trivial⟩
    obtain ⟨d', hd', hf⟩ := hd
    rw [hsame, hrow] at hd'
    cases hd'
    simp only [Stage.unset, Stage.rest, List.nil_append, List.mem_map, List.mem_filter, decide_eq_true_eq] at hi
    obtain ⟨⟨file, i⟩, ⟨hm, hne⟩, rfl⟩ := hi
    rw [List.mk_mem_zipIdx_iff_getElem?] at hm
    simp only [Download.completed, hm, Option.map_some, Option.some.injEq] at hf
    exact hne hf
  | look s row hp =>
    cases s <;> first
      | (cases hp; done)
      | exact h.loud ha nodup (fun h => h) rfl (by simp) (unset (by simp) (by simp)) (by simp)
  | tell s event hp =>
    cases s <;> first
      | (cases hp; done)
      | exact h.loud ha nodup (fun h => h) rfl (by simp) (unset (by simp [Stage.onShow]) (by simp [Stage.onShow]))
          (by simp)
  | complete x result =>
    refine h.call ha nodup (fun _ => rfl) (by simp) (fun i hi => ⟨unset (by simp) (by simp) hi, fun bytes e => ?_⟩)
      (fun hq => absurd hq Bool.false_ne_true) fun _ _ => trivial
    have hx : x.index ∈ x.rest.map Prod.snd := by
      cases e
      obtain ⟨y, hy, hi⟩ := List.mem_map.mp hi
      exact List.mem_map.mpr ⟨y, (List.mem_filter.mp hy).1, hi⟩
    exact (List.nodup_cons.mp h.nodup).1 hx
  | pend x message =>
    obtain ⟨d, f, hd, hf, hd'⟩ := call_updateFile hcall
    have hnext := next_le hcall
    refine ⟨nodup, Nat.lt_of_lt_of_le h.known hnext, fun _ hfin => h.opened rfl ?_, fun i hi hdone => ?_,
      fun hq => absurd hq Bool.false_ne_true, fun _ _ => trivial⟩
    · obtain ⟨d₁, hd₁, hst⟩ := hfin
      rw [hd'] at hd₁
      cases hd₁
      exact ⟨d, hd, hst⟩
    · rcases List.mem_cons.mp hi with rfl | hi
      · obtain ⟨d₁, hd₁, hst⟩ := hdone
        rw [hd'] at hd₁
        cases hd₁
        simp [Download.completed, hf, FileChange.apply] at hst
      · exact h.unset i hi (hdone.before hcall (by simp) (by simp))
  | unchained b =>
    refine h.call ha nodup (fun _ => rfl) (by simp) (fun i hi => absurd hi List.not_mem_nil) (fun _ => ?_)
      fun _ _ => trivial
    have hp := call_ok hcall
    simp only [perform, Prod.mk.injEq, Except.ok.injEq] at hp
    rw [← hp.2, hp.1]
  | chained b ticket =>
    refine h.call ha nodup (fun _ => rfl) (by simp) (fun i hi => absurd hi List.not_mem_nil) ?_
      fun _ _ => trivial
    have hp := call_ok hcall
    simp only [perform, Prod.mk.injEq, Except.ok.injEq] at hp
    show w'.state.memory.progressWrites id = some ticket
    rw [← hp.2, hp.1]
  | settle b ticket =>
    refine h.call ha nodup (fun _ => rfl) (by simp) (fun i hi => absurd hi List.not_mem_nil) ?_
      fun _ _ => trivial
    have hp := congrArg Prod.snd (call_ok hcall)
    simp only [perform] at hp
    rw [← hp]
    exact ⟨ticket, h.chain, by simpa [blocked] using hb⟩
  | forget b =>
    refine h.call ha nodup (fun _ => rfl) (by simp) (fun i hi => absurd hi List.not_mem_nil) (fun _ => ?_)
      fun _ _ => trivial
    have hp := congrArg Prod.snd (call_ok hcall)
    simp only [perform] at hp
    rw [← hp]
    exact Function.update_self ..
  | read b row =>
    obtain ⟨hrow, hsame⟩ := call_find hcall
    refine h.call ha nodup (fun _ => rfl) (by simp) (fun i hi => absurd hi List.not_mem_nil)
      (fun _ => by rw [hsame]; exact h.chain.quiet rfl) fun d hd => ?_
    rw [hsame] at hd
    obtain rfl : row = some d := hrow.symm.trans hd
    exact ⟨rfl, hmeasured id d hd⟩
  | cancelFiles files =>
    have hmem : w'.state.memory = w.state.memory := by
      have := call_memory (s := w.state) ch (o := .cancelFiles id true) (by simp) (by simp)
      rwa [hcall] at this
    refine h.call ha nodup (fun _ => rfl) (by simp) (fun i hi => absurd hi List.not_mem_nil)
      (fun _ => by rw [hmem]; exact h.chain.quiet rfl) fun d' hd' => ?_
    cases hd : w.state.downloads.rows id with
    | none => cases (call_new_row hcall hd hd').1
    | some d =>
      exact Stage.Counts.same (s := .cleaned true files) (h.counts d hd)
        (call_sameCounts hcall hd hd' (by simp [Op.counting]))
  | sumAll b files row =>
    obtain ⟨hrow, hsame⟩ := call_find hcall
    refine h.call ha nodup (fun _ => rfl) (by simp) (fun i hi => absurd hi List.not_mem_nil)
      (fun _ => by rw [hsame]; exact h.chain.quiet rfl) fun d hd => ?_
    rw [hsame] at hd
    obtain rfl : row = some d := hrow.symm.trans hd
    have hagrees := h.counts d hd
    exact ⟨hagrees, hagrees.1⟩
  | totalAll b files latest =>
    have hmem : w'.state.memory = w.state.memory := by
      have := call_memory (s := w.state) ch (o := .updateDownload id (.sums latest)) (by simp) (by simp)
      rwa [hcall] at this
    obtain ⟨d, hd, hd'⟩ := call_updateDownload hcall
    refine h.call ha nodup (fun _ => rfl) (by simp [DownloadChange.sums])
      (fun i hi => absurd hi List.not_mem_nil) (fun _ => by rw [hmem]; exact h.chain.quiet rfl)
      fun d₁ hd₁ => ?_
    rw [hd'] at hd₁
    cases hd₁
    obtain ⟨hagrees, hlatest⟩ := h.counts d hd
    refine ⟨⟨hagrees.1, hagrees.2⟩, ?_⟩
    rw [sums_congr hlatest]
    rfl
  | finish b files =>
    exact h.loud ha nodup (fun hq => absurd hq Bool.false_ne_true) rfl
      (fun hq => absurd hq Bool.false_ne_true) (List.nil_subset _) (by simp)
  | _ =>
    exact h.loud ha nodup (by simp [Stage.live]) rfl (by simp [DownloadChange.sums])
      (unset (by simp) (by simp)) (by simp)

theorem Counting.error {v : Val o} {e : Err} (h : Counting id s w) (hn : Next env id c s o v s')
    (ha : (tallyContract t id c).act w o (.error e) w') : Counting id (s.onError e) w' := by
  obtain ⟨-, ⟨ch, hcall⟩, -, -⟩ := ha.2
  have hsame := call_error hcall
  have hunset : (s.onError e).unset ⊆ s.unset := by
    cases s <;> first
      | exact fun _ h => h
      | exact List.nil_subset _
      | exact List.subset_append_right [_] _
  have hlive (hl : (s.onError e).live = true) : s.live = true := by
    cases s <;> first | rfl | cases hl
  refine ⟨s.onError_nodup e h.nodup, hsame ▸ h.known, fun hl => hsame ▸ h.opened (hlive hl),
    fun i hi => hsame ▸ h.unset i (hunset hi), ?_, fun d _ => ?_⟩
  · cases s <;> exact fun hq => absurd hq Bool.false_ne_true
  · cases s <;> trivial

theorem Counting.careful {v : Val o} (h : Counting id s w) (hn : Next env id c s o v s') :
    o.CountedBy (.worker id c) ∧ Careful w.state o := by
  have plain (hr : ∀ id index n total, o ≠ .report id index n total) (hf : ∀ id, o ≠ .forgetProgress id)
      (hsize : ∀ id index n, o ≠ .updateFile id index (.size n))
      (hfin : ∀ id error, o ≠ .updateDownload id (.finish .COMPLETED error))
      (hc : ∀ i, o.counting = some i → i = id ∧ s.live = true) : Careful w.state o :=
    ⟨fun i index n total e => absurd e (hr i index n total), fun i e => absurd e (hf i),
      fun i index n e => absurd e (hsize i index n), fun i error e => absurd e (hfin i error),
      fun i e => (hc i e).1 ▸ h.opened (hc i e).2⟩
  cases hn with
  | store x n =>
    refine ⟨trivial, nofun, nofun, fun i index m e => ?_, nofun, fun i e => ?_⟩
    · cases e
      exact h.unset x.index (List.mem_append_left _ (List.mem_singleton_self _))
    · cases e
      exact h.opened rfl
  | total x files =>
    exact ⟨.inl ⟨c, rfl⟩, plain nofun nofun nofun nofun fun i e => ⟨(Option.some.inj e).symm, rfl⟩⟩
  | totalAll b files latest =>
    exact ⟨.inl ⟨c, rfl⟩, plain nofun nofun nofun nofun fun i e => ⟨(Option.some.inj e).symm, rfl⟩⟩
  | complete x result =>
    exact ⟨trivial, plain nofun nofun nofun nofun fun i e => ⟨(Option.some.inj e).symm, rfl⟩⟩
  | forget b =>
    refine ⟨⟨c, rfl⟩, nofun, fun i e => ?_, nofun, nofun, nofun⟩
    cases e
    obtain ⟨ticket, hw, hs⟩ := h.chain
    intro ticket' hw'
    rw [hw] at hw'
    cases hw'
    exact hs
  | finish b files =>
    refine ⟨trivial, nofun, nofun, nofun, fun i error e => ?_, nofun⟩
    simp only [Op.updateDownload.injEq, DownloadChange.finish.injEq] at e
    obtain ⟨rfl, hcompleted, -⟩ := e
    refine ⟨h.chain.quiet rfl, fun d hd => ?_⟩
    obtain ⟨hagrees, hsum⟩ := h.counts d hd
    exact hagrees.tallied hsum (jobOutcome_completed hcompleted)
  | _ => exact ⟨trivial, plain nofun nofun nofun nofun nofun⟩

theorem counting_outline (env : Env) : Outline (tallyContract t id c) env id c (Counting id) where
  stable _ _ _ hr h := h.stable hr
  silent hs h := by
    refine ⟨hs.nodup h.nodup, h.known, fun hl => h.opened ?_, fun i hi => h.unset i (hs.unset hi), ?_,
      fun d hd => ?_⟩
    · cases hs <;> first | rfl | exact hl
    · have hchain := h.chain
      cases hs <;> exact hchain
    · have hcounts := h.counts d hd
      cases hs <;> exact hcounts
  guar hn h _ := ⟨(h.careful hn).1, fun _ => (h.careful hn).2⟩
  ok hn h ha := h.ok hn ha
  error hn h ha := h.error hn ha
  fetch x destination probed := by
    have apart {o : Op} (ho : o.TransferOf c ∨ ∃ n total, o = .report id x.index n total) :
        (∀ id, o ≠ .forgetProgress id) ∧ (∀ id index change, o ≠ .updateFile id index change) ∧
        (∀ id change, o ≠ .updateDownload id change) ∧ o.counting = none ∧ o.CountedBy (.worker id c) := by
      rcases ho with ho | ⟨n, total, rfl⟩
      · have ht := ho.1
        cases o <;> first
          | exact ht.elim
          | exact ⟨by simp, by simp, by simp, rfl, trivial⟩
      · exact ⟨by simp, by simp, by simp, rfl, trivial⟩
    refine Spot.fetch_does (fun _ _ hr h => h.stable hr) (fun o ho => ?_) (fun result w h => ?_) fun e w h => ?_
    · obtain ⟨hforget, hfile, hrow, hcounting, hcounted⟩ := apart ho
      have keep {w : DownloadWorld} {r : Reply o} {w' : DownloadWorld}
          (h : Counting id (.trying x destination probed) w) (ha : (tallyContract t id c).act w o r w') :
          Counting id (.trying x destination probed) w' :=
        h.loud ha h.nodup (fun h => h) rfl (fun _ error => hrow id _) (fun _ h => h) fun i bytes => hfile id i _
      refine ⟨fun w r w' h _ => ⟨hcounted, fun _ => ?_⟩, fun _ _ _ h ha => keep h ha, fun _ _ _ h ha => keep h ha⟩
      refine ⟨fun i index n total e => ?_, fun i e => absurd e (hforget i), fun i index n e => absurd e (hfile _ _ _),
        fun i error e => absurd e (hrow _ _), fun i e => by rw [hcounting] at e; cases e⟩
      subst e
      rcases ho with ho | ⟨n', total', e⟩
      · exact ho.1.elim
      · cases e
        exact ⟨h.unset x.index (List.mem_append_left _ (List.mem_singleton_self _)), h.opened rfl⟩
    · exact ⟨h.nodup, h.known, h.opened, h.unset, nofun, fun _ _ => trivial⟩
    · exact ⟨h.nodup, h.known, h.opened, fun i hi => h.unset i (List.mem_append_right _ hi), nofun,
        fun _ _ => trivial⟩

end

theorem tally_safe (env : Env) {t : Nat} {th : DownloadThread} {w : DownloadWorld} (h : Begins env th)
    (hr : ∀ id c, th.kind = .worker id c → Counting id .reading w) :
    tallies.discipline.SafeThread t th w := by
  by_cases hk : ∃ id c, th.kind = .worker id c
  · obtain ⟨id, c, hk⟩ := hk
    cases h <;> cases hk
    exact ((counting_outline env).program_safe (hr id c rfl)).mono fun _ _ _ => trivial
  · have hw (id c : Nat) (e : th.kind = .worker id c) : False := hk ⟨id, c, e⟩
    have guar (v : DownloadWorld) (o : Op) (r : Reply o) (v' : DownloadWorld) (ho : o.CountedBy th.kind) :
        tallies.guar t th.kind v o r v' := ⟨ho, fun e => absurd e hk⟩
    exact .of_uses (fun v o r v' ho _ => guar v o r v' ho) (h.counted hw)

/-- A file is completed, and an activation ends, only when no progress write of the job is
outstanding. -/
def Lands (p : DownloadPool) : DownloadLabel → Prop
  | .exec t c => c.failure = none → ∀ k id index bytes rest,
      p.threads t = some ⟨k, .call (.updateFile id index (.complete bytes)) rest⟩ → Settled p.state id
  | .finish t => ∀ id c prog, p.threads t = some ⟨.worker id c, prog⟩ → Settled p.state id
  | _ => True

structure Tallying (env : Env) (p : DownloadPool) : Prop where
  slots : SlotsKept env p
  activations : Activations p
  chain : ∃ owner, Chain owner p
  starting : ∀ t id, p.threads t = some ⟨.drain, .ret (.start id)⟩ →
    id < p.state.downloads.next ∧ ¬ Finished p.state id
  tallied : p.state.Tallied
  recorded : ∀ id index d f bytes, p.state.downloads.rows id = some d → d.files[index]? = some f →
    f.status = .COMPLETED → returned id index p.trace = some bytes → f.downloadedBytes = bytes

section
variable {env : Env} {p : DownloadPool} {t : Nat} {k : Task}

theorem Tallying.initial (env : Env) {s : State} (hs : s.Down) (ht : s.Tallied) : Tallying env (.initial s) where
  slots := .initial env hs
  activations := .initial s
  chain := by
    refine ⟨fun _ => (0, 0), .empty (fun _ _ _ h => by cases h) (fun id => ?_) fun z => ?_⟩ <;>
      · simp only [Pool.initial]
        rw [show s.memory = {} from hs]
  starting _ _ h := by cases h
  tallied := ht
  recorded _ _ _ _ _ _ _ _ h := by cases h

theorem Tallying.final (h : Tallying env p) : FinalCounts p := by
  intro id d hd hst
  refine ⟨(h.tallied id d hd).2 hst, fun index f bytes hf hdone hr => ?_⟩
  have hbytes := h.recorded id index d f bytes hd hf hdone hr
  have hsize := (h.tallied id d hd).1 f (List.mem_of_getElem? hf) hdone
  exact ⟨hbytes, by rw [hsize, hbytes]⟩

/-- Nothing counts for a completed job. -/
theorem Tallying.counting (h : Tallying env p) {o : Op} {rest : Reply o → Program Op Reply Result}
    (ht : p.threads t = some ⟨k, .call o rest⟩) (hcounted : o.CountedBy k)
    (hcareful : (∃ id c, k = .worker id c) → Careful p.state o) {id : Nat} (ho : o.counting = some id) :
    (∃ c, k = .worker id c ∧ ¬ Finished p.state id) ∨
      ∃ x owner, k = .progress x ∧ Chain owner p ∧ (owner x).1 = id ∧
        ∀ index change, o = .updateFile id index change → (owner x).2 = index := by
  have worker (hk : ∃ c, k = .worker id c) : ∃ c, k = .worker id c ∧ ¬ Finished p.state id := by
    obtain ⟨c, hk⟩ := hk
    exact ⟨c, hk, (hcareful ⟨id, c, hk⟩).counting id ho⟩
  have progress (hk : ∃ x, k = .progress x) : ∃ x owner, k = .progress x ∧ Chain owner p ∧
      (owner x).1 = id ∧ ∀ index change, o = .updateFile id index change → (owner x).2 = index := by
    obtain ⟨x, rfl⟩ := hk
    obtain ⟨owner, hchain⟩ := h.chain
    have hw := (hchain.writes t x _ ht).1
    refine ⟨x, owner, rfl, hchain, ?_, fun index change e => ?_⟩
    · cases o with
      | updateDownload i change =>
        cases change <;> first | (cases hw; done) | (cases ho; exact hw.symm)
      | updateFile i index change =>
        cases change <;> first | (cases hw; done) | (cases ho; exact hw.1.symm)
      | _ => cases ho
    · subst e
      cases change <;> first | (cases hw; done) | exact hw.2.symm
  have made : o.MadeBy k := (h.slots.uses t _ ht).1
  cases o with
  | updateDownload i change =>
    cases change <;> cases ho
    exact hcounted.imp worker progress
  | updateFile i index change =>
    cases change <;> cases ho
    · exact .inl (worker made)
    · exact .inl (worker made)
    · exact .inr (progress hcounted)
  | _ => cases ho

/-- Where a completed file has its counts from: it was so before, or this is its completion. -/
theorem Tallying.file (h : Tallying env p) {o : Op} {rest : Reply o → Program Op Reply Result}
    (ht : p.threads t = some ⟨k, .call o rest⟩) (hcounted : o.CountedBy k)
    (hcareful : (∃ id c, k = .worker id c) → Careful p.state o) {c : Choice} {r : Reply o} {s : State}
    (hc : call p.state o c = (r, s)) {id index : Nat} {d' : Download} {f' : DownloadFile}
    (hd' : s.downloads.rows id = some d') (hf' : d'.files[index]? = some f') (hst : f'.status = .COMPLETED) :
    (∃ bytes, completion id index (.did t k o r p.state s) = some bytes ∧ f'.counts = (bytes, some bytes)) ∨
      (completion id index (.did t k o r p.state s) = none ∧ ∃ d f, p.state.downloads.rows id = some d ∧
        d.files[index]? = some f ∧ f.status = .COMPLETED ∧ f'.counts = f.counts) := by
  have made : o.MadeBy k := (h.slots.uses t _ ht).1
  have hdone : Completed s id index := ⟨d', hd', by simp [Download.completed, hf', hst]⟩
  have other (ho : ∀ change, o = .updateFile id index change → change.counting = false)
      (hn : completion id index (.did t k o r p.state s) = none) :
      completion id index (.did t k o r p.state s) = none ∧ ∃ d f, p.state.downloads.rows id = some d ∧
        d.files[index]? = some f ∧ f.status = .COMPLETED ∧ f'.counts = f.counts := by
    refine ⟨hn, ?_⟩
    obtain ⟨d, hd, hdone⟩ := hdone.before hc (fun d e => by
        subst e
        obtain ⟨-, plan, hp⟩ := made
        rw [hp]
        exact plannedRow_completed _ _ _) fun bytes e => by
      have := ho _ e
      cases this
    have hcounts := call_counts hc hd hd' ho
    simp only [Download.counts, List.getElem?_map, hf'] at hcounts
    simp only [Download.completed] at hdone
    cases hf : d.files[index]? with
    | none => simp [hf] at hdone
    | some f =>
      rw [hf] at hdone hcounts
      exact ⟨d, f, hd, hf, by simpa using hdone, by simpa using hcounts⟩
  by_cases hfile : ∃ change, o = .updateFile id index change ∧ change.counting = true
  · obtain ⟨change, rfl, hcounting⟩ := hfile
    have unmoved (hm : change.moves = false) : Completed p.state id index :=
      hdone.before hc (by simp) fun bytes e => by
        cases e
        cases hm
    cases change with
    | complete bytes =>
      cases r with
      | error e =>
        refine .inr ⟨rfl, ?_⟩
        rw [call_error hc] at hd'
        exact ⟨d', f', hd', hf', hst, rfl⟩
      | ok a =>
        refine .inl ⟨bytes, if_pos ⟨rfl, rfl⟩, ?_⟩
        obtain ⟨d, f, -, hf, hrow⟩ := call_updateFile hc
        rw [hd'] at hrow
        cases hrow
        simp only [List.getElem?_modify, hf, if_true, Option.map_eq_map, Option.map_some, Option.some.injEq] at hf'
        rw [← hf']
        rfl
    | size n =>
      obtain ⟨c', rfl⟩ := made
      exact absurd (unmoved rfl) ((hcareful ⟨id, c', rfl⟩).size id index n rfl)
    | progress n total =>
      rcases h.counting ht hcounted hcareful rfl with ⟨c', rfl, -⟩ | ⟨x, owner, rfl, hchain, ho, hindex⟩
      · obtain ⟨x, hk⟩ := hcounted
        cases hk
      · have := hchain.target t x _ ht
        rw [ho, hindex index _ rfl] at this
        exact absurd (unmoved rfl) this
    | _ => cases hcounting
  · have ho (change : FileChange) (e : o = .updateFile id index change) : change.counting = false := by
      cases hcount : change.counting with
      | false => rfl
      | true => exact absurd ⟨change, e, hcount⟩ hfile
    refine .inr (other ho ?_)
    unfold completion
    split
    · rename_i heq
      cases heq
      split
      · rename_i hi
        obtain ⟨rfl, rfl⟩ := hi
        have := ho _ rfl
        cases this
      · rfl
    · rfl

theorem DownloadFile.counts_eq {f f' : DownloadFile} (h : f'.counts = f.counts) :
    f'.downloadedBytes = f.downloadedBytes ∧ f'.sizeBytes = f.sizeBytes := by
  simpa only [DownloadFile.counts, Prod.mk.injEq] using h

theorem Tallying.exec (h : Tallying env p) {o : Op} {rest : Reply o → Program Op Reply Result}
    (ht : p.threads t = some ⟨k, .call o rest⟩) {c : Choice} {r : Reply o} {s : State}
    {ths : List DownloadThread} (he : (system env).exec p.state k o c = some (r, s, ths))
    (hok : Lands p (.exec t c) ∧ ClaimsIdle p (.exec t c)) (hcounted : o.CountedBy k)
    (hcareful : (∃ id c, k = .worker id c) → Careful p.state o) :
    Tallying env (p.didCall t k o rest r s ths) := by
  have hcall := (system_exec he).2.1
  have made : o.MadeBy k := (h.slots.uses t _ ht).1
  have hstep : (system env).step p (.exec t c) = some (p.didCall t k o rest r s ths) := by
    simp [System.step, ht, he]
  have hnext := next_le hcall
  refine ⟨h.slots.exec ht he, h.activations.step h.slots hok.2 hstep, ?_, ?_, ?_, ?_⟩
  · obtain ⟨owner, hchain⟩ := h.chain
    refine hchain.exec h.slots ht he (fun id index n total e => ?_) (fun id e => ?_)
      (fun id index bytes e hr => ?_) fun id error e => ?_
    · subst e
      obtain ⟨c', rfl⟩ := made
      exact (hcareful ⟨id, c', rfl⟩).report id index n total rfl
    · subst e
      obtain ⟨c', rfl⟩ := hcounted
      exact (hcareful ⟨id, c', rfl⟩).forget id rfl
    · subst e
      obtain ⟨a, rfl⟩ := hr
      exact hok.1 (call_ok_failure hcall rfl) k id index bytes rest ht
    · subst e
      obtain ⟨-, c', rfl⟩ := made
      exact ((hcareful ⟨id, c', rfl⟩).finish id error rfl).1
  · rw [Pool.didCall_state]
    refine h.activations.starting_call h.slots ht he h.starting (fun id n ho hclaim hn => ?_)
      fun id hid hk => ⟨Nat.lt_of_lt_of_le hid.1 hnext, fun hfin => hid.2 ?_⟩
    · obtain ⟨d, hd, hq⟩ := claim_queued hclaim hn
      subst ho
      refine ⟨Nat.lt_of_lt_of_le (Table.lt_next hd) hnext, fun hfin => ?_⟩
      obtain ⟨d', hd', hst⟩ := hfin.before hcall made (by simp)
      rw [hd] at hd'
      cases hd'
      rw [hq] at hst
      cases hst
    · refine hfin.before hcall made fun error e => ?_
      subst e
      obtain ⟨-, c', hk'⟩ := made
      exact hk c' hk'
  · rw [Pool.didCall_state]
    refine fun id d' hd' => ⟨fun f' hf' hdone => ?_, fun hcompleted => ?_⟩
    · obtain ⟨index, hindex⟩ := List.getElem?_of_mem hf'
      rcases h.file ht hcounted hcareful hcall hd' hindex hdone with
        ⟨bytes, -, hcounts⟩ | ⟨-, d, f, hd, hf, hst, hcounts⟩
      · simp only [DownloadFile.counts, Prod.mk.injEq] at hcounts
        rw [hcounts.1, hcounts.2]
      · obtain ⟨h1, h2⟩ := DownloadFile.counts_eq hcounts
        rw [h1, h2]
        exact (h.tallied id d hd).1 f (List.mem_of_getElem? hf) hst
    · -- the row is finished, so nothing that the call does to its counts can matter
      have hrow : (∃ error, o = .updateDownload id (.finish .COMPLETED error)) ∨ Finished p.state id := by
        by_cases hfin : ∃ error, o = .updateDownload id (.finish .COMPLETED error)
        · exact .inl hfin
        · exact .inr (Finished.before ⟨d', hd', hcompleted⟩ hcall made fun error e => hfin ⟨error, e⟩)
      have same (hne : o.counting ≠ some id) (d : Download) (hd : p.state.downloads.rows id = some d)
          (htd : d.Tallied) : d'.Tallied := (call_sameCounts hcall hd hd' hne).tallied htd
      rcases hrow with ⟨error, rfl⟩ | ⟨d, hd, hst⟩
      · obtain ⟨-, c', rfl⟩ := made
        cases hd : p.state.downloads.rows id with
        | none => cases (call_new_row hcall hd hd').1
        | some d =>
          exact same (by simp [Op.counting]) d hd (((hcareful ⟨id, c', rfl⟩).finish id error rfl).2 d hd)
      · refine same (fun hcount => ?_) d hd ((h.tallied id d hd).2 hst)
        rcases h.counting ht hcounted hcareful hcount with ⟨-, -, hnot⟩ | ⟨x, owner, rfl, hchain, ho, -⟩
        · exact hnot ⟨d, hd, hst⟩
        · obtain ⟨y, hy, -⟩ := hchain.last t x _ ht
          rw [ho] at hy
          exact hchain.unfinished id (by rw [hy]; exact Option.some_ne_none y) ⟨d, hd, hst⟩
  · rw [Pool.didCall_state, Pool.didCall_trace]
    intro id index d' f' bytes hd' hf' hdone hr
    simp only [returned, List.findSome?_cons] at hr
    rcases h.file ht hcounted hcareful hcall hd' hf' hdone with
      ⟨b, hcomp, hcounts⟩ | ⟨hcomp, d, f, hd, hf, hst, hcounts⟩
    · rw [hcomp] at hr
      cases hr
      exact congrArg Prod.fst hcounts
    · rw [hcomp] at hr
      rw [(DownloadFile.counts_eq hcounts).1]
      exact h.recorded id index d f bytes hd hf hst hr

/-- A step that changes no row and starts no job. -/
theorem Tallying.other {q : DownloadPool} {e : DownloadEvent} (h : Tallying env p) (hs : SlotsKept env q)
    (ha : Activations q) (hc : ∃ owner, Chain owner q) (hq : q.trace = e :: p.trace)
    (hd : q.state.downloads = p.state.downloads) (he : ∀ id index, completion id index e = none)
    (ht : ∀ t id, q.threads t = some ⟨.drain, .ret (.start id)⟩ →
      p.threads t = some ⟨.drain, .ret (.start id)⟩) : Tallying env q := by
  refine ⟨hs, ha, hc, fun t id hth => ?_, fun id d => by rw [hd]; exact h.tallied id d,
    fun id index d f bytes => ?_⟩
  · simpa only [Finished, hd] using h.starting t id (ht t id hth)
  · have hr : returned id index q.trace = returned id index p.trace := by
      simp [hq, returned, he]
    rw [hd, hr]
    exact h.recorded id index d f bytes

theorem Tallying.ended (h : Tallying env p) {a : Result} (ht : p.threads t = some ⟨k, .ret a⟩)
    (hok : Lands p (.finish t)) : Tallying env (p.didEnd t k a ((system env).finish p.state k a).1
      ((system env).finish p.state k a).2) := by
  obtain ⟨owner, hchain⟩ := h.chain
  exact h.other (e := .ended t k a p.state ((system env).finish p.state k a).1) (h.slots.finish ht)
    (h.activations.finish h.slots ht)
    ⟨owner, hchain.finish h.slots ht fun id c hk => hok id c (.ret a) (hk ▸ ht)⟩ (Pool.didEnd_trace ..)
    (by rw [Pool.didEnd_state]; rfl) (fun _ _ => rfl) fun u id hu => starting_end h.slots ht hu

theorem Tallying.outer (h : Tallying env p) {x : Arrival} {s : State} {dies : Bool}
    {ths : List DownloadThread} (he : (system env).external p.state x = some (s, dies, ths)) :
    Tallying env (p.didOuter x s dies ths) := by
  obtain ⟨owner, hchain⟩ := h.chain
  exact h.other (e := .outer x p.state s) (h.slots.external he) (h.activations.external h.slots he)
    ⟨owner, hchain.external h.slots he⟩ (Pool.didOuter_trace ..)
    (by rw [Pool.didOuter_state]; exact (arrive_keeps he).1) (fun _ _ => rfl)
    fun u id hu => starting_outer h.slots he hu

theorem Tallying.meanwhile (h : Tallying env p) {o : Op} {rest : Reply o → Program Op Reply Result}
    (ht : p.threads t = some ⟨k, .call o rest⟩) {c : Choice} {r : Reply o} {s : State}
    (hc : call p.state o c = (r, s)) (hcounted : o.CountedBy k)
    (hcareful : (∃ id c, k = .worker id c) → Careful p.state o) {id : Nat} (hk : ∀ c, k ≠ .worker id c) :
    Meanwhile id p.state s := by
  have made : o.MadeBy k := (h.slots.uses t _ ht).1
  have hcalled : (call p.state o c).2 = s := congrArg Prod.snd hc
  refine ⟨hcalled ▸ call_next p.state o c, ?_, fun ticket hs => ?_, fun hfin => ?_, fun i hdone => ?_,
    fun known hnone d' hd' => ?_⟩
  · rw [← hcalled]
    refine call_progressWrites c (fun index n total e => ?_) fun e => ?_
    · subst e
      obtain ⟨c', e⟩ := made
      exact hk c' e
    · subst e
      obtain ⟨c', e⟩ := hcounted
      exact hk c' e
  · rw [← hcalled, (call_same p.state o c).settled]
    exact hs
  · refine hfin.before hc made fun error e => ?_
    subst e
    obtain ⟨-, c', e⟩ := made
    exact hk c' e
  · refine hdone.before hc (fun d e => ?_) fun bytes e => ?_
    · subst e
      obtain ⟨-, plan, hp⟩ := made
      rw [hp]
      exact plannedRow_completed _ _ _
    · subst e
      obtain ⟨c', e⟩ := made
      exact hk c' e
  · cases hd : p.state.downloads.rows id with
    | none =>
      have := (call_new_row hc hd hd').2
      omega
    | some d =>
      refine ⟨d, rfl, call_sameCounts hc hd hd' fun hcount => ?_⟩
      rcases h.counting ht hcounted hcareful hcount with ⟨c', e, -⟩ | ⟨x, owner, rfl, hchain, ho, -⟩
      · exact hk c' e
      · obtain ⟨y, hy, -⟩ := hchain.last t x _ ht
        rw [ho, hnone] at hy
        cases hy

theorem Meanwhile.of_rows {s s' : State} {id : Nat} (hd : s'.downloads = s.downloads)
    (hw : s'.memory.progressWrites id = s.memory.progressWrites id)
    (hs : ∀ ticket, s.memory.settled ticket = true → s'.memory.settled ticket = true) : Meanwhile id s s' where
  next := by rw [hd]
  chain := hw
  settled := hs
  finished h := by simpa only [Finished, hd] using h
  completed i h := by simpa only [Completed, hd] using h
  counts _ _ d' hd' := ⟨d', by rwa [← hd], .refl d'⟩

theorem tallies_keeps (env : Env) :
    tallies.Keeps (system env) (fun p l => Lands p l ∧ ClaimsIdle p l) (Tallying env) where
  may hI _ ht he := by
    obtain ⟨hb, hcall, -⟩ := system_exec he
    exact ⟨hb, ⟨_, hcall⟩, (hI.slots.uses _ _ ht).1, fun id d hd => (hI.tallied id d hd).1⟩
  exec {p t k o rest c r s ths} hI hok ht he hg := by
    refine ⟨hI.exec ht he hok hg.1 hg.2, fun t' th hne hth id c' hk => ?_, fun th hth _ _ => ?_⟩
    · refine hI.meanwhile ht (system_exec he).2.1 hg.1 hg.2 fun c'' e => ?_
      subst e
      exact hne (hI.activations.once t' t id c' c'' (hk ▸ kindAt_of hth) (kindAt_of ht))
    · obtain ⟨-, -, rfl⟩ := system_exec he
      obtain ⟨ticket, hk, hb⟩ := reported_begins env hth
      exact tally_safe env hb fun id c' e => by rw [hk] at e; cases e
  finish {p t k a} hI hok ht _ := by
    refine ⟨hI.ended ht hok.1, fun t' th hne hth id c' hk => ?_, fun th hth u _ => ?_⟩
    · have hk' : p.kindAt t' = some (.worker id c') := hk ▸ kindAt_of hth
      rcases (after_chains env p.state.memory k a).2 with ⟨rfl, -⟩ | ⟨x, rfl, hm⟩ | ⟨-, -, hset, hm⟩
      · have := (hI.slots.slots.boot t' _ hk').mpr ((hI.slots.slots.boot t _ (kindAt_of ht)).mp rfl)
        cases this
      · refine .of_rows rfl (by simp only [Event.after, Event.before, system, hm]) fun ticket hs => ?_
        simp only [Event.after, system, hm, Function.update_apply]
        split
        · rfl
        · exact hs
      · refine .of_rows rfl ?_ fun ticket hs => ?_
        · refine (hm id).resolve_right fun hw => ?_
          obtain ⟨⟨c'', rfl⟩, -⟩ := hw
          exact hne (hI.activations.once t' t id c' c'' hk' (kindAt_of ht))
        · simp only [Event.after, system, hset]
          exact hs
    · refine tally_safe env ((system_begins env).finish _ _ _ th hth) fun id c' hk => ?_
      obtain ⟨rfl, rfl⟩ := started_worker hth hk
      obtain ⟨known, hopen⟩ := hI.starting t id ht
      exact ⟨List.nodup_nil, known, fun _ => hopen, fun _ hi => absurd hi List.not_mem_nil,
        fun hq => absurd hq Bool.false_ne_true,
        fun _ _ => trivial⟩
  external {p x s dies ths} hI _ he := by
    refine ⟨hI.outer he, fun t' th hd hth id c' hk => ?_, fun th hth _ _ =>
      tally_safe env ((system_begins env).external he th hth) fun id c' hk => ?_⟩
    · have rest := shutdown_eq p.state.memory
      cases arrives he with
      | request r hp => exact .of_rows rfl rfl fun _ hs => hs
      | shutdown hp =>
        exact .of_rows rfl (congrFun (congrArg Memory.progressWrites rest :) id) fun ticket hs =>
          (congrFun (congrArg Memory.settled rest :) ticket).trans hs
      | crash hp => cases hd
      | boot hp => exact absurd hp (hI.slots.slots.down t' _ (kindAt_of hth))
    · obtain ⟨r, rfl⟩ | rfl := (arrives he).spawned hth <;> cases hk

end

/-- When every file is completed, and every activation ends, with no progress write of the job
outstanding, and no download is claimed while an activation for it is live, the counts of every
completed job are final. -/
theorem final_counts (env : Env) {s : State} (hs : s.Down) (ht : s.Tallied) {p : DownloadPool}
    (hr : (system env).Runs (fun p l => Lands p l ∧ ClaimsIdle p l) (.initial s) p) : FinalCounts p :=
  ((tallies_keeps env).keeps.safe (.initial env hs ht) (Discipline.allSafe_initial _ s) hr).1.final

/-- The file of the job arrives in two bytes, and the first one is reported. -/
def fetchTwo : List DownloadLabel :=
  calls 2 10 ++ [.exec 2 { response := { body := [1, 2] } }] ++ calls 2 1 ++ [.exec 2 { throttled := false }] ++
    calls 2 5

theorem oneJob_tallied : oneJob.Tallied := by
  intro id d hd
  obtain ⟨-, rfl⟩ := (Table.insert_rows hd).resolve_right (fun h => by cases h.2)
  refine ⟨fun f hf hdone => ?_, (fun hst => by cases hst)⟩
  rw [List.mem_singleton.mp hf] at hdone
  cases hdone

/-- The report of the first byte is written after the file is completed. -/
theorem count_overwritten : ¬ ∀ (env : Env) (s : State) (p : DownloadPool), s.Down → s.Tallied →
    (system env).Runs (fun _ _ => True) (.initial s) p → FinalCounts p := by
  intro h
  have hrun : ((system (.small 1)).replay (fun _ _ => true) (.initial oneJob)
      (bootUp ++ fetchTwo ++ calls 2 1 ++ calls 3 5 ++ [.finish 3] ++ calls 2 14)).any (fun p =>
      (p.state.downloads.rows 0).any fun d => d.status = .COMPLETED ∧
        d.files.any (fun f => f.sizeBytes ≠ some f.downloadedBytes) = true) = true := by decide
  obtain ⟨p, hp, hn⟩ := Option.any_eq_true _ _ |>.mp hrun
  obtain ⟨d, hd, hn⟩ := Option.any_eq_true _ _ |>.mp hn
  obtain ⟨hst, hany⟩ := of_decide_eq_true hn
  obtain ⟨f, hf, hne⟩ := List.any_eq_true.mp hany
  exact of_decide_eq_true hne ((h (.small 1) oneJob p oneJob_down oneJob_tallied
    ((system (.small 1)).replay_runs (fun _ _ _ => trivial) hp) 0 d hd hst).1.files f hf)

def lands (p : DownloadPool) : DownloadLabel → Bool
  | .exec t _ =>
    match p.threads t with
    | some ⟨_, .call (.updateFile id _ (.complete _)) _⟩ => decide (Settled p.state id)
    | _ => true
  | .finish t =>
    match p.threads t with
    | some ⟨.worker id _, _⟩ => decide (Settled p.state id)
    | _ => true
  | _ => true

theorem lands_lands {p : DownloadPool} {l : DownloadLabel} (h : lands p l = true) : Lands p l := by
  cases l with
  | exec t c =>
    intro _ k id index bytes rest ht
    simp only [lands, ht] at h
    exact of_decide_eq_true h
  | finish t =>
    intro id c prog ht
    simp only [lands, ht] at h
    exact of_decide_eq_true h
  | external x => trivial

/-- The report of the first byte is written before the file is completed. -/
theorem final_counts_landed : ∃ p, (system (.small 1)).Runs (fun p l => Lands p l ∧ ClaimsIdle p l)
    (.initial oneJob) p ∧ (∃ d, p.state.downloads.rows 0 = some d ∧ d.status = .COMPLETED) ∧
    returned 0 0 p.trace = some 2 ∧ FinalCounts p := by
  have hrun : ((system (.small 1)).replay lands (.initial oneJob)
      (bootUp ++ fetchTwo ++ calls 3 5 ++ [.finish 3] ++ calls 2 15)).any (fun p =>
      (p.state.downloads.rows 0).any (·.status = .COMPLETED) ∧ returned 0 0 p.trace = some 2) = true := by decide
  obtain ⟨p, hp, hn⟩ := Option.any_eq_true _ _ |>.mp hrun
  obtain ⟨hrow, hreturned⟩ := of_decide_eq_true hn
  obtain ⟨d, hd, hst⟩ := Option.any_eq_true _ _ |>.mp hrow
  have hr : (system (.small 1)).Runs (fun p l => Lands p l ∧ ClaimsIdle p l) (.initial oneJob) p := by
    refine System.Runs.mono_step _ (fun q l _ hI _ hok _ => ⟨lands_lands hok, hI.claims_idle rfl l⟩)
      (fun _ _ _ hI _ hst => hI.step hst) (SlotsKept.initial (.small 1) oneJob_down)
      ((system (.small 1)).replay_runs (C := fun p l => lands p l = true) (fun _ _ h => h) hp)
  exact ⟨p, hr, ⟨d, hd, of_decide_eq_true hst⟩, hreturned, final_counts (.small 1) oneJob_down oneJob_tallied hr⟩

end CircleFtp.Downloads
