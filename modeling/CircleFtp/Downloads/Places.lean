import CircleFtp.Downloads.Chain
import CircleFtp.Downloads.Floor
import CircleFtp.Downloads.Landing

/-! What lies at the destinations of the jobs, when every path is used for one url: what a call
leaves of it. -/
namespace CircleFtp.Downloads
open Concurrent Files Strings

/-- What a path is used for: the file from a url, or its part file. -/
inductive Holding where
  | file (url : Str)
  | part (url : Str)
deriving DecidableEq

/-- The destination and its part file are used for one url. -/
def Owns (owner : Str → Option Holding) (url destination : Str) : Prop :=
  owner destination = some (.file url) ∧ owner (partPathFor destination) = some (.part url)

def Place.destination (env : Env) (place : Place) : Except ApiError Str :=
  resolveDestination env.media place.folderName place.relPath

def Place.Owned (env : Env) (owner : Str → Option Holding) (place : Place) : Prop :=
  ∀ destination, place.destination env = .ok destination → Owns owner place.url destination

/-- The tables and the disk fit: paths have one use, known sizes are right, and the disk has at most
what belongs there. -/
structure Sound (env : Env) (owner : Str → Option Holding) (remote : Str → Bytes) (s : State) : Prop where
  owned : ∀ id d, s.downloads.rows id = some d → ∀ f ∈ d.files, (d.place f).Owned env owner
  sized : ∀ id d, s.downloads.rows id = some d → ∀ f ∈ d.files,
    f.sizeBytes.all (· = (remote f.url).length) = true
  landing : ∀ url destination, Owns owner url destination → Landing (remote url) destination s.disk

def completesAt (id index : Nat) : DownloadEvent → Bool
  | .did _ _ (.updateFile id' index' (.complete _)) (.ok _) _ _ => id' = id && index' = index
  | _ => false

/-- A request removes a file from the disk. -/
def deletes (path : Str) : DownloadEvent → Bool
  | .did _ (.request _) (.remove path') (.ok _) _ _ => path' = path
  | _ => false

/-- A request has removed the path since the file was completed. -/
def deletedSince (id index : Nat) (path : Str) : List DownloadEvent → Bool
  | [] => false
  | e :: trace => !completesAt id index e && (deletes path e || deletedSince id index path trace)

/-- Every completed file holds what its url serves, unless it has been deleted. -/
def OwnContent (env : Env) (remote : Str → Bytes) (w : DownloadWorld) : Prop :=
  ∀ id index d f destination, w.state.downloads.rows id = some d → d.files[index]? = some f →
    f.status = .COMPLETED → (d.place f).destination env = .ok destination →
    w.state.disk.content destination = some (remote f.url) ∨
      w.state.disk.content destination = none ∧ deletedSince id index destination w.trace = true

/-- The size of a file that a call writes or passes on. -/
def Op.measures : Op → Option (Nat × Nat × Option Nat)
  | .report id index _ total | .updateFile id index (.progress _ total) => some (id, index, total)
  | .updateFile id index (.size n) | .updateFile id index (.complete n) => some (id, index, some n)
  | _ => none

/-- The file has the size that it had, or one that the call gives it. -/
def Op.Sizes (o : Op) (id index : Nat) (f f' : DownloadFile) : Prop :=
  f'.sizeBytes = f.sizeBytes ∨
    ∃ total, o.measures = some (id, index, total) ∧ f'.sizeBytes = total.or f.sizeBytes

structure Measured (remote : Str → Bytes) (s : State) (id index : Nat) (total : Option Nat) : Prop where
  known : id < s.downloads.next
  right : ∀ place, s.placeAt id index = some place →
    total.all (· = (remote place.url).length) = true

/-- What every call keeps to: sizes are right, a completed file is there, and a worker writes only at
the destination of a url. -/
structure Fair (env : Env) (owner : Str → Option Holding) (remote : Str → Bytes) (k : Task) (s : State)
    (o : Op) (s' : State) : Prop where
  measured : ∀ id index total, o.measures = some (id, index, total) → Measured remote s id index total
  complete : ∀ id index n, o = .updateFile id index (.complete n) → ∀ place destination,
    s.placeAt id index = some place → place.destination env = .ok destination →
    s.disk.content destination = some (remote place.url)
  writes : k.works = true → o.onDisk = true → ∃ url destination, Owns owner url destination ∧
    Advances (remote url) destination s.disk s'.disk

section
variable {env : Env} {owner : Str → Option Holding} {remote : Str → Bytes} {s s' : State} {id index : Nat}
  {o : Op} {c : Choice} {r : Reply o} {k : Task} {d : Download} {f : DownloadFile}
  {url url' destination destination' : Str} {t : Nat}

theorem State.placeAt_of (hd : s.downloads.rows id = some d) (hf : d.files[index]? = some f) :
    s.placeAt id index = some (d.place f) := by simp [State.placeAt, hd, hf]

theorem Fair.of_writes (hm : o.measures = none) (hw : k.works = true → o.onDisk = true →
    ∃ url destination, Owns owner url destination ∧ Advances (remote url) destination s.disk s'.disk) :
    Fair env owner remote k s o s' := by
  refine ⟨fun id index total e => ?_, fun id index n e => ?_, hw⟩
  · rw [hm] at e
    cases e
  · rw [e] at hm
    cases hm

theorem Fair.quiet (hm : o.measures = none) (hd : o.onDisk = false) : Fair env owner remote k s o s' :=
  .of_writes hm fun _ ho => absurd ho (by simp [hd])

theorem Fair.of_measured (hd : o.onDisk = false) (hn : ∀ id index n, o ≠ .updateFile id index (.complete n))
    (hm : ∀ id index total, o.measures = some (id, index, total) → Measured remote s id index total) :
    Fair env owner remote k s o s' :=
  ⟨hm, fun id index n e => absurd e (hn id index n), fun _ ho => absurd ho (by simp [hd])⟩

theorem Op.transfers.measures (h : o.transfers) : o.measures = none := by
  cases o <;> first | rfl | exact h.elim

theorem Measured.after {total : Option Nat} (h : Measured remote s id index total) (hs : SamePlaces s s') :
    Measured remote s' id index total :=
  ⟨Nat.lt_of_lt_of_le h.known hs.next, fun place hp => h.right place (hs.places id index place h.known hp)⟩

theorem Owns.same (h : Owns owner url destination) (h' : Owns owner url' destination) : url = url' := by
  have := h.1.symm.trans h'.1
  simpa using this

theorem Owns.ne_part (h : Owns owner url destination) (h' : Owns owner url' destination') :
    destination ≠ partPathFor destination' := by
  rintro rfl
  have := h.1.symm.trans h'.2
  simp at this

theorem partPathFor_inj (h : partPathFor destination = partPathFor destination') :
    destination = destination' := List.append_cancel_right h

/-- What a transfer does elsewhere leaves the files of a url alone. -/
theorem Owns.apart (h : Owns owner url destination) (h' : Owns owner url' destination')
    (hne : destination ≠ destination') {R : Bytes} {disk disk' : Disk Str UInt8}
    (ha : Advances R destination' disk disk') : disk'.content destination = disk.content destination ∧
      disk'.content (partPathFor destination) = disk.content (partPathFor destination) :=
  ⟨ha.others _ hne (h.ne_part h'), ha.others _ (h'.ne_part h).symm fun e => hne (partPathFor_inj e)⟩

theorem Landing.remove {R : Bytes} {disk : Disk Str UInt8} (h : Landing R destination disk) (path : Str) :
    Landing R destination (disk.remove path) := by
  have less {p : Str} {b : Bytes} (hb : (disk.remove path).content p = some b) :
      disk.content p = some b := by
    by_cases e : p = path
    · rw [e, Disk.content_remove_self] at hb
      cases hb
    · rwa [Disk.content_remove_of_ne disk e] at hb
  exact ⟨fun b hb => h.part b (less hb), fun b hb => h.file b (less hb)⟩

/-- Apart from the worker, only a request changes the disk, and it only removes. -/
theorem call_removes (hc : call s o c = (r, s')) (made : o.MadeBy k) (hk : k.works = false)
    (ho : o.onDisk = true) : ∃ path, o = .remove path ∧ (∃ req, k = .request req) ∧
      ((∃ e, r = .error e) ∧ s' = s ∨ (∃ a, r = .ok a) ∧ s'.disk = s.disk.remove path) := by
  have idle : ¬ ∃ id c, k = .worker id c := by
    rintro ⟨id, c, rfl⟩
    cases hk
  cases o <;> try cases ho
  case remove path =>
    obtain ⟨id, rfl⟩ := made.resolve_left idle
    refine ⟨path, rfl, ⟨_, rfl⟩, ?_⟩
    cases r with
    | error e => exact .inl ⟨⟨e, rfl⟩, call_error hc⟩
    | ok a =>
      obtain ⟨-, rfl⟩ := Prod.mk.inj (call_ok hc)
      exact .inr ⟨⟨a, rfl⟩, rfl⟩
  all_goals exact absurd made idle

theorem completesAt_eq (h : completesAt id index (.did t k o r s s' : DownloadEvent) = true) :
    ∃ n, o = .updateFile id index (.complete n) := by
  unfold completesAt at h
  split at h
  · rename_i he
    cases he
    simp only [Bool.and_eq_true, decide_eq_true_eq] at h
    obtain ⟨rfl, rfl⟩ := h
    exact ⟨_, rfl⟩
  · cases h

theorem RowStep.sizes {d d' : Download} (h : RowStep id d o (some d')) {f' : DownloadFile}
    (hf : d'.files[index]? = some f') : ∃ f, d.files[index]? = some f ∧ o.Sizes id index f f' := by
  have mapped {g : DownloadFile → DownloadFile} (hg : ∀ x, (g x).sizeBytes = x.sizeBytes)
      (hf : (d.files.map g)[index]? = some f') :
      ∃ f, d.files[index]? = some f ∧ o.Sizes id index f f' := by
    rw [List.getElem?_map] at hf
    obtain ⟨f, hold, rfl⟩ := Option.map_eq_some_iff.mp hf
    exact ⟨f, hold, .inl (hg f)⟩
  have same (hf : d.files[index]? = some f') : ∃ f, d.files[index]? = some f ∧ o.Sizes id index f f' :=
    ⟨f', hf, .inl rfl⟩
  cases h with
  | update change => cases change <;> exact same hf
  | file i change =>
    rw [List.getElem?_modify] at hf
    by_cases e : i = index
    · subst e
      simp only [if_true, Option.map_eq_map] at hf
      obtain ⟨f, hold, rfl⟩ := Option.map_eq_some_iff.mp hf
      refine ⟨f, hold, ?_⟩
      cases change with
      | size n => exact .inr ⟨some n, rfl, rfl⟩
      | complete n => exact .inr ⟨some n, rfl, rfl⟩
      | progress n total => exact .inr ⟨total, rfl, rfl⟩
      | _ => exact .inl rfl
    · exact same (by simpa [e] using hf)
  | cancelFiles running =>
    refine mapped (fun x => ?_) hf
    split <;> rfl
  | requeue =>
    refine mapped (fun x => ?_) hf
    split <;> rfl
  | claim => exact same hf
  | requeueRunning => exact same hf
  | resetFiles =>
    refine mapped (fun x => ?_) hf
    split <;> rfl

/-- A file that is there after a call was there before it, unless its row is new. -/
theorem call_file {d' : Download} {f' : DownloadFile} (hc : call s o c = (r, s'))
    (hd' : s'.downloads.rows id = some d') (hf' : d'.files[index]? = some f') :
    (∃ d f, s.downloads.rows id = some d ∧ d.files[index]? = some f ∧ d'.place f' = d.place f ∧
      o.Sizes id index f f') ∨ o = .createDownload d' := by
  cases hd : s.downloads.rows id with
  | none => exact .inr (call_new_row hc hd hd').1
  | some d =>
    refine .inl ⟨d, ?_⟩
    rcases call_row hc hd with hsame | ⟨-, hrow⟩
    · rw [hd'] at hsame
      cases hsame
      exact ⟨f', rfl, hf', rfl, .inl rfl⟩
    · rw [hd'] at hrow
      obtain ⟨f, hf, hsize⟩ := hrow.sizes hf'
      have hplace := congrArg (fun places => places[index]?) hrow.places
      simp only [List.getElem?_map, hf, hf', Option.map_some, Option.some.injEq] at hplace
      exact ⟨f, rfl, hf, hplace, hsize⟩

theorem plannedRow_sizes {postId : Nat} {plan : Titles.DownloadPlan}
    (hf : f ∈ (plannedRow postId plan).files) : f.sizeBytes = none := by
  obtain ⟨file, -, rfl⟩ := List.mem_map.mp hf
  rfl

theorem Place.url_eq {d' : Download} {f' : DownloadFile} (h : d'.place f' = d.place f) : f'.url = f.url :=
  congrArg Place.url h

/-- The rows that a request creates have destinations of their own. -/
def Op.Separates (env : Env) (owner : Str → Option Holding) (o : Op) : Prop :=
  ∀ row, o = .createDownload row → ∀ f ∈ row.files, (row.place f).Owned env owner

section
variable (hc : Downloads.call s o c = (r, s')) (made : o.MadeBy k) (fair : Fair env owner remote k s o s')
include hc made fair

theorem Landing.call (own : Owns owner url destination) (h : Landing (remote url) destination s.disk) :
    Landing (remote url) destination s'.disk := by
  cases ho : o.onDisk with
  | false =>
    have := call_disk s c ho
    rw [hc] at this
    rwa [this]
  | true =>
    cases hk : k.works with
    | true =>
      obtain ⟨url', destination', own', ha⟩ := fair.writes hk ho
      by_cases e : destination = destination'
      · subst e
        obtain rfl := own.same own'
        exact ha.landing
      · obtain ⟨file, part⟩ := own.apart own' e ha
        exact ⟨fun b hb => h.part b (part ▸ hb), fun b hb => h.file b (file ▸ hb)⟩
    | false =>
      obtain ⟨path, -, -, ⟨-, rfl⟩ | ⟨-, hd⟩⟩ := call_removes hc made hk ho
      · exact h
      · rw [hd]
        exact h.remove path

theorem Sound.call (h : Sound env owner remote s) (new : o.Separates env owner) :
    Sound env owner remote s' where
  owned id d' hd' f' hf' := by
    obtain ⟨index, hf'⟩ := List.mem_iff_getElem?.mp hf'
    rcases call_file hc hd' hf' with ⟨d, f, hd, hf, hplace, -⟩ | ho
    · rw [hplace]
      exact h.owned id d hd f (List.mem_of_getElem? hf)
    · exact new d' ho f' (List.mem_of_getElem? hf')
  sized id d' hd' f' hf' := by
    obtain ⟨index, hf'⟩ := List.mem_iff_getElem?.mp hf'
    rcases call_file hc hd' hf' with ⟨d, f, hd, hf, hplace, hsize⟩ | rfl
    · have old := h.sized id d hd f (List.mem_of_getElem? hf)
      rw [Place.url_eq hplace]
      rcases hsize with hsize | ⟨total, hm, hsize⟩
      · rwa [hsize]
      · have told := (fair.measured id index total hm).right _ (State.placeAt_of hd hf)
        rw [hsize]
        cases total with
        | none => exact old
        | some n => exact told
    · obtain ⟨-, plan, hplan⟩ := made
      have hf' := List.mem_of_getElem? hf'
      rw [hplan] at hf'
      rw [plannedRow_sizes hf']
      rfl
  landing _ _ own := (h.landing _ _ own).call hc made fair own

/-- What lies at the destination of a url after a call: what was there, or the call is a removal. -/
theorem content_call (own : Owns owner url destination)
    (hd : s.disk.content destination = some (remote url)) :
    s'.disk.content destination = some (remote url) ∨
      s'.disk.content destination = none ∧ deletes destination (.did t k o r s s') = true := by
  cases ho : o.onDisk with
  | false =>
    have := call_disk s c ho
    rw [hc] at this
    exact .inl (by rwa [this])
  | true =>
    cases hk : k.works with
    | true =>
      obtain ⟨url', destination', own', ha⟩ := fair.writes hk ho
      by_cases e : destination = destination'
      · subst e
        obtain rfl := own.same own'
        exact .inl (ha.stays hd)
      · exact .inl ((own.apart own' e ha).1.trans hd)
    | false =>
      obtain ⟨path, rfl, ⟨req, rfl⟩, ⟨-, rfl⟩ | ⟨⟨a, rfl⟩, hdisk⟩⟩ := call_removes hc made hk ho
      · exact .inl hd
      · rw [hdisk]
        by_cases e : destination = path
        · subst e
          exact .inr ⟨Disk.content_remove_self _ _, by simp [deletes]⟩
        · exact .inl (by rwa [Disk.content_remove_of_ne _ e])

omit fair in
/-- A file that is completed was so before, unless the call completes it. -/
theorem Completed.earlier (h : Completed s' id index)
    (hn : completesAt id index (.did t k o r s s') = false) : Completed s id index := by
  cases r with
  | error e => rwa [call_error hc] at h
  | ok a =>
    refine h.before hc (fun row ho => ?_) fun bytes ho => ?_
    · subst ho
      obtain ⟨-, plan, hp⟩ := made
      rw [hp]
      exact plannedRow_completed _ _ _
    · subst ho
      simp [completesAt] at hn

/-- A completed file keeps its content until a request removes it. -/
theorem OwnContent.call {trace : List DownloadEvent} (h : Sound env owner remote s)
    (hown : OwnContent env remote ⟨s, trace⟩) (new : o.Separates env owner) :
    OwnContent env remote ⟨s', .did t k o r s s' :: trace⟩ := by
  intro id index d' f' destination hd' hf' hst hdest
  have after := h.call hc made fair new
  have own := after.owned id d' hd' f' (List.mem_of_getElem? hf') destination hdest
  have done : d'.completed index := by simp [Download.completed, hf', hst]
  rcases call_file hc hd' hf' with ⟨d, f, hd, hf, hplace, -⟩ | rfl
  · have hurl := Place.url_eq hplace
    rw [hplace] at hdest
    cases hcompletes : completesAt id index (.did t k o r s s' : DownloadEvent) with
    | true =>
      obtain ⟨n, rfl⟩ := completesAt_eq hcompletes
      have here := fair.complete id index n rfl _ destination (State.placeAt_of hd hf) hdest
      have same := call_disk s c (o := .updateFile id index (.complete n)) rfl
      rw [hc] at same
      exact .inl (by rw [same, here, hurl]; rfl)
    | false =>
      obtain ⟨d₀, hd₀, hcomp⟩ := Completed.earlier hc made ⟨d', hd', done⟩ hcompletes
      obtain rfl : d = d₀ := Option.some.inj (hd.symm.trans hd₀)
      have hst : f.status = .COMPLETED := by simpa [Download.completed, hf] using hcomp
      have goes (hdel : deletes destination (.did t k o r s s' : DownloadEvent) = true ∨
          deletedSince id index destination trace = true) :
          deletedSince id index destination (.did t k o r s s' :: trace) = true := by
        simpa [deletedSince, hcompletes] using hdel
      rcases hown id index d f destination hd hf hst hdest with hd | ⟨hd, hdel⟩
      · rw [← hurl] at hd
        exact (content_call hc made fair own hd).imp_right fun h => ⟨h.1, goes (.inl h.2)⟩
      · cases hcontent : s'.disk.content destination with
        | none => exact .inr ⟨rfl, goes (.inr hdel)⟩
        | some b => exact .inl (congrArg some ((after.landing _ _ own).file b hcontent))
  · obtain ⟨-, plan, hp⟩ := made
    rw [hp] at done
    exact absurd done (plannedRow_completed _ _ _)

end

/-- A step without a call leaves the content as it is. -/
theorem OwnContent.silent {w : DownloadWorld} (h : OwnContent env remote w)
    (hs : s'.downloads = w.state.downloads) (hd : s'.disk = w.state.disk) {e : DownloadEvent}
    (he : ∀ id index, completesAt id index e = false) : OwnContent env remote ⟨s', e :: w.trace⟩ := by
  intro id index d f destination hrow hf hst hdest
  simp only [hs, hd] at hrow ⊢
  refine (h id index d f destination hrow hf hst hdest).imp_right fun h => ⟨h.1, ?_⟩
  simp [deletedSince, he, h.2]

theorem Sound.silent (h : Sound env owner remote s) (hs : s'.downloads = s.downloads)
    (hd : s'.disk = s.disk) : Sound env owner remote s' :=
  ⟨by rw [hs]; exact h.owned, by rw [hs]; exact h.sized, by rw [hd]; exact h.landing⟩

end
end CircleFtp.Downloads
