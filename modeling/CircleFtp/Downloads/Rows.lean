import CircleFtp.Downloads.Footprint

/-! Everything a call can do to the row of a download, and which calls change the disk. -/
namespace CircleFtp.Downloads
open Concurrent Strings

/-- The calls that change the disk. -/
def Op.onDisk : Op → Bool
  | .remove _ | .rename _ _ | .openFile _ _ | .write _ _ _ => true
  | _ => false

theorem call_disk (s : State) {o : Op} (c : Choice) (h : o.onDisk = false) :
    (call s o c).2.disk = s.disk := by
  refine call_keep (φ := fun s' => s'.disk = s.disk) (fun c => ?_) rfl c
  cases o <;> try cases h
  all_goals
    simp only [perform, State.updateRow, State.updateFile, State.updateMany]
    repeat' split
    all_goals rfl

/-- What a call makes of the row `d` of download `id`, when it touches it. -/
inductive RowStep (id : Nat) (d : Download) : Op → Option Download → Prop where
  | update (change : DownloadChange) : RowStep id d (.updateDownload id change) (some (change.apply d))
  | file (index : Nat) (change : FileChange) : RowStep id d (.updateFile id index change)
      (some { d with files := d.files.modify index change.apply })
  | cancelFiles (running : Bool) : RowStep id d (.cancelFiles id running) (some (d.cancelFiles running))
  | requeue : RowStep id d (.requeue id) (some d.requeue)
  | delete : RowStep id d (.deleteDownload id) none
  | claim (h : d.status = .QUEUED) : RowStep id d (.claim id) (some { d with status := .RUNNING })
  | requeueRunning (h : d.status = .RUNNING) :
      RowStep id d .requeueRunning (some { d with status := .QUEUED })
  | resetFiles : RowStep id d .resetRunningFiles (some d.resetFiles)

/-- The download was there and is no more. -/
def Gone (s : State) (id : Nat) : Prop := id < s.downloads.next ∧ s.downloads.rows id = none

/-- The writes that give a file another status. -/
def FileChange.moves : FileChange → Bool
  | .size _ | .progress _ _ => false
  | _ => true

theorem FileChange.apply_status {change : FileChange} (h : change.moves = false) (f : DownloadFile) :
    (change.apply f).status = f.status := by
  cases change <;> first | rfl | cases h

/-- Where a file comes from and where it lands. -/
structure Place where
  folderName : Str
  relPath : Str
  url : Str
deriving DecidableEq

def Download.place (d : Download) (f : DownloadFile) : Place := ⟨d.folderName, f.relPath, f.url⟩

def State.placeAt (s : State) (id index : Nat) : Option Place :=
  (s.downloads.rows id).bind fun d => (d.files.map d.place)[index]?

/-- The files of a download keep their places as long as it is there. -/
structure SamePlaces (s s' : State) : Prop where
  next : s.downloads.next ≤ s'.downloads.next
  places : ∀ id index place, id < s.downloads.next → s'.placeAt id index = some place →
    s.placeAt id index = some place

theorem SamePlaces.of_rows {s s' : State} (h : s'.downloads = s.downloads) : SamePlaces s s' :=
  ⟨by rw [h], fun id index place _ hp => by simpa only [State.placeAt, h] using hp⟩

theorem SamePlaces.trans {s s' s'' : State} (h : SamePlaces s s') (h' : SamePlaces s' s'') :
    SamePlaces s s'' :=
  ⟨Nat.le_trans h.next h'.next, fun id index place hid hp =>
    h.places id index place hid (h'.places id index place (Nat.lt_of_lt_of_le hid h.next) hp)⟩

/-- No call moves a file. -/
theorem RowStep.places {id : Nat} {o : Op} {d d' : Download} (h : RowStep id d o (some d')) :
    d'.files.map d'.place = d.files.map d.place := by
  have mapped {f : DownloadFile → DownloadFile} (hf : ∀ x, d.place (f x) = d.place x) :
      (d.files.map f).map d.place = d.files.map d.place := by
    rw [List.map_map]
    exact List.map_congr_left fun x _ => hf x
  cases h with
  | update change => cases change <;> rfl
  | file i change =>
    refine List.ext_getElem? fun j => ?_
    simp only [List.getElem?_map, List.getElem?_modify]
    cases d.files[j]? with
    | none => rfl
    | some f =>
      by_cases e : i = j
      · cases change <;> simp [e, FileChange.apply, Download.place]
      · simp [e, Download.place]
  | cancelFiles running =>
    refine mapped fun x => ?_
    split <;> rfl
  | requeue =>
    refine mapped fun x => ?_
    split <;> rfl
  | claim => rfl
  | requeueRunning => rfl
  | resetFiles =>
    refine mapped fun x => ?_
    split <;> rfl

section
variable {s s' : State} {id : Nat} {o : Op} {c : Choice} {r : Reply o}

theorem updateMany_row {f : Nat → Download → Download} {d : Download}
    (hd : s.downloads.rows id = some d) : (s.updateMany f).downloads.rows id = some (f id d) :=
  Table.mapMany_rows.mpr ⟨d, hd, rfl⟩

theorem modify_row {j : Nat} {f : Download → Download} {d : Download}
    (hd : s.downloads.rows id = some d) :
    (s.downloads.modify j f).rows id = some (if id = j then f d else d) :=
  Table.modify_rows.mpr ⟨d, hd, rfl⟩

/-- A call that throws has done nothing. -/
theorem call_error {e : Err} (h : call s o c = (.error e, s')) : s' = s := by
  rcases call_cases s o c with ⟨m, hm⟩ | hp
  · rw [hm] at h
    exact (congrArg Prod.snd h).symm
  rw [hp] at h
  cases o
  case request =>
    simp only [perform] at h
    split at h
    · exact (congrArg Prod.snd h).symm
    · cases h
  all_goals
    try cases h
    try simp only [perform, State.updateRow, State.updateFile] at h
    try split at h
    all_goals first | exact (congrArg Prod.snd h).symm | cases h

/-- The row after a call is the row as it was, or the call went through and touched it. -/
theorem call_row (h : call s o c = (r, s')) {d : Download} (hd : s.downloads.rows id = some d) :
    s'.downloads.rows id = some d ∨
      ((∃ a, r = .ok a) ∧ RowStep id d o (s'.downloads.rows id)) := by
  cases r with
  | error e =>
    rw [call_error h]
    exact .inl hd
  | ok a =>
    refine (?_ : _ ∨ RowStep id d o _).imp_right fun hs => ⟨⟨a, rfl⟩, hs⟩
    have hp := call_ok h
    obtain rfl : (perform s c o).2 = s' := congrArg Prod.snd hp
    clear hp h
    cases o <;> try exact .inl hd
    case claim j =>
      simp only [perform]
      rw [updateMany_row hd]
      by_cases hc : (decide (id = j) && decide (d.status = .QUEUED)) = true
      · rw [if_pos hc]
        simp only [Bool.and_eq_true, decide_eq_true_eq] at hc
        obtain ⟨rfl, hq⟩ := hc
        exact .inr (.claim hq)
      · rw [if_neg hc]
        exact .inl rfl
    case createDownload row => exact .inl (Table.insert_rows_old hd)
    case updateDownload j change =>
      simp only [perform, State.updateRow]
      split
      · exact .inl hd
      · rw [modify_row hd]
        split
        · subst j
          exact .inr (.update change)
        · exact .inl rfl
    case updateFile j index change =>
      simp only [perform, State.updateFile]
      split
      · exact .inl hd
      · rw [modify_row hd]
        split
        · subst j
          exact .inr (.file index change)
        · exact .inl rfl
    case cancelFiles j running =>
      simp only [perform]
      rw [updateMany_row hd]
      split
      · subst j
        exact .inr (.cancelFiles running)
      · exact .inl rfl
    case requeue j =>
      simp only [perform, State.updateRow]
      split
      · exact .inl hd
      · rw [modify_row hd]
        split
        · subst j
          exact .inr .requeue
        · exact .inl rfl
    case deleteDownload j =>
      simp only [perform]
      split
      · exact .inl hd
      · by_cases e : id = j
        · subst e
          have hn : (s.downloads.erase id).rows id = none := by simp [Table.erase, Table.mapMany, hd]
          simp only [hn]
          exact .inr .delete
        · exact .inl (Table.erase_rows.mpr ⟨e, hd⟩)
    case requeueRunning =>
      simp only [perform]
      rw [updateMany_row hd]
      split
      · exact .inr (.requeueRunning ‹_›)
      · exact .inl rfl
    case resetRunningFiles =>
      simp only [perform]
      rw [updateMany_row hd]
      exact .inr .resetFiles
    case rename =>
      simp only [perform]
      split <;> exact .inl hd
    case request =>
      simp only [perform]
      split <;> exact .inl hd
    case fetchPost =>
      simp only [perform]
      split <;> exact .inl hd
    case report =>
      simp only [perform]
      split <;> exact .inl hd

theorem call_find {row : Option Download} (h : call s (.findDownload id) c = (.ok row, s')) :
    s.downloads.rows id = row ∧ s' = s := by
  have hp := call_ok h
  simp only [perform, Prod.mk.injEq, Except.ok.injEq] at hp
  exact ⟨hp.1, hp.2.symm⟩

/-- A write to a row that goes through finds the row. -/
theorem call_updateDownload {change : DownloadChange} {a : Unit}
    (h : call s (.updateDownload id change) c = (.ok a, s')) :
    ∃ d, s.downloads.rows id = some d ∧ s'.downloads.rows id = some (change.apply d) := by
  have hp := call_ok h
  simp only [perform, State.updateRow] at hp
  split at hp
  · cases hp
  · rename_i d hd
    obtain rfl := congrArg Prod.snd hp
    exact ⟨d, hd, by rw [modify_row hd, if_pos rfl]⟩

theorem call_updateFile {index : Nat} {change : FileChange} {a : Unit}
    (h : call s (.updateFile id index change) c = (.ok a, s')) :
    ∃ d f, s.downloads.rows id = some d ∧ d.files[index]? = some f ∧
      s'.downloads.rows id = some { d with files := d.files.modify index change.apply } := by
  have hp := call_ok h
  simp only [perform, State.updateFile] at hp
  split at hp
  · cases hp
  · rename_i f hf
    obtain ⟨d, hd, hf⟩ := Option.bind_eq_some_iff.mp hf
    obtain rfl := congrArg Prod.snd hp
    exact ⟨d, f, hd, hf, by rw [modify_row hd, if_pos rfl]⟩

theorem call_cancelFiles {running : Bool} {a : Unit} {d : Download}
    (h : call s (.cancelFiles id running) c = (.ok a, s')) (hd : s.downloads.rows id = some d) :
    s'.downloads.rows id = some (d.cancelFiles running) := by
  obtain rfl := congrArg Prod.snd (call_ok h)
  simp only [perform]
  rw [updateMany_row hd, if_pos rfl]

theorem call_publish (s : State) (event : ServerEvent) (c : Choice) :
    call s (.publish event) c = (.ok (), s) := by
  simp only [call]
  split <;> rfl

/-- A row that was not there is a new download. -/
theorem call_new_row (h : call s o c = (r, s')) (hn : s.downloads.rows id = none) {d : Download}
    (hd : s'.downloads.rows id = some d) : o = .createDownload d ∧ id = s.downloads.next := by
  rcases call_cases s o c with ⟨m, hm⟩ | hp
  · rw [hm] at h
    cases h
    simp [hn] at hd
  obtain rfl : (perform s c o).2 = s' := by rw [← hp, h]
  have keep {t : Table Download} {f : Nat → Download → Option Download}
      (ht : t.rows id = none) : (t.mapMany f).rows id ≠ some d := by
    simp [Table.mapMany, ht]
  cases o <;> try cases hn.symm.trans hd
  case createDownload row =>
    rcases Table.insert_rows hd with ⟨hi, rfl⟩ | ⟨-, hd⟩
    · exact ⟨rfl, hi⟩
    · rw [hn] at hd
      cases hd
  all_goals
    simp only [perform, State.updateRow, State.updateFile, State.updateMany] at hd
    try split at hd
    all_goals first
      | exact absurd hd (keep hn)
      | cases hn.symm.trans hd

theorem call_next (s : State) (o : Op) (c : Choice) :
    s.downloads.next ≤ (call s o c).2.downloads.next := by
  refine call_keep (φ := fun s' => s.downloads.next ≤ s'.downloads.next) (fun c => ?_) (Nat.le_refl _) c
  cases o
  case createDownload => exact Nat.le_succ _
  all_goals
    simp only [perform, State.updateRow, State.updateFile, State.updateMany]
    repeat' split
    all_goals exact Nat.le_refl _

theorem next_le (hc : call s o c = (r, s')) : s.downloads.next ≤ s'.downloads.next := by
  have hn := call_next s o c
  rwa [hc] at hn

theorem row_known (hc : call s o c = (r, s')) (hd : s.downloads.rows id = some d) :
    id < s'.downloads.next :=
  Nat.lt_of_lt_of_le (Table.lt_next hd) (next_le hc)

theorem call_samePlaces (s : State) (o : Op) (c : Choice) : SamePlaces s (call s o c).2 := by
  refine ⟨call_next s o c, fun id index place hid hp => ?_⟩
  have hc : call s o c = ((call s o c).1, (call s o c).2) := rfl
  cases hd' : (call s o c).2.downloads.rows id with
  | none => simp [State.placeAt, hd'] at hp
  | some d' =>
    cases hd : s.downloads.rows id with
    | none =>
      have := (call_new_row hc hd hd').2
      omega
    | some d =>
      simp only [State.placeAt, hd', hd, Option.bind_some] at hp ⊢
      rcases call_row hc hd with hsame | ⟨-, hrow⟩
      · rw [hd'] at hsame
        cases hsame
        exact hp
      · rw [hd'] at hrow
        rwa [hrow.places] at hp

theorem Gone.call (h : Gone s id) (hc : call s o c = (r, s')) : Gone s' id := by
  refine ⟨Nat.lt_of_lt_of_le h.1 (next_le hc), ?_⟩
  cases hd : s'.downloads.rows id with
  | none => rfl
  | some d =>
    have := (call_new_row hc h.2 hd).2
    have := h.1
    omega

end
end CircleFtp.Downloads
