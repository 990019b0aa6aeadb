import CircleFtp.Concurrent.Replica
import CircleFtp.Downloads.Store
import CircleFtp.Ranking

/-! The list of downloads: the query of the server and what the browser makes of its events. -/
namespace CircleFtp.Downloads
open Concurrent Strings

abbrev Entry := Nat × Download

inductive ListFilter where
  | all | active | done
deriving DecidableEq

def ListFilter.keeps : ListFilter → Status → Bool
  | .all, _ => true
  | .active, status => status.active
  | .done, status => !status.active

/-- The order is by two timestamps of the rows, and any order here. -/
def listDownloads (s : State) (order : Entry → Entry → Bool) (filter : ListFilter) (limit : Nat) :
    List Entry :=
  ((s.downloads.entries.filter fun x => filter.keeps x.2.status).mergeSort order).take limit

/-- Two columns of the rows, under their keys. -/
structure Timestamps where
  finishedAt : Nat → Option Nat
  createdAt : Nat → Nat

/-- `finishedAt` ascending with nulls first, then `createdAt` descending. -/
def Timestamps.order (times : Timestamps) (x y : Entry) : Bool :=
  match times.finishedAt x.1, times.finishedAt y.1 with
  | none, none => times.createdAt y.1 ≤ times.createdAt x.1
  | none, some _ => true
  | some _, none => false
  | some a, some b => a < b || (a = b && times.createdAt y.1 ≤ times.createdAt x.1)

/-- A job is active exactly as long as it has not finished. -/
def Timestamps.Fits (times : Timestamps) (s : State) : Prop := ∀ id d,
  s.downloads.rows id = some d → (times.finishedAt id = none ↔ d.status.active = true)

/-- The rows that a list shows when it has no limit. -/
def matching (s : State) (filter : ListFilter) : List Entry :=
  s.downloads.entries.filter fun x => filter.keeps x.2.status

/-- Active jobs first, then the most recently finished ones, also when rows are cut off. -/
structure ActiveFirst (s : State) (times : Timestamps) (filter : ListFilter) (limit : Nat)
    (list : List Entry) : Prop where
  few : list.length ≤ limit
  rows : ∀ x ∈ list, x ∈ matching s filter
  active : list.Pairwise fun x y => y.2.status.active = true → x.2.status.active = true
  latest : list.Pairwise fun x y => ∀ a b, times.finishedAt x.1 = some a →
    times.finishedAt y.1 = some b → b ≤ a
  cut : ∀ x ∈ matching s filter, x ∉ list → ∀ y ∈ list, y.2.status.active = false →
    x.2.status.active = false ∧ ∀ a b, times.finishedAt x.1 = some a → times.finishedAt y.1 = some b → a ≤ b

section
variable {s : State} {times : Timestamps} {filter : ListFilter} {limit : Nat} {x y : Entry}

theorem order_trans (x y z : Entry) (h : times.order x y = true) (h' : times.order y z = true) :
    times.order x z = true := by
  simp only [Timestamps.order] at *
  grind

theorem order_total (x y : Entry) : (times.order x y || times.order y x) = true := by
  simp only [Timestamps.order]
  grind

theorem mem_matching (h : x ∈ matching s filter) : s.downloads.rows x.1 = some x.2 :=
  Table.mem_entries.mp (List.mem_filter.mp h).1

/-- What the order says of two rows. -/
theorem order_finished (h : times.order x y = true) :
    (times.finishedAt y.1 = none → times.finishedAt x.1 = none) ∧
    ∀ a b, times.finishedAt x.1 = some a → times.finishedAt y.1 = some b → a ≤ b := by
  simp only [Timestamps.order] at h
  grind

/-- The sorted rows are the active ones and then the others. -/
structure Halves (s : State) (times : Timestamps) (filter : ListFilter)
    (actives finished : List Entry) : Prop where
  sorted : (matching s filter).mergeSort times.order = actives ++ finished
  active : ∀ x ∈ actives, x.2.status.active = true
  ended : ∀ x ∈ finished, x.2.status.active = false
  count : actives.length = (matching s filter).countP (·.2.status.active)
  order : finished.Pairwise fun x y => times.order x y = true

theorem exists_halves (hs : times.Fits s) (filter : ListFilter) :
    ∃ actives finished, Halves s times filter actives finished := by
  have pairs : ((matching s filter).mergeSort times.order).Pairwise fun x y =>
      times.order x y = true := List.pairwise_mergeSort order_trans order_total _
  have row {x : Entry} (hx : x ∈ (matching s filter).mergeSort times.order) :
      s.downloads.rows x.1 = some x.2 := mem_matching (List.mem_mergeSort.mp hx)
  have front : ((matching s filter).mergeSort times.order).Pairwise fun x y =>
      y.2.status.active = true → x.2.status.active = true := by
    refine List.pairwise_iff_forall_sublist.mpr fun {x y} hxy => ?_
    rw [← hs x.1 x.2 (row (hxy.subset (by simp))), ← hs y.1 y.2 (row (hxy.subset (by simp)))]
    exact (order_finished (List.pairwise_iff_forall_sublist.mp pairs hxy)).1
  refine ⟨_, _, Ranking.split front, fun x hx => (List.mem_filter.mp hx).2, fun x hx => ?_, ?_,
    pairs.sublist List.filter_sublist⟩
  · simpa using (List.mem_filter.mp hx).2
  · rw [← List.countP_eq_length_filter]
    exact (List.mergeSort_perm _ _).countP_eq _

theorem Timestamps.Fits.finished (hs : times.Fits s) (h : x ∈ matching s filter)
    (hx : x.2.status.active = false) : ∃ a, times.finishedAt x.1 = some a := by
  refine Option.ne_none_iff_exists'.mp fun hn => ?_
  rw [(hs x.1 x.2 (mem_matching h)).mp hn] at hx
  cases hx

namespace Halves
variable {actives finished : List Entry} (h : Halves s times filter actives finished)
include h

theorem mem : x ∈ matching s filter ↔ x ∈ actives ∨ x ∈ finished := by
  rw [← List.mem_append, ← h.sorted, List.mem_mergeSort]

theorem list : listDownloads s times.order filter limit = (actives ++ finished).take limit := by
  rw [← h.sorted]
  rfl

theorem mem_finished (hx : x ∈ matching s filter) (ha : x.2.status.active = false) : x ∈ finished := by
  refine (h.mem.mp hx).resolve_left fun hm => ?_
  rw [h.active x hm] at ha
  cases ha

/-- The first finished job of the list is the oldest one, so that all must be as old. -/
theorem same (hs : times.Fits s) (hl : actives.length < limit)
    (ha : ActiveFirst s times filter limit ((actives ++ finished).take limit)) :
    ∃ t, ∀ x ∈ finished, times.finishedAt x.1 = t := by
  cases hf : finished with
  | nil => exact ⟨none, fun x hx => by cases hx⟩
  | cons oldest others =>
    subst hf
    obtain ⟨k, rfl⟩ := Nat.exists_eq_add_of_lt hl
    have shown : (actives ++ oldest :: others).take (actives.length + k + 1) =
        actives ++ oldest :: others.take k := by
      rw [Nat.add_assoc, List.take_length_add_append, List.take_succ_cons]
    rw [shown] at ha
    have time {y : Entry} (hy : y ∈ oldest :: others) := hs.finished (h.mem.mpr (.inr hy)) (h.ended y hy)
    obtain ⟨a, hoa⟩ := time List.mem_cons_self
    refine ⟨some a, fun y hy => ?_⟩
    rcases List.mem_cons.mp hy with rfl | hyo
    · exact hoa
    · obtain ⟨b, hyb⟩ := time hy
      have older : a ≤ b := (order_finished ((List.pairwise_cons.mp h.order).1 y hyo)).2 a b hoa hyb
      have newer : b ≤ a := by
        by_cases hk : y ∈ actives ++ oldest :: others.take k
        · rcases List.mem_append.mp hk with hya | hyk
          · have := h.ended y hy
            rw [h.active y hya] at this
            cases this
          · rcases List.mem_cons.mp hyk with rfl | hyk
            · rw [hoa] at hyb
              exact Nat.le_of_eq (Option.some.inj hyb).symm
            · exact (List.pairwise_cons.mp (List.pairwise_append.mp ha.latest).2.1).1 y hyk a b hoa hyb
        · exact (ha.cut y (h.mem.mpr (.inr hy)) hk oldest (by simp) (h.ended _ List.mem_cons_self)).2 b a
            hyb hoa
      rw [hyb, Nat.le_antisymm newer older]

theorem not_active_mem (hs : times.Fits s) {a : Nat} (hx : times.finishedAt x.1 = some a) : x ∉ actives := by
  intro hm
  rw [(hs x.1 x.2 (mem_matching (h.mem.mpr (.inl hm)))).mpr (h.active x hm)] at hx
  cases hx

/-- When all finished jobs are equally old, it does not matter which of them are left out. -/
theorem activeFirst (hs : times.Fits s) (hc : limit ≤ actives.length ∨
      ∀ x ∈ finished, ∀ y ∈ finished, times.finishedAt x.1 = times.finishedAt y.1) :
    ActiveFirst s times filter limit ((actives ++ finished).take limit) := by
  have mem_of {x : Entry} (hx : x ∈ (actives ++ finished).take limit) : x ∈ actives ∨ x ∈ finished :=
    List.mem_append.mp (List.mem_of_mem_take hx)
  -- a list with a finished job in it has all active ones and is not of the first kind
  have listed {y : Entry} (hy : y ∈ (actives ++ finished).take limit) (hn : y ∉ actives) :
      y ∈ finished ∧ actives.length ≤ limit ∧
      ∀ x ∈ finished, times.finishedAt x.1 = times.finishedAt y.1 := by
    have hyf := (mem_of hy).resolve_left hn
    rcases Nat.lt_or_ge actives.length limit with hl | hl
    · exact ⟨hyf, Nat.le_of_lt hl, fun x hx => hc.resolve_left (Nat.not_le.mpr hl) x hx y hyf⟩
    · rw [List.take_append_of_le_length hl] at hy
      exact absurd (List.mem_of_mem_take hy) hn
  refine ⟨List.length_take_le _ _, fun x hx => h.mem.mpr (mem_of hx), ?_, ?_, ?_⟩
  · refine List.Pairwise.sublist (List.take_sublist _ _) (List.pairwise_append.mpr ⟨?_, ?_, ?_⟩)
    · exact List.pairwise_of_forall_mem_list fun x hx y hy _ => h.active x hx
    · refine List.pairwise_of_forall_mem_list fun x hx y hy ha => ?_
      rw [h.ended y hy] at ha
      cases ha
    · exact fun x hx y hy _ => h.active x hx
  · refine List.pairwise_of_forall_mem_list fun x hx y hy a b hxa hyb => ?_
    obtain ⟨-, -, hall⟩ := listed hy (h.not_active_mem hs hyb)
    have hxf := (mem_of hx).resolve_left (h.not_active_mem hs hxa)
    rw [← hall x hxf, hxa] at hyb
    exact Nat.le_of_eq (Option.some.inj hyb).symm
  · intro x hx hn y hy hya
    obtain ⟨-, hl, hall⟩ := listed hy fun hm => by simp [h.active y hm] at hya
    have hxf : x ∈ finished := (h.mem.mp hx).resolve_left fun hm => hn (by
      rw [List.take_append, List.take_of_length_le hl]
      exact List.mem_append_left _ hm)
    refine ⟨h.ended x hxf, fun a b hxa hyb => ?_⟩
    rw [hall x hxf, hyb] at hxa
    exact Nat.le_of_eq (Option.some.inj hxa).symm

end Halves

/-- The list shows the most recent jobs exactly as long as it shows no finished job, or all of them
have finished at the same time. -/
theorem listDownloads_activeFirst (hs : times.Fits s) :
    ActiveFirst s times filter limit (listDownloads s times.order filter limit) ↔
    limit ≤ (matching s filter).countP (·.2.status.active) ∨
    ∀ x ∈ matching s filter, ∀ y ∈ matching s filter, x.2.status.active = false →
      y.2.status.active = false → times.finishedAt x.1 = times.finishedAt y.1 := by
  obtain ⟨actives, finished, h⟩ := exists_halves hs filter
  rw [h.list, ← h.count]
  constructor
  · intro ha
    refine (Nat.lt_or_ge actives.length limit).symm.imp id fun hl x hx y hy hxa hya => ?_
    obtain ⟨t, ht⟩ := h.same hs hl ha
    rw [ht x (h.mem_finished hx hxa), ht y (h.mem_finished hy hya)]
  · exact fun hc => h.activeFirst hs (hc.imp id fun hc x hx y hy =>
      hc x (h.mem.mpr (.inr hx)) y (h.mem.mpr (.inr hy)) (h.ended x hx) (h.ended y hy))

end

def finishedJob : Download := { postId := 7, folderName := "F".toList, status := .COMPLETED, files := [] }

def twoFinished : State := ⟨(Table.empty.insert finishedJob).insert finishedJob, .empty, {}⟩

def finishedEvery (ms : Nat) : Timestamps := ⟨fun id => some (ms * id), id⟩

theorem twoFinished_fits (ms : Nat) : (finishedEvery ms).Fits twoFinished := by
  intro id d h
  have hd : d = finishedJob := by
    rcases Table.insert_rows h with ⟨-, rfl⟩ | ⟨-, h⟩
    · rfl
    · rcases Table.insert_rows h with ⟨-, rfl⟩ | ⟨-, h⟩
      · rfl
      · cases h
  subst hd
  constructor <;> (intro h; cases h)

theorem matching_twoFinished : matching twoFinished .all = [(0, finishedJob), (1, finishedJob)] := by
  decide +kernel

/-- Of two jobs the list of one shows the older. -/
theorem oldest_listed : (finishedEvery 1).Fits twoFinished ∧
    listDownloads twoFinished (finishedEvery 1).order .all 1 = [(0, finishedJob)] ∧
    ¬ ActiveFirst twoFinished (finishedEvery 1) .all 1
      (listDownloads twoFinished (finishedEvery 1).order .all 1) := by
  have sorted : (matching twoFinished .all).mergeSort (finishedEvery 1).order =
      [(0, finishedJob), (1, finishedJob)] := by
    rw [matching_twoFinished]
    exact List.mergeSort_of_pairwise (by decide)
  have shown : listDownloads twoFinished (finishedEvery 1).order .all 1 = [(0, finishedJob)] :=
    congrArg (List.take 1) sorted
  refine ⟨twoFinished_fits 1, shown, fun h => ?_⟩
  rw [shown] at h
  have newer : (1, finishedJob) ∈ matching twoFinished .all := by simp [matching_twoFinished]
  have := (h.cut _ newer (by decide) _ List.mem_cons_self rfl).2 1 0 rfl rfl
  omega

theorem equally_old_listed : ActiveFirst twoFinished (finishedEvery 0) .all 1
    (listDownloads twoFinished (finishedEvery 0).order .all 1) :=
  (listDownloads_activeFirst (twoFinished_fits 0)).mpr (.inr fun x _ y _ _ _ => by
    simp [finishedEvery])

def ServerEvent.about : ServerEvent → Nat
  | .created id _ | .progress id _ | .finished id _ | .deleted id => id

/-- What reaches a browser. -/
inductive Frame where
  | snapshot (downloads : List Entry)
  | event (e : ServerEvent)
  | heartbeat (time : Str)

/-- Fold one server event into the current list. -/
def applyEvent (current : List Entry) : Frame → List Entry
  | .snapshot downloads => downloads
  | .event (.created id download) => (id, download) :: Replica.remove current id
  | .event (.progress id download) | .event (.finished id download) =>
    Replica.update current id download
  | .event (.deleted id) => Replica.remove current id
  | .heartbeat _ => current

def ServerEvent.carried : ServerEvent → Option Download
  | .created _ d | .progress _ d | .finished _ d => some d
  | .deleted _ => none

/-- What a frame says of a job, if anything: that it is as carried, or that there is none. -/
def Frame.word (id : Nat) : Frame → Option (Option Download)
  | .snapshot downloads => some (Replica.shown downloads id)
  | .event e => if e.about = id then some e.carried else none
  | .heartbeat _ => none

def Frame.Distinct : Frame → Prop
  | .snapshot downloads => (Replica.keys downloads).Nodup
  | _ => True

/-- The last word on a job, which the start list has when no frame says anything. -/
def lastWord (start : List Entry) (frames : List Frame) (id : Nat) : Option Download :=
  (frames.reverse.findSome? (·.word id)).getD (Replica.shown start id)

/-- The list as a map under last words. -/
structure LastWriter (start : List Entry) (frames : List Frame) (list : List Entry) : Prop where
  distinct : (Replica.keys list).Nodup
  present : ∀ id d, (id, d) ∈ list ↔ lastWord start frames id = some d
  absent : ∀ id, id ∉ Replica.keys list ↔ lastWord start frames id = none
  others : ∀ e id d, e.about ≠ id → ((id, d) ∈ applyEvent list (.event e) ↔ (id, d) ∈ list)

section
variable {start list : List Entry} {frames : List Frame} {frame : Frame} {id : Nat}

theorem shown_apply (list : List Entry) (frame : Frame) (id : Nat) :
    Replica.shown (applyEvent list frame) id = (frame.word id).getD (Replica.shown list id) := by
  have said (j : Nat) (w : Option Download) : (if id = j then w else Replica.shown list id) =
      (if j = id then some w else none).getD (Replica.shown list id) := by
    by_cases h : id = j
    · rw [if_pos h, if_pos h.symm]
      rfl
    · rw [if_neg h, if_neg fun h' => h h'.symm]
      rfl
  cases frame with
  | snapshot downloads => rfl
  | heartbeat time => rfl
  | event e =>
    cases e with
    | created j d =>
      rw [Frame.word, ServerEvent.about, ← said, applyEvent, Replica.shown_cons, Replica.shown_remove]
      by_cases h : id = j
      · rw [if_pos h.symm, if_pos h]
        rfl
      · rw [if_neg fun h' => h h'.symm, if_neg h, if_neg h]
    | progress j d | finished j d => exact Replica.shown_update.trans (said j _)
    | deleted j => exact Replica.shown_remove.trans (said j _)

theorem keys_apply (h : (Replica.keys list).Nodup) (hf : frame.Distinct) :
    (Replica.keys (applyEvent list frame)).Nodup := by
  cases frame with
  | snapshot downloads => exact hf
  | heartbeat time => exact h
  | event e =>
    cases e with
    | created j d =>
      obtain ⟨hn, hj⟩ := Replica.keys_remove (k := j) h
      exact List.nodup_cons.mpr ⟨hj, hn⟩
    | progress j d | finished j d => exact Replica.keys_update h
    | deleted j => exact (Replica.keys_remove h).1

theorem lastWord_cons : lastWord start (frame :: frames) id = lastWord (applyEvent start frame) frames id := by
  rw [lastWord, lastWord, shown_apply, List.reverse_cons, List.findSome?_append]
  cases frames.reverse.findSome? (·.word id) with
  | some w => rfl
  | none => cases h : frame.word id <;> simp [h]

theorem keys_fold (h : (Replica.keys start).Nodup) (hf : ∀ frame ∈ frames, frame.Distinct) :
    (Replica.keys (frames.foldl applyEvent start)).Nodup := by
  induction frames generalizing start with
  | nil => exact h
  | cons frame frames ih =>
    exact ih (keys_apply h (hf frame List.mem_cons_self)) fun f hm => hf f (List.mem_cons_of_mem _ hm)

theorem shown_fold (start : List Entry) (frames : List Frame) (id : Nat) :
    Replica.shown (frames.foldl applyEvent start) id = lastWord start frames id := by
  induction frames generalizing start with
  | nil => rfl
  | cons frame frames ih => rw [List.foldl_cons, ih, lastWord_cons]

theorem applyEvent_lastWriter (h : (Replica.keys start).Nodup) (hf : ∀ frame ∈ frames, frame.Distinct) :
    LastWriter start frames (frames.foldl applyEvent start) := by
  have hn := keys_fold h hf
  have present (id : Nat) (d : Download) : (id, d) ∈ frames.foldl applyEvent start ↔
      lastWord start frames id = some d := by
    rw [← Replica.shown_iff hn, shown_fold]
  refine ⟨hn, present, fun id => ?_, fun e id d he => ?_⟩
  · rw [← shown_fold]
    refine ⟨Replica.shown_none, fun hs hk => ?_⟩
    obtain ⟨⟨_, d⟩, hm, rfl⟩ := List.mem_map.mp hk
    rw [(Replica.shown_iff hn).mpr hm] at hs
    cases hs
  · have hk : (Replica.keys (applyEvent (frames.foldl applyEvent start) (.event e))).Nodup :=
      keys_apply hn trivial
    rw [← Replica.shown_iff hk, ← Replica.shown_iff hn, shown_apply, Frame.word, if_neg he]
    rfl

end

def someFrames : List Frame :=
  [.event (.created 1 finishedJob), .event (.deleted 0), .snapshot [(2, finishedJob)],
    .event (.progress 3 finishedJob), .heartbeat "noon".toList]

theorem someFrames_folded : LastWriter [(0, finishedJob)] someFrames
    [(3, finishedJob), (2, finishedJob)] :=
  applyEvent_lastWriter (by decide) fun frame h => by
    simp only [someFrames, List.mem_cons, List.not_mem_nil, or_false] at h
    rcases h with rfl | rfl | rfl | rfl | rfl
    · trivial
    · trivial
    · exact List.nodup_singleton _
    · trivial
    · trivial

end CircleFtp.Downloads
