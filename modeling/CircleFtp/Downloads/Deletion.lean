import CircleFtp.Concurrent.Alone
import CircleFtp.Downloads.Rows
import CircleFtp.Downloads.Slots

/-! What deleting a download with its files leaves of the others: the paths to remove are worked
out from names, and no other row is asked for them. -/
namespace CircleFtp.Downloads
open Concurrent Files Strings

/-- Where a file goes and where it lies while it is being written. -/
def pathsOf (env : Env) (folder relPath : Str) : List Str :=
  match resolveDestination env.media folder relPath with
  | .error _ => []
  | .ok destination => [destination, partPathFor destination]

def Download.paths (env : Env) (d : Download) : List Str :=
  d.files.flatMap fun f => pathsOf env d.folderName f.relPath

/-- A path of a completed file, or of any file of a queued or running job. -/
def Download.Claims (env : Env) (d : Download) (path : Str) : Prop :=
  ∃ f ∈ d.files, (f.status = .COMPLETED ∨ d.status.active) ∧ path ∈ pathsOf env d.folderName f.relPath

instance (env : Env) (d : Download) : DecidablePred (d.Claims env) := fun _ => by
  unfold Download.Claims; infer_instance

/-- No path that vanished is claimed by a remaining row, and the completed files of the remaining
rows are as they were. -/
structure OthersKept (env : Env) (s s' : State) : Prop where
  unclaimed : ∀ path, s.disk.content path ≠ none → s'.disk.content path = none →
    ∀ i d, s'.downloads.rows i = some d → ¬ d.Claims env path
  completed : ∀ i d, s'.downloads.rows i = some d → ∀ f ∈ d.files, f.status = .COMPLETED →
    ∀ path, resolveDestination env.media d.folderName f.relPath = .ok path →
    s'.disk.content path = s.disk.content path

/-- No other row claims a path of the download that is on disk. -/
def FilesApart (env : Env) (id : Nat) (s : State) : Prop :=
  ∀ row, s.downloads.rows id = some row → ∀ path ∈ row.paths env, s.disk.content path ≠ none →
    ∀ i d, i ≠ id → s.downloads.rows i = some d → ¬ d.Claims env path

/-- The paths are gone, and everything else on disk is as before. -/
def Removed (disk disk' : Disk Str UInt8) (paths : List Str) : Prop :=
  ∀ path, disk'.content path = if path ∈ paths then none else disk.content path

theorem Removed.remove {disk disk' : Disk Str UInt8} {paths : List Str} (h : Removed disk disk' paths)
    (path : Str) : Removed disk (disk'.remove path) (paths ++ [path]) := by
  intro q
  by_cases e : q = path
  · subst e
    simp [Disk.content_remove_self]
  · simp [Disk.content_remove_of_ne _ e, h q, e]

/-- A deletion leaves the others' claims alone exactly if it removes no claimed path. -/
theorem othersKept_iff {env : Env} {id : Nat} {s s' : State} {row : Download}
    (hrow : s.downloads.rows id = some row) (hd : s'.downloads = s.downloads.erase id)
    (hr : Removed s.disk s'.disk (row.paths env)) : OthersKept env s s' ↔ FilesApart env id s := by
  have rows (i : Nat) (d : Download) :
      s'.downloads.rows i = some d ↔ i ≠ id ∧ s.downloads.rows i = some d := by
    rw [hd, Table.erase_rows]
  constructor
  · intro h row' hrow' path hp hc i d hi hdi
    rw [hrow] at hrow'
    cases hrow'
    exact h.unclaimed path hc (by simp [hr path, hp]) i d ((rows i d).mpr ⟨hi, hdi⟩)
  · intro h
    refine ⟨fun path hc hn i d hdi => ?_, fun i d hdi f hf hcomp path hres => ?_⟩
    · have hp : path ∈ row.paths env := by
        by_contra hp
        exact hc (by rw [← hn, hr path, if_neg hp])
      exact h row hrow path hp hc i d ((rows i d).mp hdi).1 ((rows i d).mp hdi).2
    · rw [hr path]
      split
      · rename_i hp
        by_contra hc
        exact h row hrow path hp (fun e => hc e.symm) i d ((rows i d).mp hdi).1 ((rows i d).mp hdi).2
          ⟨f, hf, .inl hcomp, by simp [pathsOf, hres]⟩
      · rfl

section
variable {env : Env} {k : Task} {s : State}

/-- The rows are still those of `s`, and the paths are gone. -/
structure Removing (s : State) (paths : List Str) (v : State) : Prop where
  rows : v.downloads = s.downloads
  disk : Removed s.disk v.disk paths

theorem Removing.refl (s : State) : Removing s [] s := ⟨rfl, fun _ => by simp⟩

theorem remove_calls {paths : List Str} (path : Str) :
    ((system env).alone k).Calls (Removing s paths) (.remove path)
      fun _ => Removing s (paths ++ [path]) := by
  refine ⟨fun _ _ _ _ _ => trivial, fun v a v' h ha => ?_, fun v e v' h ha => ?_⟩
  · obtain ⟨c, ths, he⟩ := ha
    have hp := call_ok (system_exec he).2.1
    simp only [perform, Prod.mk.injEq] at hp
    obtain ⟨-, rfl⟩ := hp
    exact ⟨h.rows, h.disk.remove path⟩
  · obtain ⟨c, ths, he⟩ := ha
    rwa [call_error (system_exec he).2.1]

theorem removeDownloadFiles_does (folder : Str) (relPaths : List Str) (paths : List Str) :
    ((system env).alone k).Does (Removing s paths) (removeDownloadFiles env folder relPaths)
      (fun _ => Removing s (paths ++ relPaths.flatMap (pathsOf env folder))) fun _ _ => True := by
  have stable := (system env).alone_stable k
  induction relPaths generalizing paths with
  | nil => exact .pure (stable _) fun v h => by simpa using h
  | cons relPath relPaths ih =>
    rw [removeDownloadFiles]
    cases hd : resolveDestination env.media folder relPath with
    | error e => simpa [pathsOf, hd] using ih paths
    | ok destination =>
      refine .step (stable _) (fun _ => stable _) (fun _ => stable _) (remove_calls destination)
        (fun _ _ _ => trivial) fun _ => ?_
      refine .step (stable _) (fun _ => stable _) (fun _ => stable _)
        (remove_calls (partPathFor destination)) (fun _ _ _ => trivial) fun _ => ?_
      simpa [pathsOf, hd] using ih (paths ++ [destination] ++ [partPathFor destination])

/-- The download has been read from `s`. -/
def ReadFrom (s : State) (id : Nat) (row : Download) (v : State) : Prop :=
  v = s ∧ s.downloads.rows id = some row

/-- The row is gone and with it the paths of its files. -/
def Deleted (env : Env) (s : State) (id : Nat) (v : State) : Prop :=
  ∃ row, s.downloads.rows id = some row ∧ v.downloads = s.downloads.erase id ∧
    Removed s.disk v.disk (row.paths env)

theorem getDownload_does (id : Nat) : ((system env).alone k).Does (· = s) (getDownload id)
    (fun row => ReadFrom s id row) fun _ _ => True := by
  have stable := (system env).alone_stable k
  refine .step (Q := fun row v => v = s ∧ s.downloads.rows id = row) (stable _) (fun _ => stable _)
    (fun _ => stable _) ⟨fun _ _ _ _ _ => trivial, ?_, ?_⟩ (fun _ _ _ => trivial) ?_
  · rintro _ row v rfl ⟨c, ths, he⟩
    exact (call_find (system_exec he).2.1).symm
  · rintro _ e v rfl ⟨c, ths, he⟩
    exact call_error (system_exec he).2.1
  · rintro (_ | row)
    · exact .throw (stable _) fun _ _ => trivial
    · exact .pure (stable _) fun _ h => h

theorem deleteDownload_does (id : Nat) : ((system env).alone k).Does (· = s)
    (deleteDownload env id true) (fun _ => Deleted env s id) fun _ _ => True := by
  have stable := (system env).alone_stable k
  refine .bind (fun _ => stable _) (getDownload_does id) fun row => ?_
  split
  · exact .throw (stable _) fun _ _ => trivial
  simp only [if_true]
  refine .bind (Q := fun _ v => s.downloads.rows id = some row ∧ Removing s (row.paths env) v)
    (fun _ => stable _) ?_ fun _ => ?_
  · rintro v ⟨rfl, hrow⟩
    refine (removeDownloadFiles_does row.folderName (row.files.map (·.relPath)) [] v (.refl v)).mono ?_
    rintro (e | a) u hu
    · trivial
    · refine ⟨hrow, ?_⟩
      simpa [Program.split, Download.paths, List.flatMap_map] using hu
  refine .step (Q := fun _ => Deleted env s id) (stable _) (fun _ => stable _) (fun _ => stable _)
    ⟨fun _ _ _ _ _ => trivial, ?_, ?_⟩ (fun _ _ _ => trivial) fun _ => ?_
  · rintro v a v' ⟨hrow, h⟩ ⟨c, ths, he⟩
    have hp := call_ok (system_exec he).2.1
    simp only [perform, h.rows, hrow, Prod.mk.injEq] at hp
    obtain ⟨-, rfl⟩ := hp
    exact ⟨row, hrow, rfl, h.disk⟩
  · rintro v e v' h ⟨c, ths, he⟩
    rwa [call_error (system_exec he).2.1]
  · refine (Contract.Does.call (stable _) (fun _ => stable _) ?_).conseq (fun _ h => h)
      (fun _ _ h => h) fun _ _ _ => trivial
    refine ⟨fun _ _ _ _ _ => trivial, ?_, ?_⟩
    · rintro v a v' h ⟨c, ths, he⟩
      obtain rfl : v' = v :=
        congrArg Prod.snd ((system_exec he).2.1.symm.trans (call_publish v _ c))
      exact h
    · rintro v e v' h ⟨c, ths, he⟩
      rwa [call_error (system_exec he).2.1]

end

/-- A deletion that runs to its end leaves the other rows' files alone exactly if none of them
claims a path that it removes. -/
theorem deletion_apart (env : Env) {s : State} (hs : s.Down) {p q : DownloadPool} {t id : Nat}
    (hr : (system env).Runs (fun _ _ => True) (.initial s) p)
    (ht : p.threads t = some ⟨.request (.delete id true), ((Request.delete id true).flow env).program⟩)
    (ha : (system env).Alone t p q)
    (hq : q.threads t = some ⟨.request (.delete id true), .ret (.ended (.ok ()))⟩) :
    OthersKept env p.state q.state ↔ FilesApart env id p.state := by
  have hsafe : ((Request.delete id true).flow env).program.Safe
      ((system env).alone (.request (.delete id true)))
      (fun a v => a = .ended (.ok ()) → Deleted env p.state id v) p.state := by
    refine Program.Safe.bind ((deleteDownload_does id p.state rfl).mono ?_)
    rintro (e | a) v h w rfl heq
    · cases heq
    · exact h
  obtain ⟨row, hrow, hd, hrem⟩ := ha.result (system_fresh hs hr) ht hsafe hq rfl
  exact othersKept_iff hrow hd hrem

/-- A new request is the next thread. -/
theorem arrived {env : Env} {p p' : DownloadPool} (hf : p.Fresh) {r : Request}
    (h : (system env).step p (.external (.request r)) = some p') :
    p'.threads p.next = some ⟨.request r, (r.flow env).program⟩ := by
  rcases (system env).step_cases h with
    ⟨_, _, _, _, _, _, _, _, hl, -⟩ | ⟨_, _, _, hl, -⟩ | ⟨x, s, dies, ths, hl, he, rfl⟩
  · cases hl
  · cases hl
  · cases arrives he <;> cases hl
    simp [Pool.didOuter_threads hf]

/-- The request of thread `t` has ended without an error. -/
def succeeded (t : Nat) (r : Request) (p : DownloadPool) : Bool :=
  match p.threads t with
  | some ⟨k, .ret (.ended (.ok ()))⟩ => k = .request r
  | _ => false

theorem succeeded_threads {t : Nat} {r : Request} {p : DownloadPool} (h : succeeded t r p = true) :
    p.threads t = some ⟨.request r, .ret (.ended (.ok ()))⟩ := by
  rw [succeeded] at h
  split at h
  · rename_i k hk
    rw [hk, of_decide_eq_true h]
  · cases h

def firstTitle : Download where
  postId := 1
  folderName := ['F']
  status := .COMPLETED
  files := [{ url := ['u'], relPath := ['a'], status := .COMPLETED }]

def secondTitle (folder : Str) : Download where
  postId := 2
  folderName := folder
  status := .FAILED
  files := [{ url := ['v'], relPath := ['a'], status := .FAILED }]

/-- Two finished jobs; the second one failed and has left its part, if it has a folder `G`. -/
def twoTitles (folder : Str) : State where
  downloads := (Table.empty.insert firstTitle).insert (secondTitle folder)
  disk := (Disk.empty.create "/m/F/a".toList).create "/m/G/a.part".toList
  memory := {}

/-- The second of two jobs is deleted with its files, with nothing else going on. -/
theorem deleteSecond_runs (folder : Str) (φ : State → State → Prop) [DecidableRel φ]
    (h : (((system (.small 2)).replay (fun _ _ => true) (.initial (twoTitles folder))
      (.external .boot :: calls 0 2 ++ [.finish 0])).any fun p =>
        p.next = 2 && ((system (.small 2)).step p (.external (.request (.delete 1 true)))).any fun p =>
          ((system (.small 2)).replay (System.only 2) p (calls 2 5)).any fun q =>
            succeeded 2 (.delete 1 true) q && decide (φ p.state q.state)) = true) :
    ∃ p q : DownloadPool,
      (system (.small 2)).Runs (fun _ _ => True) (.initial (twoTitles folder)) p ∧
      p.threads 2 = some ⟨.request (.delete 1 true),
        ((Request.delete 1 true).flow (.small 2)).program⟩ ∧
      (system (.small 2)).Alone 2 p q ∧
      q.threads 2 = some ⟨.request (.delete 1 true), .ret (.ended (.ok ()))⟩ ∧
      φ p.state q.state := by
  obtain ⟨p₀, h₀, h⟩ := Option.any_eq_true _ _ |>.mp h
  obtain ⟨hn, h⟩ := Bool.and_eq_true_iff.mp h
  obtain ⟨p, hp, h⟩ := Option.any_eq_true _ _ |>.mp h
  obtain ⟨q, hq, h⟩ := Option.any_eq_true _ _ |>.mp h
  obtain ⟨hs, hφ⟩ := Bool.and_eq_true_iff.mp h
  have hr₀ := (system (.small 2)).replay_runs (C := fun _ _ => True) (fun _ _ _ => trivial) h₀
  have ht := arrived (system_fresh (s := twoTitles folder) rfl hr₀) hp
  rw [of_decide_eq_true hn] at ht
  exact ⟨p, q, hr₀.tail ⟨_, trivial, hp⟩, ht,
    (system (.small 2)).replay_runs (fun _ _ => System.only_exec) hq, succeeded_threads hs,
    of_decide_eq_true hφ⟩

/-- Two titles with one folder: deleting the one that failed removes what the other has
fetched. -/
theorem deletes_others_file : ¬ ∀ (env : Env) (s : State) (p q : DownloadPool) (t id : Nat), s.Down →
    (system env).Runs (fun _ _ => True) (.initial s) p →
    p.threads t = some ⟨.request (.delete id true), ((Request.delete id true).flow env).program⟩ →
    (system env).Alone t p q →
    q.threads t = some ⟨.request (.delete id true), .ret (.ended (.ok ()))⟩ →
    OthersKept env p.state q.state := by
  intro h
  obtain ⟨p, q, hr, ht, ha, hq, hp, hc, hd⟩ := deleteSecond_runs ['F']
    (fun s s' => s.disk.content "/m/F/a".toList = some [] ∧
      s'.disk.content "/m/F/a".toList = none ∧
      (s'.downloads.rows 0).any fun d => d.Claims (.small 2) "/m/F/a".toList) (by decide)
  obtain ⟨d, hd, hclaims⟩ := Option.any_eq_true _ _ |>.mp hd
  exact (h (.small 2) (twoTitles ['F']) p q 2 1 rfl hr ht ha hq).unclaimed _ (by rw [hp]; exact Option.some_ne_none _)
    hc 0 d hd (of_decide_eq_true hclaims)

/-- Two titles with a folder each: the files of the second go, the first keeps its own. -/
theorem deletion_apart_folders : ∃ p q : DownloadPool, (system (.small 2)).Alone 2 p q ∧
    (p.state.disk.content "/m/G/a.part".toList = some [] ∧
      q.state.disk.content "/m/G/a.part".toList = none ∧
      q.state.disk.content "/m/F/a".toList = some []) ∧
    OthersKept (.small 2) p.state q.state := by
  obtain ⟨p, q, hr, ht, ha, hq, ⟨hn, h0, h1⟩, hφ⟩ := deleteSecond_runs ['G']
    (fun s s' => (s.downloads.next = 2 ∧
        s.downloads.rows 0 = some firstTitle ∧
        s.downloads.rows 1 = some (secondTitle ['G'])) ∧
      s.disk.content "/m/G/a.part".toList = some [] ∧
      s'.disk.content "/m/G/a.part".toList = none ∧
      s'.disk.content "/m/F/a".toList = some []) (by decide)
  refine ⟨p, q, ha, hφ, (deletion_apart (.small 2) (s := twoTitles ['G']) rfl hr ht ha hq).mpr ?_⟩
  intro row hrow path hpath _ i d hi hd
  obtain rfl : i = 0 := by
    have := Table.lt_next hd
    omega
  rw [h1] at hrow
  rw [h0] at hd
  cases hrow
  cases hd
  have apart : ∀ path ∈ (secondTitle ['G']).paths (.small 2), ¬ firstTitle.Claims (.small 2) path := by
    decide
  exact apart path hpath

end CircleFtp.Downloads
