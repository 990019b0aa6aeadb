import CircleFtp.Concurrent.Threads
import CircleFtp.Downloads.Service

/-! The process: requests, the queue and its jobs, progress writes, shutdown, crash and boot, call
by call. -/
namespace CircleFtp.Downloads
open Concurrent Strings

/-- The tasks of the process. `worker` is one activation of `runJob`, `release` its slot given
back afterwards, `wake` the queue woken up later for it. -/
inductive Task where
  | boot
  | drain
  | worker (id controller : Nat)
  | release
  | wake
  | progress (ticket : Nat)
  | request (r : Request)
deriving DecidableEq

/-- What comes from outside; a crash is any end of the process. -/
inductive Arrival where
  | request (r : Request)
  | shutdown
  | crash
  | boot
deriving DecidableEq

abbrev DownloadThread := Thread Task Op Reply Result
abbrev DownloadPool := Pool State Task Op Reply Arrival Result
abbrev DownloadEvent := Event State Task Op Reply Arrival Result
abbrev DownloadWorld := World State Task Op Reply Arrival Result
abbrev DownloadLabel := Label Choice Arrival

def Flow.program (f : Flow Unit) : Program Op Reply Result := f.run >>= fun r => .ret (.ended r)

/-- A round of the drain; an error ends the drain. -/
def drainProgram : Program Op Reply Result := drainRound.run >>= fun r =>
  match r with
  | .ok a => .ret a
  | .error e => .ret (.ended (.error e))

def Memory.abort (m : Memory) (controller : Nat) : Memory :=
  { m with aborted := Function.update m.aborted controller true }

/-- Abort an in-flight job, if this process is running it. -/
def Memory.abortJob (m : Memory) (id : Nat) : Bool × Memory :=
  match m.aborts.lookup id with
  | none => (false, m)
  | some controller => (true, m.abort controller)

def Memory.shutdown (m : Memory) : Memory :=
  (m.aborts.entries.map Sigma.snd).foldl Memory.abort { m with stopped := true }

/-- The condition of the loop in `drain`: another round, or the drain is over. -/
def Memory.loop (env : Env) (m : Memory) : Memory × List DownloadThread :=
  if m.stopped = false ∧ m.running < env.concurrency then (m, [⟨.drain, drainProgram⟩])
  else ({ m with draining := false }, [])

def Memory.wake (env : Env) (m : Memory) : Memory × List DownloadThread :=
  if m.stopped ∨ m.draining then (m, []) else Memory.loop env { m with draining := true }

/-- `runJob` up to its first call: an abort handle of its own. -/
def Memory.start (env : Env) (m : Memory) (id : Nat) : Memory × DownloadThread :=
  ({ m with
      running := m.running + 1
      aborts := m.aborts.insert id m.controllers
      controllers := m.controllers + 1 },
    ⟨.worker id m.controllers, (runJob env id m.controllers).program⟩)

/-- What follows the end of a task without another call. -/
def Memory.after (env : Env) (m : Memory) : Task → Result → Memory × List DownloadThread
  | .boot, .ended (.ok _) => Memory.wake env { m with phase := .up }
  | .boot, _ => ({}, [])
  | .drain, .start id =>
    let (m', worker) := m.start env id
    let (m'', more) := m'.loop env
    (m'', worker :: more)
  | .drain, .again => m.loop env
  | .drain, _ => ({ m with draining := false }, [])
  | .worker id _, _ =>
    ({ m with
        aborts := m.aborts.erase id
        progressWrites := Function.update m.progressWrites id none },
      [⟨.release, .ret (.ended (.ok ()))⟩])
  | .release, _ => ({ m with running := m.running - 1 }, [⟨.wake, .ret (.ended (.ok ()))⟩])
  | .wake, _ => m.wake env
  | .progress ticket, _ => ({ m with settled := Function.update m.settled ticket true }, [])
  | .request (.create _ _), .ended (.ok _) | .request (.retry _), .ended (.ok _) => m.wake env
  | .request (.cancel id), .ended (.ok _) => ((m.abortJob id).2, [])
  | .request _, _ => (m, [])

/-- The progress write that a report starts, unless the clock suppresses it. -/
def reported (s : State) (c : Choice) : Op → List DownloadThread
  | .report id index bytesOnDisk totalBytes =>
    if c.throttled then [] else
      [⟨.progress s.memory.tickets, (persistProgress (s.memory.progressWrites id) id index
        bytesOnDisk totalBytes).program⟩]
  | _ => []

def arrive (env : Env) (s : State) : Arrival → Option (State × Bool × List DownloadThread)
  | .request r =>
    if s.memory.phase = .up then some (s, false, [⟨.request r, (r.flow env).program⟩]) else none
  | .shutdown =>
    if s.memory.phase = .up then some ({ s with memory := s.memory.shutdown }, false, []) else none
  | .crash => if s.memory.phase = .down then none else some ({ s with memory := {} }, true, [])
  | .boot =>
    if s.memory.phase = .down then
      some ({ s with memory := { phase := .booting } }, false,
        [⟨.boot, recoverFromCrash.program⟩])
    else none

/-- What an arrival does when it comes in. -/
inductive Arrives (env : Env) (s : State) : Arrival → State → Bool → List DownloadThread → Prop where
  | request (r : Request) (h : s.memory.phase = .up) :
      Arrives env s (.request r) s false [⟨.request r, (r.flow env).program⟩]
  | shutdown (h : s.memory.phase = .up) :
      Arrives env s .shutdown { s with memory := s.memory.shutdown } false []
  | crash (h : s.memory.phase ≠ .down) : Arrives env s .crash { s with memory := {} } true []
  | boot (h : s.memory.phase = .down) :
      Arrives env s .boot { s with memory := { phase := .booting } } false
        [⟨.boot, recoverFromCrash.program⟩]

def system (env : Env) : System State Task Op Reply Choice Arrival Result where
  exec s _ o c :=
    if blocked s o then none else some ((call s o c).1, (call s o c).2, reported s c o)
  finish s k a :=
    ({ s with memory := (s.memory.after env k a).1 }, (s.memory.after env k a).2)
  external s x := arrive env s x

/-- The tasks as they begin. -/
inductive Begins (env : Env) : DownloadThread → Prop where
  | boot : Begins env ⟨.boot, recoverFromCrash.program⟩
  | drain : Begins env ⟨.drain, drainProgram⟩
  | worker (id c : Nat) : Begins env ⟨.worker id c, (runJob env id c).program⟩
  | release : Begins env ⟨.release, .ret (.ended (.ok ()))⟩
  | wake : Begins env ⟨.wake, .ret (.ended (.ok ()))⟩
  | progress (ticket id index bytes : Nat) (previous total : Option Nat) :
      Begins env ⟨.progress ticket, (persistProgress previous id index bytes total).program⟩
  | request (r : Request) : Begins env ⟨.request r, (r.flow env).program⟩

/-- The tables and the disk as they are found before the first boot. -/
def State.Down (s : State) : Prop := s.memory = {}

/-- One attempt per file, and names that need no decoding. -/
def Env.small (concurrency : Nat) : Env :=
  ⟨⟨fun _ => none, fun _ => none, fun _ => none⟩, ⟨['/'], "/m".toList⟩, concurrency, 1, 0⟩

/-- One download with one file, and an empty disk. -/
def oneJob : State :=
  ⟨Table.empty.insert { postId := 1, folderName := ['F'], files := [{ url := ['u'], relPath := ['a'] }] },
    .empty, {}⟩

theorem oneJob_down : oneJob.Down := rfl

/-- A number of calls of one thread that all go well. -/
def calls (t n : Nat) : List DownloadLabel := List.replicate n (.exec t {})

/-- The first boot, up to the start of the job as thread `2`; the drain goes on as thread `3`. -/
def bootUp : List DownloadLabel :=
  .external .boot :: calls 0 2 ++ [.finish 0] ++ calls 1 2 ++ [.finish 1]

/-- The job fails for good: the host does not have its file. -/
def failJob : List DownloadLabel :=
  calls 2 10 ++ [.exec 2 { response := { status := 404 } }] ++ calls 2 8

section
variable {env : Env} {s s' : State} {k : Task} {ths : List DownloadThread}

theorem system_exec {o : Op} {c : Choice} {r : Reply o}
    (h : (system env).exec s k o c = some (r, s', ths)) :
    blocked s o = false ∧ call s o c = (r, s') ∧ ths = reported s c o := by
  simp only [system] at h
  split at h
  · cases h
  · rename_i hb
    obtain ⟨rfl, rfl, rfl⟩ : (call s o c).1 = r ∧ (call s o c).2 = s' ∧ reported s c o = ths := by
      simpa using h
    exact ⟨by simpa using hb, rfl, rfl⟩

theorem abort_foldl (cs : List Nat) (m : Memory) :
    cs.foldl Memory.abort m = { m with aborted := (cs.foldl Memory.abort m).aborted } := by
  induction cs generalizing m with
  | nil => rfl
  | cons c cs ih => exact ih (m.abort c)

/-- A shutdown stops the queue, aborts what is running and leaves the rest of the memory. -/
theorem shutdown_eq (m : Memory) : m.shutdown = { m with stopped := true, aborted := m.shutdown.aborted } :=
  abort_foldl _ _

theorem arrives {x : Arrival} {dies : Bool} (h : arrive env s x = some (s', dies, ths)) :
    Arrives env s x s' dies ths := by
  cases x <;> simp only [arrive] at h <;> split at h <;> cases h
  · exact .request _ ‹_›
  · exact .shutdown ‹_›
  · exact .crash ‹_›
  · exact .boot ‹_›

/-- A request and a boot start a task of their own. -/
theorem Arrives.spawned {x : Arrival} {dies : Bool} (h : Arrives env s x s' dies ths) {th : DownloadThread}
    (hth : th ∈ ths) :
    (∃ r, th = ⟨.request r, (r.flow env).program⟩) ∨ th = ⟨.boot, recoverFromCrash.program⟩ := by
  cases h with
  | request r h => exact .inl ⟨r, List.mem_singleton.mp hth⟩
  | shutdown h => exact absurd hth List.not_mem_nil
  | crash h => exact absurd hth List.not_mem_nil
  | boot h => exact .inr (List.mem_singleton.mp hth)

/-- Only calls change the tables and the disk. -/
theorem arrive_keeps {x : Arrival} {dies : Bool} (h : arrive env s x = some (s', dies, ths)) :
    s'.downloads = s.downloads ∧ s'.disk = s.disk := by
  cases arrives h <;> exact ⟨rfl, rfl⟩

theorem loop_begins {m : Memory} : ∀ th ∈ (m.loop env).2, Begins env th := by
  intro th hth
  rw [Memory.loop] at hth
  split at hth
  · rw [List.mem_singleton.mp hth]
    exact .drain
  · exact absurd hth List.not_mem_nil

theorem wake_begins {m : Memory} : ∀ th ∈ (m.wake env).2, Begins env th := by
  intro th hth
  rw [Memory.wake] at hth
  split at hth
  · exact absurd hth List.not_mem_nil
  · exact loop_begins th hth

/-- A call starts at most a progress write. -/
theorem reported_begins (env : Env) {o : Op} {c : Choice} {th : DownloadThread} (h : th ∈ reported s c o) :
    ∃ ticket, th.kind = .progress ticket ∧ Begins env th := by
  cases o <;> simp only [reported, List.not_mem_nil] at h
  split at h
  · exact absurd h List.not_mem_nil
  · rw [List.mem_singleton.mp h]
    exact ⟨_, rfl, .progress ..⟩

end

theorem system_begins (env : Env) : (system env).Spawns (Begins env) where
  exec he th hth := by
    obtain ⟨-, -, rfl⟩ := system_exec he
    obtain ⟨-, -, h⟩ := reported_begins _ hth
    exact h
  finish s k a th hth := by
    have one {th' : DownloadThread} (h : th ∈ [th']) (hb : Begins env th') : Begins env th := by
      rwa [List.mem_singleton.mp h]
    simp only [system] at hth
    unfold Memory.after at hth
    split at hth
    · exact wake_begins th hth
    · exact absurd hth List.not_mem_nil
    · rcases List.mem_cons.mp hth with rfl | hth
      · exact .worker ..
      · exact loop_begins th hth
    · exact loop_begins th hth
    · exact absurd hth List.not_mem_nil
    · exact one hth .release
    · exact one hth .wake
    · exact wake_begins th hth
    · exact absurd hth List.not_mem_nil
    · exact wake_begins th hth
    · exact wake_begins th hth
    · exact absurd hth List.not_mem_nil
    · exact absurd hth List.not_mem_nil
  external he th hth := by
    rename_i s x s' dies ths
    obtain ⟨r, rfl⟩ | rfl := (arrives he).spawned hth
    · exact .request r
    · exact .boot

end CircleFtp.Downloads
