import CircleFtp.Concurrent.History
import CircleFtp.Downloads.Landing

/-! One file fetched over and over: cut, resumed, refused, aborted or killed. -/
namespace CircleFtp.Downloads
open Concurrent Files Strings

inductive FetchArrival where
  | fetch (expectedSize : Option Nat) (controller : Nat)
  | abort (controller : Nat)
  | kill

abbrev FetchPool := Pool State FetchOptions Op Reply FetchArrival (Except Err FetchResult)
abbrev FetchWorld := World State FetchOptions Op Reply FetchArrival (Except Err FetchResult)

/-- Calls of `fetchFile` for one url and destination; the process may be killed at any point. -/
def fetchSystem (url destination : Str) (onProgress : Nat → Option Nat → Flow Unit) :
    System State FetchOptions Op Reply Choice FetchArrival (Except Err FetchResult) where
  exec s _ o c := some ((call s o c).1, (call s o c).2, [])
  finish s _ _ := (s, [])
  external s
    | .fetch expectedSize controller =>
      let options := { url, destination, expectedSize, controller, onProgress }
      some (s, false, [⟨options, (fetchFile options).run⟩])
    | .abort controller => some ({ s with memory := s.memory.abort controller }, false, [])
    | .kill => some ({ s with memory := {} }, true, [])

/-- One fetch after another, each with a size that is right if it is known, from an honest host. -/
def Serving (R : Bytes) (p : FetchPool) : Label Choice FetchArrival → Prop
  | .external (.fetch expectedSize _) =>
    (∀ t < p.next, p.threads t = none) ∧ expectedSize.all (· = R.length)
  | .exec t c =>
    match p.threads t with
    | some ⟨_, .call (.request _ range _) _⟩ => Honest R (range.getD 0) c.response
    | _ => True
  | _ => True

instance (R : Bytes) (p : FetchPool) (l : Label Choice FetchArrival) : Decidable (Serving R p l) := by
  unfold Serving
  split
  · infer_instance
  · split <;> infer_instance
  · infer_instance

/-- A callback that reports, and nothing else. -/
def Op.reports : Op → Prop
  | .report _ _ _ _ => True
  | _ => False

structure Fetching (url destination : Str) (onProgress : Nat → Option Nat → Flow Unit) (R : Bytes)
    (options : FetchOptions) : Prop where
  url : options.url = url
  destination : options.destination = destination
  expected : options.expectedSize.all (· = R.length)
  onProgress : options.onProgress = onProgress

def landings (R : Bytes) (destination : Str) :
    Ledger State FetchOptions Op Reply FetchArrival (Except Err FetchResult) where
  admits _ _ _ e := e.after.disk = e.before.disk
  may _ _ w o r s := Landing R destination w.state.disk ∧ ∃ c, call w.state o c = (r, s) ∧
    ∀ url range controller, o = .request url range controller → Honest R (range.getD 0) c.response
  guar _ _ _ _ _ w' := Landing R destination w'.state.disk
  post _ _ _ _ := True

section
variable {R : Bytes} {url destination : Str} {onProgress : Nat → Option Nat → Flow Unit}
  {options : FetchOptions} {t : Nat}

theorem landings_serves (ho : Fetching url destination onProgress R options)
    (hp : ∀ n total, (onProgress n total).run.Uses Op.reports) :
    Serves ((landings R destination).discipline.contract t options) (·.state.disk) R options
      (fun _ => True) fun _ => True := by
  obtain rfl := ho.destination
  have rely {w w' : FetchWorld}
      (hr : ((landings R options.destination).discipline.contract t options).rely w w') :
      Alike options.destination w.state.disk w'.state.disk := by
    refine History.rely_induct (φ := fun v => Alike options.destination w.state.disk v.state.disk)
      (fun v e hv hb _ hd => ?_) hr (Alike.refl _ _)
    rw [show e.after.disk = v.state.disk from hb ▸ hd]
    exact hv
  refine ⟨ho.expected, fun _ hr => ⟨trivial, rely hr⟩, fun _ ha => ha.2.1, fun ha => ?_,
    fun _ _ _ => trivial, fun _ _ _ hadv => hadv.landing, fun _ ha => ?_,
    fun _ _ _ _ _ _ => trivial, fun {w n total} _ _ => ?_⟩
  · obtain ⟨-, -, c, hc, -⟩ := ha
    exact ⟨_, _, c, hc, rfl, rfl⟩
  · obtain ⟨-, -, c, hc, hh⟩ := ha
    have hresp := call_ok hc
    simp only [perform] at hresp
    split at hresp
    · cases hresp
    · obtain ⟨hresp, -⟩ := Prod.mk.inj hresp
      rw [← Except.ok.inj hresp]
      exact hh _ _ _ rfl
  · rw [ho.onProgress]
    refine ((Program.Safe.of_uses_keeping (φ := fun v : FetchWorld =>
      Alike options.destination w.state.disk v.state.disk) (fun _ _ hr h => h.trans (rely hr)) ?_
      (hp n total) (Alike.refl _ _)).mono fun _ _ h => ⟨trivial, h⟩)
    intro w₁ o r w₂ huse h₁ ha
    obtain ⟨-, hland, c, hc, -⟩ := ha
    have same : w₂.state.disk = w₁.state.disk := by
      have quiet : o.onDisk = false := by cases o <;> first | rfl | exact huse.elim
      have := call_disk w₁.state c quiet
      rwa [hc] at this
    rw [show ((landings R options.destination).discipline.contract t options).guar w₁ o r w₂ ↔
      Landing R options.destination w₂.state.disk from Iff.rfl, same]
    exact ⟨hland, h₁⟩

structure OneFetch (url destination : Str) (onProgress : Nat → Option Nat → Flow Unit) (R : Bytes)
    (p : FetchPool) : Prop where
  fresh : p.Fresh
  landing : Landing R destination p.state.disk
  fetching : ∀ t th, p.threads t = some th → Fetching url destination onProgress R th.kind
  alone : ∀ t t' th th', p.threads t = some th → p.threads t' = some th' → t = t'

theorem OneFetch.initial {s : State} (h : Landing R destination s.disk) :
    OneFetch url destination onProgress R (.initial s) where
  fresh _ _ := rfl
  landing := h
  fetching _ _ hu := by cases hu
  alone _ _ _ _ hu := by cases hu

end

theorem landings_keeps {url destination : Str} {onProgress : Nat → Option Nat → Flow Unit}
    {R : Bytes} (hp : ∀ n total, (onProgress n total).run.Uses Op.reports) :
    (landings R destination).Keeps (fetchSystem url destination onProgress) (Serving R)
      (OneFetch url destination onProgress R) where
  may {p t k o rest c r s ths} hI hok ht he := by
    simp only [fetchSystem, Option.some.injEq, Prod.mk.injEq] at he
    refine ⟨hI.landing, c, Prod.ext he.1 he.2.1, ?_⟩
    rintro url range controller rfl
    simpa only [Serving, ht] using hok
  exec {p t k o rest c r s ths} hI hok ht he hg := by
    obtain rfl : [] = ths := by
      simp only [fetchSystem, Option.some.injEq, Prod.mk.injEq] at he
      exact he.2.2
    have old {u : Nat} {th : Thread FetchOptions Op Reply (Except Err FetchResult)}
        (hu : (p.didCall t k o rest r s []).threads u = some th) :
        ∃ th', p.threads u = some th' ∧ th.kind = th'.kind := by
      rw [Pool.didCall_threads hI.fresh ht] at hu
      split at hu
      · split at hu
        · subst u
          cases hu
          exact ⟨_, ht, rfl⟩
        · exact ⟨th, hu, rfl⟩
      · simp at hu
    refine ⟨⟨Pool.didCall_fresh hI.fresh ht r s [], ?_, fun u th hu => ?_,
      fun u u' th th' hu hu' => ?_⟩, fun u th hne hu => absurd (hI.alone u t _ _ hu ht) hne,
      fun _ h => absurd h List.not_mem_nil⟩
    · rw [Pool.didCall_state]
      exact hg
    · obtain ⟨th', hu', hk⟩ := old hu
      rw [hk]
      exact hI.fetching u th' hu'
    · obtain ⟨x, hx, -⟩ := old hu
      obtain ⟨x', hx', -⟩ := old hu'
      exact hI.alone u u' x x' hx hx'
  finish {p t k a} hI hok ht _ := by
    have old {u : Nat} {th : Thread FetchOptions Op Reply (Except Err FetchResult)}
        (hu : (p.didEnd t k a p.state []).threads u = some th) : p.threads u = some th := by
      rw [Pool.didEnd_threads hI.fresh ht] at hu
      split at hu
      · split at hu
        · cases hu
        · exact hu
      · simp at hu
    refine ⟨⟨Pool.didEnd_fresh hI.fresh ht _ _, ?_, fun u th hu => hI.fetching u th (old hu),
      fun u u' th th' hu hu' => hI.alone u u' th th' (old hu) (old hu')⟩, fun _ _ _ _ => rfl,
      fun _ h => absurd h List.not_mem_nil⟩
    rw [Pool.didEnd_state]
    exact hI.landing
  external {p x s dies ths} hI hok he := by
    have quiet {s' : State} {dies' : Bool} (hs : s'.disk = p.state.disk) :
        OneFetch url destination onProgress R (p.didOuter x s' dies' []) := by
      have old {u : Nat} {th : Thread FetchOptions Op Reply (Except Err FetchResult)}
          (hu : (p.didOuter x s' dies' []).threads u = some th) : p.threads u = some th := by
        rw [Pool.didOuter_threads hI.fresh] at hu
        split at hu
        · split at hu
          · cases hu
          · exact hu
        · simp at hu
      refine ⟨Pool.didOuter_fresh hI.fresh _ _ _ _, ?_, fun u th hu => hI.fetching u th (old hu),
        fun u u' th th' hu hu' => hI.alone u u' th th' (old hu) (old hu')⟩
      rw [Pool.didOuter_state, hs]
      exact hI.landing
    cases x with
    | fetch expectedSize controller =>
      obtain ⟨none, hexp⟩ := hok
      cases he
      -- the new thread is the only one
      have only {u : Nat} {th : Thread FetchOptions Op Reply (Except Err FetchResult)}
          (hu : (p.didOuter (.fetch expectedSize controller) p.state false
            [⟨⟨url, destination, expectedSize, controller, onProgress⟩, (fetchFile
              ⟨url, destination, expectedSize, controller, onProgress⟩).run⟩]).threads u = some th) :
          u = p.next ∧ th.kind = ⟨url, destination, expectedSize, controller, onProgress⟩ := by
        rw [Pool.didOuter_threads hI.fresh] at hu
        split at hu
        · rw [if_neg (by decide), none u ‹_›] at hu
          cases hu
        · obtain ⟨hi, hth⟩ := List.getElem?_eq_some_iff.mp hu
          have hu' : u - p.next = 0 := by simpa using hi
          refine ⟨by omega, ?_⟩
          rw [← hth]
          simp [hu']
      have valid : Fetching url destination onProgress R
          ⟨url, destination, expectedSize, controller, onProgress⟩ := ⟨rfl, rfl, hexp, rfl⟩
      refine ⟨⟨Pool.didOuter_fresh hI.fresh _ _ _ _, ?_, fun u th hu => (only hu).2 ▸ valid,
        fun u u' th th' hu hu' => (only hu).1.trans (only hu').1.symm⟩, fun _ _ _ _ => rfl, ?_⟩
      · rw [Pool.didOuter_state]
        exact hI.landing
      · intro th hth t _
        obtain rfl := List.mem_singleton.mp hth
        exact Program.Safe.mono (fun _ _ _ => trivial) (fetchFile_safe (landings_serves valid hp) trivial)
    | abort controller =>
      cases he
      exact ⟨quiet rfl, fun _ _ _ _ => rfl, fun _ h => absurd h List.not_mem_nil⟩
    | kill =>
      cases he
      exact ⟨quiet rfl, fun _ _ _ _ => rfl, fun _ h => absurd h List.not_mem_nil⟩

/-- Fetched one after another from an honest host, the part file is a prefix of the content and the
destination all of it in every state of every run. -/
theorem resume_never_corrupts (url destination : Str) {onProgress : Nat → Option Nat → Flow Unit}
    {R : Bytes} (hp : ∀ n total, (onProgress n total).run.Uses Op.reports) {s : State}
    (h : Landing R destination s.disk) {p : FetchPool}
    (hr : (fetchSystem url destination onProgress).Runs (Serving R) (.initial s) p) :
    Landing R destination p.state.disk :=
  ((landings_keeps hp).keeps.safe (.initial h) (Discipline.allSafe_initial _ s) hr).1.landing

/-- A body of two bytes out of three, the rest after a kill, and a range past the end. -/
theorem resume_never_corrupts_killed : ∃ p,
    (fetchSystem ['u'] ['d'] fun n total => op (.report 0 0 n total)).Runs (Serving [1, 2, 3])
      (.initial ⟨.empty, .empty, {}⟩) p ∧
    p.state.disk.content ['d'] = some [1, 2, 3] ∧ Landing [1, 2, 3] ['d'] p.state.disk := by
  let run (t n : Nat) : List (Label Choice FetchArrival) := List.replicate n (.exec t {})
  have hrun : ((fetchSystem ['u'] ['d'] fun n total => op (.report 0 0 n total)).replay
      (fun p l => decide (Serving [1, 2, 3] p l)) (.initial ⟨.empty, .empty, {}⟩)
      (.external (.fetch none 0) :: run 0 3 ++
        [.exec 0 { response := { contentLength := some 3, body := [1, 2] } }] ++ run 0 6 ++
        [.finish 0, .external (.fetch (some 3) 1)] ++ run 1 3 ++
        [.exec 1 { response := { status := 206, body := [3] } }] ++ run 1 3 ++
        [.external .kill, .external (.fetch none 2)] ++ run 2 3 ++
        [.exec 2 { response := { status := 416 } }] ++ run 2 2 ++ [.finish 2])).any
      (fun p => p.state.disk.content ['d'] = some [1, 2, 3]) = true := by decide
  obtain ⟨p, hp, hn⟩ := Option.any_eq_true _ _ |>.mp hrun
  have hr := System.replay_runs _ (fun _ _ => of_decide_eq_true) hp
  have reports (n : Nat) (total : Option Nat) : (op (.report 0 0 n total)).run.Uses Op.reports :=
    .invoke trivial
  have absent : Landing [1, 2, 3] ['d'] (Disk.empty : Disk Str UInt8) :=
    ⟨fun _ hb => (Option.some_ne_none _ hb.symm).elim, fun _ hb => (Option.some_ne_none _ hb.symm).elim⟩
  exact ⟨p, hr, of_decide_eq_true hn, resume_never_corrupts ['u'] ['d'] reports absent hr⟩

end CircleFtp.Downloads
