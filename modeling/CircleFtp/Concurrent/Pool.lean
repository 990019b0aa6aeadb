import CircleFtp.Concurrent.Program
import Mathlib.Logic.Relation
import Mathlib.Logic.Function.Basic

/-! Threads over one shared state, interleaved call by call, with the history of a run.
A run may be restricted by a condition on each step and the pool it starts from. -/
namespace Concurrent

structure Thread (κ Op : Type) (Reply : Op → Type) (ρ : Type) where
  kind : κ
  prog : Program Op Reply ρ

/-- `exec` performs one call, `finish` is what happens when a thread has ended, `external` is
anything else (an arrival, a crash); its flag says that every thread dies. Each may spawn. -/
structure System (σ κ Op : Type) (Reply : Op → Type) (ι χ ρ : Type) where
  exec : σ → κ → (op : Op) → ι → Option (Reply op × σ × List (Thread κ Op Reply ρ))
  finish : σ → κ → ρ → σ × List (Thread κ Op Reply ρ)
  external : σ → χ → Option (σ × Bool × List (Thread κ Op Reply ρ))

inductive Event (σ κ Op : Type) (Reply : Op → Type) (χ ρ : Type) where
  | did (tid : Nat) (kind : κ) (op : Op) (reply : Reply op) (before after : σ)
  | ended (tid : Nat) (kind : κ) (result : ρ) (before after : σ)
  | outer (what : χ) (before after : σ)

/-- The shared state and its history, newest event first. -/
structure World (σ κ Op : Type) (Reply : Op → Type) (χ ρ : Type) where
  state : σ
  trace : List (Event σ κ Op Reply χ ρ)

structure Pool (σ κ Op : Type) (Reply : Op → Type) (χ ρ : Type) extends
    World σ κ Op Reply χ ρ where
  threads : Nat → Option (Thread κ Op Reply ρ)
  next : Nat

inductive Label (ι χ : Type) where
  | exec (tid : Nat) (choice : ι)
  | finish (tid : Nat)
  | external (what : χ)

variable {σ κ Op : Type} {Reply : Op → Type} {ι χ ρ : Type}

namespace Pool

def initial (s : σ) : Pool σ κ Op Reply χ ρ := ⟨⟨s, []⟩, fun _ => none, 0⟩

def add (p : Pool σ κ Op Reply χ ρ) (th : Thread κ Op Reply ρ) : Pool σ κ Op Reply χ ρ :=
  { p with threads := Function.update p.threads p.next (some th), next := p.next + 1 }

def spawn (p : Pool σ κ Op Reply χ ρ) (ths : List (Thread κ Op Reply ρ)) :
    Pool σ κ Op Reply χ ρ := ths.foldl add p

def log (p : Pool σ κ Op Reply χ ρ) (s : σ) (e : Event σ κ Op Reply χ ρ) :
    Pool σ κ Op Reply χ ρ := { p with state := s, trace := e :: p.trace }

def set (p : Pool σ κ Op Reply χ ρ) (t : Nat) (th : Option (Thread κ Op Reply ρ)) :
    Pool σ κ Op Reply χ ρ := { p with threads := Function.update p.threads t th }

/-- The pool after thread `t` performed `op` and goes on with `rest r`. -/
def didCall (p : Pool σ κ Op Reply χ ρ) (t : Nat) (k : κ) (op : Op)
    (rest : Reply op → Program Op Reply ρ) (r : Reply op) (s : σ)
    (ths : List (Thread κ Op Reply ρ)) : Pool σ κ Op Reply χ ρ :=
  ((p.log s (.did t k op r p.state s)).set t (some ⟨k, rest r⟩)).spawn ths

def didEnd (p : Pool σ κ Op Reply χ ρ) (t : Nat) (k : κ) (a : ρ) (s : σ)
    (ths : List (Thread κ Op Reply ρ)) : Pool σ κ Op Reply χ ρ :=
  ((p.log s (.ended t k a p.state s)).set t none).spawn ths

def didOuter (p : Pool σ κ Op Reply χ ρ) (x : χ) (s : σ) (dies : Bool)
    (ths : List (Thread κ Op Reply ρ)) : Pool σ κ Op Reply χ ρ :=
  ({ p.log s (.outer x p.state s) with
      threads := if dies then fun _ => none else p.threads }).spawn ths

@[simp] theorem add_world (p : Pool σ κ Op Reply χ ρ) (th : Thread κ Op Reply ρ) :
    (p.add th).toWorld = p.toWorld := rfl

@[simp] theorem spawn_world (p : Pool σ κ Op Reply χ ρ) (ths : List (Thread κ Op Reply ρ)) :
    (p.spawn ths).toWorld = p.toWorld := by
  induction ths generalizing p with
  | nil => rfl
  | cons th ths ih => exact (ih (p.add th)).trans (add_world p th)

@[simp] theorem didCall_world (p : Pool σ κ Op Reply χ ρ) (t : Nat) (k : κ) (op : Op)
    (rest : Reply op → Program Op Reply ρ) (r : Reply op) (s : σ)
    (ths : List (Thread κ Op Reply ρ)) :
    (p.didCall t k op rest r s ths).toWorld = ⟨s, .did t k op r p.state s :: p.trace⟩ := by
  simp [didCall, set, log]

@[simp] theorem didEnd_world (p : Pool σ κ Op Reply χ ρ) (t : Nat) (k : κ) (a : ρ) (s : σ)
    (ths : List (Thread κ Op Reply ρ)) :
    (p.didEnd t k a s ths).toWorld = ⟨s, .ended t k a p.state s :: p.trace⟩ := by
  simp [didEnd, set, log]

@[simp] theorem didOuter_world (p : Pool σ κ Op Reply χ ρ) (x : χ) (s : σ) (dies : Bool)
    (ths : List (Thread κ Op Reply ρ)) :
    (p.didOuter x s dies ths).toWorld = ⟨s, .outer x p.state s :: p.trace⟩ := by
  simp [didOuter, log]

@[simp] theorem didCall_state (p : Pool σ κ Op Reply χ ρ) (t : Nat) (k : κ) (op : Op)
    (rest : Reply op → Program Op Reply ρ) (r : Reply op) (s : σ)
    (ths : List (Thread κ Op Reply ρ)) : (p.didCall t k op rest r s ths).state = s :=
  congrArg World.state (didCall_world p t k op rest r s ths)

@[simp] theorem didCall_trace (p : Pool σ κ Op Reply χ ρ) (t : Nat) (k : κ) (op : Op)
    (rest : Reply op → Program Op Reply ρ) (r : Reply op) (s : σ)
    (ths : List (Thread κ Op Reply ρ)) :
    (p.didCall t k op rest r s ths).trace = .did t k op r p.state s :: p.trace :=
  congrArg World.trace (didCall_world p t k op rest r s ths)

@[simp] theorem didEnd_state (p : Pool σ κ Op Reply χ ρ) (t : Nat) (k : κ) (a : ρ) (s : σ)
    (ths : List (Thread κ Op Reply ρ)) : (p.didEnd t k a s ths).state = s :=
  congrArg World.state (didEnd_world p t k a s ths)

@[simp] theorem didEnd_trace (p : Pool σ κ Op Reply χ ρ) (t : Nat) (k : κ) (a : ρ) (s : σ)
    (ths : List (Thread κ Op Reply ρ)) :
    (p.didEnd t k a s ths).trace = .ended t k a p.state s :: p.trace :=
  congrArg World.trace (didEnd_world p t k a s ths)

@[simp] theorem didOuter_state (p : Pool σ κ Op Reply χ ρ) (x : χ) (s : σ) (dies : Bool)
    (ths : List (Thread κ Op Reply ρ)) : (p.didOuter x s dies ths).state = s :=
  congrArg World.state (didOuter_world p x s dies ths)

@[simp] theorem didOuter_trace (p : Pool σ κ Op Reply χ ρ) (x : χ) (s : σ) (dies : Bool)
    (ths : List (Thread κ Op Reply ρ)) :
    (p.didOuter x s dies ths).trace = .outer x p.state s :: p.trace :=
  congrArg World.trace (didOuter_world p x s dies ths)

/-- Thread numbers in use lie below `next`. -/
def Fresh (p : Pool σ κ Op Reply χ ρ) : Prop := ∀ t, p.next ≤ t → p.threads t = none

theorem spawn_threads {p : Pool σ κ Op Reply χ ρ} {ths : List (Thread κ Op Reply ρ)} {t : Nat}
    {th : Thread κ Op Reply ρ} (h : (p.spawn ths).threads t = some th) :
    p.threads t = some th ∨ (p.next ≤ t ∧ th ∈ ths) := by
  induction ths generalizing p with
  | nil => exact .inl h
  | cons x ths ih =>
    rcases ih (p := p.add x) h with h | ⟨hn, hm⟩
    · by_cases ht : t = p.next
      · subst ht
        have : x = th := by simpa [add] using h
        exact .inr ⟨Nat.le_refl _, by simp [this]⟩
      · exact .inl (by simpa [add, Function.update_of_ne ht] using h)
    · exact .inr ⟨by simp [add] at hn; omega, List.mem_cons_of_mem x hm⟩

/-- The old threads stay and the new ones follow them in order. -/
theorem spawn_threads_eq {p : Pool σ κ Op Reply χ ρ} (hp : p.Fresh)
    (ths : List (Thread κ Op Reply ρ)) (t : Nat) :
    (p.spawn ths).threads t = if t < p.next then p.threads t else ths[t - p.next]? := by
  induction ths generalizing p with
  | nil =>
    split
    · rfl
    · exact hp t (by omega)
  | cons x ths ih =>
    have hx : (p.add x).Fresh := by
      intro u hu
      simp only [add] at hu ⊢
      rw [Function.update_of_ne (by omega)]
      exact hp u (by omega)
    have hn : (p.add x).next = p.next + 1 := rfl
    have ht : (p.add x).threads = Function.update p.threads p.next (some x) := rfl
    refine (ih hx).trans ?_
    rw [hn, ht]
    by_cases h : t < p.next
    · simp [h, Nat.lt_succ_of_lt h, Function.update_of_ne (Nat.ne_of_lt h)]
    · by_cases e : t = p.next
      · subst e
        simp
      · have hs : t - p.next = (t - (p.next + 1)) + 1 := by omega
        rw [if_neg (by omega), if_neg h, hs, List.getElem?_cons_succ]

theorem spawn_fresh {p : Pool σ κ Op Reply χ ρ} (hp : p.Fresh)
    (ths : List (Thread κ Op Reply ρ)) : (p.spawn ths).Fresh := by
  induction ths generalizing p with
  | nil => exact hp
  | cons x ths ih =>
    refine ih (p := p.add x) ?_
    intro t ht
    simp only [add] at ht ⊢
    rw [Function.update_of_ne (by omega)]
    exact hp t (by omega)

end Pool

namespace System
variable (sys : System σ κ Op Reply ι χ ρ)

def step (p : Pool σ κ Op Reply χ ρ) : Label ι χ → Option (Pool σ κ Op Reply χ ρ)
  | .exec t c =>
    match p.threads t with
    | some ⟨k, .call op rest⟩ =>
      (sys.exec p.state k op c).map fun (r, s, ths) => p.didCall t k op rest r s ths
    | _ => none
  | .finish t =>
    match p.threads t with
    | some ⟨k, .ret a⟩ => some (p.didEnd t k a (sys.finish p.state k a).1 (sys.finish p.state k a).2)
    | _ => none
  | .external x => (sys.external p.state x).map fun (s, dies, ths) => p.didOuter x s dies ths

/-- The steps in turn, as long as each passes the check. -/
def replay (check : Pool σ κ Op Reply χ ρ → Label ι χ → Bool) (p : Pool σ κ Op Reply χ ρ) :
    List (Label ι χ) → Option (Pool σ κ Op Reply χ ρ)
  | [] => some p
  | l :: ls => if check p l then (sys.step p l).bind fun p' => replay check p' ls else none

/-- Everything one step can do. -/
theorem step_cases {p p' : Pool σ κ Op Reply χ ρ} {l : Label ι χ} (h : sys.step p l = some p') :
    (∃ t k op rest c r s ths, l = .exec t c ∧ p.threads t = some ⟨k, .call op rest⟩ ∧
      sys.exec p.state k op c = some (r, s, ths) ∧ p' = p.didCall t k op rest r s ths) ∨
    (∃ t k a, l = .finish t ∧ p.threads t = some ⟨k, .ret a⟩ ∧
      p' = p.didEnd t k a (sys.finish p.state k a).1 (sys.finish p.state k a).2) ∨
    (∃ x s dies ths, l = .external x ∧ sys.external p.state x = some (s, dies, ths) ∧
      p' = p.didOuter x s dies ths) := by
  cases l with
  | exec t c =>
    left
    simp only [step] at h
    split at h
    · rename_i k op rest ht
      obtain ⟨⟨r, s, ths⟩, he, rfl⟩ := Option.map_eq_some_iff.mp h
      exact ⟨t, k, op, rest, c, r, s, ths, rfl, ht, he, rfl⟩
    · cases h
  | finish t =>
    right; left
    simp only [step] at h
    split at h
    · rename_i k a ht
      exact ⟨t, k, a, rfl, ht, (Option.some.inj h).symm⟩
    · cases h
  | external x =>
    right; right
    obtain ⟨⟨s, dies, ths⟩, he, rfl⟩ := Option.map_eq_some_iff.mp h
    exact ⟨x, s, dies, ths, rfl, he, rfl⟩

/-- One step that meets the condition. -/
def Steps (ok : Pool σ κ Op Reply χ ρ → Label ι χ → Prop) (p p' : Pool σ κ Op Reply χ ρ) : Prop :=
  ∃ l, ok p l ∧ sys.step p l = some p'

/-- Runs all of whose steps meet the condition. -/
def Runs (ok : Pool σ κ Op Reply χ ρ → Label ι χ → Prop) :
    Pool σ κ Op Reply χ ρ → Pool σ κ Op Reply χ ρ → Prop := Relation.ReflTransGen (sys.Steps ok)

theorem Runs.mono {ok ok' : Pool σ κ Op Reply χ ρ → Label ι χ → Prop}
    (h : ∀ p l, ok p l → ok' p l) {p p' : Pool σ κ Op Reply χ ρ} (hr : sys.Runs ok p p') :
    sys.Runs ok' p p' := by
  induction hr with
  | refl => exact .refl
  | tail _ hs ih =>
    obtain ⟨l, hl, hst⟩ := hs
    exact ih.tail ⟨l, h _ l hl, hst⟩

theorem replay_runs {C : Pool σ κ Op Reply χ ρ → Label ι χ → Prop}
    {check : Pool σ κ Op Reply χ ρ → Label ι χ → Bool} (hc : ∀ p l, check p l = true → C p l)
    {p p' : Pool σ κ Op Reply χ ρ} {ls : List (Label ι χ)}
    (h : sys.replay check p ls = some p') : sys.Runs C p p' := by
  induction ls generalizing p with
  | nil => cases h; exact .refl
  | cons l ls ih =>
    simp only [replay] at h
    split at h
    · obtain ⟨q, hq, hr⟩ := Option.bind_eq_some_iff.mp h
      exact .head ⟨l, hc p l ‹_›, hq⟩ (ih hr)
    · cases h

/-- A step with its result in sight. -/
theorem Runs.mono_step {ok ok' : Pool σ κ Op Reply χ ρ → Label ι χ → Prop}
    {I : Pool σ κ Op Reply χ ρ → Prop}
    (h : ∀ p l p', I p → I p' → ok p l → sys.step p l = some p' → ok' p l)
    (keep : ∀ p l p', I p → ok p l → sys.step p l = some p' → I p')
    {p p' : Pool σ κ Op Reply χ ρ} (h0 : I p) (hr : sys.Runs ok p p') : sys.Runs ok' p p' := by
  suffices sys.Runs ok' p p' ∧ I p' from this.1
  induction hr with
  | refl => exact ⟨.refl, h0⟩
  | tail _ hs ih =>
    obtain ⟨l, hl, hst⟩ := hs
    have hI := keep _ l _ ih.2 hl hst
    exact ⟨ih.1.tail ⟨l, h _ l _ ih.2 hI hl hst, hst⟩, hI⟩

/-- A property that holds at the start and is kept by every step holds along the run. -/
theorem invariant {ok : Pool σ κ Op Reply χ ρ → Label ι χ → Prop}
    {I : Pool σ κ Op Reply χ ρ → Prop}
    (keep : ∀ p l p', I p → ok p l → sys.step p l = some p' → I p')
    {p p' : Pool σ κ Op Reply χ ρ} (h0 : I p) (hr : sys.Runs ok p p') : I p' := by
  induction hr with
  | refl => exact h0
  | tail _ hs ih =>
    obtain ⟨l, hl, hst⟩ := hs
    exact keep _ l _ ih hl hst

end System
end Concurrent
