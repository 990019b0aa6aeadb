import CircleFtp.Concurrent.History
import CircleFtp.Concurrent.Last
import Mathlib.Algebra.BigOperators.Group.Finset.Basic
import Mathlib.Algebra.Order.BigOperators.Group.Finset

/-! Facts about all threads of a run: the calls that each kind makes, and how many threads there
are of a sort. -/
namespace Concurrent
variable {σ κ Op : Type} {Reply : Op → Type} {ι χ ρ : Type}

/-- What every new thread of a step satisfies. -/
structure System.Spawns (sys : System σ κ Op Reply ι χ ρ) (new : Thread κ Op Reply ρ → Prop) :
    Prop where
  exec : ∀ {s k op c r s' ths}, sys.exec s k op c = some (r, s', ths) → ∀ th ∈ ths, new th
  finish : ∀ s k a, ∀ th ∈ (sys.finish s k a).2, new th
  external : ∀ {s x s' dies ths}, sys.external s x = some (s', dies, ths) → ∀ th ∈ ths, new th

theorem System.Spawns.mono {sys : System σ κ Op Reply ι χ ρ} {new new' : Thread κ Op Reply ρ → Prop}
    (h : ∀ th, new th → new' th) (hs : sys.Spawns new) : sys.Spawns new' where
  exec he th hth := h th (hs.exec he th hth)
  finish s k a th hth := h th (hs.finish s k a th hth)
  external he th hth := h th (hs.external he th hth)

/-- Every thread satisfies `φ`. -/
def Pool.Each (φ : Thread κ Op Reply ρ → Prop) (p : Pool σ κ Op Reply χ ρ) : Prop :=
  ∀ t th, p.threads t = some th → φ th

theorem Pool.Each.step {sys : System σ κ Op Reply ι χ ρ} {φ : Thread κ Op Reply ρ → Prop}
    (hs : sys.Spawns φ) (hc : ∀ k op rest r, φ ⟨k, .call op rest⟩ → φ ⟨k, rest r⟩)
    {p p' : Pool σ κ Op Reply χ ρ} {l : Label ι χ} (h : p.Each φ) (hst : sys.step p l = some p') :
    p'.Each φ := by
  rcases sys.step_cases hst with
    ⟨t, k, op, rest, c, r, s, ths, -, ht, he, rfl⟩ | ⟨t, k, a, -, ht, rfl⟩ |
    ⟨x, s, dies, ths, -, he, rfl⟩
  · intro t' th hth
    rcases Pool.spawn_threads hth with hth | ⟨-, hm⟩
    · by_cases e : t' = t
      · subst e
        obtain rfl : (⟨k, rest r⟩ : Thread κ Op Reply ρ) = th := by simpa [Pool.set] using hth
        exact hc k op rest r (h t' _ ht)
      · exact h t' th (by simpa [Pool.set, Pool.log, Function.update_of_ne e] using hth)
    · exact hs.exec he th hm
  · intro t' th hth
    rcases Pool.spawn_threads hth with hth | ⟨-, hm⟩
    · by_cases e : t' = t
      · subst e
        simp [Pool.set] at hth
      · exact h t' th (by simpa [Pool.set, Pool.log, Function.update_of_ne e] using hth)
    · exact hs.finish p.state k a th hm
  · intro t' th hth
    rcases Pool.spawn_threads hth with hth | ⟨-, hm⟩
    · cases dies with
      | true => simp at hth
      | false => exact h t' th hth
    · exact hs.external he th hm

/-- Every thread makes only the calls of its kind. -/
def Pool.Uses (allowed : κ → Op → Prop) (p : Pool σ κ Op Reply χ ρ) : Prop :=
  ∀ t th, p.threads t = some th → th.prog.Uses (allowed th.kind)

theorem Pool.Uses.step {sys : System σ κ Op Reply ι χ ρ} {allowed : κ → Op → Prop}
    (hs : sys.Spawns fun th => th.prog.Uses (allowed th.kind)) {p p' : Pool σ κ Op Reply χ ρ}
    {l : Label ι χ} (h : p.Uses allowed) (hst : sys.step p l = some p') : p'.Uses allowed :=
  Pool.Each.step hs (fun _ _ _ r h => h.2 r) h hst

/-- The threads on record have been started. -/
def Pool.Recorded (p : Pool σ κ Op Reply χ ρ) : Prop := ∀ e ∈ p.trace, ∀ t, e.By t → t < p.next

theorem Pool.Recorded.initial (s : σ) : (Pool.initial s : Pool σ κ Op Reply χ ρ).Recorded :=
  fun _ h => absurd h List.not_mem_nil

theorem Pool.Recorded.step {sys : System σ κ Op Reply ι χ ρ} {p p' : Pool σ κ Op Reply χ ρ}
    {l : Label ι χ} (h : p.Recorded) (hf : p.Fresh) (hst : sys.step p l = some p') : p'.Recorded := by
  have next (q : Pool σ κ Op Reply χ ρ) {e : Event σ κ Op Reply χ ρ} (ht : q.trace = e :: p.trace)
      (hn : q.next = p.next) (he : ∀ t, e.By t → t < p.next) (ths : List (Thread κ Op Reply ρ)) :
      (q.spawn ths).Recorded := by
    intro d hd t hb
    rw [Pool.spawn_world, ht] at hd
    refine Nat.lt_of_lt_of_le ?_ (hn ▸ spawn_next_le q ths)
    rcases List.mem_cons.mp hd with rfl | hd
    · exact he t hb
    · exact h d hd t hb
  rcases sys.step_cases hst with
    ⟨t, k, op, rest, c, r, s, ths, -, ht, -, rfl⟩ | ⟨t, k, a, -, ht, rfl⟩ |
    ⟨x, s, dies, ths, -, -, rfl⟩
  · refine next ((p.log s _).set t _) rfl rfl (fun u hu => ?_) _
    obtain rfl : t = u := hu
    exact hf.lt ht
  · refine next ((p.log _ _).set t _) rfl rfl (fun u hu => ?_) _
    obtain rfl : t = u := hu
    exact hf.lt ht
  · exact next { p.log s (.outer x p.state s) with threads := _ } rfl rfl (fun u hu => hu.elim) _

namespace Pool

/-- How many threads are of the sort `q`. -/
def count (q : Thread κ Op Reply ρ → Bool) (p : Pool σ κ Op Reply χ ρ) : Nat :=
  ∑ t ∈ Finset.range p.next, if (p.threads t).any q then 1 else 0

variable (q : Thread κ Op Reply ρ → Bool) (p : Pool σ κ Op Reply χ ρ)

theorem count_add (th : Thread κ Op Reply ρ) :
    (p.add th).count q = p.count q + if q th then 1 else 0 := by
  rw [count, add, Finset.sum_range_succ]
  congr 1
  · refine Finset.sum_congr rfl fun t ht => ?_
    simp only [Function.update_of_ne (Nat.ne_of_lt (Finset.mem_range.mp ht))]
  · simp

theorem count_spawn (ths : List (Thread κ Op Reply ρ)) :
    (p.spawn ths).count q = p.count q + ths.countP q := by
  induction ths generalizing p with
  | nil => rfl
  | cons x ths ih =>
    refine (ih (p.add x)).trans ?_
    rw [count_add, List.countP_cons]
    omega

theorem count_set {t : Nat} (ht : t < p.next) (th : Option (Thread κ Op Reply ρ)) :
    (p.set t th).count q + (if (p.threads t).any q then 1 else 0) =
      p.count q + if th.any q then 1 else 0 := by
  have hm : t ∈ Finset.range p.next := Finset.mem_range.mpr ht
  have h1 := Finset.sum_erase_add (Finset.range p.next)
    (fun u => if ((p.set t th).threads u).any q then 1 else 0) hm
  have h2 := Finset.sum_erase_add (Finset.range p.next)
    (fun u => if (p.threads u).any q then 1 else 0) hm
  have h3 : ∑ u ∈ (Finset.range p.next).erase t, (if ((p.set t th).threads u).any q then 1 else 0) =
      ∑ u ∈ (Finset.range p.next).erase t, if (p.threads u).any q then 1 else 0 := by
    refine Finset.sum_congr rfl fun u hu => ?_
    simp only [set, Function.update_of_ne (Finset.ne_of_mem_erase hu)]
  have h4 : (p.set t th).threads t = th := by simp [set]
  simp only [h4] at h1
  simp only [count]
  have h5 : (p.set t th).next = p.next := rfl
  rw [h5]
  omega

theorem count_none (h : ∀ t, p.threads t = none) : p.count q = 0 :=
  Finset.sum_eq_zero fun t _ => by simp [h t]

theorem exists_of_count {p : Pool σ κ Op Reply χ ρ} (h : p.count q ≠ 0) :
    ∃ t th, p.threads t = some th ∧ q th = true := by
  obtain ⟨t, -, ht⟩ := Finset.exists_ne_zero_of_sum_ne_zero h
  obtain ⟨th, hth, hq⟩ : ∃ th, p.threads t = some th ∧ q th = true := by
    simpa [Option.any_eq_true] using ht
  exact ⟨t, th, hth, hq⟩

theorem count_pos {p : Pool σ κ Op Reply χ ρ} (hf : p.Fresh) {t : Nat} {th : Thread κ Op Reply ρ}
    (h : p.threads t = some th) (hq : q th = true) : 0 < p.count q := by
  have hle := Finset.single_le_sum (f := fun u => if (p.threads u).any q then 1 else 0)
    (fun _ _ => Nat.zero_le _) (Finset.mem_range.mpr (hf.lt h))
  simpa [h, hq, count, Nat.succ_le_iff] using hle

/-- Two threads of the sort make at least two. -/
theorem two_le_count {p : Pool σ κ Op Reply χ ρ} (hf : p.Fresh) {t t' : Nat} (hne : t ≠ t')
    {th th' : Thread κ Op Reply ρ} (h : p.threads t = some th) (h' : p.threads t' = some th')
    (hq : q th = true) (hq' : q th' = true) : 2 ≤ p.count q := by
  have hsub : ({t, t'} : Finset Nat) ⊆ Finset.range p.next := by
    intro u hu
    rcases Finset.mem_insert.mp hu with rfl | hu
    · exact Finset.mem_range.mpr (hf.lt h)
    · rw [Finset.mem_singleton.mp hu]
      exact Finset.mem_range.mpr (hf.lt h')
  have hsum := Finset.sum_le_sum_of_subset (f := fun u => if (p.threads u).any q then 1 else 0) hsub
  rw [Finset.sum_pair hne] at hsum
  simpa [h, h', hq, hq', count] using hsum

/-- The kind of thread number `t`. -/
def kindAt (p : Pool σ κ Op Reply χ ρ) (t : Nat) : Option κ := (p.threads t).map (·.kind)

section
variable {p : Pool σ κ Op Reply χ ρ} (hf : p.Fresh) {t : Nat} {k : κ}
include hf

theorem kindAt_lt (ht : p.kindAt t = some k) : t < p.next := by
  obtain ⟨th, hth, -⟩ := Option.map_eq_some_iff.mp ht
  exact hf.lt hth

theorem didCall_fresh {op : Op} {rest : Reply op → Program Op Reply ρ}
    (ht : p.threads t = some ⟨k, .call op rest⟩) (r : Reply op) (s : σ)
    (ths : List (Thread κ Op Reply ρ)) : (p.didCall t k op rest r s ths).Fresh :=
  spawn_fresh (Fresh.set (p := p.log s _) hf (hf.lt ht) _) ths

theorem didEnd_fresh {a : ρ} (ht : p.threads t = some ⟨k, .ret a⟩) (s : σ)
    (ths : List (Thread κ Op Reply ρ)) : (p.didEnd t k a s ths).Fresh :=
  spawn_fresh (Fresh.set (p := p.log s _) hf (hf.lt ht) _) ths

theorem didOuter_fresh (x : χ) (s : σ) (dies : Bool) (ths : List (Thread κ Op Reply ρ)) :
    (p.didOuter x s dies ths).Fresh := by
  refine spawn_fresh (fun t ht => ?_) ths
  cases dies with
  | true => rfl
  | false => exact hf t ht

theorem didCall_threads {op : Op} {rest : Reply op → Program Op Reply ρ}
    (ht : p.threads t = some ⟨k, .call op rest⟩) (r : Reply op) (s : σ)
    (ths : List (Thread κ Op Reply ρ)) (u : Nat) :
    (p.didCall t k op rest r s ths).threads u =
      if u < p.next then if u = t then some ⟨k, rest r⟩ else p.threads u
      else ths[u - p.next]? := by
  refine (spawn_threads_eq (Fresh.set (p := p.log s _) hf (hf.lt ht) _) ths u).trans ?_
  by_cases e : u = t
  · subst e
    simp [set, log]
  · simp [set, log, e]

theorem didEnd_threads {a : ρ} (ht : p.threads t = some ⟨k, .ret a⟩) (s : σ)
    (ths : List (Thread κ Op Reply ρ)) (u : Nat) :
    (p.didEnd t k a s ths).threads u =
      if u < p.next then if u = t then none else p.threads u else ths[u - p.next]? := by
  refine (spawn_threads_eq (Fresh.set (p := p.log s _) hf (hf.lt ht) _) ths u).trans ?_
  by_cases e : u = t
  · subst e
    simp [set, log]
  · simp [set, log, e]

theorem didOuter_threads (x : χ) (s : σ) (dies : Bool) (ths : List (Thread κ Op Reply ρ))
    (u : Nat) : (p.didOuter x s dies ths).threads u =
      if u < p.next then if dies then none else p.threads u else ths[u - p.next]? := by
  refine (spawn_threads_eq (p := { p.log s (.outer x p.state s) with
    threads := if dies then fun _ => none else p.threads }) (fun t ht => ?_) ths u).trans ?_
  · cases dies with
    | true => rfl
    | false => exact hf t ht
  · cases dies <;> rfl

theorem didCall_kindAt {op : Op} {rest : Reply op → Program Op Reply ρ}
    (ht : p.threads t = some ⟨k, .call op rest⟩) (r : Reply op) (s : σ)
    (ths : List (Thread κ Op Reply ρ)) (u : Nat) :
    (p.didCall t k op rest r s ths).kindAt u =
      if u < p.next then p.kindAt u else ths[u - p.next]?.map (·.kind) := by
  rw [kindAt, didCall_threads hf ht]
  split
  · split
    · rename_i e
      simp [kindAt, e, ht]
    · rfl
  · rfl

theorem didEnd_kindAt {a : ρ} (ht : p.threads t = some ⟨k, .ret a⟩) (s : σ)
    (ths : List (Thread κ Op Reply ρ)) (u : Nat) :
    (p.didEnd t k a s ths).kindAt u =
      if u < p.next then if u = t then none else p.kindAt u
      else ths[u - p.next]?.map (·.kind) := by
  rw [kindAt, didEnd_threads hf ht]
  split
  · split <;> rfl
  · rfl

theorem didOuter_kindAt (x : χ) (s : σ) (dies : Bool) (ths : List (Thread κ Op Reply ρ)) (u : Nat) :
    (p.didOuter x s dies ths).kindAt u =
      if u < p.next then if dies then none else p.kindAt u
      else ths[u - p.next]?.map (·.kind) := by
  rw [kindAt, didOuter_threads hf]
  split
  · split <;> rfl
  · rfl

theorem didCall_count (q : κ → Bool) {op : Op} {rest : Reply op → Program Op Reply ρ}
    (ht : p.threads t = some ⟨k, .call op rest⟩) (r : Reply op) (s : σ)
    (ths : List (Thread κ Op Reply ρ)) :
    (p.didCall t k op rest r s ths).count (q ·.kind) =
      p.count (q ·.kind) + ths.countP (q ·.kind) := by
  have h := count_set (q ·.kind) (p.log s (.did t k op r p.state s)) (hf.lt ht)
    (some ⟨k, rest r⟩)
  rw [didCall, count_spawn]
  have hl : (p.log s (.did t k op r p.state s)).threads t = some ⟨k, .call op rest⟩ := ht
  simp only [hl, Option.any_some] at h
  have hc : (p.log s (.did t k op r p.state s)).count (q ·.kind) = p.count (q ·.kind) := rfl
  omega

theorem didEnd_count (q : κ → Bool) {a : ρ} (ht : p.threads t = some ⟨k, .ret a⟩) (s : σ)
    (ths : List (Thread κ Op Reply ρ)) :
    (p.didEnd t k a s ths).count (q ·.kind) + (if q k then 1 else 0) =
      p.count (q ·.kind) + ths.countP (q ·.kind) := by
  have h := count_set (q ·.kind) (p.log s (.ended t k a p.state s)) (hf.lt ht) none
  rw [didEnd, count_spawn]
  have hl : (p.log s (.ended t k a p.state s)).threads t = some ⟨k, .ret a⟩ := ht
  simp only [hl, Option.any_some, Option.any_none, Bool.false_eq_true, if_false] at h
  have hc : (p.log s (.ended t k a p.state s)).count (q ·.kind) = p.count (q ·.kind) := rfl
  omega

end

theorem didOuter_count (q : κ → Bool) (p : Pool σ κ Op Reply χ ρ) (x : χ) (s : σ) (dies : Bool)
    (ths : List (Thread κ Op Reply ρ)) :
    (p.didOuter x s dies ths).count (q ·.kind) =
      (if dies then 0 else p.count (q ·.kind)) + ths.countP (q ·.kind) := by
  rw [didOuter, count_spawn]
  cases dies with
  | true =>
    rw [count_none _ _ fun _ => rfl]
    rfl
  | false => rfl

/-- The sum of a quantity that each thread has by its number and kind. -/
def total (v : Nat → κ → Nat) (p : Pool σ κ Op Reply χ ρ) : Nat :=
  ∑ t ∈ Finset.range p.next, ((p.kindAt t).map (v t)).getD 0

section
variable {p q : Pool σ κ Op Reply χ ρ} {v v' : Nat → κ → Nat} (hn : p.next ≤ q.next)
  (new : ∀ u k, p.next ≤ u → v' u k = 0)
include hn new

theorem total_old : q.total v' = ∑ u ∈ Finset.range p.next, ((q.kindAt u).map (v' u)).getD 0 := by
  refine (Finset.sum_subset (Finset.range_mono hn) fun u _ hu => ?_).symm
  have hu' : p.next ≤ u := by simpa using hu
  cases q.kindAt u with
  | none => rfl
  | some k => exact new u k hu'

/-- No share has grown and the new ones are zero. -/
theorem total_mono
    (old : ∀ u < p.next, ((q.kindAt u).map (v' u)).getD 0 ≤ ((p.kindAt u).map (v u)).getD 0) :
    q.total v' ≤ p.total v := by
  rw [total_old hn new]
  exact Finset.sum_le_sum fun u hu => old u (Finset.mem_range.mp hu)

/-- The same apart from the share of thread `t`. -/
theorem total_mono_but {t : Nat} (ht : t < p.next) (old : ∀ u < p.next, u ≠ t →
      ((q.kindAt u).map (v' u)).getD 0 ≤ ((p.kindAt u).map (v u)).getD 0) :
    q.total v' + ((p.kindAt t).map (v t)).getD 0 ≤ p.total v + ((q.kindAt t).map (v' t)).getD 0 := by
  have hm : t ∈ Finset.range p.next := Finset.mem_range.mpr ht
  rw [total_old hn new, total, ← Finset.sum_erase_add _ _ hm,
    ← Finset.sum_erase_add _ (fun u => ((p.kindAt u).map (v u)).getD 0) hm]
  have rest := Finset.sum_le_sum (s := (Finset.range p.next).erase t) fun u hu =>
    old u (Finset.mem_range.mp (Finset.mem_of_mem_erase hu)) (Finset.ne_of_mem_erase hu)
  omega

end

theorem total_share {p : Pool σ κ Op Reply χ ρ} {v : Nat → κ → Nat} {t : Nat}
    (h : ∀ u ≠ t, ∀ k, p.kindAt u = some k → v u k = 0) : p.total v ≤ ((p.kindAt t).map (v t)).getD 0 := by
  have zero (u : Nat) (hu : u ≠ t) : ((p.kindAt u).map (v u)).getD 0 = 0 := by
    cases hk : p.kindAt u with
    | none => rfl
    | some k => exact h u hu k hk
  by_cases ht : t ∈ Finset.range p.next
  · rw [total, Finset.sum_eq_single_of_mem t ht fun u _ hu => zero u hu]
  · rw [total, Finset.sum_eq_zero fun u hu => zero u fun e => ht (e ▸ hu)]
    exact Nat.zero_le _

section
variable {p : Pool σ κ Op Reply χ ρ} (hf : p.Fresh) {t : Nat} {k : κ} {v v' : Nat → κ → Nat}
  (old : ∀ u k, u ≠ t → v' u k ≤ v u k) (new : ∀ u k, p.next ≤ u → v' u k = 0)
include hf old new

theorem didCall_total {op : Op} {rest : Reply op → Program Op Reply ρ}
    (ht : p.threads t = some ⟨k, .call op rest⟩) (r : Reply op) (s : σ)
    (ths : List (Thread κ Op Reply ρ)) :
    (p.didCall t k op rest r s ths).total v' + v t k ≤ p.total v + v' t k := by
  have hlt := hf.lt ht
  have hk : p.kindAt t = some k := by simp [kindAt, ht]
  have h := total_mono_but (p := p) (q := p.didCall t k op rest r s ths) (v := v)
    (spawn_next_le ((p.log s (.did t k op r p.state s)).set t (some ⟨k, rest r⟩)) ths) new hlt fun u hu hne => ?_
  · simpa only [didCall_kindAt hf ht, if_pos hlt, hk, Option.map_some, Option.getD_some] using h
  · rw [didCall_kindAt hf ht, if_pos hu]
    cases p.kindAt u with
    | none => exact Nat.le_refl _
    | some k' => exact old u k' hne

theorem didEnd_total {a : ρ} (ht : p.threads t = some ⟨k, .ret a⟩) (s : σ)
    (ths : List (Thread κ Op Reply ρ)) : (p.didEnd t k a s ths).total v' ≤ p.total v := by
  refine total_mono (spawn_next_le ((p.log s (.ended t k a p.state s)).set t none) ths) new fun u hu => ?_
  rw [didEnd_kindAt hf ht, if_pos hu]
  split
  · exact Nat.zero_le _
  · cases p.kindAt u with
    | none => exact Nat.le_refl _
    | some k' => exact old u k' ‹_›

end

theorem didOuter_total {p : Pool σ κ Op Reply χ ρ} (hf : p.Fresh) {v v' : Nat → κ → Nat}
    (old : ∀ u k, v' u k ≤ v u k) (new : ∀ u k, p.next ≤ u → v' u k = 0) (x : χ) (s : σ) (dies : Bool)
    (ths : List (Thread κ Op Reply ρ)) : (p.didOuter x s dies ths).total v' ≤ p.total v := by
  refine total_mono (spawn_next_le { p.log s (.outer x p.state s) with
    threads := if dies then fun _ => none else p.threads } ths) new fun u hu => ?_
  rw [didOuter_kindAt hf, if_pos hu]
  split
  · exact Nat.zero_le _
  · cases p.kindAt u with
    | none => exact Nat.le_refl _
    | some k' => exact old u k'

/-- Every thread and the history agree with `φ`. -/
def Along (φ : Nat → Thread κ Op Reply ρ → List (Event σ κ Op Reply χ ρ) → Prop) (p : Pool σ κ Op Reply χ ρ) :
    Prop := ∀ t th, p.threads t = some th → φ t th p.trace

/-- The events of others keep it, a thread's own calls carry it on, and new threads begin with it. -/
theorem Along.step {sys : System σ κ Op Reply ι χ ρ}
    {φ : Nat → Thread κ Op Reply ρ → List (Event σ κ Op Reply χ ρ) → Prop}
    (other : ∀ {t th e trace}, ¬ e.By t → φ t th trace → φ t th (e :: trace))
    (own : ∀ {t k op rest r s s' trace}, φ t ⟨k, .call op rest⟩ trace →
      φ t ⟨k, rest r⟩ (.did t k op r s s' :: trace))
    (begins : sys.Spawns fun th => ∀ t trace, (∀ e ∈ trace, ¬ e.By t) → φ t th trace)
    {p p' : Pool σ κ Op Reply χ ρ} {l : Label ι χ} (h : p.Along φ) (hf : p.Fresh) (hr : p.Recorded)
    (hst : sys.step p l = some p') : p'.Along φ := by
  intro u th hth
  have new {e : Event σ κ Op Reply χ ρ} {ths : List (Thread κ Op Reply ρ)}
      (he : ∀ v, e.By v → v < p.next)
      (hths : ∀ th ∈ ths, ∀ t trace, (∀ e ∈ trace, ¬ e.By t) → φ t th trace)
      (hu : ¬ u < p.next) (hth : ths[u - p.next]? = some th) : φ u th (e :: p.trace) := by
    refine hths th (List.mem_of_getElem? hth) u _ fun d hd hb => ?_
    rcases List.mem_cons.mp hd with rfl | hd
    · exact hu (he u hb)
    · exact hu (hr d hd u hb)
  rcases sys.step_cases hst with
    ⟨t, k, op, rest, c, r, s, ths, -, ht, he, rfl⟩ | ⟨t, k, a, -, ht, rfl⟩ | ⟨x, s, dies, ths, -, he, rfl⟩
  · rw [didCall_trace]
    rw [didCall_threads hf ht] at hth
    split at hth
    · split at hth
      · rename_i e
        subst e
        obtain rfl := Option.some.inj hth
        exact own (h u _ ht)
      · rename_i e
        exact other (fun hb => e hb.symm) (h u th hth)
    · exact new (fun v hv => Eq.trans_lt (Eq.symm hv) (hf.lt ht)) (begins.exec he) ‹_› hth
  · rw [didEnd_trace]
    rw [didEnd_threads hf ht] at hth
    split at hth
    · split at hth
      · cases hth
      · rename_i e
        exact other (fun hb => e hb.symm) (h u th hth)
    · exact new (fun v hv => Eq.trans_lt (Eq.symm hv) (hf.lt ht)) (begins.finish _ _ _) ‹_› hth
  · rw [didOuter_trace]
    rw [didOuter_threads hf] at hth
    split at hth
    · cases dies with
      | true => cases hth
      | false => exact other (fun hb => hb) (h u th hth)
    · exact new (fun v hv => hv.elim) (begins.external he) ‹_› hth

end Pool
end Concurrent
