import CircleFtp.Concurrent.Threads
import Mathlib.Logic.Hydra

/-! Runs without arrivals: every step lowers the bag of the threads' weights, so that such a run
ends, and where some thread can always move it ends without threads. -/
namespace Concurrent
variable {σ κ Op : Type} {Reply : Op → Type} {ι χ ρ : Type}

/-- What is left of a program after one reply. -/
inductive Program.Next : Program Op Reply ρ → Program Op Reply ρ → Prop where
  | reply (op : Op) (rest : Reply op → Program Op Reply ρ) (r : Reply op) : Next (rest r) (.call op rest)

theorem Program.Next.wf : WellFounded (@Next Op Reply ρ) := by
  refine ⟨fun p => ?_⟩
  induction p with
  | ret a => exact ⟨_, fun q h => by cases h⟩
  | call op rest ih => exact ⟨_, fun q h => by cases h; exact ih _⟩

/-- A step of a thread, not something from outside. -/
def Label.Inner : Label ι χ → Prop
  | .external _ => False
  | _ => True

/-- What a list of bags holds together. -/
theorem mem_bags {α ω : Type} {w : α → Multiset ω} {xs : List α} {b : ω} (h : b ∈ (xs.map w).sum) :
    ∃ x ∈ xs, b ∈ w x := by
  induction xs with
  | nil => exact absurd h (Multiset.notMem_zero b)
  | cons x xs ih =>
    rcases Multiset.mem_add.mp h with h | h
    · exact ⟨x, List.mem_cons_self, h⟩
    · obtain ⟨y, hy, hb⟩ := ih h
      exact ⟨y, List.mem_cons_of_mem x hy, hb⟩

namespace Pool

/-- The sum of what the threads bring. -/
def sum {M : Type} [AddCommMonoid M] (w : Thread κ Op Reply ρ → M) (p : Pool σ κ Op Reply χ ρ) : M :=
  ∑ t ∈ Finset.range p.next, (p.threads t).elim 0 w

section
variable {M : Type} [AddCommMonoid M] (w : Thread κ Op Reply ρ → M) (p : Pool σ κ Op Reply χ ρ)

theorem sum_add (th : Thread κ Op Reply ρ) : (p.add th).sum w = p.sum w + w th := by
  rw [sum, add, Finset.sum_range_succ]
  congr 1
  · refine Finset.sum_congr rfl fun t ht => ?_
    simp only [Function.update_of_ne (Nat.ne_of_lt (Finset.mem_range.mp ht))]
  · simp

theorem sum_spawn (ths : List (Thread κ Op Reply ρ)) : (p.spawn ths).sum w = p.sum w + (ths.map w).sum := by
  induction ths generalizing p with
  | nil => simp [spawn]
  | cons th ths ih =>
    refine (ih (p.add th)).trans ?_
    rw [sum_add, List.map_cons, List.sum_cons, add_assoc]

theorem sum_set {t : Nat} (ht : t < p.next) (th : Option (Thread κ Op Reply ρ)) :
    (p.set t th).sum w + (p.threads t).elim 0 w = p.sum w + th.elim 0 w := by
  have hm : t ∈ Finset.range p.next := Finset.mem_range.mpr ht
  have hnew := Finset.sum_erase_add (Finset.range p.next) (fun u => ((p.set t th).threads u).elim 0 w) hm
  have hold := Finset.sum_erase_add (Finset.range p.next) (fun u => (p.threads u).elim 0 w) hm
  have hrest : ∑ u ∈ (Finset.range p.next).erase t, ((p.set t th).threads u).elim 0 w =
      ∑ u ∈ (Finset.range p.next).erase t, (p.threads u).elim 0 w := by
    refine Finset.sum_congr rfl fun u hu => ?_
    simp only [set, Function.update_of_ne (Finset.ne_of_mem_erase hu)]
  have hat : (p.set t th).threads t = th := by simp [set]
  have hsum : (p.set t th).sum w = ∑ u ∈ Finset.range p.next, ((p.set t th).threads u).elim 0 w := rfl
  rw [hsum, ← hnew, hrest, hat, add_right_comm, hold]
  rfl

variable {p} (hf : p.Fresh) {t : Nat} {k : κ}
include hf

theorem didCall_sum {op : Op} {rest : Reply op → Program Op Reply ρ}
    (ht : p.threads t = some ⟨k, .call op rest⟩) (r : Reply op) (s : σ) (ths : List (Thread κ Op Reply ρ)) :
    (p.didCall t k op rest r s ths).sum w + w ⟨k, .call op rest⟩ =
      p.sum w + (w ⟨k, rest r⟩ + (ths.map w).sum) := by
  have h := sum_set w (p.log s (.did t k op r p.state s)) (hf.lt ht) (some ⟨k, rest r⟩)
  have hl : (p.log s (.did t k op r p.state s)).threads t = some ⟨k, .call op rest⟩ := ht
  rw [hl] at h
  rw [didCall, sum_spawn, add_right_comm, ← add_assoc]
  exact congrArg (· + (ths.map w).sum) h

theorem didEnd_sum {a : ρ} (ht : p.threads t = some ⟨k, .ret a⟩) (s : σ)
    (ths : List (Thread κ Op Reply ρ)) :
    (p.didEnd t k a s ths).sum w + w ⟨k, .ret a⟩ = p.sum w + (ths.map w).sum := by
  have h := sum_set w (p.log s (.ended t k a p.state s)) (hf.lt ht) none
  have hl : (p.log s (.ended t k a p.state s)).threads t = some ⟨k, .ret a⟩ := ht
  rw [hl] at h
  rw [didEnd, sum_spawn, add_right_comm]
  exact congrArg (· + (ths.map w).sum) (h.trans (add_zero _))

end

section
variable {ω : Type} {R : ω → ω → Prop} {w : Thread κ Op Reply ρ → Multiset ω} {p : Pool σ κ Op Reply χ ρ}
  (hf : p.Fresh) {t : Nat} {k : κ} {b : ω}
include hf

/-- A call that leaves smaller weights in the place of one lowers the bag. -/
theorem didCall_lowers {op : Op} {rest : Reply op → Program Op Reply ρ}
    (ht : p.threads t = some ⟨k, .call op rest⟩) {r : Reply op} {s : σ} {ths : List (Thread κ Op Reply ρ)}
    (hb : w ⟨k, .call op rest⟩ = {b}) (hlow : ∀ b' ∈ w ⟨k, rest r⟩ + (ths.map w).sum, R b' b) :
    Relation.CutExpand R ((p.didCall t k op rest r s ths).sum w) (p.sum w) :=
  ⟨_, b, hlow, by rw [← hb]; exact didCall_sum w hf ht r s ths⟩

theorem didEnd_lowers {a : ρ} (ht : p.threads t = some ⟨k, .ret a⟩) {s : σ}
    {ths : List (Thread κ Op Reply ρ)} (hb : w ⟨k, .ret a⟩ = {b}) (hlow : ∀ b' ∈ (ths.map w).sum, R b' b) :
    Relation.CutExpand R ((p.didEnd t k a s ths).sum w) (p.sum w) :=
  ⟨_, b, hlow, by rw [← hb]; exact didEnd_sum w hf ht s ths⟩

end

end Pool

namespace System
variable (sys : System σ κ Op Reply ι χ ρ) {ok : Pool σ κ Op Reply χ ρ → Label ι χ → Prop}

/-- From `p` every run that meets the condition ends. -/
def Ends (ok : Pool σ κ Op Reply χ ρ → Label ι χ → Prop) (p : Pool σ κ Op Reply χ ρ) : Prop :=
  Acc (fun q' q => sys.Steps ok q q') p

/-- No step that meets the condition is left. -/
def Still (ok : Pool σ κ Op Reply χ ρ → Label ι χ → Prop) (p : Pool σ κ Op Reply χ ρ) : Prop :=
  ∀ p', ¬ sys.Steps ok p p'

/-- A measure that every step lowers. -/
theorem ends_of_lower {ω : Type} {r : ω → ω → Prop} (wf : WellFounded r)
    (μ : Pool σ κ Op Reply χ ρ → ω) {I : Pool σ κ Op Reply χ ρ → Prop}
    (keep : ∀ p l p', I p → ok p l → sys.step p l = some p' → I p')
    (lower : ∀ p l p', I p → ok p l → sys.step p l = some p' → r (μ p') (μ p))
    {p : Pool σ κ Op Reply χ ρ} (hp : I p) : sys.Ends ok p := by
  induction hm : μ p using wf.induction generalizing p with
  | _ m ih =>
    subst hm
    refine ⟨p, fun q hq => ?_⟩
    obtain ⟨l, hl, hst⟩ := hq
    exact ih (μ q) (lower p l q hp hl hst) (keep p l q hp hl hst) rfl

theorem Ends.mono {ok' : Pool σ κ Op Reply χ ρ → Label ι χ → Prop} (h : ∀ p l, ok' p l → ok p l)
    {p : Pool σ κ Op Reply χ ρ} (hp : sys.Ends ok p) : sys.Ends ok' p := by
  induction hp with
  | intro p _ ih =>
    refine ⟨p, fun q hq => ih q ?_⟩
    obtain ⟨l, hl, hst⟩ := hq
    exact ⟨l, h p l hl, hst⟩

/-- A run that must end can be carried on until no step is left. -/
theorem Ends.still {p : Pool σ κ Op Reply χ ρ} (h : sys.Ends ok p) :
    ∃ q, sys.Runs ok p q ∧ sys.Still ok q := by
  induction h with
  | intro p _ ih =>
    by_cases hs : sys.Still ok p
    · exact ⟨p, .refl, hs⟩
    · obtain ⟨p', hst⟩ := not_forall_not.mp hs
      obtain ⟨q, hr, hq⟩ := ih p' hst
      exact ⟨q, .head hst hr, hq⟩

end System
end Concurrent
