import CircleFtp.Concurrent.Threads

/-! Threads with a meter, which ticks at some of their calls: what is due before each call, told from
the program alone, holds along every run. -/
namespace Concurrent
variable {σ κ Op : Type} {Reply : Op → Type} {ι χ ρ α β ε : Type}

namespace Program

/-- With `n` on the meter: every call comes when it is due, and `post` holds of result and meter. -/
def Meters (ticks : (op : Op) → Reply op → Bool) (due : Op → Nat → Prop) (post : α → Nat → Prop) :
    Program Op Reply α → Nat → Prop
  | .ret a, n => post a n
  | .call op rest, n => due op n ∧ ∀ r, (rest r).Meters ticks due post (n + (ticks op r).toNat)

section
variable {ticks : (op : Op) → Reply op → Bool} {due : Op → Nat → Prop}

theorem Meters.mono {post post' : α → Nat → Prop} (h : ∀ a n, post a n → post' a n) :
    ∀ {p : Program Op Reply α} {n : Nat}, p.Meters ticks due post n → p.Meters ticks due post' n
  | .ret a, n, hp => h a n hp
  | .call _ _, _, hp => ⟨hp.1, fun r => (hp.2 r).mono h⟩

theorem Meters.always (h : ∀ op n, due op n) :
    ∀ (p : Program Op Reply α) (n : Nat), p.Meters ticks due (fun _ _ => True) n
  | .ret _, _ => trivial
  | .call op rest, n => ⟨h op n, fun r => Meters.always h (rest r) _⟩

theorem Meters.bind {f : α → Program Op Reply β} {post : β → Nat → Prop} :
    ∀ {p : Program Op Reply α} {n : Nat}, p.Meters ticks due (fun a m => (f a).Meters ticks due post m) n →
      (p >>= f).Meters ticks due post n
  | .ret _, _, hp => hp
  | .call _ _, _, hp => ⟨hp.1, fun r => Meters.bind (hp.2 r)⟩

/-- Calls that are due at any time and do not tick. -/
theorem Uses.meters {allowed : Op → Prop} (h : ∀ op, allowed op → (∀ n, due op n) ∧ ∀ r, ticks op r = false) :
    ∀ {p : Program Op Reply α} {n : Nat}, p.Uses allowed → p.Meters ticks due (fun _ m => m = n) n
  | .ret _, _, _ => rfl
  | .call op _, n, hp => ⟨(h op hp.1).1 n, fun r => by
      rw [(h op hp.1).2 r]
      exact (hp.2 r).meters h⟩

/-- A program that may throw, in front of another. -/
theorem Meters.except_bind {m : ExceptT ε (Program Op Reply) α} {f : α → ExceptT ε (Program Op Reply) β}
    {post : β → Nat → Prop} {n : Nat}
    (hm : m.run.Meters ticks due (split (fun a k => (f a).run.Meters ticks due (split post fun _ _ => True) k)
      fun _ _ => True) n) : (m >>= f).run.Meters ticks due (split post fun _ _ => True) n := by
  refine Meters.bind (p := m.run) (hm.mono ?_)
  rintro (e | a) k hk
  · trivial
  · exact hk

end
end Program

def Event.counts (ticks : (op : Op) → Reply op → Bool) : Event σ κ Op Reply χ ρ → Bool
  | .did _ _ op r _ _ => ticks op r
  | _ => false

section
variable (ticks : (op : Op) → Reply op → Bool)

/-- What thread `t` has on its meter. -/
def meter (t : Nat) (trace : List (Event σ κ Op Reply χ ρ)) : Nat :=
  trace.countP fun e => e.counts ticks && decide (e.By t)

/-- Every thread goes on as its meter stands, and every call so far came when it was due. -/
structure Metered (due : κ → Op → Nat → Prop) (p : Pool σ κ Op Reply χ ρ) : Prop where
  fresh : p.Fresh
  recorded : p.Recorded
  goes : ∀ t th, p.threads t = some th →
    th.prog.Meters ticks (due th.kind) (fun _ _ => True) (meter ticks t p.trace)
  went : ∀ new t k op r s s' old, p.trace = new ++ .did t k op r s s' :: old → due k op (meter ticks t old)

variable {ticks} {due : κ → Op → Nat → Prop}

theorem meter_other {t : Nat} {e : Event σ κ Op Reply χ ρ} {trace : List (Event σ κ Op Reply χ ρ)}
    (h : ¬ e.By t) : meter ticks t (e :: trace) = meter ticks t trace := by
  simp [meter, h]

theorem meter_own {t : Nat} {k : κ} {op : Op} {r : Reply op} {s s' : σ}
    {trace : List (Event σ κ Op Reply χ ρ)} :
    meter ticks t (.did t k op r s s' :: trace) = meter ticks t trace + (ticks op r).toNat := by
  have hb : (Event.did t k op r s s' : Event σ κ Op Reply χ ρ).By t := rfl
  cases h : ticks op r <;> simp [meter, Event.counts, hb, h]

theorem meter_fresh {t : Nat} {trace : List (Event σ κ Op Reply χ ρ)} (h : ∀ e ∈ trace, ¬ e.By t) :
    meter ticks t trace = 0 := by
  rw [meter, List.countP_eq_zero]
  intro e he
  simp [h e he]

theorem Metered.initial (s : σ) : Metered ticks due (Pool.initial s : Pool σ κ Op Reply χ ρ) where
  fresh _ _ := rfl
  recorded := Pool.Recorded.initial s
  goes _ _ h := by cases h
  went new t k op r s s' old h := by simp [Pool.initial] at h

theorem Metered.step {sys : System σ κ Op Reply ι χ ρ}
    (hs : sys.Spawns fun th => th.prog.Meters ticks (due th.kind) (fun _ _ => True) 0)
    {p p' : Pool σ κ Op Reply χ ρ} {l : Label ι χ} (h : Metered ticks due p)
    (hst : sys.step p l = some p') : Metered ticks due p' := by
  have goes : p'.Along fun t th trace =>
      th.prog.Meters ticks (due th.kind) (fun _ _ => True) (meter ticks t trace) := by
    refine Pool.Along.step (fun ht hφ => ?_) (fun hφ => ?_) (hs.mono fun th hth t trace hn => ?_) h.goes h.fresh
      h.recorded hst
    · rw [meter_other ht]
      exact hφ
    · rw [meter_own]
      exact hφ.2 _
    · rw [meter_fresh hn]
      exact hth
  have silent {e : Event σ κ Op Reply χ ρ} (he : ∀ t k op r s s', e ≠ .did t k op r s s') :
      ∀ new t k op r s s' old, e :: p.trace = new ++ .did t k op r s s' :: old → due k op (meter ticks t old) := by
    intro new t k op r s s' old hd
    rcases List.cons_eq_append_iff.mp hd with ⟨rfl, hd⟩ | ⟨new', rfl, htrace⟩
    · exact absurd (List.cons.inj hd).1 (he t k op r s s')
    · exact h.went new' t k op r s s' old htrace
  have recorded := h.recorded.step h.fresh hst
  rcases sys.step_cases hst with
    ⟨t, k, op, rest, c, r, s, ths, -, ht, he, rfl⟩ | ⟨t, k, a, -, ht, rfl⟩ | ⟨x, s, dies, ths, -, he, rfl⟩
  · refine ⟨Pool.didCall_fresh h.fresh ht r s ths, recorded, goes, ?_⟩
    rw [Pool.didCall_trace]
    intro new t' k' op' r' s' s'' old hd
    rcases List.cons_eq_append_iff.mp hd with ⟨rfl, hd⟩ | ⟨new', rfl, htrace⟩
    · cases hd
      exact (h.goes t _ ht).1
    · exact h.went new' t' k' op' r' s' s'' old htrace
  · refine ⟨Pool.didEnd_fresh h.fresh ht _ _, recorded, goes, ?_⟩
    rw [Pool.didEnd_trace]
    exact silent fun _ _ _ _ _ _ e => by cases e
  · refine ⟨Pool.didOuter_fresh h.fresh x s dies ths, recorded, goes, ?_⟩
    rw [Pool.didOuter_trace]
    exact silent fun _ _ _ _ _ _ e => by cases e

/-- Threads that start with programs of that kind keep to it in every run. -/
theorem metered_run {sys : System σ κ Op Reply ι χ ρ} {ok : Pool σ κ Op Reply χ ρ → Label ι χ → Prop}
    (hs : sys.Spawns fun th => th.prog.Meters ticks (due th.kind) (fun _ _ => True) 0)
    {s : σ} {p : Pool σ κ Op Reply χ ρ} (hr : sys.Runs ok (.initial s) p) : Metered ticks due p :=
  sys.invariant (fun _ _ _ h _ hst => h.step hs hst) (Metered.initial s) hr

theorem Event.By.same {e : Event σ κ Op Reply χ ρ} {t u : Nat} (ht : e.By t) (hu : e.By u) : t = u := by
  cases e with
  | did => exact Eq.trans (Eq.symm ht) hu
  | ended => exact Eq.trans (Eq.symm ht) hu
  | outer => exact ht.elim

/-- Threads that each have `n` on their meters have no more than there is together. -/
theorem shares_le {n : Nat} {trace : List (Event σ κ Op Reply χ ρ)} {q : Event σ κ Op Reply χ ρ → Bool}
    {ts : List Nat} (hd : ts.Nodup)
    (h : ∀ t ∈ ts, n ≤ trace.countP fun e => q e && decide (e.By t)) : n * ts.length ≤ trace.countP q := by
  induction ts generalizing q with
  | nil => exact Nat.zero_le _
  | cons t ts ih =>
    obtain ⟨ht, hd⟩ := List.nodup_cons.mp hd
    have parts : trace.countP q = (trace.countP fun e => q e && decide (e.By t)) +
        trace.countP fun e => q e && !decide (e.By t) := by
      rw [List.countP_eq_countP_filter_add trace q fun e => decide (e.By t), List.countP_filter,
        List.countP_filter]
    have own := h t List.mem_cons_self
    have others := ih (q := fun e => q e && !decide (e.By t)) hd fun u hu => by
      refine (h u (List.mem_cons_of_mem t hu)).trans (List.countP_mono_left fun e _ he => ?_)
      obtain ⟨hq, hb⟩ := Bool.and_eq_true_iff.mp he
      have hne : ¬ e.By t := fun hbt => ht (Event.By.same hbt (of_decide_eq_true hb) ▸ hu)
      simp [hq, hb, hne]
    rw [parts, List.length_cons, Nat.mul_succ]
    omega

end
end Concurrent
