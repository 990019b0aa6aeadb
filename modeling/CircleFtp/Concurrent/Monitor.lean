import CircleFtp.Concurrent.Threads

/-! Monitors: a state that the calls of one thread and their replies move. What a program comes to
with its monitor, told from the program alone, holds of the history of every run. -/
namespace Concurrent
variable {σ κ Op : Type} {Reply : Op → Type} {ι χ ρ α β ε S : Type}

namespace Program

/-- From the monitor's state on, `post` holds of every result and where the monitor then stands. -/
def Tracks (next : S → (op : Op) → Reply op → S) (post : α → S → Prop) : Program Op Reply α → S → Prop
  | .ret a, m => post a m
  | .call op rest, m => ∀ r, (rest r).Tracks next post (next m op r)

section
variable {next : S → (op : Op) → Reply op → S}

theorem Tracks.mono {post post' : α → S → Prop} (h : ∀ a m, post a m → post' a m) :
    ∀ {p : Program Op Reply α} {m : S}, p.Tracks next post m → p.Tracks next post' m
  | .ret a, m, hp => h a m hp
  | .call _ _, _, hp => fun r => (hp r).mono h

theorem Tracks.bind {f : α → Program Op Reply β} {post : β → S → Prop} :
    ∀ {p : Program Op Reply α} {m : S}, p.Tracks next (fun a n => (f a).Tracks next post n) m →
      (p >>= f).Tracks next post m
  | .ret _, _, hp => hp
  | .call _ _, _, hp => fun r => Tracks.bind (hp r)

/-- Calls that leave the monitor where it is. -/
theorem Uses.tracks {allowed : Op → Prop} {m : S} (h : ∀ op, allowed op → ∀ r, next m op r = m) :
    ∀ {p : Program Op Reply α}, p.Uses allowed → p.Tracks next (fun _ n => n = m) m
  | .ret _, _ => rfl
  | .call op _, hp => fun r => by
      rw [h op hp.1 r]
      exact (hp.2 r).tracks h

/-- A program that may throw, in front of another. -/
theorem Tracks.except_bind {m : ExceptT ε (Program Op Reply) α} {f : α → ExceptT ε (Program Op Reply) β}
    {post : Except ε β → S → Prop} {s : S}
    (hm : m.run.Tracks next (split (fun a n => (f a).run.Tracks next post n) fun e n => post (.error e) n) s) :
    (m >>= f).run.Tracks next post s := by
  refine Tracks.bind (p := m.run) (hm.mono ?_)
  rintro (e | a) n hn
  · exact hn
  · exact hn

end

section
variable {Val : Op → Type} {next : S → (op : Op) → Except ε (Val op) → S}

theorem Tracks.invoke_bind {op : Op} {f : Val op → ExceptT ε (Program Op fun o => Except ε (Val o)) β}
    {post : Except ε β → S → Prop} {m : S} (ok : ∀ a, (f a).run.Tracks next post (next m op (.ok a)))
    (error : ∀ e, post (.error e) (next m op (.error e))) : (invoke op >>= f).run.Tracks next post m
  | .ok a => ok a
  | .error e => error e

end
end Program

/-- What an event does to the monitor of thread `t`. -/
def Event.advance (next : S → (op : Op) → Reply op → S) (t : Nat) : Event σ κ Op Reply χ ρ → S → S
  | .did u _ op r _ _, m => if u = t then next m op r else m
  | _, m => m

section
variable (next : S → (op : Op) → Reply op → S) (start : S)

/-- Where the monitor of thread `t` stands. -/
def monitor (t : Nat) (trace : List (Event σ κ Op Reply χ ρ)) : S :=
  trace.foldr (fun e m => e.advance next t m) start

/-- Every thread goes on as its monitor stands, and every result came where it was to come. -/
structure Monitored (post : κ → ρ → S → Prop) (p : Pool σ κ Op Reply χ ρ) : Prop where
  fresh : p.Fresh
  recorded : p.Recorded
  goes : ∀ t th, p.threads t = some th → th.prog.Tracks next (post th.kind) (monitor next start t p.trace)
  came : ∀ new t k a s s' old, p.trace = new ++ .ended t k a s s' :: old → post k a (monitor next start t old)

variable {next start} {post : κ → ρ → S → Prop}

theorem Event.advance_other {t : Nat} {e : Event σ κ Op Reply χ ρ} (h : ¬ e.By t) (m : S) :
    e.advance next t m = m := by
  cases e with
  | did u => exact if_neg h
  | _ => rfl

theorem monitor_other {t : Nat} {e : Event σ κ Op Reply χ ρ} {trace : List (Event σ κ Op Reply χ ρ)}
    (h : ¬ e.By t) : monitor next start t (e :: trace) = monitor next start t trace :=
  Event.advance_other h _

theorem monitor_own {t : Nat} {k : κ} {op : Op} {r : Reply op} {s s' : σ} {trace : List (Event σ κ Op Reply χ ρ)} :
    monitor next start t (.did t k op r s s' :: trace) = next (monitor next start t trace) op r :=
  if_pos rfl

theorem monitor_fresh {t : Nat} {trace : List (Event σ κ Op Reply χ ρ)} (h : ∀ e ∈ trace, ¬ e.By t) :
    monitor next start t trace = start := by
  induction trace with
  | nil => rfl
  | cons e trace ih =>
    rw [monitor_other (h e List.mem_cons_self)]
    exact ih fun d hd => h d (List.mem_cons_of_mem e hd)

theorem Monitored.initial (s : σ) : Monitored next start post (Pool.initial s : Pool σ κ Op Reply χ ρ) where
  fresh _ _ := rfl
  recorded := Pool.Recorded.initial s
  goes _ _ h := by cases h
  came new t k a s s' old h := by simp [Pool.initial] at h

theorem Monitored.step {sys : System σ κ Op Reply ι χ ρ}
    (hs : sys.Spawns fun th => th.prog.Tracks next (post th.kind) start)
    {p p' : Pool σ κ Op Reply χ ρ} {l : Label ι χ} (h : Monitored next start post p)
    (hst : sys.step p l = some p') : Monitored next start post p' := by
  have goes : p'.Along fun t th trace => th.prog.Tracks next (post th.kind) (monitor next start t trace) := by
    refine Pool.Along.step (fun ht hφ => ?_) (fun hφ => ?_) (hs.mono fun th hth t trace hn => ?_) h.goes h.fresh
      h.recorded hst
    · rw [monitor_other ht]
      exact hφ
    · rw [monitor_own]
      exact hφ _
    · rw [monitor_fresh hn]
      exact hth
  have silent {e : Event σ κ Op Reply χ ρ} (he : ∀ t k a s s', e ≠ .ended t k a s s') :
      ∀ new t k a s s' old, e :: p.trace = new ++ .ended t k a s s' :: old →
        post k a (monitor next start t old) := by
    intro new t k a s s' old hd
    rcases List.cons_eq_append_iff.mp hd with ⟨rfl, hd⟩ | ⟨new', rfl, htrace⟩
    · exact absurd (List.cons.inj hd).1 (he t k a s s')
    · exact h.came new' t k a s s' old htrace
  have recorded := h.recorded.step h.fresh hst
  rcases sys.step_cases hst with
    ⟨t, k, op, rest, c, r, s, ths, -, ht, he, rfl⟩ | ⟨t, k, a, -, ht, rfl⟩ | ⟨x, s, dies, ths, -, he, rfl⟩
  · refine ⟨Pool.didCall_fresh h.fresh ht r s ths, recorded, goes, ?_⟩
    rw [Pool.didCall_trace]
    exact silent fun _ _ _ _ _ e => by cases e
  · refine ⟨Pool.didEnd_fresh h.fresh ht _ _, recorded, goes, ?_⟩
    rw [Pool.didEnd_trace]
    intro new t' k' a' s' s'' old hd
    rcases List.cons_eq_append_iff.mp hd with ⟨rfl, hd⟩ | ⟨new', rfl, htrace⟩
    · cases hd
      exact h.goes t _ ht
    · exact h.came new' t' k' a' s' s'' old htrace
  · refine ⟨Pool.didOuter_fresh h.fresh x s dies ths, recorded, goes, ?_⟩
    rw [Pool.didOuter_trace]
    exact silent fun _ _ _ _ _ e => by cases e

/-- Threads that start with programs of that kind keep to it in every run. -/
theorem monitored_run {sys : System σ κ Op Reply ι χ ρ} {ok : Pool σ κ Op Reply χ ρ → Label ι χ → Prop}
    (hs : sys.Spawns fun th => th.prog.Tracks next (post th.kind) start)
    {s : σ} {p : Pool σ κ Op Reply χ ρ} (hr : sys.Runs ok (.initial s) p) : Monitored next start post p :=
  sys.invariant (fun _ _ _ h _ hst => h.step hs hst) (Monitored.initial s) hr

end
end Concurrent
