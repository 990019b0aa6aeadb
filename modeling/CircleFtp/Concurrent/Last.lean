import CircleFtp.Concurrent.Pool
import Mathlib.Data.List.Pairwise

/-! Programs that make a certain kind of call at most once, as the last thing they do, and what
that says about the history of a run. -/
namespace Concurrent
variable {σ κ Op : Type} {Reply : Op → Type} {ι χ ρ α β ε : Type}

namespace Program

/-- All calls are allowed ones, except that the last may be of the kind `last`. -/
def Ends (allowed last : Op → Prop) : Program Op Reply α → Prop
  | .ret _ => True
  | .call op rest => (allowed op ∧ ∀ r, (rest r).Ends allowed last) ∨
      (last op ∧ ∀ r, ∃ a, rest r = .ret a)

section
variable {allowed allowed' last : Op → Prop}

theorem Uses.ends : ∀ {p : Program Op Reply α}, p.Uses allowed → p.Ends allowed last
  | .ret _, _ => trivial
  | .call _ _, hp => .inl ⟨hp.1, fun r => (hp.2 r).ends⟩

theorem Ends.uses : ∀ {p : Program Op Reply α}, p.Ends allowed last →
    p.Uses fun op => allowed op ∨ last op
  | .ret _, _ => trivial
  | .call _ _, .inl hp => ⟨.inl hp.1, fun r => (hp.2 r).uses⟩
  | .call _ _, .inr hp => ⟨.inr hp.1, fun r => by
      obtain ⟨a, ha⟩ := hp.2 r
      rw [ha]
      trivial⟩

theorem Ends.mono (h : ∀ op, allowed op → allowed' op) :
    ∀ {p : Program Op Reply α}, p.Ends allowed last → p.Ends allowed' last
  | .ret _, _ => trivial
  | .call op _, .inl hp => .inl ⟨h op hp.1, fun r => (hp.2 r).mono h⟩
  | .call _ _, .inr hp => .inr hp

theorem Ends.bind {f : α → Program Op Reply β} :
    ∀ {p : Program Op Reply α}, p.Uses allowed → (∀ a, (f a).Ends allowed last) →
      (p >>= f).Ends allowed last
  | .ret a, _, hf => hf a
  | .call _ _, hp, hf => .inl ⟨hp.1, fun r => Ends.bind (hp.2 r) hf⟩

theorem Ends.bind_ret {f : α → Program Op Reply β} (hf : ∀ a, ∃ b, f a = .ret b) :
    ∀ {p : Program Op Reply α}, p.Ends allowed last → (p >>= f).Ends allowed last
  | .ret a, _ => by
    obtain ⟨b, hb⟩ := hf a
    rw [ret_bind, hb]
    trivial
  | .call _ _, .inl hp => .inl ⟨hp.1, fun r => (hp.2 r).bind_ret hf⟩
  | .call _ _, .inr hp => .inr ⟨hp.1, fun r => by
      obtain ⟨a, ha⟩ := hp.2 r
      obtain ⟨b, hb⟩ := hf a
      exact ⟨b, (congrArg (Program.bind · f) ha).trans hb⟩⟩

theorem Ends.except_bind {m : ExceptT ε (Program Op Reply) α}
    {f : α → ExceptT ε (Program Op Reply) β} (hm : m.run.Uses allowed)
    (hf : ∀ a, (f a).run.Ends allowed last) : (m >>= f).run.Ends allowed last := by
  refine Ends.bind (p := m.run) hm ?_
  intro r
  cases r with
  | ok a => exact hf a
  | error e => trivial

theorem Ends.except_map {m : ExceptT ε (Program Op Reply) α} {f : α → β}
    (hm : m.run.Ends allowed last) : (f <$> m).run.Ends allowed last := by
  refine Ends.bind_ret (p := m.run) ?_ hm
  intro r
  cases r with
  | ok a => exact ⟨_, rfl⟩
  | error e => exact ⟨_, rfl⟩

end
end Program

/-- The event is a call of the kind `last` by thread `t`. -/
def Event.Last (last : Op → Prop) (t : Nat) : Event σ κ Op Reply χ ρ → Prop
  | .did t' _ op _ _ _ => t' = t ∧ last op
  | _ => False

/-- Every thread still has its last call before it, or has made it and is done. -/
structure LastOnce (last : Op → Prop) (p : Pool σ κ Op Reply χ ρ) : Prop where
  fresh : p.Fresh
  made : ∀ e ∈ p.trace, ∀ t, e.Last last t → t < p.next
  ends : ∀ t th, p.threads t = some th → th.prog.Ends (¬ last ·) last
  done : ∀ t th, p.threads t = some th → (∃ e ∈ p.trace, e.Last last t) → ∃ a, th.prog = .ret a
  once : p.trace.Pairwise fun e e' => ∀ t, e.Last last t → ¬ e'.Last last t

section
variable {sys : System σ κ Op Reply ι χ ρ} {last : Op → Prop}

theorem spawn_next_le (p : Pool σ κ Op Reply χ ρ) (ths : List (Thread κ Op Reply ρ)) :
    p.next ≤ (p.spawn ths).next := by
  induction ths generalizing p with
  | nil => exact Nat.le_refl _
  | cons th ths ih => exact Nat.le_trans (Nat.le_succ _) (ih (p.add th))

/-- What a step has to show: the event it records and the threads it leaves. -/
theorem LastOnce.step {p q : Pool σ κ Op Reply χ ρ} (h : LastOnce last p)
    {e : Event σ κ Op Reply χ ρ} {ths : List (Thread κ Op Reply ρ)}
    (hq : q.trace = e :: p.trace) (hn : q.next = p.next) (hf : q.Fresh)
    (he : ∀ t, e.Last last t → t < p.next ∧ ∀ d ∈ p.trace, ¬ d.Last last t)
    (hold : ∀ t th, q.threads t = some th → th.prog.Ends (¬ last ·) last ∧
      ((∃ d ∈ e :: p.trace, d.Last last t) → ∃ a, th.prog = .ret a))
    (hnew : ∀ th ∈ ths, th.prog.Ends (¬ last ·) last) : LastOnce last (q.spawn ths) := by
  have htr : (q.spawn ths).trace = e :: p.trace := by
    rw [← hq]
    exact congrArg World.trace (Pool.spawn_world q ths)
  have made : ∀ d ∈ e :: p.trace, ∀ t, d.Last last t → t < p.next := by
    intro d hd t ht
    rcases List.mem_cons.mp hd with rfl | hd
    · exact (he t ht).1
    · exact h.made d hd t ht
  refine ⟨Pool.spawn_fresh hf ths, ?_, ?_, ?_, ?_⟩
  · intro d hd t ht
    rw [htr] at hd
    exact Nat.lt_of_lt_of_le (hn ▸ made d hd t ht) (spawn_next_le q ths)
  · intro t th ht
    rcases Pool.spawn_threads ht with ht | ⟨-, hm⟩
    · exact (hold t th ht).1
    · exact hnew th hm
  · rintro t th ht ⟨d, hd, hl⟩
    rw [htr] at hd
    rcases Pool.spawn_threads ht with ht | ⟨hle, -⟩
    · exact (hold t th ht).2 ⟨d, hd, hl⟩
    · exact absurd (made d hd t hl) (by omega)
  · rw [htr]
    exact List.pairwise_cons.mpr ⟨fun d hd t ht => (he t ht).2 d hd, h.once⟩

theorem Pool.Fresh.lt {p : Pool σ κ Op Reply χ ρ} (h : p.Fresh) {t : Nat}
    {th : Thread κ Op Reply ρ} (ht : p.threads t = some th) : t < p.next := by
  by_contra hn
  rw [h t (by omega)] at ht
  cases ht

theorem Pool.Fresh.set {p : Pool σ κ Op Reply χ ρ} (h : p.Fresh) {t : Nat} (ht : t < p.next)
    (th : Option (Thread κ Op Reply ρ)) : (p.set t th).Fresh := by
  intro t' ht'
  have hne : t' ≠ t := by simp only [Pool.set] at ht'; omega
  simpa [Pool.set, Function.update_of_ne hne] using h t' ht'

theorem LastOnce.initial (s : σ) :
    LastOnce last (Pool.initial s : Pool σ κ Op Reply χ ρ) where
  fresh _ _ := rfl
  made _ h := absurd h List.not_mem_nil
  ends _ _ h := by cases h
  done _ _ h := by cases h
  once := List.Pairwise.nil

theorem LastOnce.exec {p : Pool σ κ Op Reply χ ρ} (h : LastOnce last p) {t : Nat} {k : κ} {op : Op}
    {rest : Reply op → Program Op Reply ρ} (ht : p.threads t = some ⟨k, .call op rest⟩)
    (r : Reply op) (s : σ) {ths : List (Thread κ Op Reply ρ)}
    (hnew : ∀ th ∈ ths, th.prog.Ends (¬ last ·) last) :
    LastOnce last (p.didCall t k op rest r s ths) := by
  have hlt := h.fresh.lt ht
  have undone : ∀ d ∈ p.trace, ¬ d.Last last t := by
    intro d hd hl
    obtain ⟨a, ha⟩ := h.done t _ ht ⟨d, hd, hl⟩
    cases ha
  refine h.step rfl rfl (Pool.Fresh.set (p := p.log s _) h.fresh hlt _) ?_ ?_ hnew
  · rintro t' ⟨rfl, -⟩
    exact ⟨hlt, undone⟩
  · intro t' th ht'
    by_cases e : t' = t
    · subst e
      obtain rfl : (⟨k, rest r⟩ : Thread κ Op Reply ρ) = th := by simpa [Pool.set] using ht'
      rcases h.ends t' _ ht with ⟨hn, hr⟩ | ⟨-, hr⟩
      · refine ⟨hr r, ?_⟩
        rintro ⟨d, hd, hl⟩
        rcases List.mem_cons.mp hd with rfl | hd
        · exact absurd hl.2 hn
        · exact absurd hl (undone d hd)
      · obtain ⟨a, ha⟩ := hr r
        exact ⟨by simp only [ha]; trivial, fun _ => ⟨a, ha⟩⟩
    · have ht' : p.threads t' = some th := by
        simpa [Pool.set, Pool.log, Function.update_of_ne e] using ht'
      refine ⟨h.ends t' th ht', ?_⟩
      rintro ⟨d, hd, hl⟩
      rcases List.mem_cons.mp hd with rfl | hd
      · exact absurd hl.1.symm e
      · exact h.done t' th ht' ⟨d, hd, hl⟩

/-- A step that records no call and keeps some of the old threads. -/
theorem LastOnce.silent {p q : Pool σ κ Op Reply χ ρ} (h : LastOnce last p)
    (e : Event σ κ Op Reply χ ρ) (hq : q.trace = e :: p.trace) (hn : q.next = p.next)
    (he : ∀ t, ¬ e.Last last t) (hold : ∀ t th, q.threads t = some th → p.threads t = some th)
    {ths : List (Thread κ Op Reply ρ)} (hnew : ∀ th ∈ ths, th.prog.Ends (¬ last ·) last) :
    LastOnce last (q.spawn ths) := by
  refine h.step hq hn ?_ (fun t ht => absurd ht (he t)) ?_ hnew
  · intro t ht
    cases hth : q.threads t with
    | none => rfl
    | some th =>
      have := hold t th hth
      rw [h.fresh t (by omega)] at this
      cases this
  · intro t th ht
    refine ⟨h.ends t th (hold t th ht), ?_⟩
    rintro ⟨d, hd, hl⟩
    rcases List.mem_cons.mp hd with rfl | hd
    · exact absurd hl (he t)
    · exact h.done t th (hold t th ht) ⟨d, hd, hl⟩

/-- When every thread that starts makes its last call at most once, so does every thread of
a run. -/
theorem lastOnce_run {ok : Pool σ κ Op Reply χ ρ → Label ι χ → Prop}
    (hexec : ∀ {s k op c r s' ths}, sys.exec s k op c = some (r, s', ths) →
      ∀ th ∈ ths, th.prog.Ends (¬ last ·) last)
    (hfinish : ∀ s k a, ∀ th ∈ (sys.finish s k a).2, th.prog.Ends (¬ last ·) last)
    (hexternal : ∀ {s x s' dies ths}, sys.external s x = some (s', dies, ths) →
      ∀ th ∈ ths, th.prog.Ends (¬ last ·) last)
    {s : σ} {p : Pool σ κ Op Reply χ ρ} (hr : sys.Runs ok (.initial s) p) : LastOnce last p := by
  refine sys.invariant (fun p l p' h _ hst => ?_) (LastOnce.initial s) hr
  rcases sys.step_cases hst with
    ⟨t, k, op, rest, c, r, s, ths, -, ht, he, rfl⟩ | ⟨t, k, a, -, ht, rfl⟩ |
    ⟨x, s, dies, ths, -, he, rfl⟩
  · exact h.exec ht r s (hexec he)
  · refine h.silent (q := (p.log _ (.ended t k a p.state _)).set t none) _ rfl rfl (fun _ => id) ?_
      (hfinish p.state k a)
    intro t' th ht'
    by_cases e : t' = t
    · subst e
      simp [Pool.set] at ht'
    · simpa [Pool.set, Pool.log, Function.update_of_ne e] using ht'
  · refine h.silent (q := { p.log s (.outer x p.state s) with
      threads := if dies then fun _ => none else p.threads }) _ rfl rfl (fun _ => id) ?_ (hexternal he)
    intro t' th ht'
    cases dies with
    | true => simp at ht'
    | false => exact ht'

theorem LastOnce.same {p : Pool σ κ Op Reply χ ρ} (h : LastOnce last p)
    {e e' : Event σ κ Op Reply χ ρ} (he : e ∈ p.trace) (he' : e' ∈ p.trace) {t : Nat}
    (hl : e.Last last t) (hl' : e'.Last last t) : e = e' := by
  have : Std.Symm fun e e' : Event σ κ Op Reply χ ρ => ∀ t, e.Last last t → ¬ e'.Last last t :=
    ⟨fun e e' h t hx hy => h t hy hx⟩
  by_contra hne
  exact h.once.forall he he' hne t hl hl'

end
end Concurrent
