import CircleFtp.Concurrent.Descent
import CircleFtp.Concurrent.Lift
import Mathlib.Data.Multiset.Filter

/-! A crew: workers that take the items of one queue in turn, until it is empty or their time is up,
and record what came of each. -/
namespace Concurrent

/-- The items that need no work, the work on an item with the time left for it, and what is recorded. -/
structure Crew (τ σ Op : Type) (Reply : Op → Type) (α : Type) where
  skip : σ → τ → Bool
  work : τ → Nat → Program Op Reply α
  record : σ → τ → α → σ

namespace Crew

structure State (τ σ : Type) where
  queue : List τ
  records : σ

/-- What a worker finds at the head of its loop. -/
inductive Turn (τ : Type) where
  | idle
  | late
  | skip (x : τ)
  | take (x : τ) (left : Nat)

/-- A worker is at the head of its loop or at work on an item. -/
inductive Phase (τ : Type) where
  | head
  | job (x : τ) (left : Nat)

inductive Call (Op : Type) where
  | turn
  | work (o : Op)

abbrev Answer (τ : Type) {Op : Type} (Reply : Op → Type) : Call Op → Type
  | .turn => Turn τ
  | .work o => Reply o

/-- What the surroundings decide about a call. -/
structure Choice (Op : Type) (Reply : Op → Type) where
  now : Nat
  reply : (o : Op) → Reply o

variable {τ σ Op : Type} {Reply : Op → Type} {α : Type}

abbrev Worker (τ Op : Type) (Reply : Op → Type) (α : Type) :=
  Thread (Phase τ) (Call Op) (Answer τ Reply) (Turn τ ⊕ α)

/-- A worker at the head of its loop. -/
def atHead : Worker τ Op Reply α := ⟨.head, .call .turn fun t => .ret (.inl t)⟩

section
variable (c : Crew τ σ Op Reply α) (deadline : Nat)

def job (x : τ) (left : Nat) : Worker τ Op Reply α :=
  ⟨.job x left, (c.work x left).lift Call.work (fun _ r => r) >>= fun a => .ret (.inr a)⟩

/-- The head of the loop, which nothing interrupts. -/
def turn (now : Nat) (s : State τ σ) : Turn τ × State τ σ :=
  match s.queue with
  | [] => (.idle, s)
  | x :: rest =>
    if deadline ≤ now then (.late, s)
    else if c.skip s.records x then (.skip x, ⟨rest, s.records⟩)
    else (.take x (deadline - now), ⟨rest, s.records⟩)

def next : Turn τ → List (Worker τ Op Reply α)
  | .idle | .late => []
  | .skip _ => [atHead]
  | .take x left => [c.job x left]

def system : System (State τ σ) (Phase τ) (Call Op) (Answer τ Reply) (Choice Op Reply) Empty (Turn τ ⊕ α) where
  exec s _ o w := match o with
    | .turn => some ((c.turn deadline w.now s).1, (c.turn deadline w.now s).2, [])
    | .work o => some (w.reply o, s, [])
  finish s k a := match k, a with
    | .head, .inl t => (s, c.next t)
    | .job x _, .inr a => (⟨s.queue, c.record s.records x a⟩, [atHead])
    | _, _ => (s, [])
  external _ _ := none

end

abbrev CrewPool (τ σ Op : Type) (Reply : Op → Type) (α : Type) :=
  Pool (State τ σ) (Phase τ) (Call Op) (Answer τ Reply) Empty (Turn τ ⊕ α)

abbrev CrewEvent (τ σ Op : Type) (Reply : Op → Type) (α : Type) :=
  Event (State τ σ) (Phase τ) (Call Op) (Answer τ Reply) Empty (Turn τ ⊕ α)

/-- `n` workers before a queue. -/
def start (n : Nat) (items : List τ) (records : σ) : CrewPool τ σ Op Reply α :=
  (Pool.initial ⟨items, records⟩).spawn (List.replicate n atHead)

/-- The programs of each phase. -/
def Shaped (th : Worker τ Op Reply α) : Prop := match th.kind with
  | .head => th = atHead ∨ ∃ t, th.prog = .ret (.inl t)
  | .job _ _ => (th.prog.Uses fun o => ∃ a, o = .work a) ∧ th.prog.Gives fun r => ∃ a, r = .inr a

def inHand : Program (Call Op) (Answer τ Reply) (Turn τ ⊕ α) → Multiset τ
  | .ret (.inl (.take x _)) => {x}
  | _ => 0

/-- The item that a worker has taken off the queue and not finished. -/
def held (th : Worker τ Op Reply α) : Multiset τ := match th.kind with
  | .job x _ => {x}
  | .head => inHand th.prog

/-- The item that an event takes off the queue. -/
def took : CrewEvent τ σ Op Reply α → Option τ
  | .did _ _ .turn (.skip x) _ _ | .did _ _ .turn (.take x _) _ _ => some x
  | _ => none

/-- The item that an event skips. -/
def skipped : CrewEvent τ σ Op Reply α → Option τ
  | .did _ _ .turn (.skip x) _ _ => some x
  | _ => none

/-- The item that an event finishes, and what came of it. -/
def finished : CrewEvent τ σ Op Reply α → Option (τ × α)
  | .ended _ (.job x _) (.inr a) _ _ => some (x, a)
  | _ => none

def isLate : CrewEvent τ σ Op Reply α → Bool
  | .did _ _ .turn .late _ _ => true
  | _ => false

section
variable {c : Crew τ σ Op Reply α} {deadline : Nat} {p p' : CrewPool τ σ Op Reply α}

theorem turn_cases (c : Crew τ σ Op Reply α) (deadline now : Nat) (s : State τ σ) :
    (c.turn deadline now s = (.idle, s) ∧ s.queue = []) ∨
    (c.turn deadline now s = (.late, s) ∧ deadline ≤ now) ∨
    (∃ x rest, s.queue = x :: rest ∧ c.skip s.records x = true ∧
      c.turn deadline now s = (.skip x, ⟨rest, s.records⟩)) ∨
    (∃ x rest, s.queue = x :: rest ∧ c.skip s.records x = false ∧ now < deadline ∧
      c.turn deadline now s = (.take x (deadline - now), ⟨rest, s.records⟩)) := by
  obtain ⟨queue, records⟩ := s
  cases queue with
  | nil => exact .inl ⟨rfl, rfl⟩
  | cons x rest =>
    by_cases hd : deadline ≤ now
    · exact .inr (.inl ⟨by simp [turn, hd], hd⟩)
    · cases hx : c.skip records x with
      | true => exact .inr (.inr (.inl ⟨x, rest, rfl, hx, by simp [turn, hd, hx]⟩))
      | false => exact .inr (.inr (.inr ⟨x, rest, rfl, hx, by omega, by simp [turn, hd, hx]⟩))

theorem atHead_shaped : Shaped (atHead : Worker τ Op Reply α) := .inl rfl

theorem job_shaped (c : Crew τ σ Op Reply α) (x : τ) (left : Nat) : Shaped (c.job x left) :=
  ⟨.bind (.lift (.always (fun o => ⟨o, rfl⟩) _)) fun _ => trivial, .bind_ret (fun a => ⟨a, rfl⟩) _⟩

/-- The workers that a step starts are at the head of their loop or at the start of a job. -/
theorem spawns {c : Crew τ σ Op Reply α} {deadline : Nat} {φ : Worker τ Op Reply α → Prop}
    (head : φ atHead) (job : ∀ x left, φ (c.job x left)) : (c.system deadline).Spawns φ where
  exec := by
    intro s k op w r s' ths he
    cases op with
    | turn | work o =>
      obtain ⟨-, -, rfl⟩ : _ = r ∧ _ = s' ∧ [] = ths := by simpa [system] using he
      exact fun th hth => absurd hth List.not_mem_nil
  finish s k a th hth := by
    cases k with
    | head =>
      cases a with
      | inl t =>
        cases t with
        | idle | late => cases hth
        | skip x => exact List.mem_singleton.mp hth ▸ head
        | take x left => exact List.mem_singleton.mp hth ▸ job x left
      | inr a => cases hth
    | job x left =>
      cases a with
      | inl t => cases hth
      | inr a => exact List.mem_singleton.mp hth ▸ head
  external := fun {s x} => x.elim

/-- Everything one step can do. -/
theorem step_cases {l : Label (Choice Op Reply) Empty} (hs : p.Each Shaped)
    (hst : (c.system deadline).step p l = some p') :
    (∃ t now, p.threads t = some atHead ∧ p' = p.didCall t .head .turn (fun t => .ret (.inl t))
      (c.turn deadline now p.state).1 (c.turn deadline now p.state).2 []) ∨
    (∃ t x left o rest r, p.threads t = some ⟨.job x left, .call (.work o) rest⟩ ∧
      p' = p.didCall t (.job x left) (.work o) rest r p.state []) ∨
    (∃ t a, p.threads t = some ⟨.head, .ret (.inl a)⟩ ∧
      p' = p.didEnd t .head (.inl a) p.state (c.next a)) ∨
    (∃ t x left a, p.threads t = some ⟨.job x left, .ret (.inr a)⟩ ∧
      p' = p.didEnd t (.job x left) (.inr a)
        ⟨p.state.queue, c.record p.state.records x a⟩ [atHead]) := by
  rcases (c.system deadline).step_cases hst with
    ⟨t, k, op, rest, w, r, s, ths, -, ht, he, rfl⟩ | ⟨t, k, a, -, ht, rfl⟩ | ⟨x, -⟩
  · cases k with
    | head =>
      rcases hs t _ ht with h | ⟨a, h⟩
      · cases h
        obtain ⟨rfl, rfl, rfl⟩ : _ = r ∧ _ = s ∧ [] = ths := by simpa [system] using he
        exact .inl ⟨t, w.now, ht, rfl⟩
      · cases h
    | job x left =>
      obtain ⟨o, rfl⟩ := (hs t _ ht).1.1
      obtain ⟨rfl, rfl, rfl⟩ : _ = r ∧ _ = s ∧ [] = ths := by simpa [system] using he
      exact .inr (.inl ⟨t, x, left, o, rest, _, ht, rfl⟩)
  · cases k with
    | head =>
      rcases hs t _ ht with h | ⟨a, h⟩
      · cases h
      · cases h
        exact .inr (.inr (.inl ⟨t, a, ht, rfl⟩))
    | job x left =>
      obtain ⟨a, rfl⟩ := (hs t _ ht).2
      exact .inr (.inr (.inr ⟨t, x, left, a, ht, rfl⟩))
  · exact x.elim

theorem shaped_step {l : Label (Choice Op Reply) Empty} (hs : p.Each Shaped)
    (hst : (c.system deadline).step p l = some p') : p'.Each Shaped := by
  refine Pool.Each.step (spawns atHead_shaped (job_shaped c)) (fun k op rest r h => ?_) hs hst
  cases k with
  | head =>
    rcases h with h | ⟨a, h⟩
    · cases h
      exact .inr ⟨r, rfl⟩
    · cases h
  | job x left => exact ⟨h.1.2 r, h.2 r⟩

end

/-- The items taken off the queue, in their order. -/
def taken (p : CrewPool τ σ Op Reply α) : List τ := (p.trace.filterMap took).reverse

/-- What is skipped, finished or in hand. -/
def accounted (p : CrewPool τ σ Op Reply α) : Multiset τ :=
  p.trace.filterMap skipped + (p.trace.filterMap finished).map Prod.fst + p.sum held

/-- The items are taken off the queue in order, those taken are the ones skipped, finished or in
hand, and the records are what the finished ones left. -/
structure Kept (c : Crew τ σ Op Reply α) (items : List τ) (records : σ) (p : CrewPool τ σ Op Reply α) :
    Prop where
  fresh : p.Fresh
  shaped : p.Each Shaped
  order : items = taken p ++ p.state.queue
  whole : (p.trace.filterMap took : Multiset τ) = accounted p
  records : p.state.records = (p.trace.filterMap finished).foldr (fun done s => c.record s done.1 done.2) records

section
variable {c : Crew τ σ Op Reply α} {deadline : Nat} {items : List τ} {records : σ}
  {p p' : CrewPool τ σ Op Reply α}

theorem order_step {l : Label (Choice Op Reply) Empty} (hs : p.Each Shaped)
    (hst : (c.system deadline).step p l = some p')
    (h : items = taken p ++ p.state.queue) : items = taken p' ++ p'.state.queue := by
  rw [taken] at h ⊢
  rcases step_cases hs hst with ⟨t, now, hth, rfl⟩ | ⟨t, x, left, o, rest, r, hth, rfl⟩ |
    ⟨t, a, hth, rfl⟩ | ⟨t, x, left, a, hth, rfl⟩
  · rw [Pool.didCall_trace, Pool.didCall_state]
    rcases turn_cases c deadline now p.state with ⟨e, -⟩ | ⟨e, -⟩ | ⟨x, rest, hq, -, e⟩ |
      ⟨x, rest, hq, -, -, e⟩
    · rw [e]
      exact h
    · rw [e]
      exact h
    · rw [e]
      simpa [took, hq] using h
    · rw [e]
      simpa [took, hq] using h
  · rw [Pool.didCall_trace, Pool.didCall_state]
    exact h
  · rw [Pool.didEnd_trace, Pool.didEnd_state]
    exact h
  · rw [Pool.didEnd_trace, Pool.didEnd_state]
    exact h

theorem turned_sum (hf : p.Fresh) {t : Nat} (hth : p.threads t = some atHead) (a : Turn τ) (s : State τ σ) :
    (p.didCall t .head .turn (fun t => .ret (.inl t)) a s []).sum held =
      p.sum held + held (⟨.head, .ret (.inl a)⟩ : Worker τ Op Reply α) := by
  have hsum := Pool.didCall_sum held hf hth a s []
  rw [List.map_nil, List.sum_nil, add_zero] at hsum
  exact (add_zero _).symm.trans hsum

/-- Everything that is taken off the queue is accounted for. -/
theorem whole_step {l : Label (Choice Op Reply) Empty} (hf : p.Fresh) (hs : p.Each Shaped)
    (hst : (c.system deadline).step p l = some p')
    (h : (p.trace.filterMap took : Multiset τ) = accounted p) :
    (p'.trace.filterMap took : Multiset τ) = accounted p' := by
  rcases step_cases hs hst with ⟨t, now, hth, rfl⟩ | ⟨t, x, left, o, rest, r, hth, rfl⟩ |
    ⟨t, a, hth, rfl⟩ | ⟨t, x, left, a, hth, rfl⟩
  · rw [accounted, Pool.didCall_trace, turned_sum hf hth]
    rcases turn_cases c deadline now p.state with ⟨e, -⟩ | ⟨e, -⟩ | ⟨x, rest, hq, -, e⟩ |
      ⟨x, rest, hq, -, -, e⟩
    · rw [e]
      exact h.trans (congrArg₂ (· + ·) rfl (add_zero _).symm)
    · rw [e]
      exact h.trans (congrArg₂ (· + ·) rfl (add_zero _).symm)
    · rw [e]
      have hx : x ::ₘ accounted p =
          x ::ₘ ↑(p.trace.filterMap skipped) + ↑((p.trace.filterMap finished).map Prod.fst) + (p.sum held + 0) := by
        rw [accounted, Multiset.cons_add, Multiset.cons_add, add_zero]
      exact (congrArg (x ::ₘ ·) h).trans hx
    · rw [e]
      have hx : x ::ₘ accounted p =
          ↑(p.trace.filterMap skipped) + ↑((p.trace.filterMap finished).map Prod.fst) + (p.sum held + {x}) := by
        rw [accounted, ← add_assoc, ← Multiset.singleton_add, add_comm]
      exact (congrArg (x ::ₘ ·) h).trans hx
  · have hsum := Pool.didCall_sum held hf hth r p.state []
    rw [List.map_nil, List.sum_nil, add_zero] at hsum
    rw [accounted, Pool.didCall_trace, add_right_cancel hsum]
    exact h
  · have hsum := Pool.didEnd_sum held hf hth p.state (c.next a)
    have hnext : held (⟨.head, .ret (.inl a)⟩ : Worker τ Op Reply α) = ((c.next a).map held).sum := by
      cases a <;> rfl
    rw [hnext] at hsum
    rw [accounted, Pool.didEnd_trace, add_right_cancel hsum]
    exact h
  · have hsum := Pool.didEnd_sum held hf hth ⟨p.state.queue, c.record p.state.records x a⟩ [atHead]
    have hx : accounted p = ↑(p.trace.filterMap skipped) +
        x ::ₘ ↑((p.trace.filterMap finished).map Prod.fst) +
        (p.didEnd t (.job x left) (.inr a) ⟨p.state.queue, c.record p.state.records x a⟩
          [atHead]).sum held := by
      have hold : p.sum held + 0 = _ + {x} := hsum.symm
      rw [accounted, ← add_zero (p.sum held), hold, Multiset.add_cons, Multiset.cons_add,
        ← add_assoc]
      exact (add_comm _ _).trans (Multiset.singleton_add x _)
    rw [accounted, Pool.didEnd_trace]
    exact h.trans hx

theorem records_step {l : Label (Choice Op Reply) Empty} (hs : p.Each Shaped)
    (hst : (c.system deadline).step p l = some p')
    (h : p.state.records = (p.trace.filterMap finished).foldr (fun done s => c.record s done.1 done.2) records) :
    p'.state.records = (p'.trace.filterMap finished).foldr (fun done s => c.record s done.1 done.2) records := by
  rcases step_cases hs hst with ⟨t, now, hth, rfl⟩ | ⟨t, x, left, o, rest, r, hth, rfl⟩ |
    ⟨t, a, hth, rfl⟩ | ⟨t, x, left, a, hth, rfl⟩
  · rw [Pool.didCall_trace, Pool.didCall_state]
    have hrec : (c.turn deadline now p.state).2.records = p.state.records := by
      rcases turn_cases c deadline now p.state with ⟨e, -⟩ | ⟨e, -⟩ | ⟨x, rest, -, -, e⟩ |
        ⟨x, rest, -, -, -, e⟩ <;> rw [e]
    exact hrec.trans h
  · rw [Pool.didCall_trace, Pool.didCall_state]
    exact h
  · rw [Pool.didEnd_trace, Pool.didEnd_state]
    exact h
  · rw [Pool.didEnd_trace, Pool.didEnd_state]
    exact congrArg (c.record · x a) h

theorem fresh_step {l : Label (Choice Op Reply) Empty} (hf : p.Fresh) (hs : p.Each Shaped)
    (hst : (c.system deadline).step p l = some p') : p'.Fresh := by
  rcases step_cases hs hst with ⟨t, now, hth, rfl⟩ | ⟨t, x, left, o, rest, r, hth, rfl⟩ |
    ⟨t, a, hth, rfl⟩ | ⟨t, x, left, a, hth, rfl⟩
  · exact Pool.didCall_fresh hf hth _ _ _
  · exact Pool.didCall_fresh hf hth _ _ _
  · exact Pool.didEnd_fresh hf hth _ _
  · exact Pool.didEnd_fresh hf hth _ _

theorem Kept.step {l : Label (Choice Op Reply) Empty} (h : Kept c items records p)
    (hst : (c.system deadline).step p l = some p') : Kept c items records p' where
  fresh := fresh_step h.fresh h.shaped hst
  shaped := shaped_step h.shaped hst
  order := order_step h.shaped hst h.order
  whole := whole_step h.fresh h.shaped hst h.whole
  records := records_step h.shaped hst h.records

theorem start_fresh (n : Nat) (items : List τ) (records : σ) :
    (start n items records : CrewPool τ σ Op Reply α).Fresh :=
  Pool.spawn_fresh (fun _ _ => rfl) _

theorem start_threads {n : Nat} {t : Nat} {th : Worker τ Op Reply α}
    (h : (start n items records : CrewPool τ σ Op Reply α).threads t = some th) : th = atHead := by
  rcases Pool.spawn_threads h with h | ⟨-, h⟩
  · cases h
  · exact List.eq_of_mem_replicate h

theorem Kept.start (c : Crew τ σ Op Reply α) (n : Nat) (items : List τ) (records : σ) :
    Kept c items records (start n items records) where
  fresh := start_fresh n items records
  shaped t th h := start_threads h ▸ atHead_shaped
  order := by simp [taken, Crew.start, Pool.initial]
  whole := by
    have hsum : (Crew.start n items records : CrewPool τ σ Op Reply α).sum held = 0 := by
      refine Finset.sum_eq_zero fun t _ => ?_
      cases ht : (Crew.start n items records : CrewPool τ σ Op Reply α).threads t with
      | none => rfl
      | some th => exact congrArg held (start_threads ht)
    rw [accounted, hsum]
    simp [Crew.start, Pool.initial]
  records := by simp [Crew.start, Pool.initial]

theorem Kept.run {n : Nat} (hr : (c.system deadline).Runs (fun _ _ => True) (Crew.start n items records) p) :
    Kept c items records p :=
  (c.system deadline).invariant (fun _ _ _ h _ hst => h.step hst) (.start c n items records) hr

theorem count_run {n : Nat}
    (hr : (c.system deadline).Runs (fun _ _ => True) (Crew.start n items records) p) :
    p.count (fun _ => true) ≤ n := by
  have hstart : (Crew.start n items records : CrewPool τ σ Op Reply α).count (fun _ => true) ≤ n := by
    rw [Crew.start, Pool.count_spawn, Pool.count_none _ _ fun _ => rfl]
    simp
  refine ((c.system deadline).invariant (I := fun p => Kept c items records p ∧ p.count (fun _ => true) ≤ n)
    (fun p l p' h _ hst => ⟨h.1.step hst, ?_⟩) ⟨.start c n items records, hstart⟩ hr).2
  rcases step_cases h.1.shaped hst with ⟨t, now, hth, rfl⟩ | ⟨t, x, left, o, rest, r, hth, rfl⟩ |
    ⟨t, a, hth, rfl⟩ | ⟨t, x, left, a, hth, rfl⟩
  · exact (Pool.didCall_count h.1.fresh (fun _ => true) hth _ _ _).trans_le h.2
  · exact (Pool.didCall_count h.1.fresh (fun _ => true) hth _ _ _).trans_le h.2
  · have hc : _ + 1 = p.count (fun _ => true) + (c.next a).countP (fun _ => true) :=
      Pool.didEnd_count h.1.fresh (fun _ => true) hth p.state (c.next a)
    have hle : (c.next a).countP (fun _ => true) ≤ 1 := by cases a <;> simp [next]
    exact Nat.le_of_succ_le_succ (hc.trans_le (Nat.add_le_add h.2 hle))
  · have hc : _ + 1 = p.count (fun _ => true) + 1 :=
      Pool.didEnd_count h.1.fresh (fun _ => true) hth ⟨p.state.queue, c.record p.state.records x a⟩ [atHead]
    exact (Nat.succ_injective hc).trans_le h.2

def staysOn : Program (Call Op) (Answer τ Reply) (Turn τ ⊕ α) → Bool
  | .ret (.inl .idle) | .ret (.inl .late) => false
  | _ => true

/-- A worker that will look at the queue again. -/
def stays (th : Worker τ Op Reply α) : Bool := match th.kind with
  | .job _ _ => true
  | .head => staysOn th.prog

def Manned (p : CrewPool τ σ Op Reply α) : Prop :=
  p.state.queue = [] ∨ p.trace.any isLate = true ∨ ∃ t th, p.threads t = some th ∧ stays th = true

theorem Manned.step {l : Label (Choice Op Reply) Empty} (hf : p.Fresh) (hs : p.Each Shaped)
    (h : Manned p) (hst : (c.system deadline).step p l = some p') : Manned p' := by
  rcases step_cases hs hst with ⟨t, now, hth, rfl⟩ | ⟨t, x, left, o, rest, r, hth, rfl⟩ |
    ⟨t, a, hth, rfl⟩ | ⟨t, x, left, a, hth, rfl⟩
  · rcases turn_cases c deadline now p.state with ⟨e, hq⟩ | ⟨e, -⟩ | ⟨x, rest, -, -, e⟩ |
      ⟨x, rest, -, -, -, e⟩
    · exact .inl (by rw [Pool.didCall_state, e]; exact hq)
    · exact .inr (.inl (by rw [Pool.didCall_trace, e]; rfl))
    · refine .inr (.inr ⟨t, ⟨.head, .ret (.inl (.skip x))⟩, ?_, rfl⟩)
      rw [Pool.didCall_threads hf hth, if_pos (hf.lt hth), if_pos rfl, e]
    · refine .inr (.inr ⟨t, ⟨.head, .ret (.inl (.take x (deadline - now)))⟩, ?_, rfl⟩)
      rw [Pool.didCall_threads hf hth, if_pos (hf.lt hth), if_pos rfl, e]
  · refine .inr (.inr ⟨t, ⟨.job x left, rest r⟩, ?_, rfl⟩)
    rw [Pool.didCall_threads hf hth, if_pos (hf.lt hth), if_pos rfl]
  · rcases h with hq | hl | ⟨u, th, hu, hstay⟩
    · exact .inl (by rw [Pool.didEnd_state]; exact hq)
    · exact .inr (.inl (by rw [Pool.didEnd_trace, List.any_cons, hl, Bool.or_true]))
    · by_cases e : u = t
      · subst e
        obtain ⟨th', hnext, hstay'⟩ : ∃ th', (c.next a)[0]? = some th' ∧ stays th' = true := by
          obtain rfl : th = _ := Option.some.inj (hu.symm.trans hth)
          cases a with
          | idle | late => cases hstay
          | skip x | take x left => exact ⟨_, rfl, rfl⟩
        refine .inr (.inr ⟨p.next, th', ?_, hstay'⟩)
        rw [Pool.didEnd_threads hf hth, if_neg (Nat.lt_irrefl _), Nat.sub_self, hnext]
      · refine .inr (.inr ⟨u, th, ?_, hstay⟩)
        rw [Pool.didEnd_threads hf hth, if_pos (hf.lt hu), if_neg e, hu]
  · refine .inr (.inr ⟨p.next, atHead, ?_, rfl⟩)
    rw [Pool.didEnd_threads hf hth, if_neg (Nat.lt_irrefl _), Nat.sub_self]
    rfl

theorem manned_start {n : Nat} (hn : 0 < n) : Manned (Crew.start n items records : CrewPool τ σ Op Reply α) := by
  refine .inr (.inr ⟨0, atHead, ?_, rfl⟩)
  rw [Crew.start, Pool.spawn_threads_eq fun _ _ => rfl]
  simp [Pool.initial, hn]

/-- Recording an item makes it one to skip, and none ceases to be. -/
structure Marks (c : Crew τ σ Op Reply α) : Prop where
  marks : ∀ s x a, c.skip (c.record s x a) x = true
  keeps : ∀ s x y a, c.skip s x = true → c.skip (c.record s y a) x = true

theorem Marks.finished (hc : Marks c) {x : τ} : ∀ {done : List (τ × α)}, x ∈ done.map Prod.fst →
    c.skip (done.foldr (fun done s => c.record s done.1 done.2) records) x = true
  | [], h => absurd h List.not_mem_nil
  | (y, a) :: done, h => by
    rcases List.mem_cons.mp h with rfl | h
    · exact hc.marks _ x a
    · exact hc.keeps _ x y a (hc.finished h)

/-- Nothing is skipped but what the records say. -/
theorem skips_step {l : Label (Choice Op Reply) Empty}
    (keeps : ∀ s x y a, c.skip s x = true → c.skip (c.record s y a) x = true)
    (hs : p.Each Shaped) (h : ∀ x ∈ p.trace.filterMap skipped, c.skip p.state.records x = true)
    (hst : (c.system deadline).step p l = some p') :
    ∀ x ∈ p'.trace.filterMap skipped, c.skip p'.state.records x = true := by
  rcases step_cases hs hst with ⟨t, now, hth, rfl⟩ | ⟨t, x, left, o, rest, r, hth, rfl⟩ |
    ⟨t, a, hth, rfl⟩ | ⟨t, x, left, a, hth, rfl⟩
  · rw [Pool.didCall_trace, Pool.didCall_state]
    rcases turn_cases c deadline now p.state with ⟨e, -⟩ | ⟨e, -⟩ | ⟨x, rest, -, hx, e⟩ |
      ⟨x, rest, -, -, -, e⟩
    · rw [e]
      exact h
    · rw [e]
      exact h
    · rw [e]
      intro y hy
      rcases List.mem_cons.mp hy with rfl | hy
      · exact hx
      · exact h y hy
    · rw [e]
      exact h
  · rw [Pool.didCall_trace, Pool.didCall_state]
    exact h
  · rw [Pool.didEnd_trace, Pool.didEnd_state]
    exact h
  · rw [Pool.didEnd_trace, Pool.didEnd_state]
    exact fun y hy => keeps _ y x a (h y hy)

/-- Thread `t` has had this reply to a call of its work. -/
def Replied (trace : List (CrewEvent τ σ Op Reply α)) (t : Nat) (o : Op) (r : Reply o) : Prop :=
  ∃ k s s', Event.did t k (.work o) r s s' ∈ trace

def onWork (given : (o : Op) → Reply o → Prop) : (o : Call Op) → Answer τ Reply o → Prop
  | .turn, _ => False
  | .work o, r => given o r

theorem Replied.cons {trace : List (CrewEvent τ σ Op Reply α)} {t : Nat} {o : Op} {r : Reply o}
    (e : CrewEvent τ σ Op Reply α) (h : Replied trace t o r) : Replied (e :: trace) t o r := by
  obtain ⟨k, s, s', h⟩ := h
  exact ⟨k, s, s', List.mem_cons_of_mem e h⟩

/-- What a worker's job comes to from here on, it comes to from the start, as far as the replies
include those it has had. -/
def OnCourse (c : Crew τ σ Op Reply α) (trace : List (CrewEvent τ σ Op Reply α)) (t : Nat)
    (th : Worker τ Op Reply α) : Prop :=
  ∀ x left, th.kind = .job x left → ∀ given : (o : Op) → Reply o → Prop,
    (∀ o r, Replied trace t o r → given o r) →
    ∀ a, th.prog.Comes (onWork given) (.inr a) → (c.work x left).Comes given a

theorem OnCourse.cons {trace : List (CrewEvent τ σ Op Reply α)} {t : Nat} {th : Worker τ Op Reply α}
    (e : CrewEvent τ σ Op Reply α) (h : OnCourse c trace t th) : OnCourse c (e :: trace) t th :=
  fun x left hk given hg => h x left hk given fun o r hr => hg o r (hr.cons e)

theorem onCourse_head (c : Crew τ σ Op Reply α) (trace : List (CrewEvent τ σ Op Reply α)) (t : Nat)
    {th : Worker τ Op Reply α} (h : th.kind = .head) : OnCourse c trace t th :=
  fun x left hk => by rw [h] at hk; cases hk

theorem onCourse_job (c : Crew τ σ Op Reply α) (trace : List (CrewEvent τ σ Op Reply α)) (t : Nat) (x : τ)
    (left : Nat) : OnCourse c trace t (c.job x left) := by
  intro y left' hk given _ a ha
  cases hk
  obtain ⟨b, hb, e⟩ := Program.Comes.of_bind ha
  cases e
  refine (Program.Comes.of_lift hb).mono ?_
  rintro o r ⟨r', rfl, hr⟩
  exact hr

theorem onCourse_next (c : Crew τ σ Op Reply α) (trace : List (CrewEvent τ σ Op Reply α)) (t : Nat)
    (a : Turn τ) : ∀ th ∈ c.next a, OnCourse c trace t th := by
  intro th hth
  cases a with
  | idle | late => cases hth
  | skip x => exact List.mem_singleton.mp hth ▸ onCourse_head c trace t rfl
  | take x left => exact List.mem_singleton.mp hth ▸ onCourse_job c trace t x left

/-- Every result of a job is one that its work comes to with the replies on record. -/
def Sourced (c : Crew τ σ Op Reply α) (p : CrewPool τ σ Op Reply α) : Prop :=
  ∀ t x left a s s', Event.ended t (.job x left) (.inr a) s s' ∈ p.trace →
    (c.work x left).Comes (Replied p.trace t) a

theorem Sourced.cons {p q : CrewPool τ σ Op Reply α} {e : CrewEvent τ σ Op Reply α} (h : Sourced c p)
    (hq : q.trace = e :: p.trace) (he : ∀ t x left a s s', Event.ended t (.job x left) (.inr a) s s' = e →
      (c.work x left).Comes (Replied p.trace t) a) : Sourced c q := by
  intro t x left a s s' hm
  rw [hq] at hm ⊢
  have more (o : Op) (r : Reply o) (hr : Replied p.trace t o r) : Replied (e :: p.trace) t o r := hr.cons e
  refine Program.Comes.mono more ?_
  rcases List.mem_cons.mp hm with rfl | hm
  · exact he t x left a s s' rfl
  · exact h t x left a s s' hm

theorem course_step {l : Label (Choice Op Reply) Empty} (hf : p.Fresh) (hs : p.Each Shaped)
    (h : ∀ t th, p.threads t = some th → OnCourse c p.trace t th)
    (hst : (c.system deadline).step p l = some p') :
    ∀ t th, p'.threads t = some th → OnCourse c p'.trace t th := by
  intro u th hu
  rcases step_cases hs hst with ⟨t, now, hth, rfl⟩ | ⟨t, x, left, o, rest, r, hth, rfl⟩ |
    ⟨t, a, hth, rfl⟩ | ⟨t, x, left, a, hth, rfl⟩
  · rw [Pool.didCall_trace]
    rw [Pool.didCall_threads hf hth] at hu
    split at hu
    · split at hu
      · obtain rfl := Option.some.inj hu
        exact onCourse_head c _ u rfl
      · exact (h u th hu).cons _
    · cases hu
  · rw [Pool.didCall_trace]
    rw [Pool.didCall_threads hf hth] at hu
    split at hu
    · split at hu
      · rename_i e
        obtain rfl := Option.some.inj hu
        subst e
        intro y left' hk given hg a ha
        refine h u _ hth y left' hk given (fun o r hr => hg o r (hr.cons _)) a ⟨r, ?_, ha⟩
        exact hg o r ⟨.job x left, p.state, p.state, List.mem_cons_self⟩
      · exact (h u th hu).cons _
    · cases hu
  · rw [Pool.didEnd_trace]
    rw [Pool.didEnd_threads hf hth] at hu
    split at hu
    · split at hu
      · cases hu
      · exact (h u th hu).cons _
    · exact onCourse_next c _ u a th (List.mem_of_getElem? hu)
  · rw [Pool.didEnd_trace]
    rw [Pool.didEnd_threads hf hth] at hu
    split at hu
    · split at hu
      · cases hu
      · exact (h u th hu).cons _
    · exact List.mem_singleton.mp (List.mem_of_getElem? hu) ▸ onCourse_head c _ u rfl

theorem Sourced.step {l : Label (Choice Op Reply) Empty} (h : Sourced c p) (hs : p.Each Shaped)
    (hc : ∀ t th, p.threads t = some th → OnCourse c p.trace t th)
    (hst : (c.system deadline).step p l = some p') : Sourced c p' := by
  rcases step_cases hs hst with ⟨t, now, hth, rfl⟩ | ⟨t, x, left, o, rest, r, hth, rfl⟩ |
    ⟨t, a, hth, rfl⟩ | ⟨t, x, left, a, hth, rfl⟩
  · exact h.cons (Pool.didCall_trace ..) fun _ _ _ _ _ _ e => by cases e
  · exact h.cons (Pool.didCall_trace ..) fun _ _ _ _ _ _ e => by cases e
  · exact h.cons (Pool.didEnd_trace ..) fun _ _ _ _ _ _ e => by cases e
  · refine h.cons (Pool.didEnd_trace ..) fun _ _ _ _ _ _ e => ?_
    cases e
    exact hc t _ hth x left rfl _ (fun _ _ hr => hr) a rfl

theorem Kept.job_mem (h : Kept c items records p) {t : Nat} {x : τ} {left : Nat}
    {q : Program (Call Op) (Answer τ Reply) (Turn τ ⊕ α)} (ht : p.threads t = some ⟨.job x left, q⟩) :
    x ∈ items := by
  have hheld : x ∈ p.sum held :=
    Multiset.mem_sum.mpr ⟨t, Finset.mem_range.mpr (h.fresh.lt ht), by rw [ht]; exact Multiset.mem_singleton_self x⟩
  have htook : x ∈ (p.trace.filterMap took : Multiset τ) := by
    rw [h.whole, accounted]
    exact Multiset.mem_add.mpr (.inr hheld)
  rw [h.order]
  exact List.mem_append_left _ (List.mem_reverse.mpr htook)

def Asks (allowed : τ → Op → Prop) (th : Worker τ Op Reply α) : Prop :=
  ∀ x left, th.kind = .job x left → th.prog.Uses fun o => ∀ o', o = .work o' → allowed x o'

theorem asks_head (allowed : τ → Op → Prop) {th : Worker τ Op Reply α} (h : th.kind = .head) :
    Asks allowed th := fun x left hk => by rw [h] at hk; cases hk

theorem asks_job {allowed : τ → Op → Prop} (hw : ∀ x left, (c.work x left).Uses (allowed x)) (x : τ)
    (left : Nat) : Asks allowed (c.job x left) := by
  intro y left' hk
  cases hk
  refine .bind (.lift ((hw x left).mono ?_)) fun _ => trivial
  rintro o ho o' e
  cases e
  exact ho

theorem asks_step {allowed : τ → Op → Prop} (hw : ∀ x left, (c.work x left).Uses (allowed x))
    {l : Label (Choice Op Reply) Empty} (h : p.Each (Asks allowed))
    (hst : (c.system deadline).step p l = some p') : p'.Each (Asks allowed) :=
  Pool.Each.step (spawns (asks_head allowed rfl) (asks_job hw))
    (fun _ _ _ r h x left hk => (h x left hk).2 r) h hst

/-- Every call on record is one that the work on some item may make. -/
def Asked (allowed : τ → Op → Prop) (items : List τ) (p : CrewPool τ σ Op Reply α) : Prop :=
  ∀ t k o r s s', Event.did t k (.work o) r s s' ∈ p.trace → ∃ x ∈ items, allowed x o

theorem Asked.step {allowed : τ → Op → Prop} {l : Label (Choice Op Reply) Empty}
    (hk : Kept c items records p) (ha : p.Each (Asks allowed)) (h : Asked allowed items p)
    (hst : (c.system deadline).step p l = some p') : Asked allowed items p' := by
  intro u k o' r' s s' hm
  rcases step_cases hk.shaped hst with ⟨t, now, hth, rfl⟩ | ⟨t, x, left, o, rest, r, hth, rfl⟩ |
    ⟨t, a, hth, rfl⟩ | ⟨t, x, left, a, hth, rfl⟩
  · rw [Pool.didCall_trace] at hm
    rcases List.mem_cons.mp hm with e | hm
    · cases e
    · exact h u k o' r' s s' hm
  · rw [Pool.didCall_trace] at hm
    rcases List.mem_cons.mp hm with e | hm
    · cases e
      exact ⟨x, hk.job_mem hth, (ha u _ hth x left rfl).1 o' rfl⟩
    · exact h u k o' r' s s' hm
  · rw [Pool.didEnd_trace] at hm
    rcases List.mem_cons.mp hm with e | hm
    · cases e
    · exact h u k o' r' s s' hm
  · rw [Pool.didEnd_trace] at hm
    rcases List.mem_cons.mp hm with e | hm
    · cases e
    · exact h u k o' r' s s' hm

def headRank : Program (Call Op) (Answer τ Reply) (Turn τ ⊕ α) → Nat
  | .ret (.inl .idle) | .ret (.inl .late) => 0
  | .ret (.inl (.skip _)) => 2
  | .ret (.inl (.take _ _)) => 3
  | _ => 1

def rank (th : Worker τ Op Reply α) : Nat := match th.kind with
  | .job _ _ => 2
  | .head => headRank th.prog

def weight (th : Worker τ Op Reply α) : Multiset (Nat × Program (Call Op) (Answer τ Reply) (Turn τ ⊕ α)) :=
  {(rank th, th.prog)}

theorem Kept.ends (h : Kept c items records p) : (c.system deadline).Ends (fun _ _ => True) p := by
  refine (c.system deadline).ends_of_lower
    (r := Prod.Lex (· < ·) (Relation.CutExpand (Prod.Lex (· < ·) Program.Next)))
    (WellFounded.prod_lex Nat.lt_wfRel.wf (WellFounded.prod_lex Nat.lt_wfRel.wf Program.Next.wf).cutExpand)
    (fun p => (p.state.queue.length, p.sum weight)) (I := Kept c items records)
    (fun _ _ _ h _ hst => h.step hst) ?_ h
  intro p l p' h _ hst
  have hf := h.fresh
  rcases step_cases h.shaped hst with ⟨t, now, hth, rfl⟩ | ⟨t, x, left, o, rest, r, hth, rfl⟩ |
    ⟨t, a, hth, rfl⟩ | ⟨t, x, left, a, hth, rfl⟩
  · rcases turn_cases c deadline now p.state with ⟨e, -⟩ | ⟨e, -⟩ | ⟨x, rest, hq, -, e⟩ |
      ⟨x, rest, hq, -, -, e⟩
    · rw [Pool.didCall_state, e]
      exact .right _ (Pool.didCall_lowers hf hth rfl (by simpa [weight] using .left _ _ Nat.zero_lt_one))
    · rw [Pool.didCall_state, e]
      exact .right _ (Pool.didCall_lowers hf hth rfl (by simpa [weight] using .left _ _ Nat.zero_lt_one))
    · rw [Pool.didCall_state, e, hq]
      exact .left _ _ (Nat.lt_succ_self _)
    · rw [Pool.didCall_state, e, hq]
      exact .left _ _ (Nat.lt_succ_self _)
  · rw [Pool.didCall_state]
    exact .right _ (Pool.didCall_lowers hf hth rfl (by simpa [weight] using .right _ (.reply _ rest r)))
  · rw [Pool.didEnd_state]
    refine .right _ (Pool.didEnd_lowers hf hth rfl ?_)
    cases a with
    | idle | late => exact fun b hb => absurd hb (Multiset.notMem_zero b)
    | skip x => simpa [next, weight] using .left _ _ (Nat.lt_succ_self 1)
    | take x left => simpa [next, weight] using .left _ _ (Nat.lt_succ_self 2)
  · rw [Pool.didEnd_state]
    exact .right _ (Pool.didEnd_lowers hf hth rfl (by simpa [weight] using .left _ _ (Nat.lt_succ_self 1)))

/-- Where some thread is left, it can go on, whatever the replies are. -/
theorem still_empty (reply : (o : Op) → Reply o) (h : (c.system deadline).Still (fun _ _ => True) p) (t : Nat) :
    p.threads t = none := by
  cases ht : p.threads t with
  | none => rfl
  | some th =>
    obtain ⟨k, q⟩ := th
    exfalso
    cases q with
    | ret a => exact h _ ⟨.finish t, trivial, by rw [System.step, ht]⟩
    | call o rest =>
      cases o with
      | turn => exact h _ ⟨.exec t ⟨0, reply⟩, trivial, by simp only [System.step, ht]; rfl⟩
      | work o => exact h _ ⟨.exec t ⟨0, reply⟩, trivial, by simp only [System.step, ht]; rfl⟩

variable {n : Nat}

theorem Manned.run (hn : 0 < n)
    (hr : (c.system deadline).Runs (fun _ _ => True) (Crew.start n items records) p) : Manned p :=
  ((c.system deadline).invariant (I := fun p => Kept c items records p ∧ Manned p)
    (fun _ _ _ h _ hst => ⟨h.1.step hst, h.2.step h.1.fresh h.1.shaped hst⟩)
    ⟨.start c n items records, manned_start hn⟩ hr).2

theorem skips_run (keeps : ∀ s x y a, c.skip s x = true → c.skip (c.record s y a) x = true)
    (hr : (c.system deadline).Runs (fun _ _ => True) (Crew.start n items records) p) :
    ∀ x ∈ p.trace.filterMap skipped, c.skip p.state.records x = true :=
  ((c.system deadline).invariant
    (I := fun p => Kept c items records p ∧ ∀ x ∈ p.trace.filterMap skipped, c.skip p.state.records x = true)
    (fun _ _ _ h _ hst => ⟨h.1.step hst, skips_step keeps h.1.shaped h.2 hst⟩)
    ⟨.start c n items records, by simp [Crew.start, Pool.initial]⟩ hr).2

theorem Sourced.run (hr : (c.system deadline).Runs (fun _ _ => True) (Crew.start n items records) p) :
    Sourced c p :=
  ((c.system deadline).invariant
    (I := fun p => Kept c items records p ∧ (∀ t th, p.threads t = some th → OnCourse c p.trace t th) ∧ Sourced c p)
    (fun _ _ _ h _ hst => ⟨h.1.step hst, course_step h.1.fresh h.1.shaped h.2.1 hst,
      h.2.2.step h.1.shaped h.2.1 hst⟩)
    ⟨.start c n items records, fun t th h => onCourse_head c _ t (start_threads h ▸ rfl),
      fun t x left a s s' h => by simp [Crew.start, Pool.initial] at h⟩ hr).2.2

theorem Asked.run {allowed : τ → Op → Prop} (hw : ∀ x left, (c.work x left).Uses (allowed x))
    (hr : (c.system deadline).Runs (fun _ _ => True) (Crew.start n items records) p) : Asked allowed items p :=
  ((c.system deadline).invariant
    (I := fun p => Kept c items records p ∧ p.Each (Asks allowed) ∧ Asked allowed items p)
    (fun _ _ _ h _ hst => ⟨h.1.step hst, asks_step hw h.2.1 hst, h.2.2.step h.1 h.2.1 hst⟩)
    ⟨.start c n items records, fun t th h => asks_head allowed (start_threads h ▸ rfl),
      fun t k o r s s' h => by simp [Crew.start, Pool.initial] at h⟩ hr).2.2

theorem mem_finished {trace : List (CrewEvent τ σ Op Reply α)} {x : τ} {a : α}
    (h : (x, a) ∈ trace.filterMap finished) :
    ∃ t left s s', Event.ended t (.job x left) (.inr a) s s' ∈ trace := by
  obtain ⟨e, he, hx⟩ := List.mem_filterMap.mp h
  cases e with
  | did t k o r s s' => cases hx
  | ended t k b s s' =>
    cases k with
    | head => cases hx
    | job y left =>
      cases b with
      | inl b => cases hx
      | inr b =>
        cases hx
        exact ⟨t, left, s, s', he⟩
  | outer w => exact w.elim

theorem Kept.finished_taken (h : Kept c items records p) {x : τ} {a : α}
    (hx : (x, a) ∈ p.trace.filterMap finished) : x ∈ taken p := by
  have htook : x ∈ (p.trace.filterMap took : Multiset τ) := by
    rw [h.whole, accounted]
    exact Multiset.mem_add.mpr (.inl (Multiset.mem_add.mpr (.inr (List.mem_map_of_mem (f := Prod.fst) hx))))
  exact List.mem_reverse.mpr htook

theorem Kept.taken_mem (h : Kept c items records p) {x : τ} (hx : x ∈ taken p) : x ∈ items := by
  rw [h.order]
  exact List.mem_append_left _ hx

/-- When the workers have left, the items taken are those skipped and those finished. -/
theorem Kept.whole_rest (h : Kept c items records p) (hp : ∀ t, p.threads t = none) :
    (p.trace.filterMap took : Multiset τ) =
      p.trace.filterMap skipped + (p.trace.filterMap finished).map Prod.fst := by
  have hsum : p.sum held = 0 := Finset.sum_eq_zero fun t _ => by rw [hp t]; rfl
  rw [h.whole, accounted, hsum, add_zero]

/-- When the workers have left, nothing is left in the queue unless the time was up. -/
theorem queue_rest (hn : 0 < n ∨ items = [])
    (hr : (c.system deadline).Runs (fun _ _ => True) (Crew.start n items records) p)
    (hp : ∀ t, p.threads t = none) : p.state.queue = [] ∨ p.trace.any isLate = true := by
  rcases hn with hn | rfl
  · rcases Manned.run hn hr with h | h | ⟨t, th, ht, -⟩
    · exact .inl h
    · exact .inr h
    · rw [hp t] at ht
      cases ht
  · exact .inl (List.append_eq_nil_iff.mp (Kept.run hr).order.symm).2

/-- Each item taken has then been skipped or finished. -/
theorem Kept.taken_rest (h : Kept c items records p) (hp : ∀ t, p.threads t = none) {x : τ} (hx : x ∈ taken p) :
    x ∈ p.trace.filterMap skipped ∨ ∃ a, (x, a) ∈ p.trace.filterMap finished := by
  have hm : x ∈ (p.trace.filterMap took : Multiset τ) := List.mem_reverse.mp hx
  rw [h.whole_rest hp] at hm
  refine (Multiset.mem_add.mp hm).imp id fun h => ?_
  obtain ⟨⟨y, a⟩, hy, rfl⟩ := List.mem_map.mp h
  exact ⟨a, hy⟩

theorem Marks.rest (hc : Marks c)
    (hr : (c.system deadline).Runs (fun _ _ => True) (Crew.start n items records) p)
    (hp : ∀ t, p.threads t = none) {x : τ} (hx : x ∈ taken p) : c.skip p.state.records x = true := by
  have kept := Kept.run hr
  rcases kept.taken_rest hp hx with h | ⟨a, h⟩
  · exact skips_run hc.keeps hr x h
  · rw [kept.records]
    exact hc.finished (List.mem_map_of_mem (f := Prod.fst) h)

/-- There are workers where there is anything to do. -/
theorem crewed {k : Nat} (hk : 0 < k) (items : List τ) : 0 < min k items.length ∨ items = [] := by
  cases items with
  | nil => exact .inr rfl
  | cons x items => exact .inl (Nat.lt_min.mpr ⟨hk, Nat.succ_pos _⟩)

end

end Crew
end Concurrent
