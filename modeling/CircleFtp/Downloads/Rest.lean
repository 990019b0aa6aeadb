import CircleFtp.Concurrent.Descent
import CircleFtp.Downloads.Chain
import CircleFtp.Downloads.Outline
import CircleFtp.Downloads.Wakeups

/-! The queue comes to rest: without new requests every run ends, and it ends with no task left. -/
namespace CircleFtp.Downloads
open Concurrent Relation Strings

/-- The tasks that come from outside; only they put downloads into the queue. -/
def Task.arrived : Task → Bool
  | .boot | .request _ => true
  | _ => false

/-- The downloads in the queue. -/
def State.queued (s : State) : Finset Nat :=
  (Finset.range s.downloads.next).filter fun id =>
    ((s.downloads.rows id).any fun d => d.status = .QUEUED) = true

/-- How much a round of the drain may still set off: a claim that will not find its download is
followed by another round, a claim that does takes one from the queue. -/
def drainRank (queued : Finset Nat) : Program Op Reply Result → Nat
  | .call (.claim id) _ => if id ∈ queued then 1 else 4
  | .call _ _ => 2
  | .ret .again => 3
  | .ret (.start _) => 8
  | .ret _ => 0

def rank (queued : Finset Nat) (th : DownloadThread) : Nat :=
  match th.kind with
  | .drain => drainRank queued th.prog
  | .wake => 5
  | .release => 6
  | .worker _ _ => 7
  | _ => 0

abbrev Weight := Nat × Program Op Reply Result

def Weight.Below : Weight → Weight → Prop := Prod.Lex (· < ·) Program.Next

theorem Weight.below_wf : WellFounded Weight.Below := WellFounded.prod_lex Nat.lt_wfRel.wf Program.Next.wf

def arrivedWeight (th : DownloadThread) : Multiset (Program Op Reply Result) :=
  if th.kind.arrived then {th.prog} else 0

def ownWeight (queued : Finset Nat) (th : DownloadThread) : Multiset Weight :=
  if th.kind.arrived then 0 else {(rank queued th, th.prog)}

/-- What is left to do for the tasks from outside, for the queue, and for the other tasks. -/
def toDo (p : DownloadPool) : Multiset (Program Op Reply Result) × Nat × Multiset Weight :=
  (p.sum arrivedWeight, p.state.queued.card, p.sum (ownWeight p.state.queued))

def Less : Multiset (Program Op Reply Result) × Nat × Multiset Weight →
    Multiset (Program Op Reply Result) × Nat × Multiset Weight → Prop :=
  Prod.Lex (CutExpand Program.Next) (Prod.Lex (· < ·) (CutExpand Weight.Below))

theorem less_wf : WellFounded Less :=
  WellFounded.prod_lex Program.Next.wf.cutExpand
    (WellFounded.prod_lex Nat.lt_wfRel.wf Weight.below_wf.cutExpand)

theorem mem_queued {s : State} {id : Nat} :
    id ∈ s.queued ↔ ∃ d, s.downloads.rows id = some d ∧ d.status = .QUEUED := by
  simp only [State.queued, Finset.mem_filter, Finset.mem_range, Option.any_eq_true, decide_eq_true_eq]
  refine and_iff_right_of_imp ?_
  rintro ⟨d, hd, -⟩
  exact Table.lt_next hd

theorem drainRank_round (queued : Finset Nat) : drainRank queued drainProgram = 2 := by
  rw [drainProgram_eq]
  rfl

section
variable {env : Env} {p p' : DownloadPool} {t : Nat} {k : Task}

theorem loop_ranks {Q : Finset Nat} {m : Memory} {th : DownloadThread} (h : th ∈ (m.loop env).2) :
    th.kind.arrived = false ∧ rank Q th = 2 := by
  rw [Memory.loop] at h
  split at h
  · obtain rfl := List.mem_singleton.mp h
    exact ⟨rfl, drainRank_round Q⟩
  · exact absurd h List.not_mem_nil

theorem wake_ranks {Q : Finset Nat} {m : Memory} {th : DownloadThread} (h : th ∈ (m.wake env).2) :
    th.kind.arrived = false ∧ rank Q th = 2 := by
  rw [Memory.wake] at h
  split at h
  · exact absurd h List.not_mem_nil
  · exact loop_ranks h

/-- What the end of a task sets off ranks below it. -/
theorem after_ranks {Q : Finset Nat} {m : Memory} {a : Result} {th : DownloadThread}
    (h : th ∈ (m.after env k a).2) :
    th.kind.arrived = false ∧ (k.arrived = true ∨ rank Q th < rank Q ⟨k, .ret a⟩) := by
  have lower {n n' : Nat} (hth : th.kind.arrived = false ∧ rank Q th = n') (hn : n' < n)
      (ha : rank Q ⟨k, .ret a⟩ = n) :
      th.kind.arrived = false ∧ (k.arrived = true ∨ rank Q th < rank Q ⟨k, .ret a⟩) :=
    ⟨hth.1, .inr (by rw [ha, hth.2]; exact hn)⟩
  unfold Memory.after at h
  split at h
  · exact ⟨(wake_ranks (Q := Q) h).1, .inl rfl⟩
  · exact absurd h List.not_mem_nil
  · rcases List.mem_cons.mp h with rfl | h
    · exact lower ⟨rfl, rfl⟩ (Nat.lt_succ_self 7) rfl
    · exact lower (loop_ranks h) (n := 8) (by decide) rfl
  · exact lower (loop_ranks h) (Nat.lt_succ_self 2) rfl
  · exact absurd h List.not_mem_nil
  · obtain rfl := List.mem_singleton.mp h
    exact lower ⟨rfl, rfl⟩ (Nat.lt_succ_self 6) rfl
  · obtain rfl := List.mem_singleton.mp h
    exact lower ⟨rfl, rfl⟩ (Nat.lt_succ_self 5) rfl
  · exact lower (wake_ranks h) (n := 5) (by decide) rfl
  · exact absurd h List.not_mem_nil
  · exact ⟨(wake_ranks (Q := Q) h).1, .inl rfl⟩
  · exact ⟨(wake_ranks (Q := Q) h).1, .inl rfl⟩
  · exact absurd h List.not_mem_nil
  · exact absurd h List.not_mem_nil

/-- A call of a drain that leaves the queue as it is comes to a lower rank. -/
theorem DrainShape.descends {o : Op} {rest : Reply o → Program Op Reply Result}
    (h : DrainShape (.call o rest)) {s s' : State} {c : Choice} {r : Reply o} (hc : Downloads.call s o c = (r, s'))
    (hq : s'.queued = s.queued) :
    drainRank s.queued (rest r) < drainRank s.queued (.call o rest) := by
  generalize hprog : Program.call o rest = prog at h
  cases h with
  | round =>
    rw [drainProgram_eq] at hprog
    cases hprog
    rcases r with e | _ | id
    · exact Nat.two_pos
    · exact Nat.two_pos
    · have hp := call_ok hc
      have hid : id ∈ s.queued := by
        obtain ⟨d, hd, hst⟩ := Table.findFirst_some (Except.ok.inj (Prod.mk.inj hp).1)
        exact mem_queued.mpr ⟨d, hd, by simpa using hst⟩
      simp only [claimNext, drainRank, if_pos hid]
      exact Nat.one_lt_two
  | claim id =>
    cases hprog
    rcases r with e | n
    · simp only [claimNext, drainRank]
      split <;> decide
    by_cases hn : n = 0
    · subst hn
      have hp := call_ok hc
      have hid : id ∉ s.queued := by
        intro hid
        obtain ⟨d, hd, hst⟩ := mem_queued.mp hid
        have hzero := (Except.ok.inj (Prod.mk.inj hp).1)
        exact absurd hzero (Table.count_ne_zero.mpr ⟨id, d, hd, by simp [hst]⟩)
      simp only [claimNext, drainRank, if_pos, if_neg hid]
      decide
    · -- the claim has taken the download from the queue
      exfalso
      obtain ⟨d, hd, hst⟩ := claim_queued hc hn
      have hid : id ∈ s'.queued := hq ▸ mem_queued.mpr ⟨d, hd, hst⟩
      obtain ⟨d', hd', hst'⟩ := mem_queued.mp hid
      obtain rfl := congrArg Prod.snd (call_ok hc)
      simp only [perform] at hd'
      rw [updateMany_row hd] at hd'
      simp only [hst, decide_true, Bool.and_self, if_true, Option.some.injEq] at hd'
      subst hd'
      cases hst'
  | ret a => cases hprog

/-- A task of the process itself puts nothing into the queue. -/
theorem queued_subset {o : Op} {s s' : State} {c : Choice} {r : Reply o} (hc : call s o c = (r, s'))
    (hm : o.MadeBy k) (hk : k.arrived = false) : s'.queued ⊆ s.queued := by
  intro id hid
  obtain ⟨d', hd', hq⟩ := mem_queued.mp hid
  rcases queued_before hc hm hd' hq with h | rfl | ⟨ho, -⟩
  · exact mem_queued.mpr h
  · obtain rfl : k = .boot := hm
    cases hk
  · rcases hm.queues ho with ⟨postId, seasons, rfl⟩ | ⟨id, rfl⟩ <;> cases hk

/-- Only a worker starts progress writes. -/
theorem reported_by {s : State} {o : Op} {c : Choice} (hm : o.MadeBy k) {th : DownloadThread}
    (h : th ∈ reported s c o) : ∃ w : Nat × Nat, k = .worker w.1 w.2 := by
  cases o <;> simp only [reported, List.not_mem_nil] at h
  obtain ⟨controller, rfl⟩ := hm
  exact ⟨(_, controller), rfl⟩

/-- What the measure needs to know of a pool. -/
structure Shaped (env : Env) (p : DownloadPool) : Prop where
  slots : SlotsKept env p
  drains : p.Each DrainShaped

theorem Shaped.step (h : Shaped env p) {l : DownloadLabel} (hst : (system env).step p l = some p') :
    Shaped env p' :=
  ⟨h.slots.step hst, h.drains.step (system_drains env) (fun _ _ _ r hφ hk => ((hφ hk).call r).1) hst⟩

theorem Shaped.exec_less (h : Shaped env p) {o : Op} {rest : Reply o → Program Op Reply Result}
    (ht : p.threads t = some ⟨k, .call o rest⟩) {c : Choice} {r : Reply o} {s : State}
    {ths : List DownloadThread} (he : (system env).exec p.state k o c = some (r, s, ths)) :
    Less (toDo (p.didCall t k o rest r s ths)) (toDo p) := by
  obtain ⟨-, hc, rfl⟩ := system_exec he
  have hf := h.slots.fresh
  have hm : o.MadeBy k := (h.slots.uses t _ ht).1
  -- a call starts progress writes only
  have new {th : DownloadThread} (hth : th ∈ reported p.state c o) : ∃ z, th.kind = .progress z := by
    obtain ⟨z, hk, -⟩ := reported_begins env hth
    exact ⟨z, hk⟩
  have none_arrives : ((reported p.state c o).map arrivedWeight).sum = 0 := by
    refine List.sum_eq_zero fun w hw => ?_
    obtain ⟨th, hth, rfl⟩ := List.mem_map.mp hw
    obtain ⟨z, hz⟩ := new hth
    simp [arrivedWeight, hz, Task.arrived]
  cases hk : k.arrived with
  | true =>
    refine .left _ _ (Pool.didCall_lowers hf ht (b := .call o rest) (by simp [arrivedWeight, hk]) ?_)
    rw [none_arrives, add_zero]
    intro q hq
    obtain rfl : q = rest r := by simpa [arrivedWeight, hk] using hq
    exact .reply o rest r
  | false =>
    have same : (p.didCall t k o rest r s (reported p.state c o)).sum arrivedWeight = p.sum arrivedWeight := by
      have hs := Pool.didCall_sum arrivedWeight hf ht r s (reported p.state c o)
      rw [none_arrives] at hs
      simpa [arrivedWeight, hk] using hs
    have hsub := queued_subset hc hm hk
    rw [Less, toDo, toDo, same, Pool.didCall_state]
    refine .right _ ?_
    by_cases hq : s.queued = p.state.queued
    · rw [hq]
      refine .right _ (Pool.didCall_lowers hf ht (b := (rank p.state.queued ⟨k, .call o rest⟩, .call o rest))
        (by simp [ownWeight, hk]) ?_)
      intro w hw
      rcases Multiset.mem_add.mp hw with hw | hw
      · obtain rfl : w = (rank p.state.queued ⟨k, rest r⟩, rest r) := by simpa [ownWeight, hk] using hw
        by_cases hd : k = .drain
        · subst hd
          exact .left _ _ ((h.drains t _ ht rfl).descends hc hq)
        · have hrank : rank p.state.queued ⟨k, rest r⟩ = rank p.state.queued ⟨k, .call o rest⟩ := by
            cases k <;> first | rfl | contradiction
          rw [hrank]
          exact .right _ (.reply o rest r)
      · obtain ⟨th, hth, hw⟩ := mem_bags hw
        obtain ⟨z, hz⟩ := new hth
        obtain ⟨id, hreport⟩ := reported_by hm hth
        obtain rfl : w = (0, th.prog) := by simpa [ownWeight, hz, Task.arrived, rank] using hw
        subst hreport
        exact .left _ _ (Nat.succ_pos 6)
    · exact .left _ _ (Finset.card_lt_card (hsub.ssubset_of_ne hq))

theorem Shaped.finish_less (h : Shaped env p) {a : Result} (ht : p.threads t = some ⟨k, .ret a⟩) :
    Less (toDo (p.didEnd t k a ((system env).finish p.state k a).1 ((system env).finish p.state k a).2))
      (toDo p) := by
  have hf := h.slots.fresh
  have hths : ((system env).finish p.state k a).2 = (p.state.memory.after env k a).2 := rfl
  have none_arrives : (((system env).finish p.state k a).2.map arrivedWeight).sum = 0 := by
    refine List.sum_eq_zero fun w hw => ?_
    obtain ⟨th, hth, rfl⟩ := List.mem_map.mp hw
    simp [arrivedWeight, (after_ranks (Q := ∅) (hths ▸ hth)).1]
  cases hk : k.arrived with
  | true =>
    refine .left _ _ (Pool.didEnd_lowers hf ht (b := .ret a) (by simp [arrivedWeight, hk]) ?_)
    rw [none_arrives]
    exact fun _ hb => absurd hb (Multiset.notMem_zero _)
  | false =>
    have same : (p.didEnd t k a ((system env).finish p.state k a).1
        ((system env).finish p.state k a).2).sum arrivedWeight = p.sum arrivedWeight := by
      have hs := Pool.didEnd_sum arrivedWeight hf ht ((system env).finish p.state k a).1
        ((system env).finish p.state k a).2
      rw [none_arrives] at hs
      simpa [arrivedWeight, hk] using hs
    have hq : ((system env).finish p.state k a).1.queued = p.state.queued := rfl
    rw [Less, toDo, toDo, same, Pool.didEnd_state, hq]
    refine .right _ (.right _ (Pool.didEnd_lowers hf ht (b := (rank p.state.queued ⟨k, .ret a⟩, .ret a))
      (by simp [ownWeight, hk]) fun w hw => ?_))
    obtain ⟨th, hth, hw⟩ := mem_bags hw
    obtain ⟨harr, hrank⟩ := after_ranks (Q := p.state.queued) (hths ▸ hth)
    obtain rfl : w = (rank p.state.queued th, th.prog) := by simpa [ownWeight, harr] using hw
    exact .left _ _ (hrank.resolve_left (by simp [hk]))

theorem Shaped.less (h : Shaped env p) {l : DownloadLabel} (hl : l.Inner)
    (hst : (system env).step p l = some p') : Less (toDo p') (toDo p) := by
  rcases (system env).step_cases hst with
    ⟨t, k, o, rest, c, r, s, ths, -, ht, he, rfl⟩ | ⟨t, k, a, -, ht, rfl⟩ |
    ⟨x, s, dies, ths, rfl, -, -⟩
  · exact h.exec_less ht he
  · exact h.finish_less ht
  · exact hl.elim

/-- Without arrivals, every run comes to an end. -/
theorem Shaped.ends (h : Shaped env p) : (system env).Ends (fun _ l => l.Inner) p :=
  (system env).ends_of_lower less_wf toDo (fun _ _ _ h _ hst => h.step hst)
    (fun _ _ _ h hl hst => h.less hl hst) h

end

/-- Every ticket is settled or its write is under way, and waits for earlier ones only. -/
structure Ticketed (env : Env) (p : DownloadPool) : Prop where
  slots : SlotsKept env p
  known : ∀ id z, p.state.memory.progressWrites id = some z → z < p.state.memory.tickets
  issued : ∀ t x, p.kindAt t = some (.progress x) → x < p.state.memory.tickets
  pending : ∀ z < p.state.memory.tickets, p.state.memory.settled z = true ∨
    ∃ t, p.kindAt t = some (.progress z)
  behind : p.Each fun th => ∀ x, th.kind = .progress x → th.prog.Uses fun o => ∀ z, o = .settle z → z < x

/-- Only tickets that have been issued are waited for. -/
def waits : Ledger State Task Op Reply Arrival Result where
  admits _ _ w e := w.state.memory.tickets ≤ e.after.memory.tickets
  may _ _ w o r s := (∃ c, call w.state o c = (r, s)) ∧
    ∀ id z, w.state.memory.progressWrites id = some z → z < w.state.memory.tickets
  guar _ _ w o _ _ := ∀ z, o = .settle z → z < w.state.memory.tickets
  post _ _ _ _ := True

abbrev waitContract (t : Nat) (k : Task) : Contract DownloadWorld Op Reply :=
  waits.discipline.contract t k

def Stage.waitsFor : Stage → Option Nat
  | .awaiting _ z => some z
  | _ => none

/-- At the stage `s` the worker waits for a ticket that has been issued, if for any. -/
def Stage.Issued (s : Stage) (w : DownloadWorld) : Prop :=
  ∀ z, s.waitsFor = some z → z < w.state.memory.tickets

section
variable {env : Env} {p p' : DownloadPool} {t : Nat} {k : Task} {s s' : State} {o : Op} {c : Choice}
  {r : Reply o} {w w' : DownloadWorld}

/-- A call issues a ticket and starts its write, or leaves the tickets and forgets at most some. -/
theorem call_tickets (hc : call s o c = (r, s')) :
    (∃ id index n total, o = .report id index n total ∧
      reported s c o = [⟨.progress s.memory.tickets,
        (persistProgress (s.memory.progressWrites id) id index n total).program⟩] ∧
      s'.memory.tickets = s.memory.tickets + 1 ∧ s'.memory.progressWrites =
        Function.update s.memory.progressWrites id (some s.memory.tickets)) ∨
    (reported s c o = [] ∧ s'.memory.tickets = s.memory.tickets ∧
      ∀ id, s'.memory.progressWrites id = s.memory.progressWrites id ∨ s'.memory.progressWrites id = none) := by
  obtain rfl : (call s o c).2 = s' := congrArg Prod.snd hc
  by_cases hr : ∃ id index n total, o = .report id index n total
  · obtain ⟨id, index, n, total, rfl⟩ := hr
    rw [call_total rfl]
    simp only [perform, reported]
    by_cases ht : c.throttled = true
    · simp [ht]
    · simp [ht]
  have quiet : reported s c o = [] := by
    cases o <;> first | rfl | exact absurd ⟨_, _, _, _, rfl⟩ hr
  refine .inr ⟨quiet, ?_⟩
  by_cases hf : ∃ id, o = .forgetProgress id
  · obtain ⟨id, rfl⟩ := hf
    rw [call_total rfl]
    refine ⟨rfl, fun id' => ?_⟩
    by_cases e : id' = id
    · subst e
      exact .inr (Function.update_self ..)
    · exact .inl (Function.update_of_ne e _ _)
  · rw [call_memory c (fun id index n total e => hr ⟨id, index, n, total, e⟩) fun id e => hf ⟨id, e⟩]
    exact ⟨rfl, fun _ => .inl rfl⟩

theorem call_tickets_le (hc : call s o c = (r, s')) : s.memory.tickets ≤ s'.memory.tickets := by
  rcases call_tickets hc with ⟨id, index, n, total, -, -, hm, -⟩ | ⟨-, hm, -⟩
  · rw [hm]
    exact Nat.le_succ _
  · exact hm.ge

/-! #### The workers -/

theorem Stage.issued_stable (s : Stage) : (waitContract t k).Stable s.Issued := by
  intro w w' hr h
  refine History.rely_induct (fun v e hv _ _ hle => ?_) hr h
  exact fun z hz => Nat.lt_of_lt_of_le (hv z hz) hle

theorem Stage.issued_idle {s : Stage} (h : s.waitsFor = none) : s.Issued w := fun z hz => by
  rw [h] at hz
  cases hz

theorem Stage.onError_waitsFor (s : Stage) (e : Err) : (s.onError e).waitsFor = none := by
  cases s <;> rfl

theorem waits_outline (env : Env) (id c : Nat) :
    Outline (waitContract t k) env id c Stage.Issued where
  stable s := s.issued_stable
  silent h _ := Stage.issued_idle (by cases h <;> rfl)
  guar h hw _ := by
    rintro z rfl
    cases h
    exact hw z rfl
  ok {s o v s' w w'} h _ ha := by
    cases h with
    | chained b z =>
      rintro _ ⟨⟩
      obtain ⟨ch, hc⟩ := ha.2.1
      have hp := call_ok hc
      simp only [perform, Prod.mk.injEq, Except.ok.injEq] at hp
      rw [← hp.2]
      exact ha.2.2 id z hp.1
    | look s row hs => exact Stage.issued_idle (by cases s <;> first | rfl | cases hs)
    | tell s event hs => exact Stage.issued_idle (by cases s <;> first | rfl | cases hs)
    | _ => exact Stage.issued_idle rfl
  error {s o v s' w e w'} _ _ _ := Stage.issued_idle (s.onError_waitsFor e)
  fetch x destination probed := by
    refine Spot.fetch_does (Stage.issued_stable _) (fun o ho => ⟨fun w r w' _ _ z hz => ?_,
      fun _ _ _ _ _ => Stage.issued_idle rfl, fun _ _ _ _ _ => Stage.issued_idle rfl⟩)
      (fun _ _ _ => Stage.issued_idle rfl) fun _ _ _ => Stage.issued_idle rfl
    rcases ho with ho | ⟨n, total, rfl⟩
    · subst hz
      exact ho.1.elim
    · cases hz

/-! #### The other tasks -/

/-- A call that is no wait. -/
def Op.Prompt (o : Op) : Prop := ∀ z, o ≠ .settle z

theorem Op.reads.prompt {o : Op} (h : o.reads) : o.Prompt := by
  rintro z rfl
  exact h

theorem createDownload_prompt (postId : Nat) (seasons : List Str) :
    (createDownload env postId seasons).run.Uses Op.Prompt := by
  refine .except_bind (.invoke nofun) ?_
  rintro (_ | row)
  · refine .except_bind (.invoke nofun) fun post => ?_
    simp only
    split
    · trivial
    · exact .except_bind (.invoke nofun) fun _ => .invoke nofun
  · trivial

theorem deleteDownload_prompt (id : Nat) (deleteFiles : Bool) :
    (deleteDownload env id deleteFiles).run.Uses Op.Prompt := by
  have rest : (do
      op (.deleteDownload id)
      op (.publish (.deleted id)) : Flow Unit).run.Uses Op.Prompt :=
    .except_bind (.invoke nofun) fun _ => .invoke nofun
  refine .except_bind (getDownload_reads.mono fun _ => Op.reads.prompt) fun download => ?_
  split
  · trivial
  cases deleteFiles with
  | true =>
    refine .except_bind ((removeDownloadFiles_uses _ _).mono ?_) fun _ => rest
    rintro _ ⟨path, rfl⟩
    exact nofun
  | false => exact rest

/-- A request waits for no progress write. -/
theorem Request.prompt (request : Request) : (request.flow env).run.Uses Op.Prompt := by
  have look (id : Nat) : (getDownload id).run.Uses Op.Prompt := getDownload_reads.mono fun _ => Op.reads.prompt
  have show_row (id : Nat) : (do
      publishDownload id .progress
      let _ ← getDownload id : Flow Unit).run.Uses Op.Prompt :=
    .except_bind ((publishDownload_reads _).mono fun _ => Op.reads.prompt) fun _ =>
      .except_bind (look id) fun _ => trivial
  cases request with
  | create postId seasons => exact .tryCatch (createDownload_prompt postId seasons) fun _ => trivial
  | cancel id =>
    refine .except_bind (look id) fun download => ?_
    split
    · trivial
    split
    · exact .except_bind (.invoke nofun) fun _ => .except_bind (.invoke nofun) fun _ => show_row id
    · exact .except_bind (.invoke nofun) fun _ => show_row id
  | retry id =>
    refine .except_bind (look id) fun download => ?_
    split
    · trivial
    split
    · trivial
    · exact .except_bind (.invoke nofun) fun _ => show_row id
  | delete id deleteFiles => exact deleteDownload_prompt id deleteFiles

theorem drainProgram_prompt : drainProgram.Uses Op.Prompt := by
  refine .bind ?_ fun r => by cases r <;> trivial
  refine .except_bind (.invoke nofun) ?_
  rintro (_ | id)
  · trivial
  · refine .except_bind (.invoke nofun) fun n => ?_
    split <;> trivial

/-- A task starts without waits, except that a progress write waits for the one before it. -/
theorem wait_safe {th : DownloadThread} (h : Begins env th)
    (hp : ∀ x, th.kind = .progress x → th.prog.Uses (∀ z, · = .settle z → z < w.state.memory.tickets)) :
    waits.discipline.SafeThread t th w := by
  have prompt (hu : th.prog.Uses Op.Prompt) : waits.discipline.SafeThread t th w :=
    .of_uses (fun _ _ _ _ ho _ z hz => absurd hz (ho z)) hu
  cases h with
  | worker id c => exact ((waits_outline env id c).program_safe (Stage.issued_idle rfl)).mono fun _ _ _ => trivial
  | boot => exact prompt (.bind (.except_bind (.invoke nofun) fun _ => .invoke nofun) fun _ => trivial)
  | drain => exact prompt drainProgram_prompt
  | release => exact prompt trivial
  | wake => exact prompt trivial
  | request request => exact prompt (.bind request.prompt fun _ => trivial)
  | progress x id index n previous total =>
    let later : DownloadWorld → Prop := fun v => w.state.memory.tickets ≤ v.state.memory.tickets
    refine (Program.Safe.of_uses_keeping (φ := later) (fun v v' hr hv => ?_)
      (fun v o r v' ho hv ha => ⟨fun z hz => Nat.lt_of_lt_of_le (ho z hz) hv, ?_⟩)
      (hp x rfl) (Nat.le_refl _)).mono fun _ _ _ => trivial
    · exact History.rely_induct (φ := later) (fun _ _ hu _ _ hle => Nat.le_trans hu hle) hr hv
    · obtain ⟨ch, hc⟩ := ha.2.1
      exact Nat.le_trans hv (call_tickets_le hc)

/-! #### The tickets -/

/-- A progress write waits for the ticket before its own. -/
theorem persistProgress_behind {previous : Option Nat} {x : Nat} (h : ∀ z, previous = some z → z < x)
    (id index n : Nat) (total : Option Nat) :
    (persistProgress previous id index n total).program.Uses fun o => ∀ z, o = .settle z → z < x := by
  have publish : (publishDownload id .progress).run.Uses fun o => ∀ z, o = .settle z → z < x :=
    (publishDownload_reads _).mono fun o ho z hz => by
      subst hz
      exact ho.elim
  have write : (tryCatch (do
      op (.updateFile id index (.progress n total))
      recomputeTotals id
      publishDownload id .progress) fun _ => pure () : Flow Unit).run.Uses
        fun o => ∀ z, o = .settle z → z < x :=
    .tryCatch (.except_bind (.invoke nofun) fun _ => .except_bind
      (.except_bind (.invoke nofun) fun _ => .invoke nofun) fun _ => publish) fun _ => trivial
  refine .bind ?_ fun _ => trivial
  cases previous with
  | none => exact write
  | some z =>
    refine .except_bind (.invoke fun z' hz => ?_) fun _ => write
    cases hz
    exact h z rfl

theorem Ticketed.exec (h : Ticketed env p) {rest : Reply o → Program Op Reply Result}
    (ht : p.threads t = some ⟨k, .call o rest⟩) {ths : List DownloadThread}
    (he : (system env).exec p.state k o c = some (r, s, ths)) :
    Ticketed env (p.didCall t k o rest r s ths) := by
  have hslots : SlotsKept env (p.didCall t k o rest r s ths) := h.slots.exec ht he
  obtain ⟨-, hc, rfl⟩ := system_exec he
  have hf := h.slots.fresh
  have hset : s.memory.settled = p.state.memory.settled := by
    have := (call_same p.state o c).settled
    rwa [hc] at this
  have kinds (u : Nat) (x : Nat) : (p.didCall t k o rest r s (reported p.state c o)).kindAt u =
      some (.progress x) ↔ p.kindAt u = some (.progress x) ∨
        (p.next ≤ u ∧ (reported p.state c o)[u - p.next]?.map (·.kind) = some (.progress x)) := by
    rw [Pool.didCall_kindAt hf ht]
    by_cases hu : u < p.next
    · simp [hu]
    · have hnone : p.kindAt u = none := by simp [Pool.kindAt, hf u (by omega)]
      simp only [hu, if_false, hnone, reduceCtorEq, false_or]
      exact (and_iff_right (Nat.le_of_not_lt hu)).symm
  have old {q : List DownloadThread} {u : Nat} {th : DownloadThread}
      (hth : (p.didCall t k o rest r s q).threads u = some th) :
      (∃ th₀, p.threads u = some th₀ ∧ th₀.kind = th.kind ∧
        ∀ x, th₀.prog.Uses (fun o => ∀ z, o = .settle z → z < x) →
          th.prog.Uses fun o => ∀ z, o = .settle z → z < x) ∨ th ∈ q := by
    rw [Pool.didCall_threads hf ht] at hth
    split at hth
    · split at hth
      · cases hth
        subst u
        exact .inl ⟨_, ht, rfl, fun x hx => hx.2 r⟩
      · exact .inl ⟨th, hth, rfl, fun _ => id⟩
    · exact .inr (List.mem_of_getElem? hth)
  rcases call_tickets hc with ⟨id, index, n, total, rfl, hths, hn, hw⟩ | ⟨hths, hn, hw⟩
  · have hnext : p.state.memory.tickets < s.memory.tickets := by
      rw [hn]
      exact Nat.lt_succ_self _
    refine ⟨hslots, fun id' z hz => ?_, fun u x hu => ?_, fun z hz => ?_, fun u th hu x hx => ?_⟩
    · rw [Pool.didCall_state, hw] at hz
      rw [Pool.didCall_state]
      by_cases e : id' = id
      · subst e
        rw [Function.update_self] at hz
        cases hz
        exact hnext
      · rw [Function.update_of_ne e] at hz
        exact Nat.lt_trans (h.known id' z hz) hnext
    · rw [Pool.didCall_state]
      rcases (kinds u x).mp hu with hu | ⟨-, hu⟩
      · exact Nat.lt_trans (h.issued u x hu) hnext
      · obtain ⟨th, hth, hk⟩ := Option.map_eq_some_iff.mp hu
        rw [hths] at hth
        obtain rfl := List.mem_singleton.mp (List.mem_of_getElem? hth)
        cases hk
        exact hnext
    · rw [Pool.didCall_state] at hz ⊢
      rw [hset]
      rw [hn] at hz
      rcases Nat.lt_succ_iff_lt_or_eq.mp hz with hz | rfl
      · exact (h.pending z hz).imp_right (.imp fun u hu => (kinds u z).mpr (.inl hu))
      · refine .inr ⟨p.next, (kinds _ _).mpr (.inr ⟨Nat.le_refl _, ?_⟩)⟩
        simp [hths]
    · rcases old hu with ⟨th₀, hth₀, hk, hprog⟩ | hmem
      · exact hprog x (h.behind u th₀ hth₀ x (hk.trans hx))
      · rw [hths] at hmem
        obtain rfl := List.mem_singleton.mp hmem
        cases hx
        exact persistProgress_behind (h.known id) id index n total
  · rw [hths] at hslots kinds ⊢
    refine ⟨hslots, fun id z hz => ?_, fun u x hu => ?_, fun z hz => ?_, fun u th hu x hx => ?_⟩
    · rw [Pool.didCall_state] at hz ⊢
      rw [hn]
      rcases hw id with e | e
      · exact h.known id z (e ▸ hz)
      · rw [e] at hz
        cases hz
    · rw [Pool.didCall_state, hn]
      rcases (kinds u x).mp hu with hu | ⟨-, hu⟩
      · exact h.issued u x hu
      · cases hu
    · rw [Pool.didCall_state, hn] at hz
      rw [Pool.didCall_state, hset]
      exact (h.pending z hz).imp_right (.imp fun u hu => (kinds u z).mpr (.inl hu))
    · rcases old hu with ⟨th₀, hth₀, hk, hprog⟩ | hmem
      · exact hprog x (h.behind u th₀ hth₀ x (hk.trans hx))
      · exact absurd hmem List.not_mem_nil

theorem Ticketed.finish (h : Ticketed env p) {a : Result} (ht : p.threads t = some ⟨k, .ret a⟩) :
    Ticketed env (p.didEnd t k a ((system env).finish p.state k a).1
      ((system env).finish p.state k a).2) := by
  have hslots := h.slots.finish ht
  have hf := h.slots.fresh
  obtain ⟨hnew, hm⟩ := after_chains env p.state.memory k a
  have hmem : ((system env).finish p.state k a).1.memory = (p.state.memory.after env k a).1 := rfl
  have hths : ((system env).finish p.state k a).2 = (p.state.memory.after env k a).2 := rfl
  have left {u x : Nat} (hu : (p.didEnd t k a ((system env).finish p.state k a).1
      ((system env).finish p.state k a).2).kindAt u = some (.progress x)) :
      p.kindAt u = some (.progress x) := by
    rw [Pool.didEnd_kindAt hf ht] at hu
    split at hu
    · split at hu
      · cases hu
      · exact hu
    · obtain ⟨th, hth, hk⟩ := Option.map_eq_some_iff.mp hu
      exact absurd hk (hnew th (hths ▸ List.mem_of_getElem? hth) x)
  have stays {u x : Nat} (hu : p.kindAt u = some (.progress x)) (hne : u ≠ t) :
      (p.didEnd t k a ((system env).finish p.state k a).1
        ((system env).finish p.state k a).2).kindAt u = some (.progress x) := by
    rw [Pool.didEnd_kindAt hf ht, if_pos (Pool.kindAt_lt hf hu), if_neg hne, hu]
  have hbehind : (p.didEnd t k a ((system env).finish p.state k a).1
      ((system env).finish p.state k a).2).Each fun th => ∀ x, th.kind = .progress x →
        th.prog.Uses fun o => ∀ z, o = .settle z → z < x := by
    intro u th hu x hx
    rcases left_or_new h.slots ht hu with ⟨-, hu⟩ | ⟨-, hu⟩
    · exact h.behind u th hu x hx
    · exact absurd hx (hnew th (hths ▸ List.mem_of_getElem? hu) x)
  rcases hm with ⟨rfl, hm⟩ | ⟨x, rfl, hm⟩ | ⟨hk, hn, hs, hw⟩
  · -- nothing has been issued before a boot is over
    have hzero : ((system env).finish p.state .boot a).1.memory = {} := hm
    refine ⟨hslots, fun id z hz => ?_, fun u x hu => ?_, fun z hz => ?_, hbehind⟩
    · rw [Pool.didEnd_state, hzero] at hz
      cases hz
    · have hu := left hu
      have hboot := (h.slots.slots.boot t _ (kindAt_of ht)).mp rfl
      cases (h.slots.slots.boot u _ hu).mpr hboot
    · rw [Pool.didEnd_state, hzero] at hz
      exact absurd hz (Nat.not_lt_zero z)
  · refine ⟨hslots, fun id z hz => ?_, fun u y hu => ?_, fun z hz => ?_, hbehind⟩
    · rw [Pool.didEnd_state, hmem, hm] at hz ⊢
      exact h.known id z hz
    · rw [Pool.didEnd_state, hmem, hm]
      exact h.issued u y (left hu)
    · rw [Pool.didEnd_state, hmem, hm] at hz ⊢
      by_cases e : z = x
      · subst e
        exact .inl (Function.update_self ..)
      · refine (h.pending z hz).imp (fun hs => ?_) (.imp fun u hu => stays hu ?_)
        · exact (Function.update_of_ne e _ _).trans hs
        · rintro rfl
          rw [kindAt_of ht] at hu
          cases hu
          exact e rfl
  · refine ⟨hslots, fun id z hz => ?_, fun u y hu => ?_, fun z hz => ?_, hbehind⟩
    · rw [Pool.didEnd_state, hmem] at hz ⊢
      rw [hn]
      rcases hw id with e | ⟨-, e⟩
      · exact h.known id z (e ▸ hz)
      · rw [e] at hz
        cases hz
    · rw [Pool.didEnd_state, hmem, hn]
      exact h.issued u y (left hu)
    · rw [Pool.didEnd_state, hmem] at hz ⊢
      rw [hn] at hz
      rw [hs]
      refine (h.pending z hz).imp_right (.imp fun u hu => stays hu ?_)
      rintro rfl
      rw [kindAt_of ht] at hu
      cases hu
      exact hk z rfl

theorem Ticketed.external (h : Ticketed env p) {x : Arrival} {dies : Bool} {ths : List DownloadThread}
    (he : (system env).external p.state x = some (s, dies, ths)) :
    Ticketed env (p.didOuter x s dies ths) := by
  have hslots : SlotsKept env (p.didOuter x s dies ths) :=
    h.slots.step (l := .external x) (by simp [System.step, he])
  have hf := h.slots.fresh
  have kinds {u z : Nat} (hu : (p.didOuter x s dies ths).kindAt u = some (.progress z)) :
      dies = false ∧ p.kindAt u = some (.progress z) := by
    rw [Pool.didOuter_kindAt hf] at hu
    split at hu
    · cases dies with
      | true => cases hu
      | false => exact ⟨rfl, hu⟩
    · obtain ⟨th, hth, hk⟩ := Option.map_eq_some_iff.mp hu
      obtain ⟨r, rfl⟩ | rfl := (arrives he).spawned (List.mem_of_getElem? hth) <;> cases hk
  have hbehind : (p.didOuter x s dies ths).Each fun th => ∀ z, th.kind = .progress z →
      th.prog.Uses fun o => ∀ y, o = .settle y → y < z := by
    intro u th hu z hz
    rw [Pool.didOuter_threads hf] at hu
    split at hu
    · cases dies with
      | true => cases hu
      | false => exact h.behind u th hu z hz
    · obtain ⟨r, rfl⟩ | rfl := (arrives he).spawned (List.mem_of_getElem? hu) <;> cases hz
  -- the tickets stay with the threads, or both are gone
  have same (hd : dies = false) (hn : s.memory.tickets = p.state.memory.tickets)
      (hs : s.memory.settled = p.state.memory.settled)
      (hw : s.memory.progressWrites = p.state.memory.progressWrites) :
      Ticketed env (p.didOuter x s dies ths) := by
    subst hd
    refine ⟨hslots, fun id z hz => ?_, fun u z hu => ?_, fun z hz => ?_, hbehind⟩
    · rw [Pool.didOuter_state, hw] at hz
      rw [Pool.didOuter_state, hn]
      exact h.known id z hz
    · rw [Pool.didOuter_state, hn]
      exact h.issued u z (kinds hu).2
    · rw [Pool.didOuter_state, hn] at hz
      rw [Pool.didOuter_state, hs]
      refine (h.pending z hz).imp_right (.imp fun u hu => ?_)
      rw [Pool.didOuter_kindAt hf, if_pos (Pool.kindAt_lt hf hu)]
      exact hu
  have afresh (hn : s.memory.tickets = 0) (hw : ∀ id, s.memory.progressWrites id = none)
      (hnone : ∀ u z, dies = false → p.kindAt u ≠ some (.progress z)) :
      Ticketed env (p.didOuter x s dies ths) := by
    refine ⟨hslots, fun id z hz => ?_, fun u z hu => ?_, fun z hz => ?_, hbehind⟩
    · rw [Pool.didOuter_state, hw] at hz
      cases hz
    · exact absurd (kinds hu).2 (hnone u z (kinds hu).1)
    · rw [Pool.didOuter_state, hn] at hz
      exact absurd hz (Nat.not_lt_zero z)
  cases arrives he with
  | request r hp => exact same rfl rfl rfl rfl
  | shutdown hp =>
    have rest := shutdown_eq p.state.memory
    exact same rfl (congrArg Memory.tickets rest :) (congrArg Memory.settled rest :)
      (congrArg Memory.progressWrites rest :)
  | crash hp => exact afresh rfl (fun _ => rfl) fun _ _ hd => by cases hd
  | boot hp => exact afresh rfl (fun _ => rfl) fun u z _ hu => h.slots.slots.down u _ hu hp

end

theorem waits_keeps (env : Env) : waits.Keeps (system env) (fun _ _ => True) (Ticketed env) where
  may h _ _ he := ⟨⟨_, (system_exec he).2.1⟩, h.known⟩
  exec {p t k o rest c r s ths} h _ ht he _ := by
    have hnext := h.exec ht he
    refine ⟨hnext, fun _ _ _ _ => call_tickets_le (system_exec he).2.1, fun th hth t _ => ?_⟩
    refine wait_safe ((system_begins env).exec he th hth) fun x hx => ?_
    obtain ⟨-, hc, rfl⟩ := system_exec he
    rcases call_tickets hc with ⟨id, index, n, total, rfl, hths, hn, -⟩ | ⟨hths, -⟩
    · rw [hths] at hth
      obtain rfl := List.mem_singleton.mp hth
      refine (persistProgress_behind (h.known id) id index n total).mono fun o ho z hz => ?_
      exact Nat.lt_of_lt_of_le (ho z hz) (call_tickets_le hc)
    · rw [hths] at hth
      exact absurd hth List.not_mem_nil
  finish {p t k a} h _ ht _ := by
    obtain ⟨hnew, hm⟩ := after_chains env p.state.memory k a
    refine ⟨h.finish ht, fun u th hne hu => ?_, fun th hth u _ => ?_⟩
    · show p.state.memory.tickets ≤ (p.state.memory.after env k a).1.tickets
      rcases hm with ⟨rfl, -⟩ | ⟨x, -, hm⟩ | ⟨-, hn, -⟩
      · have hboot := (h.slots.slots.boot t _ (kindAt_of ht)).mp rfl
        have hk := (h.slots.slots.boot u _ (kindAt_of hu)).mpr hboot
        exact absurd (h.slots.slots.bootOnce u t (hk ▸ kindAt_of hu) (kindAt_of ht)) hne
      · rw [hm]
      · exact hn.ge
    · exact wait_safe ((system_begins env).finish _ _ _ th hth) fun x hx => absurd hx (hnew th hth x)
  external {p x s dies ths} h _ he := by
    refine ⟨h.external he, fun u th hd hu => ?_, fun th hth u _ => ?_⟩
    · show p.state.memory.tickets ≤ s.memory.tickets
      cases arrives he with
      | request r hp => exact Nat.le_refl _
      | shutdown hp => exact (congrArg Memory.tickets (shutdown_eq p.state.memory)).ge
      | crash hp => cases hd
      | boot hp => exact absurd hp (h.slots.slots.down u _ (kindAt_of hu))
    · refine wait_safe ((system_begins env).external he th hth) fun x hx => ?_
      obtain ⟨r, rfl⟩ | rfl := (arrives he).spawned hth <;> cases hx

section
variable {env : Env} {p : DownloadPool} {t : Nat} {th : DownloadThread}

/-- Thread `u` can move, whatever its call is answered. -/
def Moves (env : Env) (p : DownloadPool) (u : Nat) : Prop :=
  ((system env).step p (.finish u)).isSome = true ∨ ∀ c, ((system env).step p (.exec u c)).isSome = true

/-- A thread that cannot move waits for a ticket that is not settled. -/
theorem moves_or_waits (env : Env) (ht : p.threads t = some th) : Moves env p t ∨
    ∃ z rest, th.prog = .call (.settle z) rest ∧ p.state.memory.settled z = false := by
  obtain ⟨k, prog⟩ := th
  cases prog with
  | ret a => exact .inl (.inl (by simp [System.step, ht]))
  | call o rest =>
    cases hb : blocked p.state o with
    | false => exact .inl (.inr fun c => by simp [System.step, ht, system, hb])
    | true =>
      cases o with
      | settle z => exact .inr ⟨z, rest, rfl, by simpa [blocked] using hb⟩
      | _ => cases hb

/-- The write behind a ticket can move, or one that it waits for. -/
theorem Ticketed.write_moves (h : Ticketed env p) {x : Nat} (ht : p.kindAt t = some (.progress x)) :
    ∃ u, Moves env p u := by
  induction x using Nat.strong_induction_on generalizing t with
  | _ x ih =>
    obtain ⟨prog, hth⟩ := exists_thread ht
    rcases moves_or_waits env hth with hm | ⟨z, rest, hprog, hz⟩
    · exact ⟨t, hm⟩
    · have hlt : z < x := by
        have hu := h.behind t _ hth x rfl
        rw [hprog] at hu
        exact hu.1 z rfl
      rcases h.pending z (Nat.lt_trans hlt (h.issued t x ht)) with hs | ⟨u, hu⟩
      · rw [hz] at hs
        cases hs
      · exact ih z hlt hu

/-- As long as there is a thread, one can move. -/
theorem Ticketed.moves (h : Ticketed env p) (hs : waits.discipline.AllSafe p)
    (ht : p.threads t = some th) : ∃ u, Moves env p u := by
  rcases moves_or_waits env ht with hm | ⟨z, rest, hprog, hz⟩
  · exact ⟨t, hm⟩
  have hsafe := hs t th ht
  rw [Discipline.SafeThread, hprog] at hsafe
  have hguar := (hsafe p.toWorld .refl (.ok ()) ⟨p.state, .did t th.kind (.settle z) (.ok ()) p.state p.state :: p.trace⟩
    ⟨rfl, ⟨{}, rfl⟩, h.known⟩).1
  rcases h.pending z (hguar z rfl) with hset | ⟨u, hu⟩
  · rw [hz] at hset
    cases hset
  · exact h.write_moves hu

theorem Ticketed.initial (env : Env) {s : State} (hs : s.Down) : Ticketed env (.initial s) where
  slots := .initial env hs
  known id z h := by
    have hm : (Pool.initial s : DownloadPool).state.memory = {} := hs
    rw [hm] at h
    cases h
  issued t x h := by cases h
  pending z h := by
    have hm : (Pool.initial s : DownloadPool).state.memory = {} := hs
    rw [hm] at h
    exact absurd h (Nat.not_lt_zero z)
  behind t th h := by cases h

end

/-- In every state of every run: without new arrivals the process comes to rest after finitely many
steps, whatever its calls are answered; and as long as there is a task, one of them can move, so that
it rests only when no task is left. -/
theorem comes_to_rest (env : Env) {s : State} (hs : s.Down) {p : DownloadPool}
    (hr : (system env).Runs (fun _ _ => True) (.initial s) p) :
    (system env).Ends (fun _ l => l.Inner) p ∧
    (∀ t th, p.threads t = some th → ∃ u, Moves env p u) ∧
    ∀ q, (system env).Runs (fun _ l => l.Inner) p q → (system env).Still (fun _ l => l.Inner) q →
      ∀ t, q.threads t = none := by
  have shaped : Shaped env p :=
    (system env).invariant (fun _ _ _ h _ hst => h.step hst) ⟨.initial env hs, fun t th ht => by cases ht⟩ hr
  have safe (q : DownloadPool) (hq : (system env).Runs (fun _ _ => True) (.initial s) q) :
      Ticketed env q ∧ waits.discipline.AllSafe q :=
    (waits_keeps env).keeps.safe (.initial env hs) (waits.discipline.allSafe_initial s) hq
  refine ⟨shaped.ends, fun t th ht => (safe p hr).1.moves (safe p hr).2 ht, fun q hq still t => ?_⟩
  cases ht : q.threads t with
  | none => rfl
  | some th =>
    obtain ⟨hI, hA⟩ := safe q (hr.trans (hq.mono _ fun _ _ _ => trivial))
    obtain ⟨u, hu⟩ := hI.moves hA ht
    exfalso
    rcases hu with hu | hu
    · obtain ⟨q', hst⟩ := Option.isSome_iff_exists.mp hu
      exact still q' ⟨.finish u, trivial, hst⟩
    · obtain ⟨q', hst⟩ := Option.isSome_iff_exists.mp (hu {})
      exact still q' ⟨.exec u {}, trivial, hst⟩

/-- The first boot, up to the start of the job: from there on the run ends without tasks. -/
theorem comes_to_rest_boot : ∃ p q, (system (.small 2)).Runs (fun _ _ => True) (.initial oneJob) p ∧
    live p = 1 ∧ (system (.small 2)).Runs (fun _ l => l.Inner) p q ∧ ∀ t, q.threads t = none := by
  have hrun : ((system (.small 2)).replay (fun _ _ => true) (.initial oneJob) bootUp).any
      (fun p => live p = 1) = true := by decide
  obtain ⟨p, hp, hn⟩ := Option.any_eq_true _ _ |>.mp hrun
  have hr := (system (.small 2)).replay_runs (C := fun _ _ => True) (fun _ _ _ => trivial) hp
  obtain ⟨hends, -, hall⟩ := comes_to_rest (.small 2) oneJob_down hr
  obtain ⟨q, hrest, hstill⟩ := hends.still
  exact ⟨p, q, hr, of_decide_eq_true hn, hrest, hall q hrest hstill⟩

end CircleFtp.Downloads
