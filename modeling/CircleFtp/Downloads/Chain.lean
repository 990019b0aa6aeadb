import CircleFtp.Downloads.Activation
import CircleFtp.Downloads.Completion

/-! The chain of progress writes of a job: each waits for the one before it, so that once the last
has settled none is left. -/
namespace CircleFtp.Downloads
open Concurrent Strings

def Op.CountedBy : Op → Task → Prop
  | .updateDownload id (.totals _ _), k => (∃ c, k = .worker id c) ∨ ∃ ticket, k = .progress ticket
  | .updateFile _ _ (.progress _ _), k => ∃ ticket, k = .progress ticket
  | .forgetProgress id, k => ∃ c, k = .worker id c
  | _, _ => True

/-- The calls that leave the counts and the chains alone. -/
def Op.calm : Op → Prop
  | .updateDownload _ (.totals _ _) | .updateFile _ _ _ | .forgetProgress _ => False
  | _ => True

theorem Op.calm.countedBy {o : Op} (h : o.calm) (k : Task) : o.CountedBy k := by
  cases o with
  | updateDownload id change => cases change <;> first | exact h.elim | trivial
  | updateFile => exact h.elim
  | forgetProgress => exact h.elim
  | _ => trivial

/-- The calls of a progress write. -/
def Op.Progresses (id index : Nat) : Op → Prop
  | .settle _ | .publish _ => True
  | .findDownload id' => id' = id
  | .updateFile id' index' (.progress _ _) => id' = id ∧ index' = index
  | .updateDownload id' (.totals _ _) => id' = id
  | _ => False

section
variable {env : Env} {id : Nat}

theorem persistProgress_progresses (previous : Option Nat) (index bytes : Nat) (total : Option Nat) :
    (persistProgress previous id index bytes total).program.Uses (Op.Progresses id index) := by
  have publish : (publishDownload id .progress).run.Uses (Op.Progresses id index) := by
    refine .except_bind (.invoke rfl) ?_
    rintro (_ | row)
    · trivial
    · exact .invoke trivial
  have write : (tryCatch (do
      op (.updateFile id index (.progress bytes total))
      recomputeTotals id
      publishDownload id .progress) fun _ => pure () : Flow Unit).run.Uses (Op.Progresses id index) :=
    .tryCatch (.except_bind (.invoke ⟨rfl, rfl⟩) fun _ => .except_bind
      (.except_bind (.invoke rfl) fun _ => .invoke rfl) fun _ => publish) fun _ => trivial
  refine .bind ?_ fun _ => trivial
  cases previous with
  | none => exact write
  | some ticket => exact .except_bind (.invoke trivial) fun _ => write

/-- Behind another one, a progress write starts with the wait for it. -/
theorem persistProgress_waits (id ticket index bytes : Nat) (total : Option Nat) :
    ∃ rest, (persistProgress (some ticket) id index bytes total).program = .call (.settle ticket) rest :=
  ⟨_, rfl⟩

theorem publishDownload_calm (event : Nat → Download → ServerEvent) :
    (publishDownload id event).run.Uses Op.calm :=
  (publishDownload_reads event).mono fun o h => by cases o <;> first | exact h.elim | trivial

theorem getDownload_calm : (getDownload id).run.Uses Op.calm := by
  refine .except_bind (.invoke trivial) ?_
  rintro (_ | row) <;> trivial

theorem createDownload_calm (postId : Nat) (seasons : List Str) :
    (createDownload env postId seasons).run.Uses Op.calm := by
  refine .except_bind (.invoke trivial) ?_
  rintro (_ | row)
  · refine .except_bind (.invoke trivial) fun post => ?_
    simp only
    split
    · trivial
    · exact .except_bind (.invoke trivial) fun _ => .invoke trivial
  · trivial

theorem requestCancel_calm : (requestCancel id).run.Uses Op.calm := by
  have rest : (do
      publishDownload id .progress
      let _ ← getDownload id : Flow Unit).run.Uses Op.calm :=
    .except_bind (publishDownload_calm _) fun _ => .except_bind getDownload_calm fun _ => trivial
  refine .except_bind getDownload_calm fun download => ?_
  split
  · trivial
  split
  · exact .except_bind (.invoke trivial) fun _ => .except_bind (.invoke trivial) fun _ => rest
  · exact .except_bind (.invoke trivial) fun _ => rest

theorem retryDownload_calm : (retryDownload id).run.Uses Op.calm := by
  refine .except_bind getDownload_calm fun download => ?_
  split
  · trivial
  split
  · trivial
  · exact .except_bind (.invoke trivial) fun _ => .except_bind (publishDownload_calm _) fun _ =>
      .except_bind getDownload_calm fun _ => trivial

theorem deleteDownload_calm (deleteFiles : Bool) :
    (deleteDownload env id deleteFiles).run.Uses Op.calm := by
  have rest : (do
      op (.deleteDownload id)
      op (.publish (.deleted id)) : Flow Unit).run.Uses Op.calm :=
    .except_bind (.invoke trivial) fun _ => .invoke trivial
  refine .except_bind getDownload_calm fun download => ?_
  split
  · trivial
  cases deleteFiles with
  | true =>
    refine .except_bind ((removeDownloadFiles_uses _ _).mono ?_) fun _ => rest
    rintro _ ⟨path, rfl⟩
    trivial
  | false => exact rest

theorem Request.calm (r : Request) : (r.flow env).run.Uses Op.calm := by
  cases r with
  | create postId seasons => exact .tryCatch (createDownload_calm postId seasons) fun _ => trivial
  | cancel id => exact requestCancel_calm
  | retry id => exact retryDownload_calm
  | delete id deleteFiles => exact deleteDownload_calm deleteFiles

theorem drainProgram_calm : drainProgram.Uses Op.calm := by
  refine .bind ?_ fun r => by cases r <;> trivial
  refine .except_bind (.invoke trivial) ?_
  rintro (_ | id)
  · trivial
  · refine .except_bind (.invoke trivial) fun n => ?_
    split <;> trivial

/-- Only workers and progress writes touch the counts. -/
theorem Begins.counted {th : DownloadThread} (h : Begins env th) (hw : ∀ id c, th.kind ≠ .worker id c) :
    th.prog.Uses (Op.CountedBy · th.kind) := by
  have calm (hc : th.prog.Uses Op.calm) : th.prog.Uses (Op.CountedBy · th.kind) :=
    hc.mono fun o ho => ho.countedBy th.kind
  cases h with
  | boot => exact calm (.bind (.except_bind (.invoke trivial) fun _ => .invoke trivial) fun _ => trivial)
  | drain => exact calm drainProgram_calm
  | worker id c => exact absurd rfl (hw id c)
  | release => trivial
  | wake => trivial
  | request r => exact calm (.bind r.calm fun _ => trivial)
  | progress ticket id index bytes previous total =>
    refine (persistProgress_progresses previous index bytes total).mono fun o ho => ?_
    cases o with
    | updateDownload id change => cases change <;> first | exact .inr ⟨ticket, rfl⟩ | trivial
    | updateFile id index change => cases change <;> first | exact ⟨ticket, rfl⟩ | trivial
    | forgetProgress => exact ho.elim
    | _ => trivial

end

/-- No progress write of the job is outstanding. -/
def Settled (s : State) (id : Nat) : Prop :=
  ∀ ticket, s.memory.progressWrites id = some ticket → s.memory.settled ticket = true

instance (s : State) (id : Nat) : Decidable (Settled s id) :=
  decidable_of_iff ((s.memory.progressWrites id).all s.memory.settled = true) (by
    simp [Settled, Option.all_eq_true])

/-- The download is there and has been completed. -/
def Finished (s : State) (id : Nat) : Prop :=
  ∃ d, s.downloads.rows id = some d ∧ d.status = .COMPLETED

/-- The tickets of the progress writes, `owner` being the file that each is about. -/
structure Chain (owner : Nat → Nat × Nat) (p : DownloadPool) : Prop where
  issued : ∀ t x prog, p.threads t = some ⟨.progress x, prog⟩ → x < p.state.memory.tickets
  once : ∀ t t' x prog prog', p.threads t = some ⟨.progress x, prog⟩ →
    p.threads t' = some ⟨.progress x, prog'⟩ → t = t'
  writes : ∀ t x prog, p.threads t = some ⟨.progress x, prog⟩ →
    prog.Uses (Op.Progresses (owner x).1 (owner x).2)
  last : ∀ t x prog, p.threads t = some ⟨.progress x, prog⟩ →
    ∃ y, p.state.memory.progressWrites (owner x).1 = some y ∧ x ≤ y
  top : ∀ id y, p.state.memory.progressWrites id = some y → y < p.state.memory.tickets ∧ (owner y).1 = id
  waits : ∀ t t' x y prog prog', p.threads t = some ⟨.progress x, prog⟩ →
    p.threads t' = some ⟨.progress y, prog'⟩ → (owner x).1 = (owner y).1 → x < y →
    ∃ z rest, prog' = .call (.settle z) rest ∧ x ≤ z ∧ z < y ∧ (owner z).1 = (owner x).1
  gone : ∀ z, p.state.memory.settled z = true → z < p.state.memory.tickets ∧
    ∀ t x prog, p.threads t = some ⟨.progress x, prog⟩ → (owner x).1 = (owner z).1 → z < x
  target : ∀ t x prog, p.threads t = some ⟨.progress x, prog⟩ →
    ¬ Completed p.state (owner x).1 (owner x).2
  unfinished : ∀ id, p.state.memory.progressWrites id ≠ none → ¬ Finished p.state id

section
variable {env : Env} {owner : Nat → Nat × Nat} {p p' : DownloadPool} {id t : Nat} {k : Task}

/-- With the last one settled, no progress write of the job is left. -/
theorem Chain.idle (h : Chain owner p) (hs : Settled p.state id) {x : Nat}
    {prog : Program Op Reply Result} (ht : p.threads t = some ⟨.progress x, prog⟩) :
    (owner x).1 ≠ id := by
  rintro rfl
  obtain ⟨y, hy, hxy⟩ := h.last t x prog ht
  have hyx := (h.gone y (hs y hy)).2 t x prog ht (h.top _ y hy).2.symm
  omega

/-- Without progress writes. -/
theorem Chain.empty (ht : ∀ t x prog, p.threads t ≠ some ⟨.progress x, prog⟩)
    (hw : ∀ id, p.state.memory.progressWrites id = none)
    (hs : ∀ z, p.state.memory.settled z = false) : Chain owner p where
  issued t x prog h := absurd h (ht t x prog)
  once t _ x prog _ h := absurd h (ht t x prog)
  writes t x prog h := absurd h (ht t x prog)
  last t x prog h := absurd h (ht t x prog)
  top id y h := by simp [hw] at h
  waits t _ x _ prog _ h := absurd h (ht t x prog)
  gone z h := by simp [hs] at h
  target t x prog h := absurd h (ht t x prog)
  unfinished id h := absurd (hw id) h

/-- With fewer progress writes, and chains forgotten only when they have settled. -/
theorem Chain.mono (h : Chain owner p)
    (ht : ∀ t x prog, p'.threads t = some ⟨.progress x, prog⟩ → p.threads t = some ⟨.progress x, prog⟩)
    (hn : p'.state.memory.tickets = p.state.memory.tickets)
    (hs : p'.state.memory.settled = p.state.memory.settled)
    (hw : ∀ id, p'.state.memory.progressWrites id = p.state.memory.progressWrites id ∨
      (p'.state.memory.progressWrites id = none ∧ Settled p.state id))
    (hc : ∀ t x prog, p'.threads t = some ⟨.progress x, prog⟩ →
      Completed p'.state (owner x).1 (owner x).2 → Completed p.state (owner x).1 (owner x).2)
    (hf : ∀ id, p'.state.memory.progressWrites id ≠ none → Finished p'.state id → Finished p.state id) :
    Chain owner p' := by
  have old {id y : Nat} (hy : p'.state.memory.progressWrites id = some y) :
      p.state.memory.progressWrites id = some y := by
    rcases hw id with e | ⟨e, -⟩
    · rw [← e, hy]
    · rw [hy] at e
      cases e
  exact {
    issued := fun t x prog h' => hn ▸ h.issued t x prog (ht _ _ _ h')
    once := fun t t' x prog prog' h₁ h₂ => h.once t t' x prog prog' (ht _ _ _ h₁) (ht _ _ _ h₂)
    writes := fun t x prog h' => h.writes t x prog (ht _ _ _ h')
    last := fun t x prog h' => by
      rcases hw (owner x).1 with e | ⟨-, hsettled⟩
      · rw [e]
        exact h.last t x prog (ht _ _ _ h')
      · exact absurd rfl (h.idle hsettled (ht _ _ _ h'))
    top := fun id y hy => hn ▸ h.top id y (old hy)
    waits := fun t t' x y prog prog' h₁ h₂ => h.waits t t' x y prog prog' (ht _ _ _ h₁) (ht _ _ _ h₂)
    gone := fun z hz => by
      rw [hs] at hz
      rw [hn]
      exact ⟨(h.gone z hz).1, fun t x prog h' => (h.gone z hz).2 t x prog (ht _ _ _ h')⟩
    target := fun t x prog h' hd => h.target t x prog (ht _ _ _ h') (hc t x prog h' hd)
    unfinished := fun id hne hd => by
      obtain ⟨y, hy⟩ := Option.ne_none_iff_exists'.mp hne
      exact h.unfinished id (by rw [old hy]; exact Option.some_ne_none y) (hf id hne hd) }

/-- A progress write goes on. -/
theorem Chain.proceeds (h : Chain owner p) {x : Nat} {o : Op} {rest : Reply o → Program Op Reply Result}
    (ht : p.threads t = some ⟨.progress x, .call o rest⟩) (hb : blocked p.state o = false) {r : Reply o}
    (hn : ∀ u, p'.threads u = if u = t then some ⟨.progress x, rest r⟩ else p.threads u)
    (hm : p'.state.memory = p.state.memory)
    (hc : ∀ y, Completed p'.state (owner y).1 (owner y).2 → Completed p.state (owner y).1 (owner y).2)
    (hf : ∀ id, Finished p'.state id → Finished p.state id) : Chain owner p' := by
  -- the tickets are the same, and only the program of `x` is another one
  have old {u y : Nat} {prog : Program Op Reply Result} (hu : p'.threads u = some ⟨.progress y, prog⟩) :
      (u = t ∧ y = x ∧ prog = rest r) ∨ (u ≠ t ∧ p.threads u = some ⟨.progress y, prog⟩) := by
    rw [hn] at hu
    split at hu
    · cases hu
      exact .inl ⟨‹_›, rfl, rfl⟩
    · exact .inr ⟨‹_›, hu⟩
  have live {u y : Nat} {prog : Program Op Reply Result} (hu : p'.threads u = some ⟨.progress y, prog⟩) :
      ∃ prog, p.threads u = some ⟨.progress y, prog⟩ := by
    rcases old hu with ⟨rfl, rfl, -⟩ | ⟨-, hu⟩
    · exact ⟨_, ht⟩
    · exact ⟨_, hu⟩
  refine ⟨fun u y prog hu => ?_, fun u u' y prog prog' hu hu' => ?_, fun u y prog hu => ?_,
    fun u y prog hu => ?_, ?_, fun u u' y z prog prog' hu hu' hyz hlt => ?_, fun z hz => ?_,
    fun u y prog hu hd => ?_, ?_⟩
  · obtain ⟨prog, hu⟩ := live hu
    exact hm ▸ h.issued u y prog hu
  · obtain ⟨prog, hu⟩ := live hu
    obtain ⟨prog', hu'⟩ := live hu'
    exact h.once u u' y prog prog' hu hu'
  · rcases old hu with ⟨rfl, rfl, rfl⟩ | ⟨-, hu⟩
    · exact (h.writes u y _ ht).2 r
    · exact h.writes u y prog hu
  · obtain ⟨prog, hu⟩ := live hu
    exact hm ▸ h.last u y prog hu
  · exact hm ▸ h.top
  · obtain ⟨prog, hu⟩ := live hu
    rcases old hu' with ⟨rfl, rfl, rfl⟩ | ⟨-, hu'⟩
    · -- the wait of `x` is over, so there is nothing before it
      obtain ⟨w, rest', he, hyw, -, how⟩ := h.waits u u' y z _ _ hu ht hyz hlt
      cases he
      have hw : p.state.memory.settled w = true := by simpa [blocked] using hb
      have := (h.gone w hw).2 u y prog hu how.symm
      omega
    · exact h.waits u u' y z prog prog' hu hu' hyz hlt
  · rw [hm] at hz ⊢
    refine ⟨(h.gone z hz).1, fun u y prog hu => ?_⟩
    obtain ⟨prog, hu⟩ := live hu
    exact (h.gone z hz).2 u y prog hu
  · obtain ⟨prog, hu⟩ := live hu
    exact h.target u y prog hu (hc y hd)
  · exact hm ▸ fun id hne hd => h.unfinished id hne (hf id hd)

/-- A progress write ends and settles. -/
theorem Chain.settles (h : Chain owner p) {x : Nat} {a : Result}
    (ht : p.threads t = some ⟨.progress x, .ret a⟩)
    (hn : ∀ u y prog, p'.threads u = some ⟨.progress y, prog⟩ →
      u ≠ t ∧ p.threads u = some ⟨.progress y, prog⟩)
    (hs : p'.state = { p.state with memory := { p.state.memory with
      settled := Function.update p.state.memory.settled x true } }) : Chain owner p' := by
  have hsettled (z : Nat) (hz : p'.state.memory.settled z = true) :
      z = x ∨ p.state.memory.settled z = true := by
    rw [hs] at hz
    by_cases e : z = x
    · exact .inl e
    · exact .inr (by simpa [Function.update_of_ne e] using hz)
  refine ⟨fun u y prog hu => ?_, fun u u' y prog prog' hu hu' => h.once u u' y prog prog' (hn _ _ _ hu).2
    (hn _ _ _ hu').2, fun u y prog hu => h.writes u y prog (hn _ _ _ hu).2, fun u y prog hu => ?_, ?_,
    fun u u' y z prog prog' hu hu' => h.waits u u' y z prog prog' (hn _ _ _ hu).2 (hn _ _ _ hu').2,
    fun z hz => ?_, fun u y prog hu hd => ?_, ?_⟩
  · rw [hs]
    exact h.issued u y prog (hn _ _ _ hu).2
  · rw [hs]
    exact h.last u y prog (hn _ _ _ hu).2
  · rw [hs]
    exact h.top
  · have hticket : p'.state.memory.tickets = p.state.memory.tickets := by rw [hs]
    rw [hticket]
    rcases hsettled z hz with rfl | hz
    · refine ⟨h.issued t z _ ht, fun u y prog hu ho => ?_⟩
      obtain ⟨hne, hu⟩ := hn _ _ _ hu
      by_contra hle
      rcases Nat.lt_or_eq_of_le (Nat.le_of_not_lt hle) with hlt | rfl
      · obtain ⟨w, rest, he, -⟩ := h.waits u t y z prog _ hu ht ho hlt
        cases he
      · exact hne (h.once u t y _ _ hu ht)
    · exact ⟨(h.gone z hz).1, fun u y prog hu => (h.gone z hz).2 u y prog (hn _ _ _ hu).2⟩
  · refine h.target u y prog (hn _ _ _ hu).2 ?_
    rw [hs] at hd
    exact hd
  · rw [hs]
    exact h.unfinished

/-- A progress write is appended to the chain. -/
theorem Chain.append (h : Chain owner p) {index b n : Nat} {m : Option Nat}
    (hn : ∀ u x prog, p'.threads u = some ⟨.progress x, prog⟩ → p.threads u = some ⟨.progress x, prog⟩ ∨
      (u = n ∧ x = p.state.memory.tickets ∧ prog = (persistProgress (p.state.memory.progressWrites id) id
        index b m).program))
    (hs : p'.state = { p.state with memory := { p.state.memory with
      progressWrites := Function.update p.state.memory.progressWrites id (some p.state.memory.tickets)
      tickets := p.state.memory.tickets + 1 } })
    (hc : ¬ Completed p.state id index) (hf : ¬ Finished p.state id) :
    Chain (Function.update owner p.state.memory.tickets (id, index)) p' := by
  have hticket : p'.state.memory.tickets = p.state.memory.tickets + 1 := by rw [hs]
  have hsettled : p'.state.memory.settled = p.state.memory.settled := by rw [hs]
  have hwrites : p'.state.memory.progressWrites =
      Function.update p.state.memory.progressWrites id (some p.state.memory.tickets) := by rw [hs]
  have hrows : p'.state.downloads = p.state.downloads := by rw [hs]
  generalize hN : p.state.memory.tickets = N at hn hticket hwrites ⊢
  have same {x : Nat} (hx : x < N) : Function.update owner N (id, index) x = owner x :=
    Function.update_of_ne (Nat.ne_of_lt hx) _ _
  have new : Function.update owner N (id, index) N = (id, index) := Function.update_self ..
  have below {u x : Nat} {prog : Program Op Reply Result} (hu : p.threads u = some ⟨.progress x, prog⟩) :
      x < N := hN ▸ h.issued u x prog hu
  refine ⟨fun u x prog hu => ?_, fun u u' x prog prog' hu hu' => ?_, fun u x prog hu => ?_,
    fun u x prog hu => ?_, fun j y hy => ?_, fun u u' x y prog prog' hu hu' hxy hlt => ?_, fun z hz => ?_,
    fun u x prog hu hd => ?_, fun j hne hd => ?_⟩
  · rw [hticket]
    rcases hn u x prog hu with hu | ⟨-, rfl, -⟩
    · exact Nat.lt_succ_of_lt (below hu)
    · exact Nat.lt_succ_self _
  · rcases hn u x prog hu with hu | ⟨rfl, rfl, -⟩ <;> rcases hn u' x prog' hu' with hu' | ⟨rfl, e, -⟩
    · exact h.once u u' x prog prog' hu hu'
    · exact absurd e (Nat.ne_of_lt (below hu))
    · exact absurd (below hu') (Nat.lt_irrefl _)
    · rfl
  · rcases hn u x prog hu with hu | ⟨-, rfl, rfl⟩
    · rw [same (below hu)]
      exact h.writes u x prog hu
    · rw [new]
      exact persistProgress_progresses _ _ _ _
  · rw [hwrites]
    rcases hn u x prog hu with hu | ⟨-, rfl, -⟩
    · rw [same (below hu)]
      by_cases e : (owner x).1 = id
      · exact ⟨N, by rw [e, Function.update_self], Nat.le_of_lt (below hu)⟩
      · rw [Function.update_of_ne e]
        exact h.last u x prog hu
    · exact ⟨x, by rw [new, Function.update_self], Nat.le_refl _⟩
  · rw [hwrites] at hy
    rw [hticket]
    by_cases e : j = id
    · subst e
      rw [Function.update_self] at hy
      cases hy
      exact ⟨Nat.lt_succ_self _, by rw [new]⟩
    · rw [Function.update_of_ne e] at hy
      obtain ⟨hlt, ho⟩ := h.top j y hy
      rw [hN] at hlt
      exact ⟨Nat.lt_succ_of_lt hlt, by rw [same hlt, ho]⟩
  · rcases hn u x prog hu with hu | ⟨-, rfl, -⟩
    · rw [same (below hu)] at hxy ⊢
      rcases hn u' y prog' hu' with hu' | ⟨-, rfl, rfl⟩
      · rw [same (below hu')] at hxy
        obtain ⟨z, rest, he, hxz, hzy, ho⟩ := h.waits u u' x y prog prog' hu hu' hxy hlt
        exact ⟨z, rest, he, hxz, hzy, (congrArg Prod.fst (same (Nat.lt_trans hzy (below hu')))).trans ho⟩
      · rw [new] at hxy
        obtain ⟨z, hz, hxz⟩ := h.last u x prog hu
        rw [hxy] at hz
        obtain ⟨hlt', ho⟩ := h.top _ z hz
        obtain ⟨rest, he⟩ := persistProgress_waits id z index b m
        refine ⟨z, rest, by rw [hz, he], hxz, hN ▸ hlt', ?_⟩
        rw [same (hN ▸ hlt'), ho, hxy]
    · rcases hn u' y prog' hu' with hu' | ⟨-, rfl, -⟩
      · exact absurd (below hu') (Nat.not_lt_of_lt hlt)
      · exact absurd hlt (Nat.lt_irrefl _)
  · rw [hsettled] at hz
    rw [hticket]
    obtain ⟨hlt, hall⟩ := h.gone z hz
    rw [hN] at hlt
    refine ⟨Nat.lt_succ_of_lt hlt, fun u x prog hu ho => ?_⟩
    rcases hn u x prog hu with hu | ⟨-, rfl, -⟩
    · rw [same (below hu), same hlt] at ho
      exact hall u x prog hu ho
    · exact hlt
  · simp only [Completed, hrows] at hd
    rcases hn u x prog hu with hu | ⟨-, rfl, -⟩
    · rw [same (below hu)] at hd
      exact h.target u x prog hu hd
    · rw [new] at hd
      exact hc hd
  · simp only [Finished, hrows] at hd
    rw [hwrites] at hne
    by_cases e : j = id
    · exact hf (e ▸ hd)
    · rw [Function.update_of_ne e] at hne
      exact h.unfinished j hne hd

theorem call_memory {s : State} {o : Op} (c : Choice) (hr : ∀ id index n total, o ≠ .report id index n total)
    (hf : ∀ id, o ≠ .forgetProgress id) : (call s o c).2.memory = s.memory := by
  refine call_keep (φ := fun s' => s'.memory = s.memory) (fun c => ?_) rfl c
  cases o
  case report => exact absurd rfl (hr _ _ _ _)
  case forgetProgress => exact absurd rfl (hf _)
  all_goals
    simp only [perform, State.updateRow, State.updateFile, State.updateMany]
    repeat' split
    all_goals rfl

theorem call_progressWrites {s : State} {o : Op} (c : Choice) (hr : ∀ index n total, o ≠ .report id index n total)
    (hf : o ≠ .forgetProgress id) :
    (call s o c).2.memory.progressWrites id = s.memory.progressWrites id := by
  by_cases hreport : ∃ j index n total, o = .report j index n total
  · obtain ⟨j, index, n, total, rfl⟩ := hreport
    have hne : id ≠ j := fun e => hr index n total (by rw [e])
    rw [call_total rfl]
    simp only [perform]
    split
    · rfl
    · exact Function.update_of_ne hne _ _
  by_cases hforget : ∃ j, o = .forgetProgress j
  · obtain ⟨j, rfl⟩ := hforget
    rw [call_total rfl]
    exact Function.update_of_ne (fun e => hf (by rw [e])) _ _
  rw [call_memory c (fun j index n total e => hreport ⟨j, index, n, total, e⟩) fun j e => hforget ⟨j, e⟩]

/-- A call that goes through has not failed. -/
theorem call_ok_failure {s s' : State} {o : Op} {c : Choice} {a : Val o} (h : call s o c = (.ok a, s'))
    (ho : o.total = false) : c.failure = none := by
  simp only [call, ho, Bool.false_eq_true, if_false] at h
  split at h
  · cases h
  · assumption

/-- Only the end of its job completes a download. -/
theorem Finished.before {s s' : State} {o : Op} {c : Choice} {r : Reply o} (h : Finished s' id)
    (hc : call s o c = (r, s')) (hm : o.MadeBy k)
    (hf : ∀ error, o ≠ .updateDownload id (.finish .COMPLETED error)) : Finished s id := by
  obtain ⟨d', hd', hst⟩ := h
  cases hd : s.downloads.rows id with
  | none =>
    obtain ⟨rfl, -⟩ := call_new_row hc hd hd'
    obtain ⟨-, plan, hp⟩ := hm
    rw [hp] at hst
    cases hst
  | some d =>
    refine ⟨d, hd, ?_⟩
    rcases call_row hc hd with hsame | ⟨-, hrow⟩
    · rw [hd'] at hsame
      cases hsame
      exact hst
    rw [hd'] at hrow
    cases hrow with
    | update change =>
      cases change with
      | finish status error =>
        obtain rfl : status = .COMPLETED := hst
        exact absurd rfl (hf error)
      | totals => exact hst
      | requestCancel => exact hst
      | failed => cases hst
      | cancelQueued => cases hst
    | file => exact hst
    | cancelFiles => exact hst
    | resetFiles => exact hst
    | requeue => cases hst
    | claim => cases hst
    | requeueRunning => cases hst

/-- The threads after a call that starts none. -/
theorem didCall_alone (hs : SlotsKept env p) {o : Op} {rest : Reply o → Program Op Reply Result}
    (ht : p.threads t = some ⟨k, .call o rest⟩) (r : Reply o) (s : State) (u : Nat) :
    (p.didCall t k o rest r s []).threads u = if u = t then some ⟨k, rest r⟩ else p.threads u := by
  rw [Pool.didCall_threads hs.fresh ht]
  split
  · rfl
  · rename_i hge
    have hne : u ≠ t := fun e => hge (e ▸ hs.fresh.lt ht)
    rw [if_neg hne, hs.fresh u (Nat.le_of_not_lt hge), List.getElem?_nil]

theorem Chain.report (h : Chain owner p) (hs : SlotsKept env p) {index n : Nat} {total : Option Nat}
    {rest : Reply (.report id index n total) → Program Op Reply Result}
    (ht : p.threads t = some ⟨k, .call (.report id index n total) rest⟩) (hk : ∀ x, k ≠ .progress x)
    {c : Choice} {r : Reply (.report id index n total)} {s : State}
    (hc : call p.state (.report id index n total) c = (r, s))
    (hd : ¬ Completed p.state id index) (hf : ¬ Finished p.state id) :
    ∃ owner', Chain owner' (p.didCall t k (.report id index n total) rest r s
      (reported p.state c (.report id index n total))) := by
  have hcalled : (perform p.state c (.report id index n total)).2 = s := by
    rw [← call_total rfl, hc]
  by_cases hthr : c.throttled = true
  · have hsame : s = p.state := by
      rw [← hcalled]
      simp only [perform, hthr, if_true]
    have hnone : reported p.state c (.report id index n total) = [] := by
      simp only [reported, hthr, if_true]
    rw [hnone]
    refine ⟨owner, h.mono (fun u x prog hu => ?_) (by rw [Pool.didCall_state, hsame])
      (by rw [Pool.didCall_state, hsame]) (fun id => .inl (by rw [Pool.didCall_state, hsame]))
      (fun u x prog hu hd => by rwa [Pool.didCall_state, hsame] at hd)
      fun id hne hd => by rwa [Pool.didCall_state, hsame] at hd⟩
    rw [didCall_alone hs ht] at hu
    split at hu
    · cases hu
      exact absurd rfl (hk x)
    · exact hu
  · have hsame : s = { p.state with memory := { p.state.memory with
        progressWrites := Function.update p.state.memory.progressWrites id (some p.state.memory.tickets)
        tickets := p.state.memory.tickets + 1 } } := by
      rw [← hcalled]
      simp only [perform, hthr, Bool.false_eq_true, if_false]
    refine ⟨_, h.append (n := p.next) (b := n) (m := total) (fun u x prog hu => ?_)
      (by rw [Pool.didCall_state, hsame]) hd hf⟩
    rw [Pool.didCall_threads hs.fresh ht] at hu
    simp only [reported, hthr, Bool.false_eq_true, if_false] at hu
    split at hu
    · split at hu
      · cases hu
        exact absurd rfl (hk x)
      · exact .inl hu
    · rename_i hge
      by_cases e : u = p.next
      · subst e
        simp only [Nat.sub_self, List.getElem?_cons_zero, Option.some.injEq, Thread.mk.injEq,
          Task.progress.injEq] at hu
        exact .inr ⟨rfl, hu.1.symm, hu.2.symm⟩
      · rw [List.getElem?_eq_none (by simp only [List.length_singleton]; omega)] at hu
        cases hu

theorem Chain.progress (h : Chain owner p) (hs : SlotsKept env p) {x : Nat} {o : Op}
    {rest : Reply o → Program Op Reply Result} (ht : p.threads t = some ⟨.progress x, .call o rest⟩)
    (hb : blocked p.state o = false) {c : Choice} {r : Reply o} {s : State}
    (hc : call p.state o c = (r, s)) : Chain owner (p.didCall t (.progress x) o rest r s []) := by
  have hw := (h.writes t x _ ht).1
  have hmem : s.memory = p.state.memory := by
    obtain rfl : (call p.state o c).2 = s := congrArg Prod.snd hc
    refine call_memory c (fun id index n total e => ?_) fun id e => ?_ <;>
      · rw [e] at hw
        exact hw
  refine h.proceeds ht hb (didCall_alone hs ht r s) (by rw [Pool.didCall_state, hmem]) (fun y hd => ?_)
    fun id hd => ?_
  · rw [Pool.didCall_state] at hd
    refine hd.before hc (fun d e => ?_) fun bytes e => ?_ <;>
      · rw [e] at hw
        exact hw.elim
  · rw [Pool.didCall_state] at hd
    refine hd.before hc (hs.uses t _ ht).1 fun error e => ?_
    rw [e] at hw
    exact hw.elim

theorem Chain.exec (h : Chain owner p) (hs : SlotsKept env p) {o : Op}
    {rest : Reply o → Program Op Reply Result} (ht : p.threads t = some ⟨k, .call o rest⟩)
    {c : Choice} {r : Reply o} {s : State} {ths : List DownloadThread}
    (he : (system env).exec p.state k o c = some (r, s, ths))
    (hreport : ∀ id index n total, o = .report id index n total →
      ¬ Completed p.state id index ∧ ¬ Finished p.state id)
    (hforget : ∀ id, o = .forgetProgress id → Settled p.state id)
    (hcomplete : ∀ id index bytes, o = .updateFile id index (.complete bytes) → (∃ a, r = .ok a) →
      Settled p.state id)
    (hfinish : ∀ id error, o = .updateDownload id (.finish .COMPLETED error) →
      p.state.memory.progressWrites id = none) :
    ∃ owner', Chain owner' (p.didCall t k o rest r s ths) := by
  obtain ⟨hb, hc, rfl⟩ := system_exec he
  have made : o.MadeBy k := (hs.uses t _ ht).1
  by_cases hr : ∃ id index n total, o = .report id index n total
  · obtain ⟨id, index, n, total, rfl⟩ := hr
    obtain ⟨c', rfl⟩ := made
    obtain ⟨hd, hf⟩ := hreport id index n total rfl
    exact h.report hs ht (by simp) hc hd hf
  have hnone : reported p.state c o = [] := by
    cases o <;> try rfl
    exact absurd ⟨_, _, _, _, rfl⟩ hr
  rw [hnone]
  by_cases hx : ∃ x, k = .progress x
  · obtain ⟨x, rfl⟩ := hx
    exact ⟨owner, h.progress hs ht hb hc⟩
  have hold (u x : Nat) (prog : Program Op Reply Result)
      (hu : (p.didCall t k o rest r s []).threads u = some ⟨.progress x, prog⟩) :
      p.threads u = some ⟨.progress x, prog⟩ := by
    rw [didCall_alone hs ht] at hu
    split at hu
    · cases hu
      exact absurd ⟨x, rfl⟩ hx
    · exact hu
  have hcalled : (call p.state o c).2 = s := congrArg Prod.snd hc
  have hchain : s.memory.tickets = p.state.memory.tickets ∧ ∀ id,
      s.memory.progressWrites id = p.state.memory.progressWrites id ∨
        (s.memory.progressWrites id = none ∧ Settled p.state id) := by
    by_cases hfo : ∃ id, o = .forgetProgress id
    · obtain ⟨id, rfl⟩ := hfo
      rw [← hcalled, call_total rfl]
      refine ⟨rfl, fun j => ?_⟩
      by_cases e : j = id
      · subst e
        exact .inr ⟨Function.update_self .., hforget j rfl⟩
      · exact .inl (Function.update_of_ne e _ _)
    · have hmem : s.memory = p.state.memory := by
        rw [← hcalled]
        exact call_memory c (fun id index n total e => hr ⟨_, _, _, _, e⟩) fun id e => hfo ⟨id, e⟩
      exact ⟨by rw [hmem], fun id => .inl (by rw [hmem])⟩
  have hsettled : s.memory.settled = p.state.memory.settled := by
    rw [← hcalled]
    exact (call_same p.state o c).settled
  refine ⟨owner, h.mono hold (by rw [Pool.didCall_state, hchain.1]) (by rw [Pool.didCall_state, hsettled])
    (fun id => by rw [Pool.didCall_state]; exact hchain.2 id) (fun u x prog hu hd => ?_)
    fun id hne hd => ?_⟩
  · -- nothing that a progress write is about is completed meanwhile
    rw [Pool.didCall_state] at hd
    cases r with
    | error e => rwa [call_error hc] at hd
    | ok a =>
      refine hd.before hc (fun d ho => ?_) fun bytes ho => ?_
      · subst ho
        obtain ⟨-, plan, hp⟩ := made
        rw [hp]
        exact plannedRow_completed _ _ _
      · exact h.idle (hcomplete _ _ _ ho ⟨a, rfl⟩) (hold u x prog hu) rfl
  · rw [Pool.didCall_state] at hd hne
    refine hd.before hc made fun error ho => hne ?_
    rcases hchain.2 id with e | ⟨e, -⟩
    · rw [e, hfinish id error ho]
    · exact e

/-- What the end of a task does to the chains. -/
theorem after_chains (env : Env) (m : Memory) (k : Task) (a : Result) :
    (∀ th ∈ (m.after env k a).2, ∀ x, th.kind ≠ .progress x) ∧
    ((k = .boot ∧ (m.after env k a).1 = {}) ∨
      (∃ x, k = .progress x ∧
        (m.after env k a).1 = { m with settled := Function.update m.settled x true }) ∨
      ((∀ x, k ≠ .progress x) ∧ (m.after env k a).1.tickets = m.tickets ∧
        (m.after env k a).1.settled = m.settled ∧
        ∀ id, (m.after env k a).1.progressWrites id = m.progressWrites id ∨
          ((∃ c, k = .worker id c) ∧ (m.after env k a).1.progressWrites id = none))) := by
  have loop (m' : Memory) : (∀ th ∈ (m'.loop env).2, ∀ x, th.kind ≠ .progress x) ∧
      (m'.loop env).1.tickets = m'.tickets ∧ (m'.loop env).1.settled = m'.settled ∧
      (m'.loop env).1.progressWrites = m'.progressWrites := by
    rw [Memory.loop]
    split
    · refine ⟨fun th hth x => ?_, rfl, rfl, rfl⟩
      rw [List.mem_singleton.mp hth]
      simp
    · exact ⟨fun _ h => absurd h List.not_mem_nil, rfl, rfl, rfl⟩
  have wake (m' : Memory) : (∀ th ∈ (m'.wake env).2, ∀ x, th.kind ≠ .progress x) ∧
      (m'.wake env).1.tickets = m'.tickets ∧ (m'.wake env).1.settled = m'.settled ∧
      (m'.wake env).1.progressWrites = m'.progressWrites := by
    rw [Memory.wake]
    split
    · exact ⟨fun _ h => absurd h List.not_mem_nil, rfl, rfl, rfl⟩
    · exact loop _
  have one {k' : Task} {prog : Program Op Reply Result} (hk : ∀ x, k' ≠ .progress x) :
      ∀ th ∈ [(⟨k', prog⟩ : DownloadThread)], ∀ x, th.kind ≠ .progress x := fun th hth x => by
    rw [List.mem_singleton.mp hth]
    exact hk x
  have same {w : Memory} {ths : List DownloadThread}
      (h : (∀ th ∈ ths, ∀ x, th.kind ≠ .progress x) ∧ w.tickets = m.tickets ∧ w.settled = m.settled ∧
        w.progressWrites = m.progressWrites) (ha : m.after env k a = (w, ths))
      (hk : ∀ x, k ≠ .progress x) :
      (∀ th ∈ (m.after env k a).2, ∀ x, th.kind ≠ .progress x) ∧ (∀ x, k ≠ .progress x) ∧
        (m.after env k a).1.tickets = m.tickets ∧ (m.after env k a).1.settled = m.settled ∧
        ∀ id, (m.after env k a).1.progressWrites id = m.progressWrites id ∨
          ((∃ c, k = .worker id c) ∧ (m.after env k a).1.progressWrites id = none) := by
    rw [ha]
    exact ⟨h.1, hk, h.2.1, h.2.2.1, fun id => .inl (by rw [h.2.2.2])⟩
  have nothing : ∀ th ∈ ([] : List DownloadThread), ∀ x, th.kind ≠ .progress x :=
    fun _ h => absurd h List.not_mem_nil
  cases k with
  | boot =>
    rcases a with (e | _) | _ | _ | _
    case ended.ok =>
      have := same (wake { m with phase := .up }) rfl (by simp)
      exact ⟨this.1, .inr (.inr this.2)⟩
    all_goals exact ⟨nothing, .inl ⟨rfl, rfl⟩⟩
  | drain =>
    rcases a with _ | _ | _ | id
    case again =>
      have := same (loop m) rfl (by simp)
      exact ⟨this.1, .inr (.inr this.2)⟩
    case start =>
      have hl := loop (m.start env id).1
      refine ⟨fun th hth x => ?_, .inr (.inr ⟨by simp, hl.2.1, hl.2.2.1, fun j => .inl ?_⟩)⟩
      · rcases List.mem_cons.mp hth with rfl | hth
        · simp
        · exact hl.1 th hth x
      · exact congrFun hl.2.2.2 j
    all_goals
      have := same (w := { m with draining := false }) ⟨nothing, rfl, rfl, rfl⟩ rfl (by simp)
      exact ⟨this.1, .inr (.inr this.2)⟩
  | worker id c =>
    refine ⟨one (by simp), .inr (.inr ⟨by simp, rfl, rfl, fun j => ?_⟩)⟩
    by_cases e : j = id
    · subst e
      exact .inr ⟨⟨c, rfl⟩, Function.update_self ..⟩
    · exact .inl (Function.update_of_ne e _ _)
  | release => exact ⟨one (by simp), .inr (.inr ⟨by simp, rfl, rfl, fun _ => .inl rfl⟩)⟩
  | wake =>
    have := same (wake m) rfl (by simp)
    exact ⟨this.1, .inr (.inr this.2)⟩
  | progress x => exact ⟨nothing, .inr (.inl ⟨x, rfl, rfl⟩)⟩
  | request r =>
    suffices (∀ th ∈ (m.after env (.request r) a).2, ∀ x, th.kind ≠ .progress x) ∧
        (m.after env (.request r) a).1.tickets = m.tickets ∧
        (m.after env (.request r) a).1.settled = m.settled ∧
        (m.after env (.request r) a).1.progressWrites = m.progressWrites by
      exact ⟨this.1, .inr (.inr ⟨by simp, this.2.1, this.2.2.1, fun id => .inl (congrFun this.2.2.2 id)⟩)⟩
    rcases r with _ | id | id | _ <;> rcases a with (e | _) | _ | _ | _ <;>
      try first | exact wake m | exact ⟨nothing, rfl, rfl, rfl⟩
    -- what is left is a cancel that succeeded
    simp only [Memory.after, Memory.abortJob]
    split <;> exact ⟨nothing, rfl, rfl, rfl⟩

theorem Chain.finish (h : Chain owner p) (hs : SlotsKept env p) {a : Result}
    (ht : p.threads t = some ⟨k, .ret a⟩) (hw : ∀ id c, k = .worker id c → Settled p.state id) :
    Chain owner (p.didEnd t k a ((system env).finish p.state k a).1
      ((system env).finish p.state k a).2) := by
  obtain ⟨hnew, hm⟩ := after_chains env p.state.memory k a
  have hold (u x : Nat) (prog : Program Op Reply Result)
      (hu : (p.didEnd t k a ((system env).finish p.state k a).1
        ((system env).finish p.state k a).2).threads u = some ⟨.progress x, prog⟩) :
      u ≠ t ∧ p.threads u = some ⟨.progress x, prog⟩ := by
    rcases left_or_new hs ht hu with h | ⟨-, hu⟩
    · exact h
    · exact absurd rfl (hnew _ (List.mem_of_getElem? hu) x)
  rcases hm with ⟨rfl, hm⟩ | ⟨x, rfl, hm⟩ | ⟨-, hn, hset, hm⟩
  · refine .empty (fun u x prog hu => ?_) (fun id => ?_) fun z => ?_
    · -- nothing else is live while the process boots
      have hb := (hs.slots.boot t _ (kindAt_of ht)).mp rfl
      have := (hs.slots.boot u _ (kindAt_of (hold u x prog hu).2)).mpr hb
      cases this
    · rw [Pool.didEnd_state]
      exact congrArg (fun m : Memory => m.progressWrites id) hm
    · rw [Pool.didEnd_state]
      exact congrArg (fun m : Memory => m.settled z) hm
  · exact h.settles ht hold (by rw [Pool.didEnd_state]; simp only [system, hm])
  · refine h.mono (fun u x prog hu => (hold u x prog hu).2) (by rw [Pool.didEnd_state]; exact hn)
      (by rw [Pool.didEnd_state]; exact hset) (fun id => ?_)
      (fun _ _ _ _ hd => by rw [Pool.didEnd_state] at hd; exact hd)
      fun _ _ hd => by rw [Pool.didEnd_state] at hd; exact hd
    rw [Pool.didEnd_state]
    exact (hm id).imp_right fun h => ⟨h.2, h.1.elim fun c hk => hw id c hk⟩

theorem Chain.external (h : Chain owner p) (hs : SlotsKept env p) {x : Arrival} {s : State} {dies : Bool}
    {ths : List DownloadThread} (he : (system env).external p.state x = some (s, dies, ths)) :
    Chain owner (p.didOuter x s dies ths) := by
  have hnew : ∀ th ∈ ths, ∀ y, th.kind ≠ .progress y := by
    intro th hth
    obtain ⟨r, rfl⟩ | rfl := (arrives he).spawned hth <;> simp
  have hold (u y : Nat) (prog : Program Op Reply Result)
      (hu : (p.didOuter x s dies ths).threads u = some ⟨.progress y, prog⟩) :
      dies = false ∧ p.threads u = some ⟨.progress y, prog⟩ := by
    rw [Pool.didOuter_threads hs.fresh] at hu
    split at hu
    · cases dies with
      | true => cases hu
      | false => exact ⟨rfl, hu⟩
    · exact absurd rfl (hnew _ (List.mem_of_getElem? hu) y)
  have hrows := (arrive_keeps he).1
  have same (hn : s.memory.tickets = p.state.memory.tickets) (hset : s.memory.settled = p.state.memory.settled)
      (hw : s.memory.progressWrites = p.state.memory.progressWrites) :
      Chain owner (p.didOuter x s dies ths) :=
    h.mono (fun u y prog hu => (hold u y prog hu).2) (by rw [Pool.didOuter_state, hn])
      (by rw [Pool.didOuter_state, hset]) (fun id => .inl (by rw [Pool.didOuter_state, hw]))
      (fun _ _ _ _ hd => by simpa only [Pool.didOuter_state, Completed, hrows] using hd)
      fun _ _ hd => by simpa only [Pool.didOuter_state, Finished, hrows] using hd
  cases arrives he
  · exact same rfl rfl rfl
  · have rest := shutdown_eq p.state.memory
    exact same (congrArg Memory.tickets rest :) (congrArg Memory.settled rest :)
      (congrArg Memory.progressWrites rest :)
  · exact .empty (fun u y prog hu => absurd (hold u y prog hu).1 (by simp)) (fun id => by simp)
      fun z => by simp
  · refine .empty (fun u y prog hu => ?_) (fun id => by simp) fun z => by simp
    exact hs.slots.down u _ (kindAt_of (hold u y prog hu).2) ‹_›

end
end CircleFtp.Downloads
