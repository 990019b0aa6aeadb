import CircleFtp.Downloads.Outline
import CircleFtp.Downloads.Slots

/-! The disk floor: the free space against what the volume may still take for the transfers under
way. The space check of a file compares the free space with the bytes of that file alone. -/
namespace CircleFtp.Downloads
open Concurrent Files Strings

/-- The bytes that are to stay free. -/
def Env.floor (env : Env) : Rat := env.minFreeGib * 1024 ^ 3

def State.urlAt (s : State) (id index : Nat) : Option Str :=
  ((s.downloads.rows id).bind (·.files[index]?)).map (·.url)

/-- The files that are still to come have sizes that are right, as far as they are known. -/
def Sized (size : Str → Nat) (s : State) : Prop :=
  ∀ id d, s.downloads.rows id = some d → ∀ f ∈ d.files, f.status ≠ .COMPLETED →
    f.sizeBytes.all (· = size f.url) = true

/-- A probe finds the size, an answer brings no more than what is asked for, and the free space can
be read. -/
def Answers (size : Str → Nat) (free : Nat) (c : Choice) : Op → Prop
  | .probeSize url => c.size = some (size url)
  | .freeBytes => c.free = some free
  | .request url range _ =>
    (c.response.status = 200 → c.response.body.length ≤ size url) ∧
    (c.response.status = 206 → c.response.body.length ≤ size url - range.getD 0)
  | _ => True

/-- Every size is known and right. The free space depends on the disk and on all that was done. -/
def SizesKnown (size : Str → Nat) (free : DownloadWorld → Nat) (p : DownloadPool) : DownloadLabel → Prop
  | .exec t c => Sized size p.state ∧
    match p.threads t with
    | some ⟨_, .call o _⟩ => Answers size (free p.toWorld) c o
    | _ => True
  | _ => True

/-- The bytes that an answer has for the disk. -/
def Response.brings (r : Response) : Nat :=
  if r.status = 200 ∨ r.status = 206 then r.body.length else 0

/-- A transfer under way: the bytes that it may still write, those that it has written, and the free
space that has gone with its calls. -/
structure Account where
  owed : Nat
  written : Nat
  taken : Nat

/-- What the volume may still take, if it takes at most `cost n` for the transfer of `n` bytes. -/
def Account.left (cost : Nat → Nat) (a : Account) : Nat := cost (a.written + a.owed) - a.taken

/-- A thread's account after its event, with which `loss` bytes of free space have gone. -/
def entry (size : Str → Nat) (loss : Nat) (a : Option Account) : DownloadEvent → Option Account
  | .did _ _ (.updateFile id index .begin) (.ok _) s _ => (s.urlAt id index).map fun url => ⟨size url, 0, 0⟩
  -- the mark that ends a transfer, the look at the abort before it, and the check of the next file
  | .did _ _ (.updateFile _ _ _) _ _ _ | .did _ _ (.aborted _) _ _ _ | .did _ _ .freeBytes _ _ _ => none
  | .did _ _ (.request _ _ _) (.ok response) _ _ =>
    a.map fun a => ⟨response.brings, a.written, a.taken + loss⟩
  | .did _ _ (.write _ _ _) (.ok _) _ _ => a.map fun a => ⟨a.owed - 1, a.written + 1, a.taken + loss⟩
  | .did _ _ (.rename _ _) _ _ _ => a.map fun a => ⟨0, a.written, a.taken + loss⟩
  | _ => a.map fun a => ⟨a.owed, a.written, a.taken + loss⟩

/-- The free space that went with the event. -/
def lost (free : DownloadWorld → Nat) (e : DownloadEvent) (trace : List DownloadEvent) : Nat :=
  free ⟨e.before, trace⟩ - free ⟨e.after, e :: trace⟩

/-- The transfer that thread `t` is at. -/
def account (size : Str → Nat) (free : DownloadWorld → Nat) (t : Nat) : List DownloadEvent → Option Account
  | [] => none
  | e :: trace =>
    if e.By t then entry size (lost free e trace) (account size free t trace) e
    else account size free t trace

/-- The calls that may take space: for directories, directory entries and bytes. -/
def Op.takes : Op → Bool
  | .makeParent _ | .openFile _ _ | .write _ _ _ | .rename _ _ => true
  | _ => false

def taker (p : DownloadPool) : DownloadLabel → Option Nat
  | .exec t _ =>
    match p.threads t with
    | some ⟨_, .call o _⟩ => if o.takes then some t else none
    | _ => none
  | _ => none

/-- A transfer that has written `n` bytes has taken at most `cost n` off the volume, whole blocks,
directories and entries included, and nothing else takes any space. -/
def Charged (env : Env) (size : Str → Nat) (cost : Nat → Nat) (free : DownloadWorld → Nat)
    (p : DownloadPool) (l : DownloadLabel) : Prop :=
  ∀ q, (system env).step p l = some q →
    match taker p l with
    | some t => ∀ a ∈ account size free t q.trace, a.taken ≤ cost a.written
    | none => free p.toWorld ≤ free q.toWorld

def Task.works : Task → Bool
  | .worker _ _ => true
  | _ => false

def share (size : Str → Nat) (cost : Nat → Nat) (free : DownloadWorld → Nat) (trace : List DownloadEvent)
    (t : Nat) (k : Task) : Nat :=
  if k.works then (account size free t trace).elim 0 (·.left cost) else 0

/-- What the volume may still take for all live activations. -/
def pending (size : Str → Nat) (cost : Nat → Nat) (free : DownloadWorld → Nat) (p : DownloadPool) : Nat :=
  p.total (share size cost free p.trace)

/-- One slot, and a volume that takes no more than the bytes that are written. -/
def Plain (env : Env) (cost : Nat → Nat) : Prop := env.concurrency ≤ 1 ∧ ∀ n, cost n ≤ n

/-- A file is begun only when the free space covers the floor and what the volume may take for the
file and for the others. -/
def Room (env : Env) (size : Str → Nat) (cost : Nat → Nat) (free : DownloadWorld → Nat)
    (p : DownloadPool) : DownloadLabel → Prop
  | .exec t _ =>
    match p.threads t with
    | some ⟨_, .call (.updateFile id index .begin) _⟩ => ¬ Plain env cost →
      env.floor + (((p.state.urlAt id index).elim 0 fun url => cost (size url)) +
        pending size cost free p : Nat) ≤ (free p.toWorld : Rat)
    | _ => True
  | _ => True

section
variable {size : Str → Nat} {cost : Nat → Nat} {free : DownloadWorld → Nat} {t loss : Nat} {k : Task}
  {e : DownloadEvent} {trace : List DownloadEvent} {a a' : Account} {o : Op} {r : Reply o} {s s' : State}

theorem account_other (h : ¬ e.By t) : account size free t (e :: trace) = account size free t trace :=
  if_neg h

theorem account_own : account size free t (.did t k o r s s' :: trace) =
    entry size (lost free (.did t k o r s s') trace) (account size free t trace) (.did t k o r s s') :=
  if_pos rfl

theorem account_fresh (h : ∀ e ∈ trace, ¬ e.By t) : account size free t trace = none := by
  induction trace with
  | nil => rfl
  | cons e trace ih =>
    rw [account_other (h e List.mem_cons_self)]
    exact ih fun d hd => h d (List.mem_cons_of_mem e hd)

/-- Only the begin of a file opens an account. -/
theorem entry_none (hb : ∀ id index, o ≠ .updateFile id index .begin) :
    entry size loss none (.did t k o r s s') = none := by
  unfold entry
  split <;> first
    | rfl
    | (rename_i heq; cases heq; exact absurd rfl (hb _ _))

/-- A call that takes space leaves the account open. -/
theorem entry_takes (ho : o.takes = true) (a : Account) :
    ∃ a', entry size loss (some a) (.did t k o r s s') = some a' := by
  cases o <;> first
    | (cases ho; done)
    | exact ⟨_, rfl⟩
    | (cases r <;> exact ⟨_, rfl⟩)

/-- What goes off the volume is entered, and no more is to be written than before. -/
theorem entry_keeps (hb : ∀ id index, o ≠ .updateFile id index .begin)
    (hw : ∀ file position byte, o = .write file position byte → 0 < a.owed)
    (hr : ∀ url range c, o = .request url range c → a'.owed ≤ a.owed)
    (h : entry size loss (some a) (.did t k o r s s') = some a') :
    a'.taken = a.taken + loss ∧ a'.written + a'.owed ≤ a.written + a.owed := by
  cases o with
  | updateFile id index change =>
    cases change <;> first
      | exact absurd rfl (hb _ _)
      | cases h
  | aborted c => cases h
  | freeBytes => cases h
  | request url range c =>
    have := hr _ _ _ rfl
    cases r with
    | error e =>
      cases h
      exact ⟨rfl, Nat.le_refl _⟩
    | ok response =>
      cases h
      exact ⟨rfl, Nat.add_le_add_left this _⟩
  | write file position byte =>
    have := hw _ _ _ rfl
    cases r with
    | error e =>
      cases h
      exact ⟨rfl, Nat.le_refl _⟩
    | ok u =>
      cases h
      exact ⟨rfl, by simp only; omega⟩
  | rename old new =>
    cases h
    exact ⟨rfl, by simp⟩
  | _ =>
    cases h
    exact ⟨rfl, Nat.le_refl _⟩

/-- What goes off the volume is no longer left to be taken. -/
theorem Account.left_paid (hm : Monotone cost) (ht : a'.taken = a.taken + loss)
    (hn : a'.written + a'.owed ≤ a.written + a.owed) (hc : a'.taken ≤ cost a'.written) :
    a'.left cost + loss ≤ a.left cost := by
  have h₁ : cost a'.written ≤ cost (a'.written + a'.owed) := hm (Nat.le_add_right _ _)
  have h₂ := hm hn
  simp only [left]
  omega

theorem Account.left_kept (hm : Monotone cost) (ht : a.taken ≤ a'.taken)
    (hn : a'.written + a'.owed ≤ a.written + a.owed) : a'.left cost ≤ a.left cost := by
  have := hm hn
  simp only [left]
  omega

end

/-- The files of a download keep their urls as long as it is there. -/
structure SameUrls (s s' : State) : Prop where
  next : s.downloads.next ≤ s'.downloads.next
  urls : ∀ id index url, id < s.downloads.next → s'.urlAt id index = some url →
    s.urlAt id index = some url

section
variable {s s' : State}

theorem State.urlAt_eq (s : State) (id index : Nat) :
    s.urlAt id index = (s.placeAt id index).map (·.url) := by
  simp only [State.urlAt, State.placeAt]
  cases s.downloads.rows id with
  | none => rfl
  | some d =>
    simp only [Option.bind_some, List.getElem?_map, Option.map_map]
    rfl

theorem SamePlaces.urls (h : SamePlaces s s') : SameUrls s s' := by
  refine ⟨h.next, fun id index url hid hu => ?_⟩
  rw [State.urlAt_eq] at hu ⊢
  obtain ⟨place, hp, rfl⟩ := Option.map_eq_some_iff.mp hu
  rw [h.places id index place hid hp]
  rfl

theorem call_sameUrls (s : State) (o : Op) (c : Choice) : SameUrls s (call s o c).2 :=
  (call_samePlaces s o c).urls

theorem SameUrls.of_rows (h : s'.downloads = s.downloads) : SameUrls s s' := (SamePlaces.of_rows h).urls

end

/-- What an event of the others leaves to a worker. -/
structure Beside (env : Env) (cost : Nat → Nat) (free : DownloadWorld → Nat) (w : DownloadWorld)
    (e : DownloadEvent) : Prop where
  urls : SameUrls e.before e.after
  space : Plain env cost → free w ≤ free ⟨e.after, e :: w.trace⟩

/-- What a worker keeps to: it takes space in a transfer only, and writes what it owes. -/
structure Sparing (env : Env) (size : Str → Nat) (cost : Nat → Nat) (free : DownloadWorld → Nat)
    (t : Nat) (w : DownloadWorld) (o : Op) (w' : DownloadWorld) : Prop where
  begins : ∀ id index, o = .updateFile id index .begin → Plain env cost →
    env.floor + ((w.state.urlAt id index).elim 0 size : Nat) ≤ (free w : Rat)
  takes : o.takes = true → ∃ a, account size free t w.trace = some a
  write : ∀ file position byte, o = .write file position byte →
    ∀ a ∈ account size free t w.trace, 0 < a.owed
  request : ∀ url range c, o = .request url range c → ∀ a ∈ account size free t w.trace,
    ∀ a' ∈ account size free t w'.trace, a'.owed ≤ a.owed

def floors (env : Env) (size : Str → Nat) (cost : Nat → Nat) (free : DownloadWorld → Nat) :
    Ledger State Task Op Reply Arrival Result where
  admits _ k w e := ∀ id c, k = .worker id c → Beside env cost free w e
  may t k w o r s := (Sized size w.state ∧ ∃ c, call w.state o c = (r, s) ∧ Answers size (free w) c o) ∧
    (o.takes = false → free w ≤ free ⟨s, .did t k o r w.state s :: w.trace⟩)
  guar t k w o _ w' := (∃ id c, k = .worker id c) → Sparing env size cost free t w o w'
  post _ _ _ _ := True

/-- A file as the worker has read it: its size is right if it is known, and its url is that of the
row. -/
structure Fits (size : Str → Nat) (s : State) (id : Nat) (x : DownloadFile × Nat) : Prop where
  known : id < s.downloads.next
  size : x.1.sizeBytes.all (· = size x.1.url) = true
  url : ∀ url, s.urlAt id x.2 = some url → url = x.1.url

/-- The files that the worker is at or has before it. -/
def Stage.ahead (s : Stage) : List (DownloadFile × Nat) :=
  (s.spot.map fun x => (x.file, x.index)).toList ++ s.rest.filter (·.1.status ≠ .COMPLETED)

/-- The transfer of thread `t` may still write `n` bytes. -/
def Open (size : Str → Nat) (free : DownloadWorld → Nat) (t n : Nat) (w : DownloadWorld) : Prop :=
  ∃ a, account size free t w.trace = some a ∧ n ≤ a.owed

/-- What the worker knows of the file that it is at. -/
def Stage.Funded (env : Env) (size : Str → Nat) (cost : Nat → Nat) (free : DownloadWorld → Nat) (t : Nat)
    (w : DownloadWorld) : Stage → Prop
  | .probed x n => n = size x.file.url
  | .sized x bytes => bytes = some (size x.file.url)
  | .cleared x _ => Plain env cost → env.floor + (size x.file.url : Rat) ≤ free w
  | .trying x _ _ => Open size free t (size x.file.url) w
  | _ => True

structure Spending (env : Env) (size : Str → Nat) (cost : Nat → Nat) (free : DownloadWorld → Nat)
    (t id : Nat) (s : Stage) (w : DownloadWorld) : Prop where
  ahead : ∀ x ∈ s.ahead, Fits size w.state id x
  funded : s.Funded env size cost free t w

section
variable {env : Env} {size : Str → Nat} {cost : Nat → Nat} {free : DownloadWorld → Nat} {t id c : Nat}
  {s s' : Stage} {w w' : DownloadWorld} {o : Op} {r : Reply o}

abbrev floorContract (env : Env) (size : Str → Nat) (cost : Nat → Nat) (free : DownloadWorld → Nat)
    (t id c : Nat) : Contract DownloadWorld Op Reply :=
  (floors env size cost free).discipline.contract t (.worker id c)

theorem Fits.after {x : DownloadFile × Nat} {v v' : State} (h : Fits size v id x) (hs : SameUrls v v') :
    Fits size v' id x :=
  ⟨Nat.lt_of_lt_of_le h.known hs.next, h.size, fun url hu => h.url url (hs.urls id x.2 url h.known hu)⟩

theorem Open.stable {n : Nat} (h : Open size free t n w)
    (hr : (floorContract env size cost free t id c).rely w w') : Open size free t n w' := by
  refine History.rely_induct (fun v e hv hb ht hp => ?_) hr h
  rw [Open, account_other ht]
  exact hv

theorem Spending.stable (h : Spending env size cost free t id s w)
    (hr : (floorContract env size cost free t id c).rely w w') : Spending env size cost free t id s w' := by
  refine History.rely_induct (fun v e hv hb ht hp => ?_) hr h
  have hbeside := hp id c rfl
  refine ⟨fun x hx => (hv.ahead x hx).after (hb ▸ hbeside.urls), ?_⟩
  have funded := hv.funded
  cases s <;> try exact funded
  case cleared x probed =>
    exact fun hc => (funded hc).trans (by exact_mod_cast hbeside.space hc)
  case trying x destination probed =>
    simp only [Stage.Funded, Open, account_other ht]
    exact funded

theorem floor_trace (ha : (floorContract env size cost free t id c).act w o r w') :
    w'.trace = .did t (.worker id c) o r w.state w'.state :: w.trace := by rw [ha.1]

theorem floor_urls (ha : (floorContract env size cost free t id c).act w o r w') :
    SameUrls w.state w'.state := by
  obtain ⟨-, ⟨-, ch, hc, -⟩, -⟩ := ha
  have := call_sameUrls w.state o ch
  rwa [hc] at this

/-- A call that leads to no file that was not ahead. -/
theorem Spending.call (h : Spending env size cost free t id s w)
    (ha : (floorContract env size cost free t id c).act w o r w') (hs : s'.ahead ⊆ s.ahead)
    (hf : s'.Funded env size cost free t w') : Spending env size cost free t id s' w' :=
  ⟨fun x hx => (h.ahead x (hs hx)).after (floor_urls ha), hf⟩

theorem Silent.ahead (h : Silent env s s') : s'.ahead ⊆ s.ahead := by
  cases h with
  | skip folder file index rest hc =>
    intro x hx
    simpa [Stage.ahead, Stage.spot, Stage.rest, hc] using hx
  | done => exact List.nil_subset _
  | next x => exact List.subset_append_right [(x.file, x.index)] _
  | _ => exact fun _ h => h

theorem Stage.onError_ahead (s : Stage) (e : Err) : (s.onError e).ahead ⊆ s.ahead := by
  cases s <;> first | exact fun _ h => h | exact List.nil_subset _

theorem Stage.onError_funded (s : Stage) (e : Err) : (s.onError e).Funded env size cost free t w := by
  cases s <;> trivial

/-- No file is new, unless the worker reads the row or starts another attempt. -/
theorem Next.ahead {v : Val o} (h : Next env id c s o v s') (hr : s ≠ .reading)
    (hw : ∀ x, s ≠ .waiting x) : s'.ahead ⊆ s.ahead := by
  cases h with
  | missing => exact absurd rfl hr
  | found => exact absurd rfl hr
  | delay x => exact absurd rfl (hw x)
  | look s row h => cases s <;> exact fun _ h => h
  | stop => exact List.nil_subset _
  | giveUp => exact List.nil_subset _
  | go x row hc hr =>
    intro y hy
    simpa [Stage.ahead, Stage.rest, Stage.spot, hc] using hy
  | refuse x => exact List.subset_append_right [(x.file, x.index)] _
  | _ => exact fun _ h => h

/-- The calls that begin to owe, or pay. -/
def Op.spends : Op → Bool
  | .updateFile _ _ .begin | .write _ _ _ | .request _ _ _ => true
  | _ => false

theorem Sparing.of_spends (h : o.spends = false)
    (ht : o.takes = true → ∃ a, account size free t w.trace = some a) :
    Sparing env size cost free t w o w' := by
  refine ⟨?_, ht, ?_, ?_⟩
  · rintro _ _ rfl
    cases h
  · rintro _ _ _ rfl
    cases h
  · rintro _ _ _ rfl
    cases h

/-- At a transfer that may still write `n` bytes. -/
def Spare (env : Env) (size : Str → Nat) (cost : Nat → Nat) (free : DownloadWorld → Nat) (t id : Nat)
    (x : Spot) (n : Nat) (w : DownloadWorld) : Prop :=
  Spending env size cost free t id (.failing x .cancelled) w ∧ Open size free t n w

/-- After a transfer. -/
abbrev Paid (env : Env) (size : Str → Nat) (cost : Nat → Nat) (free : DownloadWorld → Nat) (t id : Nat)
    (x : Spot) : DownloadWorld → Prop :=
  Spending env size cost free t id (.failing x .cancelled)

section
variable {x : Spot} {n m : Nat}

theorem Spare.stable :
    (floorContract env size cost free t id c).Stable (Spare env size cost free t id x n) :=
  fun _ _ hr h => ⟨h.1.stable hr, h.2.stable hr⟩

theorem Paid.stable : (floorContract env size cost free t id c).Stable (Paid env size cost free t id x) :=
  fun _ _ hr h => Spending.stable h hr

theorem Spare.mono (h : Spare env size cost free t id x n w) (hm : m ≤ n) :
    Spare env size cost free t id x m w := ⟨h.1, h.2.imp fun _ ha => ⟨ha.1, hm.trans ha.2⟩⟩

theorem Spare.act (h : Spare env size cost free t id x n w)
    (ha : (floorContract env size cost free t id c).act w o r w')
    (hm : ∀ (a : Account) (loss : Nat), n ≤ a.owed → ∃ a', entry size loss (some a)
      (.did t (.worker id c) o r w.state w'.state) = some a' ∧ m ≤ a'.owed) :
    Spare env size cost free t id x m w' := by
  refine ⟨h.1.call ha (fun _ h => h) trivial, ?_⟩
  obtain ⟨a, hacc, hn⟩ := h.2
  rw [Open, floor_trace ha, account_own, hacc]
  exact hm a _ hn

/-- A call that leaves what the transfer may write. -/
theorem Spare.calls (ho : o.spends = false)
    (keep : ∀ (a : Account) (loss : Nat) (r : Reply o) s s', n ≤ a.owed → ∃ a',
      entry size loss (some a) (.did t (.worker id c) o r s s') = some a' ∧ n ≤ a'.owed) :
    (floorContract env size cost free t id c).Calls (Spare env size cost free t id x n) o
      fun _ => Spare env size cost free t id x n :=
  ⟨fun _ _ _ h _ _ => .of_spends ho fun _ => h.2.imp fun _ ha => ha.1,
    fun _ _ _ h ha => h.act ha fun _ _ => keep _ _ _ _ _,
    fun _ _ _ h ha => h.act ha fun _ _ => keep _ _ _ _ _⟩

theorem Paid.calls (ho : o.spends = false) (ht : o.takes = false) :
    (floorContract env size cost free t id c).Calls (Paid env size cost free t id x) o
      fun _ => Paid env size cost free t id x :=
  ⟨fun _ _ _ _ _ _ => .of_spends ho fun h => absurd h (by simp [ht]),
    fun _ _ _ h ha => Spending.call h ha (fun _ h => h) trivial,
    fun _ _ _ h ha => Spending.call h ha (fun _ h => h) trivial⟩

theorem Spare.calls_write (file : Nat) (position : Option Nat) (byte : UInt8) :
    (floorContract env size cost free t id c).Calls (Spare env size cost free t id x (n + 1))
      (.write file position byte) fun _ => Spare env size cost free t id x n := by
  refine ⟨fun w r w' h ha _ => ⟨fun _ _ e => ?_, fun _ => h.2.imp fun _ ha => ha.1, fun _ _ _ _ a hacc => ?_,
    fun _ _ _ e => ?_⟩, fun w a w' h ha => h.act ha fun a _ hn => ⟨_, rfl, Nat.le_sub_one_of_lt hn⟩,
    fun w e w' h ha => h.act ha fun a _ hn => ⟨_, rfl, hn⟩⟩
  · cases e
  · obtain ⟨a', hacc', hn⟩ := h.2
    obtain rfl : a' = a := Option.some.inj (hacc'.symm.trans hacc)
    exact Nat.lt_of_lt_of_le n.succ_pos hn
  · cases e

theorem Answers.brings {bytes : Nat} {ch : Choice} {url : Str} {range : Option Nat}
    (h : Answers size bytes ch (.request url range c)) : ch.response.brings ≤ size url := by
  rw [Response.brings]
  split
  · rename_i hs
    rcases hs with hs | hs
    · exact h.1 hs
    · exact (h.2 hs).trans (Nat.sub_le _ _)
  · exact Nat.zero_le _

/-- The answer brings no more than the file has. -/
theorem Spare.calls_request (url : Str) (range : Option Nat) :
    (floorContract env size cost free t id c).Calls (Spare env size cost free t id x (size url))
      (.request url range c) fun response => Spare env size cost free t id x response.brings := by
  have answer {w w' : DownloadWorld} {response : Response}
      (ha : (floorContract env size cost free t id c).act w (.request url range c) (.ok response) w') :
      response.brings ≤ size url := by
    obtain ⟨-, ⟨-, ch, hc, hans⟩, -⟩ := ha
    have hp := congrArg Prod.fst (call_ok hc)
    simp only [perform] at hp
    split at hp
    · cases hp
    · cases hp
      exact hans.brings
  refine ⟨fun w r w' h ha _ => ⟨fun _ _ e => ?_, fun ho => absurd ho Bool.false_ne_true, fun _ _ _ e => ?_,
      fun _ _ _ _ a hacc a' hacc' => ?_⟩,
    fun w response w' h ha => h.act ha fun a _ _ => ⟨_, rfl, Nat.le_refl _⟩,
    fun w e w' h ha => h.act ha fun a _ hn => ⟨_, rfl, hn⟩⟩
  · cases e
  · cases e
  · obtain ⟨b, hb, hn⟩ := h.2
    obtain rfl : b = a := Option.some.inj (hb.symm.trans hacc)
    rw [floor_trace ha, account_own, hb] at hacc'
    rcases r with e | response
    · cases hacc'
      exact Nat.le_refl _
    · cases hacc'
      exact (answer ha).trans hn

variable {options : FetchOptions} (hp : ∀ bytes total n, (floorContract env size cost free t id c).Does
    (Spare env size cost free t id x n) (options.onProgress bytes total)
    (fun _ => Spare env size cost free t id x n) fun _ => Spare env size cost free t id x n)
include hp

theorem pipeline_spends (file : Nat) (append : Bool) (total : Option Nat) (ending : Option String)
    (body : Bytes) (written : Nat) : (floorContract env size cost free t id c).Does
      (Spare env size cost free t id x body.length) (pipeline options file append total ending body written)
      (fun _ => Spare env size cost free t id x 0) fun _ => Spare env size cost free t id x 0 := by
  induction body generalizing written with
  | nil =>
    cases ending with
    | none => exact .pure Spare.stable fun _ h => h
    | some message => exact .throw Spare.stable fun _ h => h
  | cons byte body ih =>
    refine .bind (fun _ => Spare.stable) ((hp _ _ _).conseq (fun _ h => h) (fun _ _ h => h)
      fun _ _ h => h.mono (Nat.zero_le _)) fun _ => ?_
    exact .step Spare.stable (fun _ => Spare.stable) (fun _ => Spare.stable) (Spare.calls_write _ _ _)
      (fun _ _ h => h.mono (Nat.zero_le _)) fun _ => ih _

omit hp in
/-- A rename ends the writing. -/
theorem rename_spends {α : Type} (old new : Str) (a : α) : (floorContract env size cost free t id c).Does
    (Spare env size cost free t id x n) (do
      op (.rename old new)
      pure a : Flow α) (fun _ => Paid env size cost free t id x) fun _ => Paid env size cost free t id x := by
  have renamed : (floorContract env size cost free t id c).Does (Spare env size cost free t id x 0) (do
      op (.rename old new)
      pure a : Flow α) (fun _ => Paid env size cost free t id x) fun _ => Paid env size cost free t id x :=
    .step Spare.stable (fun _ => Spare.stable) (fun _ => Paid.stable)
      (Spare.calls rfl fun _ _ _ _ _ _ => ⟨_, rfl, Nat.zero_le _⟩) (fun _ _ h => h.1)
      fun _ => .pure Spare.stable fun _ h => h.1
  exact renamed.conseq (fun _ h => Spare.mono h (Nat.zero_le _)) (fun _ _ h => h) fun _ _ h => h

theorem receive_spends (response : Response) (resumeFrom : Nat) :
    (floorContract env size cost free t id c).Does (Spare env size cost free t id x response.body.length)
      (receive options response resumeFrom) (fun _ => Paid env size cost free t id x)
      fun _ => Paid env size cost free t id x := by
  have stable {n : Nat} :
      (floorContract env size cost free t id c).Stable (Spare env size cost free t id x n) := Spare.stable
  have tried : (floorContract env size cost free t id c).Does
      (Spare env size cost free t id x response.body.length)
      (tryCatch (do
        let file ← op (.openFile (partPathFor options.destination) (decide (0 < resumeFrom)))
        pipeline options file (decide (0 < resumeFrom)) (totalFromHeaders response resumeFrom)
          response.ending response.body resumeFrom) fun error => do
        if ← op (.aborted options.controller) then throw .cancelled else throw error : Flow Nat)
      (fun _ => Spare env size cost free t id x 0) fun _ => Paid env size cost free t id x := by
    refine .catch (fun _ => stable) (.step stable (fun _ => stable) (fun _ => stable)
      (Spare.calls rfl fun _ _ _ _ _ h => ⟨_, rfl, h⟩) (fun _ _ h => h.mono (Nat.zero_le _))
      fun _ => pipeline_spends hp _ _ _ _ _ _) fun e => ?_
    refine Contract.Does.conseq (P := Paid env size cost free t id x) (.step Paid.stable (fun _ => Paid.stable)
      (fun _ => Paid.stable) (Paid.calls rfl rfl) (fun _ _ h => h) fun b => ?_) (fun _ h => h.1)
      (fun _ _ h => h) fun _ _ h => h
    cases b <;> exact .throw Paid.stable fun _ h => h
  refine .bind (fun _ => Paid.stable) tried fun written => .bind (fun _ => Paid.stable)
    ((hp _ _ _).conseq (fun _ h => h) (fun _ _ h => h) fun _ _ h => h.1) fun _ => ?_
  split
  · exact .throw stable fun _ h => h.1
  · exact rename_spends _ _ _

theorem transfer_spends (hc : options.controller = c) : (floorContract env size cost free t id c).Does
    (Spare env size cost free t id x (size options.url)) (transfer options)
    (fun _ => Paid env size cost free t id x) fun _ => Paid env size cost free t id x := by
  subst hc
  have stable {n : Nat} : (floorContract env size cost free t id options.controller).Stable
      (Spare env size cost free t id x n) := Spare.stable
  refine .step stable (fun _ => stable) (fun _ => Paid.stable)
    (Spare.calls rfl fun _ _ _ _ _ h => ⟨_, rfl, h⟩) (fun _ _ h => h.1) fun resumeFrom => ?_
  refine .step stable (fun _ => stable) (fun _ => Paid.stable) (Spare.calls_request _ _)
    (fun _ _ h => h.1) fun response => ?_
  have dumped {f : Unit → Flow FetchResult} (hf : (floorContract env size cost free t id options.controller).Does
      (Spare env size cost free t id x response.brings) (f ()) (fun _ => Paid env size cost free t id x)
      fun _ => Paid env size cost free t id x) : (floorContract env size cost free t id options.controller).Does
      (Spare env size cost free t id x response.brings) (op .dump >>= f)
      (fun _ => Paid env size cost free t id x) fun _ => Paid env size cost free t id x :=
    .step stable (fun _ => stable) (fun _ => Paid.stable) (Spare.calls rfl fun _ _ _ _ _ h => ⟨_, rfl, h⟩)
      (fun _ _ h => h.1) fun _ => hf
  split
  · exact dumped (rename_spends _ _ _)
  split
  · rename_i h200
    have brings : response.brings = response.body.length := if_pos (.inl h200.1)
    rw [brings]
    exact .step stable (fun _ => stable) (fun _ => Paid.stable)
      (Spare.calls rfl fun _ _ _ _ _ h => ⟨_, rfl, h⟩) (fun _ _ h => h.1) fun _ => receive_spends hp response 0
  split
  · exact dumped (.throw stable fun _ h => h.1)
  · have brings : response.brings = response.body.length := if_pos (by omega)
    rw [brings]
    exact receive_spends hp response resumeFrom

/-- A fetch writes no more than the size of its file. -/
theorem fetchFile_spends (hc : options.controller = c) : (floorContract env size cost free t id c).Does
    (Spare env size cost free t id x (size options.url)) (fetchFile options)
    (fun _ => Paid env size cost free t id x) fun _ => Paid env size cost free t id x := by
  have stable {n : Nat} :
      (floorContract env size cost free t id c).Stable (Spare env size cost free t id x n) := Spare.stable
  have quiet {o : Op} {f : Val o → Flow FetchResult} (ho : o.spends = false)
      (keep : ∀ (a : Account) (loss : Nat) (r : Reply o) s s', size options.url ≤ a.owed → ∃ a',
        entry size loss (some a) (.did t (.worker id c) o r s s') = some a' ∧ size options.url ≤ a'.owed)
      (hf : ∀ v, (floorContract env size cost free t id c).Does
        (Spare env size cost free t id x (size options.url)) (f v)
        (fun _ => Paid env size cost free t id x) fun _ => Paid env size cost free t id x) :
      (floorContract env size cost free t id c).Does (Spare env size cost free t id x (size options.url))
        (op o >>= f) (fun _ => Paid env size cost free t id x) fun _ => Paid env size cost free t id x :=
    .step stable (fun _ => stable) (fun _ => Paid.stable) (Spare.calls ho keep) (fun _ _ h => h.1) hf
  refine quiet rfl (fun _ _ _ _ _ h => ⟨_, rfl, h⟩) fun _ =>
    quiet rfl (fun _ _ _ _ _ h => ⟨_, rfl, h⟩) fun finalSize => ?_
  split
  · split
    · exact .pure stable fun _ h => h.1
    · exact quiet rfl (fun _ _ _ _ _ h => ⟨_, rfl, h⟩) fun _ => transfer_spends hp hc
  · exact transfer_spends hp hc

end

theorem call_probeSize (s : State) (url : Str) (ch : Choice) :
    call s (.probeSize url) ch = (.ok ch.size, s) := by
  simp only [call]
  split <;> rfl

theorem call_freeBytes (s : State) (ch : Choice) : call s .freeBytes ch = (.ok ch.free, s) := by
  simp only [call]
  split <;> rfl

theorem Spending.ok {v : Val o} (h : Spending env size cost free t id s w) (hn : Next env id c s o v s')
    (ha : (floorContract env size cost free t id c).act w o (.ok v) w') :
    Spending env size cost free t id s' w' := by
  have ahead := hn.ahead
  have trace := floor_trace ha
  have funded := h.funded
  have hw := ha.1
  obtain ⟨⟨hsized, ch, hc, hans⟩, hkept⟩ := ha.2
  cases hn with
  | missing => exact h.call ha (List.nil_subset _) trivial
  | found d =>
    obtain ⟨hrow, hsame⟩ := call_find hc
    refine ⟨fun y hy => ?_, trivial⟩
    obtain ⟨hm, hst⟩ : y ∈ d.files.zipIdx ∧ y.1.status ≠ .COMPLETED := by
      simpa [Stage.ahead, Stage.spot, Stage.rest] using hy
    have hf : d.files[y.2]? = some y.1 := List.mem_zipIdx_iff_getElem?.mp hm
    refine ⟨by rw [hsame]; exact Table.lt_next hrow, hsized id d hrow y.1 (List.mem_of_getElem? hf) hst,
      fun url hu => ?_⟩
    simp only [hsame, State.urlAt, hrow, Option.bind_some, hf, Option.map_some, Option.some.injEq] at hu
    exact hu.symm
  | delay x =>
    refine ⟨fun y hy => ?_, trivial⟩
    rcases List.mem_cons.mp hy with rfl | hy
    · have hx := (h.ahead (x.file, x.index) List.mem_cons_self).after (floor_urls ha)
      exact ⟨hx.known, hx.size, hx.url⟩
    · exact (h.ahead y (List.mem_cons_of_mem _ hy)).after (floor_urls ha)
  | unknown x hx =>
    rw [call_probeSize, show ch.size = _ from hans] at hc
    cases congrArg Prod.fst hc
  | probe x n hx =>
    rw [call_probeSize, show ch.size = _ from hans] at hc
    cases congrArg Prod.fst hc
    exact h.call ha (ahead (by simp) (by simp)) rfl
  | store x n => exact h.call ha (ahead (by simp) (by simp)) (congrArg some funded)
  | room x probed bytes hb =>
    rw [call_freeBytes, show ch.free = _ from hans] at hc
    refine h.call ha (ahead (by simp) (by simp)) fun _ => ?_
    obtain rfl : some (free w) = bytes := by simpa using congrArg Prod.fst hc
    rw [show probed = _ from funded] at hb
    have kept : (free w : Rat) ≤ free w' := by
      rw [hw]
      exact_mod_cast hkept rfl
    rw [add_comm]
    exact (of_decide_eq_true hb).trans kept
  | begin x destination probed hd =>
    obtain ⟨d, f, hd, hf, -⟩ := call_updateFile hc
    have hu : w.state.urlAt id x.index = some f.url := by simp [State.urlAt, hd, hf]
    have hx := (h.ahead (x.file, x.index) List.mem_cons_self).url f.url hu
    refine h.call ha (ahead (by simp) (by simp)) ⟨⟨size f.url, 0, 0⟩, ?_, by simp [hx]⟩
    simp only [trace, account_own, entry, hu, Option.map_some]
  | look s row hp =>
    cases s <;> first
      | (cases hp; done)
      | exact h.call ha (ahead (by simp) (by simp)) trivial
  | tell s event hp =>
    cases s <;> first
      | (cases hp; done)
      | exact h.call ha (ahead (by simp [Stage.onShow]) (by simp [Stage.onShow])) trivial
  | _ => exact h.call ha (ahead (by simp) (by simp)) trivial

theorem spending_outline : Outline (floorContract env size cost free t id c) env id c
    (Spending env size cost free t id) where
  stable _ _ _ hr h := h.stable hr
  silent hs h := by
    refine ⟨fun x hx => h.ahead x (hs.ahead hx), ?_⟩
    cases hs with
    | known x n hn =>
      have hx := (h.ahead (x.file, x.index) List.mem_cons_self).size
      simpa [hn, Stage.Funded] using hx
    | _ => trivial
  guar hn h ha := by
    intro _
    cases hn with
    | begin x destination probed hd =>
      refine ⟨fun id' index e hc => ?_, nofun, fun _ _ _ e => ?_, fun _ _ _ e => ?_⟩
      · cases e
        refine le_trans (add_le_add_right (Nat.cast_le.mpr ?_) _) (h.funded hc)
        have hx := (h.ahead (x.file, x.index) List.mem_cons_self).url
        simp only at hx
        cases hu : State.urlAt _ id x.index with
        | none => exact Nat.zero_le _
        | some url => exact Nat.le_of_eq (congrArg size (hx url hu))
      · cases e
      · cases e
    | _ => exact .of_spends rfl nofun
  ok hn h ha := h.ok hn ha
  error {s o v s' w e w'} hn h ha := h.call ha (s.onError_ahead e) (s.onError_funded e)
  fetch x destination probed := by
    have fetched : (floorContract env size cost free t id c).Does
        (Spare env size cost free t id x (size x.file.url)) (x.fetch id c destination probed)
        (fun _ => Paid env size cost free t id x) fun _ => Paid env size cost free t id x := by
      let options : FetchOptions :=
        { url := x.file.url, destination, expectedSize := probed, controller := c
          onProgress := fun bytesOnDisk totalBytes => op (.report id x.index bytesOnDisk totalBytes) }
      have reports (bytes : Nat) (total : Option Nat) (n : Nat) : (floorContract env size cost free t id c).Does
          (Spare env size cost free t id x n) (options.onProgress bytes total)
          (fun _ => Spare env size cost free t id x n) fun _ => Spare env size cost free t id x n :=
        .call Spare.stable (fun _ => Spare.stable) (Spare.calls rfl fun _ _ _ _ _ h => ⟨_, rfl, h⟩)
      exact fetchFile_spends reports rfl
    exact fetched.conseq (fun _ h => ⟨⟨h.ahead, trivial⟩, h.funded⟩) (fun _ _ h => ⟨h.ahead, trivial⟩)
      fun _ _ h => ⟨h.ahead, trivial⟩

end

/-- The free space covers the floor and what the volume may still take. -/
structure Afloat (env : Env) (size : Str → Nat) (cost : Nat → Nat) (free : DownloadWorld → Nat)
    (p : DownloadPool) : Prop where
  slots : SlotsKept env p
  recorded : p.Recorded
  above : env.floor + (pending size cost free p : Rat) ≤ free p.toWorld

section
variable {env : Env} {size : Str → Nat} {cost : Nat → Nat} {free : DownloadWorld → Nat}
  {p q : DownloadPool} {t : Nat} {k : Task}

theorem share_other {e : DownloadEvent} {trace : List DownloadEvent} (h : ¬ e.By t) :
    share size cost free (e :: trace) t k = share size cost free trace t k := by
  rw [share, account_other h]
  rfl

theorem share_new (h : q.Recorded) (ht : q.next ≤ t) : share size cost free q.trace t k = 0 := by
  rw [share, account_fresh fun e he hb => absurd (h e he t hb) (Nat.not_lt_of_le ht)]
  exact ite_self 0

/-- After a step the space that has gone is no longer pending. -/
theorem Afloat.paid (h : Afloat env size cost free p) (hs : SlotsKept env q) (hr : q.Recorded) {n : Nat}
    (hp : pending size cost free q + n ≤ pending size cost free p)
    (hd : free p.toWorld ≤ free q.toWorld + n) : Afloat env size cost free q := by
  refine ⟨hs, hr, ?_⟩
  have hp' : ((pending size cost free q + n : Nat) : Rat) ≤ pending size cost free p := Nat.cast_le.mpr hp
  have hd' : (free p.toWorld : Rat) ≤ (free q.toWorld + n : Nat) := Nat.cast_le.mpr hd
  push_cast at hp' hd'
  linarith [h.above]

/-- Apart from the share of the thread that moves, nothing more is pending. -/
theorem Afloat.pending_exec (h : Afloat env size cost free p) {o : Op}
    {rest : Reply o → Program Op Reply Result} (ht : p.threads t = some ⟨k, .call o rest⟩) (r : Reply o)
    (s : State) (ths : List DownloadThread) :
    pending size cost free (p.didCall t k o rest r s ths) + share size cost free p.trace t k ≤
      pending size cost free p + share size cost free (.did t k o r p.state s :: p.trace) t k := by
  have other (u : Nat) (hne : u ≠ t) : ¬ (Event.did t k o r p.state s : DownloadEvent).By u :=
    fun e => hne e.symm
  rw [pending, Pool.didCall_trace]
  refine Pool.didCall_total h.slots.fresh (fun u k' hne => ?_) (fun u k' hu => ?_) ht r s ths
  · rw [share_other (other u hne)]
  · rw [share_other (other u fun e => absurd (h.slots.fresh.lt ht) (Nat.not_lt_of_le (e ▸ hu)))]
    exact share_new h.recorded hu

/-- With one slot, all that is pending is the share of the worker. -/
theorem pending_alone (hs : SlotsKept env p) (hc : env.concurrency ≤ 1) (ht : p.kindAt t = some k)
    (hk : k.works = true) : pending size cost free p ≤ share size cost free p.trace t k := by
  have slot {k' : Task} (hk' : k'.works = true) : k'.slot = true := by
    cases k' <;> first | rfl | cases hk'
  have alone := Pool.total_share (p := p) (v := share size cost free p.trace) (t := t) fun u hne k' hu => ?_
  · rwa [ht] at alone
  · obtain ⟨th, hth, rfl⟩ := Option.map_eq_some_iff.mp hu
    obtain ⟨th', hth', rfl⟩ := Option.map_eq_some_iff.mp ht
    exact if_neg fun hk' => hne (hs.one_worker hc hth hth' (slot hk') (slot hk))

theorem Op.MadeBy.takes {o : Op} (h : o.MadeBy k) (ho : o.takes = true) : ∃ id c, k = .worker id c := by
  cases o <;> first
    | (cases ho; done)
    | exact h

/-- After a call that begins no file, what has gone off the volume is no longer left to be taken. -/
theorem share_paid (hm : Monotone cost) {o : Op} {r : Reply o} {s : State} {w : DownloadWorld}
    (hk : k.works = true) (hb : ∀ id index, o ≠ .updateFile id index .begin)
    (hg : Sparing env size cost free t w o ⟨s, .did t k o r w.state s :: w.trace⟩)
    (hkept : o.takes = false → free w ≤ free ⟨s, .did t k o r w.state s :: w.trace⟩)
    (hcharged : o.takes = true →
      ∀ a ∈ account size free t (.did t k o r w.state s :: w.trace), a.taken ≤ cost a.written) :
    share size cost free (.did t k o r w.state s :: w.trace) t k +
      (free w - free ⟨s, .did t k o r w.state s :: w.trace⟩) ≤ share size cost free w.trace t k := by
  have gone : lost free (.did t k o r w.state s) w.trace =
      free w - free ⟨s, .did t k o r w.state s :: w.trace⟩ := rfl
  rw [share, share, if_pos hk, if_pos hk, ← gone]
  cases ha : account size free t w.trace with
  | none =>
    have closed : o.takes = false := by
      cases ho : o.takes with
      | false => rfl
      | true =>
        obtain ⟨a, h⟩ := hg.takes ho
        rw [ha] at h
        cases h
    rw [account_own, ha, entry_none hb, gone, Nat.sub_eq_zero_of_le (hkept closed)]
    exact Nat.le_refl _
  | some a =>
    cases ha' : account size free t (.did t k o r w.state s :: w.trace) with
    | none =>
      have closed : o.takes = false := by
        cases ho : o.takes with
        | false => rfl
        | true =>
          rw [account_own, ha] at ha'
          obtain ⟨a', h⟩ : ∃ a', entry size (lost free (.did t k o r w.state s) w.trace) (some a)
              (.did t k o r w.state s) = some a' := entry_takes ho a
          rw [h] at ha'
          cases ha'
      rw [gone, Nat.sub_eq_zero_of_le (hkept closed)]
      exact Nat.zero_le _
    | some a' =>
      have entered := ha'
      rw [account_own, ha] at entered
      obtain ⟨htaken, hn⟩ := entry_keeps hb (fun file position byte e => hg.write _ _ _ e a ha)
        (fun url range c e => hg.request _ _ _ e a ha a' ha') entered
      cases ho : o.takes with
      | true => exact Account.left_paid hm htaken hn (hcharged ho a' ha')
      | false =>
        rw [gone, Nat.sub_eq_zero_of_le (hkept ho)]
        exact Account.left_kept hm (htaken ▸ Nat.le_add_right _ _) hn

theorem Charged.kept {t : Nat} {c : Choice} {o : Op} {rest : Reply o → Program Op Reply Result}
    (h : Charged env size cost free p (.exec t c)) (ht : p.threads t = some ⟨k, .call o rest⟩) {r : Reply o}
    {s : State} {ths : List DownloadThread} (he : (system env).exec p.state k o c = some (r, s, ths))
    (ho : o.takes = false) : free p.toWorld ≤ free ⟨s, .did t k o r p.state s :: p.trace⟩ := by
  have := h _ (by simp only [System.step, ht, he]; rfl)
  simpa only [taker, ht, ho, Bool.false_eq_true, if_false, Pool.didCall_world] using this

theorem Charged.charged {t : Nat} {c : Choice} {o : Op} {rest : Reply o → Program Op Reply Result}
    (h : Charged env size cost free p (.exec t c)) (ht : p.threads t = some ⟨k, .call o rest⟩) {r : Reply o}
    {s : State} {ths : List DownloadThread} (he : (system env).exec p.state k o c = some (r, s, ths))
    (ho : o.takes = true) :
    ∀ a ∈ account size free t (.did t k o r p.state s :: p.trace), a.taken ≤ cost a.written := by
  have := h _ (by simp only [System.step, ht, he]; rfl)
  simpa only [taker, ht, ho, if_true, Pool.didCall_trace] using this

theorem Afloat.exec (hm : Monotone cost) (h : Afloat env size cost free p) {o : Op}
    {rest : Reply o → Program Op Reply Result} (ht : p.threads t = some ⟨k, .call o rest⟩) {c : Choice}
    {r : Reply o} {s : State} {ths : List DownloadThread}
    (he : (system env).exec p.state k o c = some (r, s, ths))
    (hcharged : Charged env size cost free p (.exec t c)) (hroom : Room env size cost free p (.exec t c))
    (hg : (∃ id c, k = .worker id c) →
      Sparing env size cost free t p.toWorld o ⟨s, .did t k o r p.state s :: p.trace⟩) :
    Afloat env size cost free (p.didCall t k o rest r s ths) := by
  have made : o.MadeBy k := (h.slots.uses t _ ht).1
  have slots := h.slots.exec ht he
  have stepped : (system env).step p (.exec t c) = some (p.didCall t k o rest r s ths) := by
    simp [System.step, ht, he]
  have recorded := h.recorded.step h.slots.fresh stepped
  have after := Pool.didCall_world p t k o rest r s ths
  have total := h.pending_exec ht r s ths
  have kept := hcharged.kept ht he
  have charged := hcharged.charged ht he
  cases hk : k.works with
  | false =>
    have none (trace : List DownloadEvent) : share size cost free trace t k = 0 := by simp [share, hk]
    rw [none, none] at total
    refine h.paid slots recorded (n := 0) total (after ▸ kept ?_)
    cases ho : o.takes with
    | false => rfl
    | true =>
      obtain ⟨id, c', rfl⟩ := made.takes ho
      cases hk
  | true =>
    have hg := hg (by cases k <;> first | exact ⟨_, _, rfl⟩ | cases hk)
    by_cases hs : ∃ id index, o = .updateFile id index .begin
    · obtain ⟨id, index, rfl⟩ := hs
      refine ⟨slots, recorded, le_trans ?_ (Nat.cast_le.mpr (after ▸ kept rfl))⟩
      have begun : share size cost free (.did t k (.updateFile id index .begin) r p.state s :: p.trace) t k ≤
          (p.state.urlAt id index).elim 0 fun url => cost (size url) := by
        rw [share, if_pos hk, account_own]
        rcases r with e | u
        · exact Nat.zero_le _
        · cases hu : p.state.urlAt id index <;> simp [entry, hu, Account.left]
      by_cases hc : Plain env cost
      · -- the space check of the file still holds
        refine le_trans (add_le_add_right (Nat.cast_le.mpr ?_) _) (hg.begins id index rfl hc)
        have hkt : (p.didCall t k _ rest r s ths).kindAt t = some k := by
          rw [Pool.didCall_kindAt h.slots.fresh ht, if_pos (h.slots.fresh.lt ht)]
          exact kindAt_of ht
        have alone : pending size cost free _ ≤ share size cost free _ t k :=
          pending_alone slots hc.1 hkt hk
        rw [Pool.didCall_trace] at alone
        refine alone.trans (begun.trans ?_)
        cases p.state.urlAt id index with
        | none => exact Nat.le_refl _
        | some url => exact hc.2 _
      · simp only [Room, ht] at hroom
        refine le_trans (add_le_add_right (Nat.cast_le.mpr ?_) _) (hroom hc)
        omega
    have paid := share_paid hm (w := p.toWorld) (r := r) hk (fun id index e => hs ⟨id, index, e⟩) hg kept charged
    refine h.paid slots recorded (n := free p.toWorld - free ⟨s, .did t k o r p.state s :: p.trace⟩) ?_ ?_
    · have same : share size cost free p.toWorld.trace t k = share size cost free p.trace t k := rfl
      omega
    · rw [after]
      exact Nat.sub_le_iff_le_add'.mp (Nat.le_refl _)

theorem Afloat.finish (h : Afloat env size cost free p) {a : Result} (ht : p.threads t = some ⟨k, .ret a⟩)
    (hcharged : Charged env size cost free p (.finish t)) :
    Afloat env size cost free (p.didEnd t k a ((system env).finish p.state k a).1
      ((system env).finish p.state k a).2) := by
  have stepped : (system env).step p (.finish t) = some (p.didEnd t k a
      ((system env).finish p.state k a).1 ((system env).finish p.state k a).2) := by simp [System.step, ht]
  refine h.paid (n := 0) (h.slots.finish ht) (h.recorded.step h.slots.fresh stepped) ?_ (hcharged _ stepped)
  have other (u : Nat) (hne : u ≠ t) : ¬ (Event.ended t k a p.state ((system env).finish p.state k a).1 :
      DownloadEvent).By u := fun e => hne e.symm
  rw [pending, Pool.didEnd_trace]
  refine Pool.didEnd_total h.slots.fresh (fun u k' hne => ?_) (fun u k' hu => ?_) ht _ _
  · rw [share_other (other u hne)]
  · rw [share_other (other u fun e => absurd (h.slots.fresh.lt ht) (Nat.not_lt_of_le (e ▸ hu)))]
    exact share_new h.recorded hu

theorem Afloat.external (h : Afloat env size cost free p) {x : Arrival} {s : State} {dies : Bool}
    {ths : List DownloadThread} (he : (system env).external p.state x = some (s, dies, ths))
    (hcharged : Charged env size cost free p (.external x)) :
    Afloat env size cost free (p.didOuter x s dies ths) := by
  have stepped : (system env).step p (.external x) = some (p.didOuter x s dies ths) := by
    simp [System.step, he]
  refine h.paid (n := 0) (h.slots.external he) (h.recorded.step h.slots.fresh stepped) ?_
    (hcharged _ stepped)
  have other (u : Nat) : ¬ (Event.outer x p.state s : DownloadEvent).By u := fun e => e
  rw [pending, Pool.didOuter_trace]
  refine Pool.didOuter_total h.slots.fresh (fun u k' => ?_) (fun u k' hu => ?_) x s dies ths
  · rw [share_other (other u)]
  · rw [share_other (other u)]
    exact share_new h.recorded hu

theorem floor_safe (env : Env) {th : DownloadThread} {w : DownloadWorld} (h : Begins env th) :
    (floors env size cost free).discipline.SafeThread t th w := by
  have other (hk : ∀ id c, th.kind ≠ .worker id c) :
      (floors env size cost free).discipline.SafeThread t th w :=
    .of_uses (fun _ _ _ _ _ _ hw => by
      obtain ⟨id, c, e⟩ := hw
      exact absurd e (hk id c)) h.uses
  cases h with
  | worker id c =>
    exact (spending_outline.program_safe ⟨fun _ hx => absurd hx List.not_mem_nil, trivial⟩).mono
      fun _ _ _ => trivial
  | _ => exact other (by simp)

theorem floors_keeps (hm : Monotone cost) : (floors env size cost free).Keeps (system env)
    (fun p l => SizesKnown size free p l ∧ Charged env size cost free p l ∧ Room env size cost free p l)
    (Afloat env size cost free) where
  may hI hok ht he := by
    have sizes := hok.1
    simp only [SizesKnown, ht] at sizes
    exact ⟨⟨sizes.1, _, (system_exec he).2.1, sizes.2⟩, hok.2.1.kept ht he⟩
  exec {p t k o rest c r s ths} hI hok ht he hg := by
    refine ⟨hI.exec hm ht he hok.2.1 hok.2.2 hg, fun t' th hne hth id c' hk => ?_, fun th hth _ _ =>
      floor_safe env ((system_begins env).exec he th hth)⟩
    have hcall := (system_exec he).2.1
    refine ⟨?_, fun hc => hok.2.1.kept ht he ?_⟩
    · have := call_sameUrls p.state o c
      rwa [hcall] at this
    · -- with one slot the others are no workers
      cases ho : o.takes with
      | false => rfl
      | true =>
        obtain ⟨id', c'', rfl⟩ := Op.MadeBy.takes (hI.slots.uses t _ ht).1 ho
        exact absurd (hI.slots.one_worker hc.1 hth ht (by rw [hk]; rfl) rfl) hne
  finish {p t k a} hI hok ht _ := ⟨hI.finish ht hok.2.1, fun _ _ _ _ _ _ _ => ⟨.of_rows rfl, fun _ => by
      have := hok.2.1 (p.didEnd t k a ((system env).finish p.state k a).1 ((system env).finish p.state k a).2)
        (by simp [System.step, ht])
      simpa only [taker, Pool.didEnd_world, Event.after] using this⟩,
    fun th hth _ _ => floor_safe env ((system_begins env).finish _ _ _ th hth)⟩
  external {p x s dies ths} hI hok he := by
    obtain ⟨hrows, hdisk⟩ := arrive_keeps he
    exact ⟨hI.external he hok.2.1, fun _ _ _ _ _ _ _ => ⟨.of_rows hrows, fun _ => by
        have := hok.2.1 (p.didOuter x s dies ths) (by simp [System.step, he])
        simpa only [taker, Pool.didOuter_world, Event.after] using this⟩,
      fun th hth _ _ => floor_safe env ((system_begins env).external he th hth)⟩

end

/-- The floor is respected as long as every file is begun with room for all that the volume may still take
for the transfers under way; with one slot and a volume that counts bytes, whatever happens. -/
theorem floor_respected (env : Env) (size : Str → Nat) {cost : Nat → Nat} (hm : Monotone cost)
    {free : DownloadWorld → Nat} {s : State} (hs : s.Down) (hfree : env.floor ≤ free ⟨s, []⟩)
    {p : DownloadPool} (hr : (system env).Runs (fun p l => SizesKnown size free p l ∧
      Charged env size cost free p l ∧ Room env size cost free p l) (.initial s) p) :
    env.floor ≤ free p.toWorld := by
  have start : Afloat env size cost free (.initial s) := by
    refine ⟨.initial env hs, fun _ h => absurd h List.not_mem_nil, ?_⟩
    have none : pending size cost free (.initial s : DownloadPool) = 0 := rfl
    rw [none, Nat.cast_zero, add_zero]
    exact hfree
  have h := ((floors_keeps hm).keeps.safe start (Discipline.allSafe_initial _ s) hr).1.above
  exact le_trans (le_add_of_nonneg_right (Nat.cast_nonneg _)) h

theorem sized_iff (size : Str → Nat) (s : State) :
    ((List.range s.downloads.next).all fun id => (s.downloads.rows id).all fun d => d.files.all fun f =>
      f.status = .COMPLETED || f.sizeBytes.all (· = size f.url)) = true ↔ Sized size s := by
  constructor
  · intro h id d hd f hf hst
    have hid := List.all_eq_true.mp h id (List.mem_range.mpr (Table.lt_next hd))
    rw [hd] at hid
    simpa [hst] using List.all_eq_true.mp hid f hf
  · refine fun h => List.all_eq_true.mpr fun id _ => ?_
    cases hd : s.downloads.rows id with
    | none => rfl
    | some d =>
      refine List.all_eq_true.mpr fun f hf => ?_
      by_cases hst : f.status = .COMPLETED
      · simp [hst]
      · simpa [hst] using h id d hd f hf hst

instance (size : Str → Nat) (s : State) : Decidable (Sized size s) := decidable_of_iff _ (sized_iff size s)

def answers (size : Str → Nat) (free : Nat) (c : Choice) : Op → Bool
  | .probeSize url => c.size = some (size url)
  | .freeBytes => c.free = some free
  | .request url range _ =>
    (!(decide (c.response.status = 200)) || decide (c.response.body.length ≤ size url)) &&
    (!(decide (c.response.status = 206)) || decide (c.response.body.length ≤ size url - range.getD 0))
  | _ => true

theorem answers_answers {size : Str → Nat} {free : Nat} {c : Choice} {o : Op}
    (h : answers size free c o = true) : Answers size free c o := by
  cases o <;> try trivial
  all_goals simpa [answers, Answers, imp_iff_not_or] using h

def sizesKnown (size : Str → Nat) (free : DownloadWorld → Nat) (p : DownloadPool) : DownloadLabel → Bool
  | .exec t c => decide (Sized size p.state) &&
    match p.threads t with
    | some ⟨_, .call o _⟩ => answers size (free p.toWorld) c o
    | _ => true
  | _ => true

theorem sizesKnown_known {size : Str → Nat} {free : DownloadWorld → Nat} {p : DownloadPool}
    {l : DownloadLabel} (h : sizesKnown size free p l = true) : SizesKnown size free p l := by
  cases l with
  | exec t c =>
    obtain ⟨hs, ha⟩ := Bool.and_eq_true_iff.mp h
    refine ⟨of_decide_eq_true hs, ?_⟩
    rcases ht : p.threads t with _ | ⟨k, _ | ⟨o, rest⟩⟩
    · trivial
    · trivial
    · rw [ht] at ha
      exact answers_answers ha
  | finish t => trivial
  | external x => trivial

def charged (env : Env) (size : Str → Nat) (cost : Nat → Nat) (free : DownloadWorld → Nat)
    (p : DownloadPool) (l : DownloadLabel) : Bool :=
  ((system env).step p l).all fun q =>
    match taker p l with
    | some t => (account size free t q.trace).all fun a => a.taken ≤ cost a.written
    | none => decide (free p.toWorld ≤ free q.toWorld)

theorem charged_charged {env : Env} {size : Str → Nat} {cost : Nat → Nat} {free : DownloadWorld → Nat}
    {p : DownloadPool} {l : DownloadLabel} (h : charged env size cost free p l = true) :
    Charged env size cost free p l := by
  intro q hq
  rw [charged, hq, Option.all_some] at h
  cases ht : taker p l with
  | none =>
    rw [ht] at h
    exact of_decide_eq_true h
  | some t =>
    intro a ha
    simp only [ht, Option.mem_def.mp ha, Option.all_some] at h
    exact of_decide_eq_true h

def room (env : Env) (size : Str → Nat) (cost : Nat → Nat) (free : DownloadWorld → Nat)
    (p : DownloadPool) : DownloadLabel → Bool
  | .exec t _ =>
    match p.threads t with
    | some ⟨_, .call (.updateFile id index .begin) _⟩ =>
      decide (env.floor + (((p.state.urlAt id index).elim 0 fun url => cost (size url)) +
        pending size cost free p : Nat) ≤ (free p.toWorld : Rat))
    | _ => true
  | _ => true

theorem room_room {env : Env} {size : Str → Nat} {cost : Nat → Nat} {free : DownloadWorld → Nat}
    {p : DownloadPool} {l : DownloadLabel} (h : room env size cost free p l = true) :
    Room env size cost free p l := by
  cases l with
  | exec t c =>
    rcases ht : p.threads t with _ | ⟨k, _ | ⟨o, rest⟩⟩ <;> simp only [room, Room, ht] at h ⊢
    cases o <;> try trivial
    case updateFile id index change =>
      cases change <;> try trivial
      exact fun _ => of_decide_eq_true h
  | finish t => trivial
  | external x => trivial

/-- The blocks of 4096 bytes that are in use: those of the files, and one for each directory made. -/
def blocks (w : DownloadWorld) : Nat :=
  ((List.range w.state.disk.next).map fun i => ((w.state.disk.contents i).length + 4095) / 4096).sum +
    w.trace.countP fun
      | .did _ _ (.makeParent _) (.ok _) _ _ => true
      | _ => false

def blocksLeft (capacity : Nat) (w : DownloadWorld) : Nat := 4096 * (capacity - blocks w)

/-- A directory and the blocks of the file. -/
def inBlocks (n : Nat) : Nat := 4096 * (1 + (n + 4095) / 4096)

theorem inBlocks_monotone : Monotone inBlocks := fun m n h => by
  have : (m + 4095) / 4096 ≤ (n + 4095) / 4096 := Nat.div_le_div_right (Nat.add_le_add_right h _)
  simp only [inBlocks]
  omega

/-- Two slots, and one GiB that is to stay free. -/
def Env.tight : Env := { Env.small 2 with minFreeGib := 1 }

/-- Two downloads with one file of one byte each. -/
def twoJobs : State :=
  ⟨(Table.empty.insert
      { postId := 1, folderName := ['F']
        files := [{ url := ['u'], relPath := ['a'], sizeBytes := some 1 }] }).insert
      { postId := 2, folderName := ['G']
        files := [{ url := ['v'], relPath := ['b'], sizeBytes := some 1 }] }, .empty, {}⟩

/-- Both jobs start, and both find enough space. -/
def bothClear (free : Nat) : List DownloadLabel :=
  bootUp ++ calls 3 2 ++ [.finish 3] ++ calls 2 4 ++ calls 4 4 ++
    [.exec 2 { free := some free }, .exec 4 { free := some free }]

def fetchByte (t : Nat) : List DownloadLabel :=
  calls t 4 ++ [.exec t { response := { body := [1] } }] ++ calls t 3

/-- One GiB is 262144 blocks. With two more there is room for either of the jobs, not for both. -/
theorem floor_crossed : ¬ ∀ (env : Env) (size : Str → Nat) (cost : Nat → Nat)
    (free : DownloadWorld → Nat) (s : State) (p : DownloadPool), 1 ≤ env.concurrency →
    env.concurrency ≤ 8 → 0 ≤ env.minFreeGib → Monotone cost → s.Down → env.floor ≤ free ⟨s, []⟩ →
    (system env).Runs (fun p l => SizesKnown size free p l ∧ Charged env size cost free p l) (.initial s) p →
    env.floor ≤ free p.toWorld := by
  intro h
  have hrun : ((system .tight).replay (fun p l => sizesKnown (fun _ => 1) (blocksLeft 262146) p l &&
      charged .tight (fun _ => 1) inBlocks (blocksLeft 262146) p l) (.initial twoJobs)
      (bothClear (4096 * 262146) ++ fetchByte 2 ++ fetchByte 4)).any (fun p =>
      ¬ Env.tight.floor ≤ blocksLeft 262146 p.toWorld) = true := by decide +kernel
  obtain ⟨p, hp, hn⟩ := Option.any_eq_true _ _ |>.mp hrun
  have hr := (system .tight).replay_runs
    (fun _ _ hc => (Bool.and_eq_true_iff.mp hc).imp sizesKnown_known charged_charged) hp
  exact of_decide_eq_true hn (h .tight (fun _ => 1) inBlocks (blocksLeft 262146) twoJobs p (by decide)
    (by decide) (by decide +kernel) inBlocks_monotone rfl (by decide +kernel) hr)

/-- With four there is room for both. -/
theorem floor_respected_both : ∃ p, (system .tight).Runs (fun p l =>
      SizesKnown (fun _ => 1) (blocksLeft 262148) p l ∧
      Charged .tight (fun _ => 1) inBlocks (blocksLeft 262148) p l ∧
      Room .tight (fun _ => 1) inBlocks (blocksLeft 262148) p l) (.initial twoJobs) p ∧
    blocks p.toWorld = 4 ∧ Env.tight.floor ≤ blocksLeft 262148 p.toWorld := by
  have hrun : ((system .tight).replay (fun p l => sizesKnown (fun _ => 1) (blocksLeft 262148) p l &&
      (charged .tight (fun _ => 1) inBlocks (blocksLeft 262148) p l &&
        room .tight (fun _ => 1) inBlocks (blocksLeft 262148) p l)) (.initial twoJobs)
      (bothClear (4096 * 262148) ++ fetchByte 2 ++ fetchByte 4)).any (fun p => blocks p.toWorld = 4) = true := by
    decide +kernel
  obtain ⟨p, hp, hn⟩ := Option.any_eq_true _ _ |>.mp hrun
  have hr := (system .tight).replay_runs (fun _ _ hc => (Bool.and_eq_true_iff.mp hc).imp sizesKnown_known
    fun hc => (Bool.and_eq_true_iff.mp hc).imp charged_charged room_room) hp
  exact ⟨p, hr, of_decide_eq_true hn, floor_respected .tight (fun _ => 1) inBlocks_monotone
    (s := twoJobs) rfl (by decide +kernel) hr⟩

end CircleFtp.Downloads
