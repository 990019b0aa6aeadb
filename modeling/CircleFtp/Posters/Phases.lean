import CircleFtp.Posters.ImageCache

/-! When the poster cache serves whole images: one writer of the temporary file at a time, and
nobody near a new body before its type is there. -/
namespace CircleFtp.Posters
open Concurrent Files Strings

def opens (file : Str) : PosterEvent → Bool
  | .did _ _ (.openFile path) (.ok _) _ _ => path ≠ typePath file
  | _ => false

def renames : PosterEvent → Bool
  | .did _ _ (.rename _ _) (.ok _) _ _ => true
  | _ => false

def closes : PosterEvent → Bool
  | .did _ _ (.close _) _ _ _ => true
  | _ => false

def seesBody (file : Str) : PosterEvent → Bool
  | .did _ _ (.readFile path) (.ok _) _ _ => path = file
  | _ => false

def failed : PosterEvent → Bool
  | .did _ _ _ (.error _) _ _ => true
  | _ => false

def seesType (file : Str) : PosterEvent → Bool
  | .did _ _ (.readFile path) _ _ _ => path = typePath file
  | _ => false

/-- From the temporary file opened until it is renamed. -/
def stores (file : Str) (t : Nat) (trace : List PosterEvent) : Bool :=
  History.outstanding (opens file) (fun e => renames e || failed e) t trace

/-- From the body renamed until its type is written. -/
def publishes (t : Nat) (trace : List PosterEvent) : Bool :=
  History.outstanding renames (fun e => closes e || failed e) t trace

/-- From the body read until its type is read. -/
def reads (file : Str) (t : Nat) (trace : List PosterEvent) : Bool :=
  History.outstanding (seesBody file) (seesType file) t trace

/-- No other thread is at it. -/
def nobody (p : PosterPool) (t : Nat) (q : Nat → List PosterEvent → Bool) : Bool :=
  (List.range p.next).all fun u => u = t || (p.threads u).isNone || !q u p.trace

def yields (file : Str) (p : PosterPool) (t : Nat) : Op → Bool
  | .openFile path => path = typePath file || nobody p t (stores file)
  | .rename _ _ => nobody p t publishes && nobody p t (reads file)
  | .readFile path => path ≠ file || nobody p t publishes
  | _ => true

/-- The temporary file is opened while no other call has it, a body is renamed and read while no
other call is between a body and its type, and no call fails there and the process does not end. -/
def spaced (file : Str) (p : PosterPool) : PosterLabel → Bool
  | .exec t c =>
    (!c.fails || !(publishes t p.trace || reads file t p.trace)) &&
      match p.threads t with
      | some ⟨_, .call op _⟩ => yields file p t op
      | _ => true
  | .finish _ | .external .request => true
  | .external (.restart _) => nobody p p.next publishes

section
variable {file : Str} {t : Nat} {trace : List PosterEvent} {op : Op} {r : Reply op} {s s' : State}

theorem did_by : (Event.did t () op r s s' : PosterEvent).By t := rfl

theorem stores_own (h : stores file t (.did t () op r s s' :: trace) = true) :
    (∃ path, op = .openFile path ∧ path ≠ typePath file) ∨ stores file t trace = true := by
  rw [stores, History.outstanding_own did_by, Bool.or_eq_true, Bool.and_eq_true] at h
  refine h.imp (fun h => ?_) And.right
  cases op <;> cases r <;> simp_all [opens]

theorem publishes_own (h : publishes t (.did t () op r s s' :: trace) = true) :
    (∃ a b, op = .rename a b) ∨ publishes t trace = true := by
  rw [publishes, History.outstanding_own did_by, Bool.or_eq_true, Bool.and_eq_true] at h
  refine h.imp (fun h => ?_) And.right
  cases op <;> cases r <;> simp_all [renames]

theorem reads_own (h : reads file t (.did t () op r s s' :: trace) = true) :
    op = .readFile file ∨ reads file t trace = true := by
  rw [reads, History.outstanding_own did_by, Bool.or_eq_true, Bool.and_eq_true] at h
  refine h.imp (fun h => ?_) And.right
  cases op <;> cases r <;> simp_all [seesBody]

theorem nobody_of {p : PosterPool} (hf : p.Fresh) {q : Nat → List PosterEvent → Bool}
    (h : nobody p t q = true) {u : Nat} (hne : u ≠ t) {th : PosterThread} (hu : p.threads u = some th) :
    q u p.trace = false := by
  rw [nobody, List.all_eq_true] at h
  simpa [hne, hu] using h u (List.mem_range.mpr (hf.lt hu))

theorem typePath_ne (file : Str) : typePath file ≠ file := by
  intro h
  have := congrArg List.length h
  simp [typePath] at this

theorem tempPath_ne (file : Str) (pid : Nat) : tempPath file pid ≠ file := by
  intro h
  have := congrArg List.length h
  simp [tempPath] at this

theorem tempPath_ne_type (file : Str) (pid : Nat) : tempPath file pid ≠ typePath file := by
  intro h
  have hend : Nat.toDigits 10 pid ++ ".tmp".toList = "type".toList :=
    (List.cons.inj (List.append_cancel_left h)).2
  have hlast := congrArg List.getLast? hend
  simp [List.getLast?_append] at hlast

/-- The cache has nothing, or a whole image with its type. -/
def Shown (file : Str) (w : PosterWorld) : Prop :=
  w.state.disk.content file = none ∨ ∃ image ∈ answered w.trace,
    w.state.disk.content file = some image.body ∧
      w.state.disk.content (typePath file) = some (encode image.contentType)

/-- What a thread may see of the others. -/
structure Frames (file : Str) (t : Nat) (w : PosterWorld) (e : PosterEvent) : Prop where
  pid : e.after.pid = w.state.pid
  temp : stores file t w.trace = true →
    w.state.disk.SameAt e.after.disk (tempPath file w.state.pid)
  body : publishes t w.trace = true ∨ reads file t w.trace = true →
    w.state.disk.SameAt e.after.disk file ∧ w.state.disk.SameAt e.after.disk (typePath file)

/-- What a call may do where the run is spaced. -/
def May (file : Str) (t : Nat) (w : PosterWorld) (op : Op) (r : Reply op) (s : State) : Prop :=
  ∃ c, call w.state op c = (r, s) ∧
    (publishes t w.trace = true ∨ reads file t w.trace = true → c.fails = false) ∧
    (op = .readFile file → publishes t w.trace = false → Shown file w)

/-- What a call of the cache may touch. -/
def Touches (file : Str) (t : Nat) (w : PosterWorld) : Op → Prop
  | .openFile path => path = tempPath file w.state.pid ∨
      (path = typePath file ∧ publishes t w.trace = true)
  | .write handle _ _ =>
      (stores file t w.trace = true ∧ w.state.disk.links (tempPath file w.state.pid) = some handle) ∨
      (publishes t w.trace = true ∧ w.state.disk.links (typePath file) = some handle)
  | .rename a b => a = tempPath file w.state.pid ∧ b = file ∧ stores file t w.trace = true
  | _ => True

def ledger (file : Str) : Ledger State Unit Op Reply Arrival Served where
  admits t _ := Frames file t
  may t _ := May file t
  guar t _ w op _ w' := Touches file t w op ∧
    (publishes t w.trace = true → publishes t w'.trace = true ∨ Shown file w')
  post t _ result w := publishes t w.trace = false ∧
    ∀ image, result = .ok (some image) → image ∈ answered w.trace

theorem call_pid (s : State) (op : Op) (c : Choice) : (call s op c).2.pid = s.pid := by
  rw [call]
  split
  · rfl
  · cases op with
    | rename a b =>
      rw [answer]
      split <;> rfl
    | _ => rfl

/-- A name that the call does not write to. -/
theorem call_sameAt {q : Str} (c : Choice) (hopen : ∀ path, op = .openFile path → q ≠ path)
    (hwrite : ∀ handle n b, op = .write handle n b → s.disk.links q ≠ some handle)
    (hrename : ∀ a b, op = .rename a b → q ≠ a ∧ q ≠ b) :
    s.disk.SameAt (call s op c).2.disk q := by
  rw [call]
  split
  · exact ⟨rfl, rfl⟩
  cases op with
  | openFile path => exact s.disk.openFile_sameAt (hopen path rfl) false
  | write handle n b => exact s.disk.write_sameAt (hwrite handle n b rfl) _ _
  | rename a b =>
    obtain ⟨ha, hb⟩ := hrename a b rfl
    rw [answer]
    split
    · exact s.disk.rename_sameAt ha hb
    · exact ⟨rfl, rfl⟩
  | _ => exact ⟨rfl, rfl⟩

theorem call_error {e : Unit} (h : call s op c = (.error e, s')) : s' = s := by
  rw [call] at h
  split at h
  · exact (Prod.mk.inj h).2.symm
  · cases op with
    | rename a b =>
      rw [answer] at h
      split at h
      · cases h
      · exact (Prod.mk.inj h).2.symm
    | stat path => exact (Prod.mk.inj h).2.symm
    | readFile path => exact (Prod.mk.inj h).2.symm
    | _ => cases h

variable {w : PosterWorld}

theorem Touches.temp (h : Touches file t w op) (c : Choice) :
    op = .openFile (tempPath file w.state.pid) ∨ stores file t w.trace = true ∨
      w.state.disk.SameAt (call w.state op c).2.disk (tempPath file w.state.pid) := by
  by_cases hs : stores file t w.trace = true
  · exact .inr (.inl hs)
  by_cases ho : op = .openFile (tempPath file w.state.pid)
  · exact .inl ho
  refine .inr (.inr (call_sameAt c ?_ ?_ ?_))
  · rintro path rfl he
    exact ho (by rw [he])
  · rintro handle n b rfl hl
    rcases h with h | ⟨-, h⟩
    · exact hs h.1
    · exact tempPath_ne_type file _ (w.state.disk.distinct _ _ _ hl h)
  · rintro a b rfl
    exact absurd h.2.2 hs

theorem Touches.body (h : Touches file t w op) (c : Choice) :
    publishes t w.trace = true ∨ (∃ a b, op = .rename a b) ∨
      (w.state.disk.SameAt (call w.state op c).2.disk file ∧
        w.state.disk.SameAt (call w.state op c).2.disk (typePath file)) := by
  by_cases hp : publishes t w.trace = true
  · exact .inl hp
  by_cases hr : ∃ a b, op = .rename a b
  · exact .inr (.inl hr)
  refine .inr (.inr ⟨call_sameAt c ?_ ?_ fun a b ho => absurd ⟨a, b, ho⟩ hr,
    call_sameAt c ?_ ?_ fun a b ho => absurd ⟨a, b, ho⟩ hr⟩)
  · rintro path rfl rfl
    rcases h with h | ⟨h, -⟩
    · exact tempPath_ne file _ h.symm
    · exact typePath_ne file h.symm
  · rintro handle n b rfl hl
    rcases h with ⟨-, h⟩ | ⟨h, -⟩
    · exact tempPath_ne file _ (w.state.disk.distinct _ _ _ h hl)
    · exact hp h
  · rintro path rfl rfl
    rcases h with h | ⟨-, h⟩
    · exact tempPath_ne_type file _ h.symm
    · exact hp h
  · rintro handle n b rfl hl
    rcases h with ⟨-, h⟩ | ⟨h, -⟩
    · exact tempPath_ne_type file _ (w.state.disk.distinct _ _ _ h hl)
    · exact hp h

theorem answered_cons {image : CachedImage} (e : PosterEvent) (h : image ∈ answered trace) :
    image ∈ answered (e :: trace) := by
  rw [answered, List.filterMap_cons]
  split
  · exact h
  · exact List.mem_cons_of_mem _ h

theorem Shown.after {e : PosterEvent} (h : Shown file w) (hbody : w.state.disk.SameAt s'.disk file)
    (htype : w.state.disk.SameAt s'.disk (typePath file)) : Shown file ⟨s', e :: w.trace⟩ := by
  rcases h with h | ⟨image, hm, hb, ht⟩
  · exact .inl (hbody.2.trans h)
  · exact .inr ⟨image, answered_cons e hm, hbody.2.trans hb, htype.2.trans ht⟩

/-- No two threads are in each other's way, and the cache is whole while nobody publishes. -/
structure Calm (file : Str) (p : PosterPool) : Prop where
  fresh : p.Fresh
  recorded : p.Recorded
  oneStores : ∀ t u th th', t ≠ u → p.threads t = some th → p.threads u = some th' →
    stores file t p.trace = true → stores file u p.trace = false
  onePublishes : ∀ t u th th', t ≠ u → p.threads t = some th → p.threads u = some th' →
    publishes t p.trace = true → publishes u p.trace = false ∧ reads file u p.trace = false
  shown : (∀ t th, p.threads t = some th → publishes t p.trace = false) → Shown file p.toWorld
  whole : Whole p.trace

variable {env : Env} {filename : Str} {c : Choice} {p : PosterPool}
  {rest : Reply op → Program Op Reply Served} {ths : List PosterThread}

theorem exec_eq (h : (system env filename).exec s () op c = some (r, s', ths)) :
    call s op c = (r, s') ∧ ths = [] := by
  simp only [system, Option.some.injEq, Prod.mk.injEq] at h
  exact ⟨Prod.ext h.1 h.2.1, h.2.2.symm⟩

/-- Who is there after a call was there before it. -/
theorem didCall_live (hf : p.Fresh) (ht : p.threads t = some ⟨(), .call op rest⟩) {u : Nat}
    {th : PosterThread} (h : (p.didCall t () op rest r s' []).threads u = some th) :
    ∃ th', p.threads u = some th' := by
  rw [Pool.didCall_threads hf ht] at h
  split at h
  · split at h
    · rename_i e
      exact ⟨_, e ▸ ht⟩
    · exact ⟨th, h⟩
  · simp at h

section
variable (hok : spaced file p (.exec t c) = true) (ht : p.threads t = some ⟨(), .call op rest⟩)
include hok ht

theorem spaced_yields : yields file p t op = true := by
  rw [spaced, ht, Bool.and_eq_true] at hok
  exact hok.2

theorem Calm.may (hI : Calm file p) (hcall : call p.state op c = (r, s')) :
    May file t p.toWorld op r s' := by
  refine ⟨c, hcall, fun h => ?_, ?_⟩
  · rw [spaced, Bool.and_eq_true] at hok
    have hbusy : (publishes t p.trace || reads file t p.trace) = true := by simpa using h
    rw [hbusy] at hok
    simpa using hok.1
  · rintro rfl hp
    have hy := spaced_yields hok ht
    simp only [yields, ne_eq, not_true_eq_false, decide_false, Bool.false_or] at hy
    refine hI.shown fun u th hu => ?_
    by_cases e : u = t
    · rw [e]
      exact hp
    · exact nobody_of hI.fresh hy e hu

/-- What the other threads see of a call. -/
theorem Calm.frames (hI : Calm file p) (hcall : call p.state op c = (r, s'))
    (htouch : Touches file t p.toWorld op) {u : Nat} {th : PosterThread} (hne : u ≠ t)
    (hu : p.threads u = some th) : Frames file u p.toWorld (.did t () op r p.state s') := by
  have hy := spaced_yields hok ht
  have hs : (call p.state op c).2 = s' := congrArg Prod.snd hcall
  refine ⟨?_, fun hstores => ?_, fun hbusy => ?_⟩
  · rw [← call_pid p.state op c, hs]
    rfl
  · rcases htouch.temp c with rfl | ht' | hsame
    · rw [yields, Bool.or_eq_true, decide_eq_true_eq] at hy
      have := nobody_of hI.fresh (hy.resolve_left (tempPath_ne_type file _)) hne hu
      rw [hstores] at this
      cases this
    · have := hI.oneStores t u _ _ hne.symm ht hu ht'
      rw [hstores] at this
      cases this
    · rwa [hs] at hsame
  · rcases htouch.body c with ht' | ⟨a, b, rfl⟩ | hsame
    · have := hI.onePublishes t u _ _ hne.symm ht hu ht'
      rcases hbusy with h | h
      · rw [this.1] at h
        cases h
      · rw [this.2] at h
        cases h
    · rw [yields, Bool.and_eq_true] at hy
      rcases hbusy with h | h
      · rw [nobody_of hI.fresh hy.1 hne hu] at h
        cases h
      · rw [nobody_of hI.fresh hy.2 hne hu] at h
        cases h
    · rwa [hs] at hsame

end

theorem not_by {u : Nat} (hne : u ≠ t) : ¬ (Event.did t () op r s s' : PosterEvent).By u :=
  fun h => hne h.symm

section
variable (hI : Calm file p) (hok : spaced file p (.exec t c) = true)
  (ht : p.threads t = some ⟨(), .call op rest⟩)
include hI hok ht

theorem Calm.did_stores {u v : Nat} {th th' : PosterThread} (hne : u ≠ v)
    (hu : p.threads u = some th) (hv : p.threads v = some th')
    (h : stores file u (.did t () op r p.state s' :: p.trace) = true) :
    stores file v (.did t () op r p.state s' :: p.trace) = false := by
  have hy := spaced_yields hok ht
  by_cases hut : u = t
  · subst u
    have hother : stores file v (.did t () op r p.state s' :: p.trace) = stores file v p.trace :=
      History.outstanding_other (not_by hne.symm)
    rw [hother]
    rcases stores_own h with ⟨path, rfl, hpath⟩ | hold
    · rw [yields, Bool.or_eq_true, decide_eq_true_eq] at hy
      exact nobody_of hI.fresh (hy.resolve_left hpath) hne.symm hv
    · exact hI.oneStores t v _ _ hne hu hv hold
  · have hold : stores file u p.trace = true := by
      rwa [stores, History.outstanding_other (not_by hut)] at h
    by_cases hvt : v = t
    · subst v
      rw [Bool.eq_false_iff]
      intro h'
      rcases stores_own h' with ⟨path, rfl, hpath⟩ | h'
      · rw [yields, Bool.or_eq_true, decide_eq_true_eq] at hy
        rw [nobody_of hI.fresh (hy.resolve_left hpath) hut hu] at hold
        cases hold
      · rw [hI.oneStores u t _ _ hne hu hv hold] at h'
        cases h'
    · rw [stores, History.outstanding_other (not_by hvt)]
      exact hI.oneStores u v _ _ hne hu hv hold

theorem Calm.did_publishes {u v : Nat} {th th' : PosterThread} (hne : u ≠ v)
    (hu : p.threads u = some th) (hv : p.threads v = some th')
    (h : publishes u (.did t () op r p.state s' :: p.trace) = true) :
    publishes v (.did t () op r p.state s' :: p.trace) = false ∧
      reads file v (.did t () op r p.state s' :: p.trace) = false := by
  have hy := spaced_yields hok ht
  by_cases hut : u = t
  · subst u
    rw [publishes, reads, History.outstanding_other (not_by hne.symm),
      History.outstanding_other (not_by hne.symm)]
    rcases publishes_own h with ⟨a, b, rfl⟩ | hold
    · rw [yields, Bool.and_eq_true] at hy
      exact ⟨nobody_of hI.fresh hy.1 hne.symm hv, nobody_of hI.fresh hy.2 hne.symm hv⟩
    · exact hI.onePublishes t v _ _ hne hu hv hold
  · have hold : publishes u p.trace = true := by
      rwa [publishes, History.outstanding_other (not_by hut)] at h
    by_cases hvt : v = t
    · subst v
      obtain ⟨hp, hr⟩ := hI.onePublishes u t _ _ hne hu hv hold
      rw [Bool.eq_false_iff, Bool.eq_false_iff]
      constructor
      · intro h'
        rcases publishes_own h' with ⟨a, b, rfl⟩ | h'
        · rw [yields, Bool.and_eq_true] at hy
          rw [nobody_of hI.fresh hy.1 hut hu] at hold
          cases hold
        · rw [hp] at h'
          cases h'
      · intro h'
        rcases reads_own h' with rfl | h'
        · simp only [yields, ne_eq, not_true_eq_false, decide_false, Bool.false_or] at hy
          rw [nobody_of hI.fresh hy hut hu] at hold
          cases hold
        · rw [hr] at h'
          cases h'
    · rw [publishes, reads, History.outstanding_other (not_by hvt),
        History.outstanding_other (not_by hvt)]
      exact hI.onePublishes u v _ _ hne hu hv hold

omit hok in
/-- After a call the cache is whole again unless somebody publishes. -/
theorem Calm.did_shown (hcall : call p.state op c = (r, s')) (htouch : Touches file t p.toWorld op)
    (hends : publishes t p.trace = true →
      publishes t (.did t () op r p.state s' :: p.trace) = true ∨
        Shown file ⟨s', .did t () op r p.state s' :: p.trace⟩)
    (h : ∀ u th, p.threads u = some th →
      publishes u (.did t () op r p.state s' :: p.trace) = false) :
    Shown file ⟨s', .did t () op r p.state s' :: p.trace⟩ := by
  have hs : (call p.state op c).2 = s' := congrArg Prod.snd hcall
  have hnow := h t _ ht
  by_cases hp : publishes t p.trace = true
  · exact (hends hp).resolve_left (by rw [hnow]; simp)
  · have hshown : Shown file p.toWorld := by
      refine hI.shown fun u th hu => ?_
      by_cases hut : u = t
      · rw [hut]
        exact Bool.eq_false_iff.mpr hp
      · have := h u th hu
        rwa [publishes, History.outstanding_other (not_by hut)] at this
    rcases htouch.body c with h' | ⟨a, b, rfl⟩ | ⟨hbody, htype⟩
    · exact absurd h' hp
    · cases r with
      | ok u =>
        rw [publishes, History.outstanding_own did_by] at hnow
        simp [renames] at hnow
      | error e =>
        obtain rfl := call_error hcall
        exact hshown.after ⟨rfl, rfl⟩ ⟨rfl, rfl⟩
    · rw [hs] at hbody htype
      exact hshown.after hbody htype

theorem Calm.did (hcall : call p.state op c = (r, s')) (htouch : Touches file t p.toWorld op)
    (hends : publishes t p.trace = true →
      publishes t (.did t () op r p.state s' :: p.trace) = true ∨
        Shown file ⟨s', .did t () op r p.state s' :: p.trace⟩) :
    Calm file (p.didCall t () op rest r s' []) where
  fresh := Pool.didCall_fresh hI.fresh ht r s' []
  recorded := by
    intro e he u hb
    rw [Pool.didCall_trace] at he
    rcases List.mem_cons.mp he with rfl | he
    · obtain rfl : t = u := hb
      exact hI.fresh.lt ht
    · exact hI.recorded e he u hb
  oneStores u v th th' hne hu hv h := by
    rw [Pool.didCall_trace] at h ⊢
    obtain ⟨_, hu⟩ := didCall_live hI.fresh ht hu
    obtain ⟨_, hv⟩ := didCall_live hI.fresh ht hv
    exact hI.did_stores hok ht hne hu hv h
  onePublishes u v th th' hne hu hv h := by
    rw [Pool.didCall_trace] at h ⊢
    obtain ⟨_, hu⟩ := didCall_live hI.fresh ht hu
    obtain ⟨_, hv⟩ := didCall_live hI.fresh ht hv
    exact hI.did_publishes hok ht hne hu hv h
  shown h := by
    rw [Pool.didCall_world]
    refine hI.did_shown ht hcall htouch hends fun u th hu => ?_
    rw [Pool.didCall_trace] at h
    by_cases hut : u = t
    · subst u
      refine h t ⟨(), rest r⟩ ?_
      rw [Pool.didCall_threads hI.fresh ht, if_pos (hI.fresh.lt ht), if_pos rfl]
    · refine h u th ?_
      rw [Pool.didCall_threads hI.fresh ht, if_pos (hI.fresh.lt hu), if_neg hut, hu]
  whole := by
    intro image hm
    rw [Pool.didCall_trace] at hm ⊢
    exact answered_cons _ (hI.whole image hm)

end

end
end CircleFtp.Posters
