import CircleFtp.Posters.Phases

/-! The flows of the poster cache, call by call, with what each thread knows in between. -/
namespace CircleFtp.Posters
open Concurrent Files Strings

section
variable {file : Str} {t : Nat} {trace : List PosterEvent} {op : Op} {s s' : State} {w : PosterWorld}
  {c : Choice}

abbrev cache (file : Str) (t : Nat) : Contract PosterWorld Op Reply :=
  (ledger file).discipline.contract t ()

theorem cache_stable {φ : PosterWorld → Prop}
    (h : ∀ v e, φ v → ¬ e.By t → Frames file t v e → φ ⟨e.after, e :: v.trace⟩) :
    (cache file t).Stable φ :=
  fun _ _ hr hw => History.rely_induct (fun v e hv _ ht hp => h v e hv ht hp) hr hw

/-- The world after a call of the thread. -/
def after (t : Nat) (w : PosterWorld) (op : Op) (c : Choice) : PosterWorld :=
  ⟨(call w.state op c).2, .did t () op (call w.state op c).1 w.state (call w.state op c).2 :: w.trace⟩

theorem leads {P : PosterWorld → Prop} {Q : Val op → PosterWorld → Prop} {E : PosterWorld → Prop}
    (touches : ∀ w, P w → Touches file t w op)
    (ends : ∀ w c, P w → publishes t w.trace = true → c.fails = false →
      publishes t (after t w op c).trace = true ∨ Shown file (after t w op c))
    (goes : ∀ w c, P w → (publishes t w.trace = true ∨ reads file t w.trace = true → c.fails = false) →
      (op = .readFile file → publishes t w.trace = false → Shown file w) →
      (∀ a, (call w.state op c).1 = .ok a → Q a (after t w op c)) ∧
        (∀ e, (call w.state op c).1 = .error e → E (after t w op c))) :
    (cache file t).Leads P op Q fun _ => E := by
  have here {w w' : PosterWorld} {r : Reply op} (ha : (cache file t).act w op r w') :
      ∃ c, (call w.state op c).1 = r ∧ w' = after t w op c ∧
        (publishes t w.trace = true ∨ reads file t w.trace = true → c.fails = false) ∧
        (op = .readFile file → publishes t w.trace = false → Shown file w) := by
    obtain ⟨hw, c, hc, hfails, hshown⟩ := ha
    have hr : (call w.state op c).1 = r := congrArg Prod.fst hc
    have hs : (call w.state op c).2 = w'.state := congrArg Prod.snd hc
    exact ⟨c, hr, by rw [hw, after, hr, hs], hfails, hshown⟩
  constructor
  · intro w r w' hP ha
    obtain ⟨c, -, rfl, hfails, -⟩ := here ha
    exact ⟨touches w hP, fun hp => ends w c hP hp (hfails (.inl hp))⟩
  · intro w a w' hP ha
    obtain ⟨c, hr, rfl, hfails, hshown⟩ := here ha
    exact (goes w c hP hfails hshown).1 a hr
  · intro w e w' hP ha
    obtain ⟨c, hr, rfl, hfails, hshown⟩ := here ha
    exact (goes w c hP hfails hshown).2 e hr

/-- Where the thread is, and its process. -/
structure At (file : Str) (pid t : Nat) (a b c : Bool) (w : PosterWorld) : Prop where
  pid : w.state.pid = pid
  stores : stores file t w.trace = a
  publishes : publishes t w.trace = b
  reads : reads file t w.trace = c

variable {pid : Nat} {x y z : Bool} {image : CachedImage} {body : List UInt8}

theorem At.other {e : PosterEvent} (h : At file pid t x y z w) (ht : ¬ e.By t)
    (hf : Frames file t w e) : At file pid t x y z ⟨e.after, e :: w.trace⟩ :=
  ⟨hf.pid.trans h.pid, (History.outstanding_other ht).trans h.stores,
    (History.outstanding_other ht).trans h.publishes, (History.outstanding_other ht).trans h.reads⟩

theorem At.own (h : At file pid t x y z w) (op : Op) (c : Choice) {e : PosterEvent}
    (he : e = .did t () op (call w.state op c).1 w.state (call w.state op c).2) :
    At file pid t (opens file e || (!(renames e || failed e) && x))
      (renames e || (!(closes e || failed e) && y)) (seesBody file e || (!seesType file e && z))
      (after t w op c) := by
  subst he
  refine ⟨(call_pid _ _ _).trans h.pid, ?_, ?_, ?_⟩
  · rw [← h.stores]
    exact History.outstanding_own did_by
  · rw [← h.publishes]
    exact History.outstanding_own did_by
  · rw [← h.reads]
    exact History.outstanding_own did_by

/-- The thread is between the steps, and the image is one of the upstream. -/
def Knows (file : Str) (pid t : Nat) (image : CachedImage) (w : PosterWorld) : Prop :=
  At file pid t false false false w ∧ image ∈ answered w.trace

/-- A body has been read, and the cache still has the type that came with it. -/
def Reading (file : Str) (pid t : Nat) (body : List UInt8) (w : PosterWorld) : Prop :=
  At file pid t false false true w ∧ ∃ image ∈ answered w.trace, image.body = body ∧
    w.state.disk.content (typePath file) = some (encode image.contentType)

/-- So much of the body is in the temporary file. -/
def Storing (file : Str) (pid t : Nat) (image : CachedImage) (handle n : Nat) (w : PosterWorld) : Prop :=
  At file pid t true false false w ∧ image ∈ answered w.trace ∧
    w.state.disk.links (tempPath file pid) = some handle ∧
    w.state.disk.content (tempPath file pid) = some (image.body.take n)

def Stored (file : Str) (pid t : Nat) (image : CachedImage) (w : PosterWorld) : Prop :=
  At file pid t true false false w ∧ image ∈ answered w.trace ∧
    w.state.disk.content (tempPath file pid) = some image.body

def Published (file : Str) (pid t : Nat) (image : CachedImage) (w : PosterWorld) : Prop :=
  At file pid t false true false w ∧ image ∈ answered w.trace ∧
    w.state.disk.content file = some image.body

/-- So much of the type is in its file. -/
def Typing (file : Str) (pid t : Nat) (image : CachedImage) (handle n : Nat) (w : PosterWorld) : Prop :=
  Published file pid t image w ∧ w.state.disk.links (typePath file) = some handle ∧
    w.state.disk.content (typePath file) = some ((encode image.contentType).take n)

section stability

theorem at_stable : (cache file t).Stable (At file pid t x y z) :=
  cache_stable fun _ _ h ht hf => h.other ht hf

theorem knows_stable : (cache file t).Stable (Knows file pid t image) :=
  cache_stable fun _ e h ht hf => ⟨h.1.other ht hf, answered_cons e h.2⟩

theorem reading_stable : (cache file t).Stable (Reading file pid t body) := by
  refine cache_stable fun v e h ht hf => ?_
  obtain ⟨hat, image, hm, hb, htype⟩ := h
  exact ⟨hat.other ht hf, image, answered_cons e hm, hb, (hf.body (.inr hat.reads)).2.2.trans htype⟩

theorem storing_stable {handle n : Nat} : (cache file t).Stable (Storing file pid t image handle n) := by
  refine cache_stable fun v e h ht hf => ?_
  obtain ⟨hat, hm, hl, hc⟩ := h
  have hsame := hf.temp hat.stores
  rw [hat.pid] at hsame
  exact ⟨hat.other ht hf, answered_cons e hm, hsame.1.trans hl, hsame.2.trans hc⟩

theorem stored_stable : (cache file t).Stable (Stored file pid t image) := by
  refine cache_stable fun v e h ht hf => ?_
  obtain ⟨hat, hm, hc⟩ := h
  have hsame := hf.temp hat.stores
  rw [hat.pid] at hsame
  exact ⟨hat.other ht hf, answered_cons e hm, hsame.2.trans hc⟩

theorem Published.other {e : PosterEvent} (h : Published file pid t image w) (ht : ¬ e.By t)
    (hf : Frames file t w e) : Published file pid t image ⟨e.after, e :: w.trace⟩ :=
  ⟨h.1.other ht hf, answered_cons e h.2.1, (hf.body (.inl h.1.publishes)).1.2.trans h.2.2⟩

theorem published_stable : (cache file t).Stable (Published file pid t image) :=
  cache_stable fun _ _ h ht hf => h.other ht hf

theorem typing_stable {handle n : Nat} : (cache file t).Stable (Typing file pid t image handle n) := by
  refine cache_stable fun v e h ht hf => ?_
  obtain ⟨hpub, hl, hc⟩ := h
  have hsame := (hf.body (.inl hpub.1.publishes)).2
  exact ⟨hpub.other ht hf, hsame.1.trans hl, hsame.2.trans hc⟩

end stability

def Op.quiet : Op → Bool
  | .stat _ | .request _ | .mkdir _ | .close _ => true
  | _ => false

theorem At.quiet (h : At file pid t false false false w) (ho : op.quiet = true) (c : Choice) :
    At file pid t false false false (after t w op c) := by
  have hown := h.own op c rfl
  cases op with
  | stat path => simpa [opens, renames, seesBody] using hown
  | request url => simpa [opens, renames, seesBody] using hown
  | mkdir path => simpa [opens, renames, seesBody] using hown
  | close handle => simpa [opens, renames, seesBody] using hown
  | _ => cases ho

/-- A call of a thread that has no body under way to its file. -/
theorem leads_unpublished {P : PosterWorld → Prop} {Q : Val op → PosterWorld → Prop} {E : PosterWorld → Prop}
    (hP : ∀ w, P w → publishes t w.trace = false) (touches : ∀ w, P w → Touches file t w op)
    (goes : ∀ w c, P w → (reads file t w.trace = true → c.fails = false) →
      (op = .readFile file → Shown file w) →
      (∀ a, (call w.state op c).1 = .ok a → Q a (after t w op c)) ∧
        (∀ e, (call w.state op c).1 = .error e → E (after t w op c))) :
    (cache file t).Leads P op Q fun _ => E := by
  refine leads touches (fun w c h hp => ?_) fun w c h hfails hshown => ?_
  · rw [hP w h] at hp
    cases hp
  · exact goes w c h (fun hr => hfails (.inr hr)) fun ho => hshown ho (hP w h)

theorem leads_quiet (ho : op.quiet = true) {P : PosterWorld → Prop} {Q : Val op → PosterWorld → Prop}
    {E : PosterWorld → Prop} (hP : ∀ w, P w → At file pid t false false false w)
    (goes : ∀ w c, P w → At file pid t false false false (after t w op c) →
      (∀ a, (call w.state op c).1 = .ok a → Q a (after t w op c)) ∧ E (after t w op c)) :
    (cache file t).Leads P op Q fun _ => E := by
  refine leads_unpublished (fun w h => (hP w h).publishes) (fun w _ => ?_) fun w c h _ _ => ?_
  · cases op <;> trivial
  · obtain ⟨hok, herror⟩ := goes w c h ((hP w h).quiet ho c)
    exact ⟨hok, fun _ _ => herror⟩

theorem stat_leads (path : Str) : (cache file t).Leads (At file pid t false false false) (.stat path)
    (fun _ => At file pid t false false false) fun _ => At file pid t false false false :=
  leads_quiet rfl (fun _ h => h) fun _ _ _ h => ⟨fun _ _ => h, h⟩

theorem knows_leads (ho : op.quiet = true) : (cache file t).Leads (Knows file pid t image) op
    (fun _ => Knows file pid t image) fun _ => Knows file pid t image :=
  leads_quiet ho (fun _ h => h.1) fun _ _ h hat =>
    ⟨fun _ _ => ⟨hat, answered_cons _ h.2⟩, hat, answered_cons _ h.2⟩

theorem request_leads (url : Str) : (cache file t).Leads (At file pid t false false false)
    (.request url) (fun response w => At file pid t false false false w ∧
      ∀ image, response.image = some image → image ∈ answered w.trace)
    fun _ => At file pid t false false false := by
  refine leads_quiet rfl (fun _ h => h) fun w c _ hat => ⟨fun response hr => ⟨hat, ?_⟩, hat⟩
  intro image himage
  rw [after, answered, hr]
  exact List.mem_filterMap.mpr ⟨_, List.mem_cons_self, himage⟩

theorem call_answers (op : Op) (h : c.fails = false) : call s op c = answer s c op := if_neg (by simp [h])

theorem call_ok {a : Val op} (h : (call s op c).1 = .ok a) : c.fails = false := by
  by_contra hf
  rw [call, if_pos (by simpa using hf)] at h
  cases h

theorem At.failed (h : At file pid t x y false w) {e : Unit} (hr : (call w.state op c).1 = .error e) :
    At file pid t false false false (after t w op c) := by
  have hown := h.own op c rfl
  rw [hr] at hown
  cases op <;> simpa [opens, renames, seesBody, Posters.failed] using hown

/-- The body that is read is shown with its type. -/
theorem readBody_leads : (cache file t).Leads (At file pid t false false false) (.readFile file)
    (Reading file pid t) fun _ => At file pid t false false false := by
  refine leads_unpublished (fun _ h => h.publishes) (fun _ _ => trivial) fun w c h _ hshown =>
    ⟨fun body hr => ?_, fun e hr => h.failed hr⟩
  have hown := h.own (.readFile file) c rfl
  rw [hr] at hown
  refine ⟨by simpa [opens, renames, seesBody] using hown, ?_⟩
  have hcall := call_answers (s := w.state) (.readFile file) (call_ok hr)
  have hread : w.state.disk.content file = some body := by
    rw [hcall, answer] at hr
    cases hcontent : w.state.disk.content file with
    | none => simp [hcontent] at hr
    | some bytes => simpa [hcontent] using hr
  rcases hshown rfl with hnone | ⟨image, hm, hbody, htype⟩
  · rw [hread] at hnone
    cases hnone
  · refine ⟨image, answered_cons _ hm, Option.some.inj (hbody.symm.trans hread), ?_⟩
    rw [after, hcall]
    exact htype

/-- The upstream has answered with an image like that. -/
def Seen (file : Str) (pid t : Nat) (φ : CachedImage → Prop) (w : PosterWorld) : Prop :=
  At file pid t false false false w ∧ ∃ image ∈ answered w.trace, φ image

theorem seen_stable {φ : CachedImage → Prop} : (cache file t).Stable (Seen file pid t φ) := by
  refine cache_stable fun v e h ht hf => ?_
  obtain ⟨hat, image, hm, hφ⟩ := h
  exact ⟨hat.other ht hf, image, answered_cons e hm, hφ⟩

theorem readType_leads : (cache file t).Leads (Reading file pid t body) (.readFile (typePath file))
    (fun bytes => Seen file pid t fun image => image.body = body ∧ bytes = encode image.contentType)
    fun _ _ => False := by
  refine leads_unpublished (fun _ h => h.1.publishes) (fun _ _ => trivial) fun w c h hfails _ => ?_
  obtain ⟨hat, image, hm, hbody, htype⟩ := h
  have hr : (call w.state (.readFile (typePath file)) c).1 = .ok (encode image.contentType) := by
    rw [call_answers _ (hfails hat.reads), answer, htype]
    rfl
  have hown := hat.own (.readFile (typePath file)) c rfl
  rw [hr] at hown ⊢
  refine ⟨?_, fun e he => by cases he⟩
  intro bytes he
  refine ⟨?_, image, answered_cons _ hm, hbody, (Except.ok.inj he).symm⟩
  simpa [opens, renames, seesBody, seesType, typePath_ne] using hown

theorem openTemp_leads : (cache file t).Leads (Knows file pid t image) (.openFile (tempPath file pid))
    (fun handle => Storing file pid t image handle 0) fun _ => Knows file pid t image := by
  refine leads_unpublished (fun _ h => h.1.publishes) (fun w h => .inl (by rw [h.1.pid])) fun w c h _ _ =>
    ⟨fun handle hr => ?_, fun e hr => ⟨h.1.failed hr, answered_cons _ h.2⟩⟩
  have hcall := call_answers (s := w.state) (.openFile (tempPath file pid)) (call_ok hr)
  have hown := h.1.own (.openFile (tempPath file pid)) c rfl
  rw [hr] at hown
  refine ⟨?_, answered_cons _ h.2, ?_, ?_⟩
  · simpa [opens, renames, seesBody, tempPath_ne_type] using hown
  · rw [hcall] at hr
    obtain rfl : (w.state.disk.openFile (tempPath file pid) false).1 = handle := by simpa [answer] using hr
    rw [after, hcall]
    exact w.state.disk.openFile_links _ _
  · rw [after, hcall]
    exact w.state.disk.openFile_content _ _

theorem writeTemp_leads {handle n : Nat} {b : UInt8} (hb : image.body[n]? = some b) :
    (cache file t).Leads (Storing file pid t image handle n) (.write handle n b)
      (fun _ => Storing file pid t image handle (n + 1)) fun _ => Knows file pid t image := by
  refine leads_unpublished (fun _ h => h.1.publishes)
    (fun w h => .inl ⟨h.1.stores, by rw [h.1.pid]; exact h.2.2.1⟩) fun w c h _ _ =>
      ⟨fun u hr => ?_, fun e hr => ⟨h.1.failed hr, answered_cons _ h.2.1⟩⟩
  obtain ⟨hat, hm, hl, hcontent⟩ := h
  have hcall := call_answers (s := w.state) (.write handle n b) (call_ok hr)
  have hown := hat.own (.write handle n b) c rfl
  rw [hr] at hown
  refine ⟨?_, answered_cons _ hm, ?_, ?_⟩
  · simpa [opens, renames, closes, seesBody, failed] using hown
  · rw [after, hcall]
    exact hl
  · rw [after, hcall]
    exact Disk.write_content hl hcontent hb

theorem closeTemp_leads {handle : Nat} :
    (cache file t).Leads (Storing file pid t image handle image.body.length) (.close handle)
      (fun _ => Stored file pid t image) fun _ => Knows file pid t image := by
  refine leads_unpublished (fun _ h => h.1.publishes) (fun _ _ => trivial) fun w c h _ _ =>
    ⟨fun u hr => ?_, fun e hr => ⟨h.1.failed hr, answered_cons _ h.2.1⟩⟩
  obtain ⟨hat, hm, -, hcontent⟩ := h
  have hcall := call_answers (s := w.state) (.close handle) (call_ok hr)
  have hown := hat.own (.close handle) c rfl
  rw [hr] at hown
  refine ⟨?_, answered_cons _ hm, ?_⟩
  · simpa [opens, renames, seesBody, failed] using hown
  · rw [after, hcall]
    rwa [List.take_length] at hcontent

theorem rename_leads : (cache file t).Leads (Stored file pid t image)
    (.rename (tempPath file pid) file) (fun _ => Published file pid t image)
    fun _ => Knows file pid t image := by
  refine leads_unpublished (fun _ h => h.1.publishes)
    (fun w h => ⟨by rw [h.1.pid], rfl, h.1.stores⟩) fun w c h _ _ =>
      ⟨fun u hr => ?_, fun e hr => ⟨h.1.failed hr, answered_cons _ h.2.1⟩⟩
  obtain ⟨hat, hm, hcontent⟩ := h
  have hcall := call_answers (s := w.state) (.rename (tempPath file pid) file) (call_ok hr)
  have hown := hat.own (.rename (tempPath file pid) file) c rfl
  rw [hr] at hown
  refine ⟨?_, answered_cons _ hm, ?_⟩
  · simpa [opens, renames, seesBody] using hown
  · have hthere : (w.state.disk.links (tempPath file pid)).isSome := by
      obtain ⟨i, hi, -⟩ := Option.map_eq_some_iff.mp hcontent
      rw [hi]
      rfl
    rw [after, hcall, answer, if_pos hthere]
    exact (w.state.disk.content_rename_new _ _).trans hcontent

/-- A call that does not fail while the thread publishes, and does not end it. -/
theorem leads_publishing {P : PosterWorld → Prop} {Q : Val op → PosterWorld → Prop}
    (hP : ∀ w, P w → Published file pid t image w) (touches : ∀ w, P w → Touches file t w op)
    (answers : ∀ w c, P w → c.fails = false → ∃ a, (call w.state op c).1 = .ok a ∧
      At file pid t false true false (after t w op c) ∧ Q a (after t w op c)) :
    (cache file t).Leads P op Q fun _ _ => False := by
  refine leads touches (fun w c h _ hc => ?_) fun w c h hfails _ => ?_
  · obtain ⟨a, -, hat, -⟩ := answers w c h hc
    exact .inl hat.publishes
  · obtain ⟨a, ha, -, hQ⟩ := answers w c h (hfails (.inl (hP w h).1.publishes))
    rw [ha]
    refine ⟨fun a' he => ?_, fun e he => by cases he⟩
    cases he
    exact hQ

theorem openType_leads : (cache file t).Leads (Published file pid t image) (.openFile (typePath file))
    (fun handle => Typing file pid t image handle 0) fun _ _ => False := by
  refine leads_publishing (fun _ h => h) (fun w h => .inr ⟨rfl, h.1.publishes⟩) fun w c h hc => ?_
  obtain ⟨hat, hm, hbody⟩ := h
  have hcall := call_answers (s := w.state) (.openFile (typePath file)) hc
  have hr : (call w.state (.openFile (typePath file)) c).1 =
      .ok (w.state.disk.openFile (typePath file) false).1 := by rw [hcall, answer]
  have hown := hat.own (.openFile (typePath file)) c rfl
  rw [hr] at hown
  have hat' : At file pid t false true false (after t w (.openFile (typePath file)) c) := by
    simpa [opens, renames, closes, seesBody, failed] using hown
  refine ⟨_, hr, hat', ⟨hat', answered_cons _ hm, ?_⟩, ?_, ?_⟩
  · rw [after, hcall]
    exact (w.state.disk.openFile_content_of_ne (typePath_ne file).symm false).trans hbody
  · rw [after, hcall]
    exact w.state.disk.openFile_links _ _
  · rw [after, hcall]
    exact w.state.disk.openFile_content _ _

theorem writeType_leads {handle n : Nat} {b : UInt8} (hb : (encode image.contentType)[n]? = some b) :
    (cache file t).Leads (Typing file pid t image handle n) (.write handle n b)
      (fun _ => Typing file pid t image handle (n + 1)) fun _ _ => False := by
  refine leads_publishing (fun _ h => h.1) (fun w h => .inr ⟨h.1.1.publishes, h.2.1⟩) fun w c h hc => ?_
  obtain ⟨⟨hat, hm, hbody⟩, hl, hcontent⟩ := h
  have hcall := call_answers (s := w.state) (.write handle n b) hc
  have hr : (call w.state (.write handle n b) c).1 = .ok () := by rw [hcall, answer]
  have hown := hat.own (.write handle n b) c rfl
  rw [hr] at hown
  have hat' : At file pid t false true false (after t w (.write handle n b) c) := by
    simpa [opens, renames, closes, seesBody, failed] using hown
  refine ⟨_, hr, hat', ⟨hat', answered_cons _ hm, ?_⟩, ?_, ?_⟩
  · have hne : w.state.disk.links file ≠ some handle := fun hf =>
      typePath_ne file (w.state.disk.distinct _ _ _ hl hf)
    rw [after, hcall]
    exact (w.state.disk.write_sameAt hne (some n) b).2.trans hbody
  · rw [after, hcall]
    exact hl
  · rw [after, hcall]
    exact Disk.write_content hl hcontent hb

/-- The body is there with its type. -/
theorem closeType_leads {handle : Nat} : (cache file t).Leads
    (Typing file pid t image handle (encode image.contentType).length) (.close handle)
    (fun _ => Knows file pid t image) fun _ _ => False := by
  have hwhole {w : PosterWorld} {c : Choice} (hc : c.fails = false)
      (h : Typing file pid t image handle (encode image.contentType).length w) :
      Shown file (after t w (.close handle) c) := by
    obtain ⟨⟨hat, hm, hbody⟩, -, hcontent⟩ := h
    rw [List.take_length] at hcontent
    rw [after, call_answers _ hc]
    exact .inr ⟨image, answered_cons _ hm, hbody, hcontent⟩
  refine leads (fun _ _ => trivial) (fun w c h _ hc => .inr (hwhole hc h)) fun w c h hfails _ => ?_
  obtain ⟨⟨hat, hm, hbody⟩, -, hcontent⟩ := h
  have hr : (call w.state (.close handle) c).1 = .ok () := by
    rw [call_answers _ (hfails (.inl hat.publishes)), answer]
  have hown := hat.own (.close handle) c rfl
  rw [hr] at hown ⊢
  refine ⟨fun u _ => ⟨?_, answered_cons _ hm⟩, fun e he => by cases he⟩
  simpa [opens, renames, closes, seesBody] using hown

variable {W : Nat → Nat → PosterWorld → Prop} {P Q E : PosterWorld → Prop}

theorem writeAll_does {handle : Nat} {bytes : List UInt8} (hW : ∀ n, (cache file t).Stable (W handle n))
    (hE : (cache file t).Stable E) (h : ∀ n b, bytes[n]? = some b →
      (cache file t).Leads (W handle n) (.write handle n b) (fun _ => W handle (n + 1)) fun _ => E)
    (todo : List UInt8) (n : Nat) (hn : bytes.drop n = todo) (hle : n ≤ bytes.length) :
    (cache file t).Does (W handle n) (writeAll handle n todo) (fun _ => W handle bytes.length)
      fun _ => E := by
  induction todo generalizing n with
  | nil =>
    have hall : n = bytes.length := Nat.le_antisymm hle (List.drop_eq_nil_iff.mp hn)
    subst hall
    exact .pure (hW _) fun _ h => h
  | cons b todo ih =>
    have hlt : n < bytes.length := by
      by_contra hge
      rw [List.drop_eq_nil_of_le (by omega)] at hn
      cases hn
    have hb : bytes[n]? = some b := by
      rw [List.getElem?_eq_getElem hlt]
      rw [List.drop_eq_getElem_cons hlt] at hn
      rw [(List.cons.inj hn).1]
    refine .leads (hW n) (fun _ => hE) (h n b hb) fun _ => ih (n + 1) ?_ hlt
    rw [List.drop_eq_getElem_cons hlt] at hn
    exact (List.cons.inj hn).2

theorem writeFile_does {path : Str} {bytes : List UInt8} (hP : (cache file t).Stable P)
    (hW : ∀ handle n, (cache file t).Stable (W handle n)) (hQ : (cache file t).Stable Q)
    (hE : (cache file t).Stable E)
    (opened : (cache file t).Leads P (.openFile path) (fun handle => W handle 0) fun _ => E)
    (written : ∀ handle n b, bytes[n]? = some b →
      (cache file t).Leads (W handle n) (.write handle n b) (fun _ => W handle (n + 1)) fun _ => E)
    (closed : ∀ handle, (cache file t).Leads (W handle bytes.length) (.close handle) (fun _ => Q)
      fun _ => E)
    (gaveUp : ∀ handle, (cache file t).Leads E (.close handle) (fun _ => E) fun _ => E) :
    (cache file t).Does P (writeFile path bytes) (fun _ => Q) fun _ => E := by
  refine .leads hP (fun _ => hE) opened fun handle => ?_
  refine .bind (fun _ => hE) (Contract.Does.catch (fun _ => hW handle bytes.length)
    (writeAll_does (hW handle) hE (written handle) bytes 0 rfl (Nat.zero_le _)) fun e => ?_) fun _ => ?_
  · exact .leads hE (fun _ => hE) (gaveUp handle) fun _ => .throw hE fun _ h => h
  · exact .leads_last (hW handle bytes.length) (fun _ => hQ) (fun _ => hE) (closed handle)

theorem writeCache_does : (cache file t).Does (Knows file pid t image) (writeCache pid file image)
    (fun _ => Knows file pid t image) fun _ => Knows file pid t image := by
  have never : (cache file t).Stable fun _ => False := fun _ _ _ h => h
  refine .leads knows_stable (fun _ => knows_stable) (knows_leads rfl) fun _ => ?_
  refine .bind (fun _ => knows_stable) (writeFile_does (W := Storing file pid t image) knows_stable
    (fun _ _ => storing_stable) stored_stable knows_stable openTemp_leads
    (fun _ _ _ hb => writeTemp_leads hb) (fun _ => closeTemp_leads) fun _ => knows_leads rfl)
    fun _ => ?_
  refine .leads stored_stable (fun _ => knows_stable) rename_leads fun _ => ?_
  refine (writeFile_does (W := Typing file pid t image) published_stable (fun _ _ => typing_stable)
    knows_stable never openType_leads (fun _ _ _ hb => writeType_leads hb)
    (fun _ => closeType_leads) fun handle => ?_).conseq
    (fun _ h => h) (fun _ _ h => h) fun _ _ h => h.elim
  exact ⟨fun _ _ _ h => h.elim, fun _ _ _ h => h.elim, fun _ _ _ h => h.elim⟩

/-- An image of the upstream, or none. -/
def Serves (file : Str) (pid t : Nat) (served : Option CachedImage) (w : PosterWorld) : Prop :=
  At file pid t false false false w ∧ ∀ image, served = some image → image ∈ answered w.trace

theorem serves_stable {served : Option CachedImage} :
    (cache file t).Stable (Serves file pid t served) :=
  cache_stable fun _ e h ht hf => ⟨h.1.other ht hf, fun image hi => answered_cons e (h.2 image hi)⟩

theorem serves_none (h : At file pid t false false false w) : Serves file pid t none w :=
  ⟨h, fun _ hi => by cases hi⟩

/-- The type of an accepted image is read as it was written. -/
theorem answered_type (h : image ∈ answered trace) :
    trim (decode (encode image.contentType)) = image.contentType ∧ image.contentType ≠ [] := by
  have hall : ∀ text ∈ ALLOWED_CONTENT_TYPES, trim (decode (encode text)) = text ∧ text ≠ [] := by
    decide
  obtain ⟨e, -, he⟩ := List.mem_filterMap.mp h
  split at he
  · rename_i response _ _
    refine hall _ ?_
    simp only [Response.image] at he
    split at he
    · cases he
    split at he
    · cases he
    · rename_i hin
      obtain ⟨body, -, rfl⟩ := Option.map_eq_some_iff.mp he
      exact List.contains_iff_mem.mp (by simpa using hin)
  · cases he

theorem readCache_does : (cache file t).Does (At file pid t false false false) (readCache file)
    (Serves file pid t) fun _ _ => False := by
  refine .catch (F := fun _ => At file pid t false false false) (fun _ => serves_stable) ?_
    fun _ => .pure at_stable fun _ h => serves_none h
  refine .leads at_stable (fun _ => at_stable) (stat_leads file) fun age => ?_
  split
  · exact .pure at_stable fun _ h => serves_none h
  refine .leads at_stable (fun _ => at_stable) readBody_leads fun body => ?_
  have hread : (cache file t).Does (Reading file pid t body)
      (do
        let bytes ← run (.readFile (typePath file))
        pure (decode bytes))
      (fun text => Seen file pid t fun image => image.body = body ∧ trim text = image.contentType ∧
        image.contentType ≠ []) fun _ _ => False := by
    refine .leads reading_stable (fun _ _ _ _ h => h) readType_leads fun bytes => .pure seen_stable ?_
    rintro w ⟨hat, image, hm, hbody, rfl⟩
    exact ⟨hat, image, hm, hbody, (answered_type hm).1, (answered_type hm).2⟩
  refine .bind (fun _ => at_stable) (.catch (fun _ => seen_stable) hread fun _ _ h => False.elim h)
    fun text => .pure seen_stable ?_
  rintro w ⟨hat, image, hm, rfl, ht, hne⟩
  refine ⟨hat, fun served hs => ?_⟩
  obtain rfl : image = served := by simpa [ht, hne] using hs
  exact hm

theorem fetchUpstream_does {env : Env} {filename : Str} :
    (cache file t).Does (At file pid t false false false) (fetchUpstream env filename)
      (Serves file pid t) fun _ _ => False := by
  refine .catch (F := fun _ => At file pid t false false false) (fun _ => serves_stable) ?_
    fun _ => .pure at_stable fun _ h => serves_none h
  refine .leads at_stable (fun _ => at_stable) (request_leads _) fun response => ?_
  exact .pure serves_stable fun _ h => h

theorem getPoster_does {env : Env} {filename : Str} (hfile : env.cachePath filename = file) :
    (cache file t).Does (At file pid t false false false) (getPoster env pid filename)
      (Serves file pid t) fun _ _ => False := by
  have never : (cache file t).Stable fun _ => False := fun _ _ _ h => h
  rw [getPoster, hfile]
  refine .bind (fun _ => never) readCache_does fun cached => ?_
  cases cached with
  | some image => exact .pure serves_stable fun _ h => h
  | none =>
    refine .bind (fun _ => never) (fetchUpstream_does.conseq (fun _ h => h.1) (fun _ _ h => h)
      fun _ _ h => h) fun fetched => ?_
    cases fetched with
    | none => exact .pure serves_stable fun _ h => h
    | some image =>
      have hknows {w : PosterWorld} : Serves file pid t (some image) w ↔ Knows file pid t image w := by
        simp [Serves, Knows]
      refine .bind (Q := fun _ => Knows file pid t image) (fun _ => never)
        (.catch (fun _ => knows_stable) (writeCache_does.conseq (fun _ h => hknows.mp h)
          (fun _ _ h => h) fun _ _ h => h) fun _ => .pure knows_stable fun _ h => h) fun _ => ?_
      exact .pure knows_stable fun _ h => hknows.mpr h

end
end CircleFtp.Posters
