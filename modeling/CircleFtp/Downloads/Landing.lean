import CircleFtp.Downloads.Rows

/-! What `fetchFile` does to the disk: the part file holds a prefix of the remote content at any
time, and the destination holds all of it or is not there. -/
namespace CircleFtp.Downloads
open Concurrent Files Strings

/-- The files of a download on the disk, `R` being the remote content. -/
structure Landing (R : Bytes) (destination : Str) (d : Disk Str UInt8) : Prop where
  part : ∀ b, d.content (partPathFor destination) = some b → b <+: R
  file : ∀ b, d.content destination = some b → b = R

theorem partPathFor_ne (destination : Str) : partPathFor destination ≠ destination := by
  intro h
  have := congrArg List.length h
  simp [partPathFor, PART_SUFFIX] at this

/-- The total that the headers of an answer give, when it is right. -/
def CorrectTotal (R : Bytes) (offset : Nat) (response : Response) : Prop :=
  rangeTotal response.contentRange = some R.length ∨
    rangeTotal response.contentRange = none ∧ response.contentLength = some (R.length - offset)

/-- What a host that serves `R` answers to a request from `offset` on: a whole content, the rest
of it, or a refusal, with a body that may break off anywhere. A body that ends early without an
error came with a correct total. -/
structure Honest (R : Bytes) (offset : Nat) (response : Response) : Prop where
  whole : response.status = 200 → response.body <+: R
  rest : response.status = 206 → response.body <+: R.drop offset
  refused : response.status = 416 → R.length ≤ offset
  early : response.ending = none → response.status = 200 → response.body ≠ R →
    CorrectTotal R 0 response
  earlyRest : response.ending = none → response.status = 206 → response.body ≠ R.drop offset →
    CorrectTotal R offset response

instance (R : Bytes) (offset : Nat) (response : Response) :
    Decidable (CorrectTotal R offset response) := by
  unfold CorrectTotal
  infer_instance

instance (R : Bytes) (offset : Nat) (response : Response) : Decidable (Honest R offset response) :=
  decidable_of_iff ((response.status = 200 → response.body <+: R) ∧
      (response.status = 206 → response.body <+: R.drop offset) ∧
      (response.status = 416 → R.length ≤ offset) ∧
      (response.ending = none → response.status = 200 → response.body ≠ R → CorrectTotal R 0 response) ∧
      (response.ending = none → response.status = 206 → response.body ≠ R.drop offset →
        CorrectTotal R offset response))
    ⟨fun ⟨a, b, c, d, e⟩ => ⟨a, b, c, d, e⟩, fun ⟨a, b, c, d, e⟩ => ⟨a, b, c, d, e⟩⟩

theorem CorrectTotal.total {R : Bytes} {offset : Nat} {response : Response}
    (h : CorrectTotal R offset response) (hle : offset ≤ R.length) :
    totalFromHeaders response offset = some R.length := by
  rcases h with h | ⟨hn, h⟩
  · simp [totalFromHeaders, h]
  · simp only [totalFromHeaders, hn, h, Option.none_or, Option.map_some, Option.some.injEq]
    omega

/-- The files look the same, and the part file is the same file. -/
structure Alike (destination : Str) (d d' : Disk Str UInt8) : Prop where
  link : d'.links (partPathFor destination) = d.links (partPathFor destination)
  part : d'.content (partPathFor destination) = d.content (partPathFor destination)
  file : d'.content destination = d.content destination

/-- A step of the transfer: no other file changes, and what has landed stays. -/
structure Advances (R : Bytes) (destination : Str) (d d' : Disk Str UInt8) : Prop where
  landing : Landing R destination d'
  stays : d.content destination = some R → d'.content destination = some R
  others : ∀ p, p ≠ destination → p ≠ partPathFor destination → d'.content p = d.content p

/-- A contract under which a file can be fetched: `Q` is kept besides, `Told` holds of the totals
that are reported. -/
structure Serves {W : Type} (c : Contract W Op Reply) (disk : W → Disk Str UInt8) (R : Bytes)
    (options : FetchOptions) (Q : W → Prop) (Told : Option Nat → Prop) : Prop where
  expected : options.expectedSize.all (· = R.length)
  rely : ∀ {w w'}, Q w → c.rely w w' → Q w' ∧ Alike options.destination (disk w) (disk w')
  landing : ∀ {w o r w'}, Q w → c.act w o r w' → Landing R options.destination (disk w)
  call : ∀ {w o r w'}, c.act w o r w' →
    ∃ s s' choice, call s o choice = (r, s') ∧ s.disk = disk w ∧ s'.disk = disk w'
  keep : ∀ {w o r w'}, Q w → o.transfers → c.act w o r w' → Q w'
  guar : ∀ {w o r w'}, Q w → o.transfers → c.act w o r w' →
    Advances R options.destination (disk w) (disk w') → c.guar w o r w'
  honest : ∀ {w range response w'}, Q w →
    c.act w (.request options.url range options.controller) (.ok response) w' →
    Honest R (range.getD 0) response
  told : ∀ {w range response w'}, Q w →
    c.act w (.request options.url range options.controller) (.ok response) w' →
    response.status = 200 ∨ response.status = 206 → ∀ offset, (response.status = 200 → offset = 0) →
    (response.status = 206 → offset = range.getD 0) → Told (totalFromHeaders response offset)
  report : ∀ {w n t}, Q w → Told t → (options.onProgress n t).run.Safe c
    (fun _ v => Q v ∧ Alike options.destination (disk w) (disk v)) w

section
variable {R : Bytes} {destination : Str} {d d' d'' : Disk Str UInt8}

theorem Alike.refl (destination : Str) (d : Disk Str UInt8) : Alike destination d d := ⟨rfl, rfl, rfl⟩

theorem Alike.trans (h : Alike destination d d') (h' : Alike destination d' d'') :
    Alike destination d d'' :=
  ⟨h'.link.trans h.link, h'.part.trans h.part, h'.file.trans h.file⟩

theorem Landing.advances (h : Landing R destination d) : Advances R destination d d :=
  ⟨h, id, fun _ _ _ => rfl⟩

theorem Landing.remove_part (h : Landing R destination d) :
    Advances R destination d (d.remove (partPathFor destination)) := by
  have file := Disk.content_remove_of_ne d (partPathFor_ne destination).symm
  refine ⟨⟨fun b hb => ?_, fun b hb => h.file b (by rwa [file] at hb)⟩, fun hd => by rwa [file],
    fun p _ hp => Disk.content_remove_of_ne d hp⟩
  rw [Disk.content_remove_self] at hb
  cases hb

theorem Landing.rename_part (h : ∀ b, d.content (partPathFor destination) = some b → b = R)
    {i : Nat} (hi : d.links (partPathFor destination) = some i) :
    Advances R destination d (d.rename (partPathFor destination) destination) ∧
      (d.rename (partPathFor destination) destination).content destination = some R := by
  have file : (d.rename (partPathFor destination) destination).content destination = some R := by
    rw [Disk.content_rename_new]
    have hc : d.content (partPathFor destination) = some (d.contents i) := by simp [Disk.content, hi]
    rw [hc, h _ hc]
  refine ⟨⟨⟨fun b hb => ?_, fun b hb => ?_⟩, fun _ => file,
    fun p hp hp' => Disk.content_rename_of_ne d hp' hp⟩, file⟩
  · rw [Disk.content_rename_old d (partPathFor_ne destination)] at hb
    cases hb
  · rw [file] at hb
    exact (Option.some.inj hb).symm

theorem Landing.open_part (h : Landing R destination d) (keep : Bool) :
    Advances R destination d (d.openFile (partPathFor destination) keep).2 := by
  have file := Disk.openFile_content_of_ne d (partPathFor_ne destination).symm keep
  refine ⟨⟨fun b hb => ?_, fun b hb => h.file b (by rwa [file] at hb)⟩, fun hd => by rwa [file],
    fun p _ hp => Disk.openFile_content_of_ne d hp keep⟩
  rw [Disk.openFile_content] at hb
  obtain rfl := Option.some.inj hb
  cases keep with
  | false => exact List.nil_prefix
  | true =>
    cases hc : d.content (partPathFor destination) with
    | none => exact List.nil_prefix
    | some b => exact h.part b hc

/-- The part file is open and holds the first `n` bytes. -/
structure Writing (R : Bytes) (destination : Str) (file n : Nat) (d : Disk Str UInt8) : Prop where
  link : d.links (partPathFor destination) = some file
  part : d.content (partPathFor destination) = some (R.take n)
  le : n ≤ R.length

theorem Writing.alike {file n : Nat} (h : Writing R destination file n d)
    (ha : Alike destination d d') : Writing R destination file n d' :=
  ⟨ha.link.trans h.link, ha.part.trans h.part, h.le⟩

/-- A body that is a prefix of the rest gives the next byte. -/
theorem next_byte {n : Nat} {byte : UInt8} {body : Bytes} (h : byte :: body <+: R.drop n) :
    n + 1 ≤ R.length ∧ R.take (n + 1) = R.take n ++ [byte] ∧ body <+: R.drop (n + 1) := by
  obtain ⟨rest, hrest⟩ := h
  have hlt : n < R.length := by
    by_contra hn
    rw [List.drop_eq_nil_of_le (by omega)] at hrest
    cases hrest
  rw [List.drop_eq_getElem_cons hlt] at hrest
  obtain ⟨hb, ht⟩ := List.cons.inj hrest
  exact ⟨hlt, by rw [List.take_add_one, List.getElem?_eq_getElem hlt, hb]; rfl, rest, ht⟩

theorem Writing.write (h : Landing R destination d) {file n : Nat} (hw : Writing R destination file n d)
    {position : Option Nat} (hp : ∀ m, position = some m → m = n) {byte : UInt8} {body : Bytes}
    (hb : byte :: body <+: R.drop n) : Advances R destination d (d.write file position byte) ∧
      Writing R destination file (n + 1) (d.write file position byte) := by
  obtain ⟨hle, htake, -⟩ := next_byte hb
  have hc : d.contents file = R.take n := by
    have := hw.part
    rw [Disk.content, hw.link] at this
    exact Option.some.inj this
  have hlen : (d.contents file).length = n := by rw [hc, List.length_take, Nat.min_eq_left hw.le]
  have part : (d.write file position byte).content (partPathFor destination) =
      some (R.take (n + 1)) := by
    rw [Disk.write, Disk.content_put d hw.link, writeAt_end _ fun m hm => (hp m hm).trans hlen.symm,
      hc, htake]
  have others : ∀ p, p ≠ partPathFor destination →
      (d.write file position byte).content p = d.content p :=
    fun p hne => Disk.content_put_of_ne d (fun hl => hne (d.distinct _ _ file hl hw.link)) _
  have file := others destination (partPathFor_ne destination).symm
  refine ⟨⟨⟨fun b hb => ?_, fun b hb => h.file b (by rwa [file] at hb)⟩, fun hd => by rwa [file],
    fun p _ hp => others p hp⟩, hw.link, part, hle⟩
  rw [part] at hb
  rw [← Option.some.inj hb]
  exact List.take_prefix _ _

end
section
variable {W : Type} {c : Contract W Op Reply} {disk : W → Disk Str UInt8} {R : Bytes}
  {options : FetchOptions} {Q : W → Prop} {Told : Option Nat → Prop} {w w' : W}

/-- The file is there, and so many bytes were reported. -/
def Fetched (disk : W → Disk Str UInt8) (R : Bytes) (options : FetchOptions) (Q : W → Prop)
    (result : FetchResult) (w : W) : Prop :=
  Q w ∧ (disk w).content options.destination = some R ∧ result.bytes = R.length

theorem Fetched.stable (h : Serves c disk R options Q Told) {result : FetchResult}
    (hf : Fetched disk R options Q result w) (hr : c.rely w w') :
    Fetched disk R options Q result w' :=
  have ⟨hQ, ha⟩ := h.rely hf.1 hr
  ⟨hQ, ha.file.trans hf.2.1, hf.2.2⟩

/-- What a successful call makes of the disk. -/
theorem Serves.act_ok (h : Serves c disk R options Q Told) {o : Op} {a : Val o}
    (ha : c.act w o (.ok a) w') : ∃ s s' choice, perform s choice o = (.ok a, s') ∧
      s.disk = disk w ∧ s'.disk = disk w' := by
  obtain ⟨s, s', choice, hc, hs, hs'⟩ := h.call ha
  exact ⟨s, s', choice, call_ok hc, hs, hs'⟩

theorem Serves.act_error (h : Serves c disk R options Q Told) {o : Op} {e : Err}
    (ha : c.act w o (.error e) w') : disk w' = disk w := by
  obtain ⟨s, s', choice, hc, hs, hs'⟩ := h.call ha
  rw [← hs, ← hs', call_error hc]

/-- A call of the transfer whose effect, if there is any, is an advance. -/
theorem Serves.step (h : Serves c disk R options Q Told) (hQ : Q w) {o : Op} (ho : o.transfers)
    {r : Reply o} (ha : c.act w o r w') (hadv : ∀ a, r = .ok a →
      Advances R options.destination (disk w) (disk w')) : c.guar w o r w' ∧ Q w' := by
  refine ⟨h.guar hQ ho ha ?_, h.keep hQ ho ha⟩
  cases r with
  | ok a => exact hadv a rfl
  | error e =>
    rw [h.act_error ha]
    exact (h.landing hQ ha).advances

/-- A call that leaves the disk alone. -/
theorem Serves.quiet (h : Serves c disk R options Q Told) (hQ : Q w) {o : Op} (ho : o.transfers)
    {r : Reply o} (hs : ∀ s choice, (perform s choice o).2.disk = s.disk) (ha : c.act w o r w') :
    c.guar w o r w' ∧ Q w' ∧ disk w' = disk w := by
  have same : disk w' = disk w := by
    cases r with
    | error e => exact h.act_error ha
    | ok a =>
      obtain ⟨s, s', choice, hp, hd, hd'⟩ := h.act_ok ha
      rw [← hd', ← hd, ← hs s choice, hp]
  obtain ⟨hg, hQ'⟩ := h.step hQ ho ha fun _ _ => by
    rw [same]
    exact (h.landing hQ ha).advances
  exact ⟨hg, hQ', same⟩

/-- The size of a file, which counts as zero when it cannot be read. -/
theorem Serves.size (h : Serves c disk R options Q Told) {path : Str} {n : Nat}
    (ha : c.act w (.fileSize path) (.ok n) w') (hn : 0 < n) :
    ∃ b, (disk w).content path = some b ∧ b.length = n := by
  obtain ⟨s, s', choice, hp, hd, -⟩ := h.act_ok ha
  simp only [perform, Prod.mk.injEq, Except.ok.injEq] at hp
  rw [← hd]
  obtain ⟨hp, -⟩ := hp
  split at hp
  · exact absurd hp (Nat.ne_of_lt hn)
  · subst hp
    exact Disk.content_of_size_pos hn

theorem pipeline_safe (h : Serves c disk R options Q Told) {file : Nat} {append : Bool}
    {total : Option Nat} (ht : Told total) {ending : Option String} (body : Bytes) (written : Nat)
    (hb : body <+: R.drop written) (hQ : Q w)
    (hw : Writing R options.destination file written (disk w)) :
    (pipeline options file append total ending body written).run.Safe c
      (Program.split (fun n v => Q v ∧ (n = written + body.length ∧ ending = none) ∧
        Writing R options.destination file n (disk v)) fun _ => Q) w := by
  induction body generalizing written w with
  | nil =>
    cases ending with
    | none =>
      rw [pipeline]
      exact fun v hv => have ⟨hQv, ha⟩ := h.rely hQ hv; ⟨hQv, ⟨rfl, rfl⟩, hw.alike ha⟩
    | some message =>
      rw [pipeline]
      exact fun v hv => (h.rely hQ hv).1
  | cons byte body ih =>
    refine Program.Safe.except_bind (fun _ _ _ hr hq => (h.rely hq hr).1) ?_
    refine (h.report hQ ht).mono ?_
    rintro (e | _) v ⟨hQv, ha⟩
    · exact hQv
    refine Program.Safe.invoke_bind fun w₁ h₁ r w₂ ha₂ => ?_
    obtain ⟨hQ₁, ha₁⟩ := h.rely hQv h₁
    have hw₁ := (hw.alike ha).alike ha₁
    have hpos : ∀ m, (if append then none else some written) = some m → m = written := by
      intro m hm
      split at hm
      · cases hm
      · exact (Option.some.inj hm).symm
    have done : ∀ a, r = .ok a → Advances R options.destination (disk w₁) (disk w₂) ∧
        Writing R options.destination file (written + 1) (disk w₂) := by
      rintro a rfl
      obtain ⟨s, s', choice, hp, hd, hd'⟩ := h.act_ok ha₂
      obtain ⟨-, rfl⟩ := Prod.mk.inj hp
      rw [← hd', ← hd]
      exact Writing.write (hd ▸ h.landing hQ₁ ha₂) (hd ▸ hw₁) hpos hb
    obtain ⟨hg, hQ₂⟩ := h.step hQ₁ (by trivial) ha₂ fun a hr => (done a hr).1
    refine ⟨hg, ?_⟩
    rcases r with e | a
    · exact fun v hv => (h.rely hQ₂ hv).1
    · refine (ih (written + 1) (next_byte hb).2.2 hQ₂ (done a rfl).2).mono ?_
      rintro (e | n) v hv
      · exact hv
      · refine ⟨hv.1, ⟨?_, hv.2.1.2⟩, hv.2.2⟩
        rw [hv.2.1.1, List.length_cons]
        omega

/-- The body of an answer lands behind what was there, and is renamed only when it is complete. -/
theorem receive_safe (h : Serves c disk R options Q Told) {response : Response} {offset : Nat}
    (hQ : Q w) (hle : offset ≤ R.length)
    (hpart : 0 < offset → ∃ b, (disk w).content (partPathFor options.destination) = some b ∧
      b.length = offset)
    (hb : response.body <+: R.drop offset) (ht : Told (totalFromHeaders response offset))
    (hearly : response.ending = none → response.body ≠ R.drop offset →
      totalFromHeaders response offset = some R.length) :
    (receive options response offset).run.Safe c
      (Program.split (Fetched disk R options Q) fun _ => Q) w := by
  have stable : ∀ (e : Err) x y, c.rely x y → Q x → Q y := fun _ _ _ hr hq => (h.rely hq hr).1
  let Landed (n : Nat) (v : W) : Prop := Q v ∧ (n = offset + response.body.length ∧
    response.ending = none) ∧ ∃ file, Writing R options.destination file n (disk v)
  have landed {n : Nat} {v v' : W} (hv : Landed n v) (hr : c.rely v v') : Landed n v' := by
    obtain ⟨hQv, hn, file, hw⟩ := hv
    obtain ⟨hQ', ha⟩ := h.rely hQv hr
    exact ⟨hQ', hn, file, hw.alike ha⟩
  have opened : (do
      let file ← op (.openFile (partPathFor options.destination) (decide (0 < offset)))
      pipeline options file (decide (0 < offset)) (totalFromHeaders response offset) response.ending
        response.body offset : Flow Nat).run.Safe c (Program.split Landed fun _ => Q) w := by
    refine Program.Safe.invoke_bind fun w₁ h₁ r w₂ ha => ?_
    obtain ⟨hQ₁, ha₁⟩ := h.rely hQ h₁
    have hland := h.landing hQ₁ ha
    have effect : ∀ i, r = .ok i → Writing R options.destination i offset (disk w₂) ∧
        Advances R options.destination (disk w₁) (disk w₂) := by
      rintro i rfl
      obtain ⟨s, s', choice, hp, hd, hd'⟩ := h.act_ok ha
      simp only [perform, Prod.mk.injEq, Except.ok.injEq] at hp
      obtain ⟨rfl, rfl⟩ := hp
      rw [← hd', ← hd]
      refine ⟨⟨Disk.openFile_links _ _ _, ?_, hle⟩, (hd ▸ hland).open_part _⟩
      rw [Disk.openFile_content, hd, ha₁.part]
      by_cases hpos : 0 < offset
      · obtain ⟨b, hb', rfl⟩ := hpart hpos
        have := List.prefix_iff_eq_take.mp (hland.part b (ha₁.part.trans hb'))
        simpa [hpos, hb'] using this
      · have : offset = 0 := by omega
        simp [this]
    obtain ⟨hg, hQ₂⟩ := h.step hQ₁ (by trivial) ha fun i hi => (effect i hi).2
    refine ⟨hg, ?_⟩
    rcases r with e | i
    · exact fun v hv => (h.rely hQ₂ hv).1
    · refine (pipeline_safe h ht response.body offset hb hQ₂ (effect i rfl).1).mono ?_
      rintro (e | n) v hv
      · exact hv
      · exact ⟨hv.1, hv.2.1, i, hv.2.2⟩
  have tried : (tryCatch (do
      let file ← op (.openFile (partPathFor options.destination) (decide (0 < offset)))
      pipeline options file (decide (0 < offset)) (totalFromHeaders response offset) response.ending
        response.body offset) fun error => do
      if ← op (.aborted options.controller) then throw .cancelled else throw error :
      Flow Nat).run.Safe c (Program.split Landed fun _ => Q) w := by
    refine Program.Safe.tryCatch (fun n _ _ hr hn => landed hn hr) (opened.mono ?_)
    rintro (e | n) v hv
    · refine Program.Safe.invoke_bind fun w₁ h₁ r w₂ ha => ?_
      obtain ⟨hg, hQ₂, -⟩ := h.quiet (h.rely hv h₁).1 (by trivial) (fun _ _ => rfl) ha
      refine ⟨hg, ?_⟩
      rcases r with e | b
      · exact fun v hv => (h.rely hQ₂ hv).1
      · cases b <;> exact fun v hv => (h.rely hQ₂ hv).1
    · exact hv
  refine Program.Safe.except_bind stable (tried.mono ?_)
  rintro (e | n) v hv
  · exact hv
  refine Program.Safe.except_bind stable ((h.report hv.1 ht).mono ?_)
  rintro (e | _) v' ⟨hQ', ha'⟩
  · exact hQ'
  obtain ⟨-, ⟨hn, hend⟩, file, hw⟩ := hv
  replace hw := hw.alike ha'
  split
  · exact fun v hv => (h.rely hQ' hv).1
  -- the part file is complete
  have full : n = R.length := by
    have hmax : response.body.length ≤ (R.drop offset).length := hb.length_le
    rw [List.length_drop] at hmax
    by_cases he : response.body = R.drop offset
    · rw [hn, he, List.length_drop]
      omega
    · have := hearly hend he
      simp_all
      omega
  subst full
  refine Program.Safe.invoke_bind fun w₁ h₁ r w₂ ha => ?_
  obtain ⟨hQ₁, ha₁⟩ := h.rely hQ' h₁
  have hw₁ := hw.alike ha₁
  have effect : ∀ a, r = .ok a → Advances R options.destination (disk w₁) (disk w₂) ∧
      (disk w₂).content options.destination = some R := by
    rintro a rfl
    obtain ⟨s, s', choice, hp, hd, hd'⟩ := h.act_ok ha
    rw [← hd] at hw₁
    simp only [perform, hw₁.link, Prod.mk.injEq] at hp
    obtain ⟨-, rfl⟩ := hp
    rw [← hd', ← hd]
    refine Landing.rename_part (fun b hb => ?_) hw₁.link
    rw [hw₁.part, List.take_length] at hb
    exact (Option.some.inj hb).symm
  obtain ⟨hg, hQ₂⟩ := h.step hQ₁ (by trivial) ha fun a ha => (effect a ha).1
  refine ⟨hg, ?_⟩
  rcases r with e | a
  · exact fun v hv => (h.rely hQ₂ hv).1
  · exact fun v hv => Fetched.stable h ⟨hQ₂, (effect a rfl).2, rfl⟩ hv

/-- What an answer is worth, when it is asked for from the end of the part file on. -/
theorem answer_safe (h : Serves c disk R options Q Told) {response : Response} {offset : Nat}
    (hQ : Q w) (hle : offset ≤ R.length)
    (hpart : 0 < offset → ∃ b, (disk w).content (partPathFor options.destination) = some b ∧
      b.length = offset)
    (hh : Honest R offset response)
    (ht : response.status = 200 ∨ response.status = 206 → ∀ n, (response.status = 200 → n = 0) →
      (response.status = 206 → n = offset) → Told (totalFromHeaders response n)) :
    (if response.status = 416 then do
        op .dump
        op (.rename (partPathFor options.destination) options.destination)
        pure ⟨offset, false⟩
      else if response.status = 200 ∧ 0 < offset then do
        op (.remove (partPathFor options.destination))
        receive options response 0
      else if response.status ≠ 200 ∧ response.status ≠ 206 then do
        op .dump
        throw (.error s!"HTTP {response.status} from the file host")
      else receive options response offset : Flow FetchResult).run.Safe c
      (Program.split (Fetched disk R options Q) fun _ => Q) w := by
  have failed {v : W} (hv : Q v) : ∀ u, c.rely v u → Q u := fun u hu => (h.rely hv hu).1
  have dumped (h₁ : ∀ {v : W}, c.rely w v → Q v ∧ Alike options.destination (disk w) (disk v))
      {f : Unit → Flow FetchResult} (hf : ∀ v, Q v → Alike options.destination (disk w) (disk v) →
        (f ()).run.Safe c (Program.split (Fetched disk R options Q) fun _ => Q) v) :
      (op .dump >>= f).run.Safe c (Program.split (Fetched disk R options Q) fun _ => Q) w := by
    refine Program.Safe.invoke_bind fun w₁ hr r w₂ ha => ?_
    obtain ⟨hQ₁, ha₁⟩ := h₁ hr
    obtain ⟨hg, hQ₂, hsame⟩ := h.quiet hQ₁ (by trivial) (fun _ _ => rfl) ha
    refine ⟨hg, ?_⟩
    rcases r with e | _
    · exact failed hQ₂
    · exact hf w₂ hQ₂ (by rw [hsame]; exact ha₁)
  split
  · rename_i h416
    have hmax := hh.refused h416
    refine dumped (h.rely hQ) fun v hQv hv => ?_
    refine Program.Safe.invoke_bind fun w₁ hr r w₂ ha => ?_
    obtain ⟨hQ₁, ha₁⟩ := h.rely hQv hr
    have hland := h.landing hQ₁ ha
    have whole : ∀ b, (disk w₁).content (partPathFor options.destination) = some b → b = R := by
      intro b hb
      have hpre := hland.part b hb
      refine hpre.eq_of_length_le ?_
      by_cases hpos : 0 < offset
      · obtain ⟨b', hb', hlen⟩ := hpart hpos
        rw [ha₁.part, hv.part, hb'] at hb
        obtain rfl := Option.some.inj hb
        omega
      · omega
    have effect : ∀ a, r = .ok a → Advances R options.destination (disk w₁) (disk w₂) ∧
        (disk w₂).content options.destination = some R := by
      rintro a rfl
      obtain ⟨s, s', choice, hp, hd, hd'⟩ := h.act_ok ha
      simp only [perform] at hp
      split at hp
      · cases hp
      · obtain ⟨-, rfl⟩ := Prod.mk.inj hp
        rw [← hd', ← hd]
        exact Landing.rename_part (hd ▸ whole) ‹_›
    obtain ⟨hg, hQ₂⟩ := h.step hQ₁ (by trivial) ha fun a ha => (effect a ha).1
    refine ⟨hg, ?_⟩
    rcases r with e | a
    · exact failed hQ₂
    · exact fun u hu => Fetched.stable h ⟨hQ₂, (effect a rfl).2, by simp only; omega⟩ hu
  split
  · rename_i h200
    refine Program.Safe.invoke_bind fun w₁ hr r w₂ ha => ?_
    obtain ⟨hQ₁, ha₁⟩ := h.rely hQ hr
    obtain ⟨hg, hQ₂⟩ := h.step hQ₁ (by trivial) ha fun a hr => by
      subst hr
      obtain ⟨s, s', choice, hp, hd, hd'⟩ := h.act_ok ha
      obtain ⟨-, rfl⟩ := Prod.mk.inj hp
      rw [← hd', ← hd]
      exact (hd ▸ h.landing hQ₁ ha).remove_part
    refine ⟨hg, ?_⟩
    rcases r with e | _
    · exact failed hQ₂
    · exact receive_safe h hQ₂ (Nat.zero_le _) (by simp) (hh.whole h200.1)
        (ht (.inl h200.1) 0 (fun _ => rfl) fun h => absurd (h200.1.symm.trans h) (by decide))
        fun hend hne => (hh.early hend h200.1 hne).total (Nat.zero_le _)
  split
  · exact dumped (h.rely hQ) fun v hQv _ => failed hQv
  · have cases : (response.status = 200 ∧ offset = 0) ∨ response.status = 206 := by omega
    rcases cases with ⟨h200, rfl⟩ | h206
    · exact receive_safe h hQ hle hpart (hh.whole h200)
        (ht (.inl h200) 0 (fun _ => rfl) fun h => absurd (h200.symm.trans h) (by decide))
        fun hend hne => (hh.early hend h200 hne).total hle
    · exact receive_safe h hQ hle hpart (hh.rest h206)
        (ht (.inr h206) offset (fun h => absurd (h206.symm.trans h) (by decide)) fun _ => rfl)
        fun hend hne => (hh.earlyRest hend h206 hne).total hle

theorem transfer_safe (h : Serves c disk R options Q Told) (hQ : Q w) :
    (transfer options).run.Safe c (Program.split (Fetched disk R options Q) fun _ => Q) w := by
  refine Program.Safe.invoke_bind fun w₁ h₁ r w₂ ha => ?_
  have hQ₁ := (h.rely hQ h₁).1
  have hland := h.landing hQ₁ ha
  obtain ⟨hg, hQ₂, hsame⟩ := h.quiet hQ₁ (by trivial) (fun s choice => by simp [perform]) ha
  refine ⟨hg, ?_⟩
  rcases r with e | (offset : Nat)
  · exact fun v hv => (h.rely hQ₂ hv).1
  have hpart : 0 < offset → ∃ b, (disk w₂).content (partPathFor options.destination) = some b ∧
      b.length = offset := fun hpos => by rw [hsame]; exact h.size ha hpos
  have hle : offset ≤ R.length := by
    by_cases hpos : 0 < offset
    · obtain ⟨b, hb, rfl⟩ := hpart hpos
      rw [hsame] at hb
      exact (hland.part b hb).length_le
    · omega
  refine Program.Safe.invoke_bind fun w₃ h₃ r w₄ ha => ?_
  obtain ⟨hQ₃, ha₃⟩ := h.rely hQ₂ h₃
  obtain ⟨hg, hQ₄, hsame⟩ := h.quiet hQ₃ (by trivial) (fun s choice => by
    simp only [perform]
    split <;> rfl) ha
  refine ⟨hg, ?_⟩
  rcases r with e | response
  · exact fun v hv => (h.rely hQ₄ hv).1
  have hrange : (if 0 < offset then some offset else none).getD 0 = offset := by
    split
    · rfl
    · simp only [Option.getD_none]
      omega
  refine answer_safe h hQ₄ hle (fun hpos => ?_) (hrange ▸ h.honest hQ₃ ha) fun hs n h0 hn =>
    h.told hQ₃ ha hs n h0 fun h206 => (hn h206).trans hrange.symm
  obtain ⟨b, hb, hlen⟩ := hpart hpos
  exact ⟨b, by rw [hsame, ha₃.part, hb], hlen⟩

/-- However it goes, nothing but the remote content lands; a fetch that succeeds leaves all of it. -/
theorem fetchFile_safe (h : Serves c disk R options Q Told) (hQ : Q w) :
    (fetchFile options).run.Safe c (Program.split (Fetched disk R options Q) fun _ => Q) w := by
  refine Program.Safe.invoke_bind fun w₁ h₁ r w₂ ha => ?_
  obtain ⟨hg, hQ₂, -⟩ := h.quiet (h.rely hQ h₁).1 (by trivial) (fun _ _ => rfl) ha
  refine ⟨hg, ?_⟩
  rcases r with e | _
  · exact fun v hv => (h.rely hQ₂ hv).1
  refine Program.Safe.invoke_bind fun w₃ h₃ r w₄ ha => ?_
  have hQ₃ := (h.rely hQ₂ h₃).1
  have hland := h.landing hQ₃ ha
  obtain ⟨hg, hQ₄, hsame⟩ := h.quiet hQ₃ (by trivial) (fun s choice => by simp [perform]) ha
  refine ⟨hg, ?_⟩
  rcases r with e | size
  · exact fun v hv => (h.rely hQ₄ hv).1
  simp only
  split
  · -- a file that is there is the whole content
    obtain ⟨b, hb, rfl⟩ := h.size ha ‹_›
    obtain rfl := hland.file b hb
    rw [if_pos h.expected]
    exact fun v hv => Fetched.stable h ⟨hQ₄, hsame ▸ hb, rfl⟩ hv
  · exact transfer_safe h hQ₄

end
end CircleFtp.Downloads
