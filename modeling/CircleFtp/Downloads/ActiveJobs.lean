import CircleFtp.Concurrent.History
import CircleFtp.Downloads.Rows
import CircleFtp.Downloads.Slots

/-! One active job per title: the check is made when a job is created, before its insert, and not
at all when an old one is queued again. -/
namespace CircleFtp.Downloads
open Concurrent Strings Titles

/-- At most one download of a post is queued or running. -/
def OneActive (s : State) : Prop := ∀ i j d d', s.downloads.rows i = some d →
  s.downloads.rows j = some d' → d.status.active = true → d'.status.active = true →
  d.postId = d'.postId → i = j

/-- No download of the post is queued or running. -/
def NoneActive (postId : Nat) (s : State) : Prop :=
  ∀ i d, s.downloads.rows i = some d → d.postId = postId → d.status.active = false

/-- An event that makes a download of the post active. -/
def Activates (postId : Nat) (e : DownloadEvent) : Prop := ∃ i d, e.after.downloads.rows i = some d ∧
  d.postId = postId ∧ d.status.active = true ∧
  ∀ d₀, e.before.downloads.rows i = some d₀ → d₀.postId = postId → d₀.status.active = false

/-- No download of the post has become active since the first call of a request that inserts one,
and none but the retried one is active when a job is queued again. -/
def NotRaced (p : DownloadPool) : DownloadLabel → Prop
  | .exec t _ => ∀ k o rest, p.threads t = some ⟨k, .call o rest⟩ →
      (∀ d, o = .createDownload d → History.Since (¬ Activates d.postId ·) p.trace t) ∧
      ∀ id d, o = .requeue id → p.state.downloads.rows id = some d → ∀ j d',
        p.state.downloads.rows j = some d' → d'.postId = d.postId → d'.status.active = true → j = id
  | _ => True

section
variable {s s' : State} {o : Op} {c : Choice} {r : Reply o} {k : Task}

/-- An active row was an active row of the same post before, unless it was just queued. -/
theorem active_before (h : call s o c = (r, s')) (hm : o.MadeBy k) (hn : ∀ d, o ≠ .createDownload d)
    {id : Nat} {d' : Download} (hd' : s'.downloads.rows id = some d')
    (ha : d'.status.active = true) : ∃ d, s.downloads.rows id = some d ∧ d.postId = d'.postId ∧
      (o ≠ .requeue id → d.status.active = true) := by
  cases hd : s.downloads.rows id with
  | none => exact absurd (call_new_row h hd hd').1 (hn d')
  | some d =>
    refine ⟨d, rfl, ?_⟩
    rcases call_row h hd with hsame | ⟨-, hrow⟩
    · rw [hsame] at hd'
      cases hd'
      exact ⟨rfl, fun _ => ha⟩
    · rw [hd'] at hrow
      cases hrow with
      | update change =>
        cases change with
        | totals => exact ⟨rfl, fun _ => ha⟩
        | requestCancel => exact ⟨rfl, fun _ => ha⟩
        | finish status error => exact absurd ha (by simp [DownloadChange.apply, hm.1])
        | failed error => exact absurd ha (by simp [DownloadChange.apply, Status.active])
        | cancelQueued => exact absurd ha (by simp [DownloadChange.apply, Status.active])
      | file => exact ⟨rfl, fun _ => ha⟩
      | cancelFiles => exact ⟨rfl, fun _ => ha⟩
      | requeue => exact ⟨rfl, fun hr => absurd rfl hr⟩
      | claim hq => exact ⟨rfl, fun _ => by simp [Status.active, hq]⟩
      | requeueRunning hq => exact ⟨rfl, fun _ => by simp [Status.active, hq]⟩
      | resetFiles => exact ⟨rfl, fun _ => ha⟩

/-- What an insert and a requeue have to find. -/
theorem call_oneActive (h : call s o c = (r, s')) (hm : o.MadeBy k) (hs : OneActive s)
    (hcreate : ∀ d, o = .createDownload d → NoneActive d.postId s)
    (hretry : ∀ id d, o = .requeue id → s.downloads.rows id = some d → ∀ j d',
      s.downloads.rows j = some d' → d'.postId = d.postId → d'.status.active = true → j = id) :
    OneActive s' := by
  intro i j d d' hd hd' ha ha' hp
  by_cases hc : ∃ row, o = .createDownload row
  · obtain ⟨row, rfl⟩ := hc
    have none := hcreate row rfl
    rcases call_cases s (.createDownload row) c with ⟨m, hmsg⟩ | hperf
    · rw [hmsg] at h
      cases h
      exact hs i j d d' hd hd' ha ha' hp
    rw [hperf] at h
    cases h
    rcases Table.insert_rows hd with ⟨rfl, rfl⟩ | ⟨-, hold⟩ <;>
      rcases Table.insert_rows hd' with ⟨rfl, rfl⟩ | ⟨-, hold'⟩
    · rfl
    · exact absurd ha' (by simp [none j d' hold' hp.symm])
    · exact absurd ha (by simp [none i d hold hp])
    · exact hs i j d d' hold hold' ha ha' hp
  · have hn : ∀ row, o ≠ .createDownload row := fun row e => hc ⟨row, e⟩
    obtain ⟨d₀, hd₀, hp₀, ha₀⟩ := active_before h hm hn hd ha
    obtain ⟨d₁, hd₁, hp₁, ha₁⟩ := active_before h hm hn hd' ha'
    have same : d₀.postId = d₁.postId := by rw [hp₀, hp₁, hp]
    by_cases hi : o = .requeue i
    · by_cases hj : o = .requeue j
      · rw [hi] at hj
        exact (Op.requeue.inj hj)
      · exact (hretry i d₀ hi hd₀ j d₁ hd₁ same.symm (ha₁ hj)).symm
    · by_cases hj : o = .requeue j
      · exact hretry j d₁ hj hd₁ i d₀ hd₀ same (ha₀ hi)
      · exact hs i j d₀ d₁ hd₀ hd₁ (ha₀ hi) (ha₁ hj) same

end

/-- As long as no download of the post becomes active, none is. -/
def Vacant (t postId : Nat) (w : DownloadWorld) : Prop :=
  History.Guarded (¬ Activates postId ·) (fun v => NoneActive postId v.state) t w

theorem Vacant.stable {P : DownloadWorld → DownloadEvent → Prop} {t postId : Nat}
    {w w' : DownloadWorld} (h : Vacant t postId w) (hr : History.rely P t w w') :
    Vacant t postId w' := by
  refine History.Guarded.stable (fun v e hn hb ha i d hd hp => ?_) h hr
  by_contra hact
  refine ha ⟨i, d, hd, hp, by simpa using hact, fun d₀ hd₀ hp₀ => ?_⟩
  rw [hb] at hd₀
  exact hn i d₀ hd₀ hp₀

def creations : Ledger State Task Op Reply Arrival Result where
  admits _ _ _ _ := True
  may t _ w o r s := (∃ c, call w.state o c = (r, s)) ∧
    ∀ d, o = .createDownload d → History.Since (¬ Activates d.postId ·) w.trace t
  guar _ _ w o _ _ := ∀ d, o = .createDownload d → NoneActive d.postId w.state
  post _ _ _ _ := True

section
variable {env : Env} {t postId : Nat} {k : Task} {w w' : DownloadWorld}

abbrev creationContract (t : Nat) (k : Task) : Contract DownloadWorld Op Reply :=
  creations.discipline.contract t k

theorem createDownload_safe (seasons : List Str) : (createDownload env postId seasons).run.Safe
    (creationContract t k) (fun _ _ => True) w := by
  refine Program.Safe.invoke_bind fun w₁ _ r w₂ ha => ⟨fun _ h => Op.noConfusion h, ?_⟩
  rcases r with e | _ | id
  · exact fun _ _ => trivial
  · have hg : Vacant t postId w₂ := by
      obtain ⟨c, hc⟩ := ha.2.1
      have hp := call_ok hc
      simp only [perform, Prod.mk.injEq, Except.ok.injEq] at hp
      refine History.Guarded.read ha.1 fun i d hd hpost => ?_
      rw [← hp.2] at hd
      simpa [hpost] using Table.findFirst_none hp.1 hd
    refine Program.Safe.invoke_bind fun w₃ h₃ r w₄ ha => ⟨fun _ h => Op.noConfusion h, ?_⟩
    rcases r with e | post
    · exact fun _ _ => trivial
    have hg₄ : Vacant t postId w₄ := by
      obtain ⟨c, hc⟩ := ha.2.1
      have hp := call_ok hc
      have hs : w₄.state = w₃.state := by
        simp only [perform] at hp
        split at hp <;> exact (congrArg Prod.snd hp).symm
      exact History.Guarded.act (hg.stable h₃) ha.1 fun hn => by simpa only [hs] using hn
    simp only
    split
    · exact fun _ _ => trivial
    refine Program.Safe.invoke_bind fun w₅ h₅ r w₆ ha => ⟨fun d hd => ?_, ?_⟩
    · cases hd
      exact (hg₄.stable h₅).2 (ha.2.2 _ rfl)
    rcases r with e | id
    · exact fun _ _ => trivial
    · exact Program.Safe.invoke fun _ _ _ _ _ => ⟨fun _ h => Op.noConfusion h, fun _ _ => trivial⟩
  · exact fun _ _ => trivial

theorem Op.MadeBy.creates {o : Op} {k : Task} {d : Download} (h : o.MadeBy k)
    (ho : o = .createDownload d) : ∃ postId seasons, k = .request (.create postId seasons) := by
  subst ho
  obtain ⟨⟨seasons, hk⟩, -⟩ := h
  exact ⟨_, seasons, hk⟩

theorem creation_safe {th : DownloadThread} (h : Begins env th) :
    creations.discipline.SafeThread t th w := by
  have other (hk : ∀ postId seasons, th.kind ≠ .request (.create postId seasons)) :
      creations.discipline.SafeThread t th w := by
    refine .of_uses (fun _ o _ _ ho _ d hd => ?_) h.uses
    obtain ⟨postId, seasons, e⟩ := ho.creates hd
    exact absurd e (hk postId seasons)
  cases h with
  | request r =>
    cases r with
    | create postId seasons =>
      have flow : (Request.flow env (.create postId seasons)).run.Safe (creationContract t
          (.request (.create postId seasons))) (fun _ _ => True) w :=
        .tryCatch_any (createDownload_safe seasons) fun _ _ _ _ => trivial
      exact .bind (flow.mono fun _ _ _ _ _ => trivial)
    | _ => exact other (by simp)
  | _ => exact other (by simp)

end

theorem creations_keeps (env : Env) : creations.Keeps (system env) NotRaced
    fun p => SlotsKept env p ∧ OneActive p.state where
  may _ hok ht he := by
    obtain ⟨-, hc, rfl⟩ := system_exec he
    exact ⟨⟨_, hc⟩, fun d hd => (hok _ _ _ ht).1 d hd⟩
  exec hI hok ht he hg := by
    obtain ⟨-, hc, -⟩ := system_exec he
    refine ⟨⟨hI.1.exec ht he, ?_⟩, fun _ _ _ _ => trivial, fun th hth _ _ =>
      creation_safe ((system_begins env).exec he th hth)⟩
    rw [Pool.didCall_state]
    exact call_oneActive hc (hI.1.uses _ _ ht).1 hI.2 hg (hok _ _ _ ht).2
  finish hI _ ht _ := by
    refine ⟨⟨hI.1.finish ht, ?_⟩, fun _ _ _ _ => trivial, fun th hth _ _ =>
      creation_safe ((system_begins env).finish _ _ _ th hth)⟩
    rw [Pool.didEnd_state]
    exact hI.2
  external {p x s dies ths} hI _ he := by
    refine ⟨⟨hI.1.external he, ?_⟩, fun _ _ _ _ => trivial, fun th hth _ _ =>
      creation_safe ((system_begins env).external he th hth)⟩
    rw [Pool.didOuter_state]
    rw [OneActive, (arrive_keeps he).1]
    exact hI.2

/-- As long as no job of the title becomes active between the check of a request and its insert,
and none is active when another is queued again, every run has at most one active job per title. -/
theorem one_active_per_post (env : Env) {s : State} (hs : s.Down) (h : OneActive s) {p : DownloadPool}
    (hr : (system env).Runs NotRaced (.initial s) p) : OneActive p.state :=
  ((creations_keeps env).keeps.safe ⟨.initial env hs, h⟩ (Discipline.allSafe_initial _ s) hr).1.2

/-- A post with one file. -/
def smallPost : RawPost where
  name := some ['G']
  type := some "singleFile".toList
  content := .text ['v']

theorem oneJob_oneActive : OneActive oneJob := by
  intro i j d d' hd hd' _ _ _
  rcases Table.insert_rows hd with ⟨rfl, -⟩ | ⟨hi, -⟩
  · rcases Table.insert_rows hd' with ⟨rfl, -⟩ | ⟨hj, -⟩
    · rfl
    · cases hj
  · cases hi

/-- The failed job is retried after a new one for its title was created. -/
theorem retry_races_new_job : ¬ ∀ (env : Env) (s : State) (p : DownloadPool), s.Down → OneActive s →
    (system env).Runs (fun _ _ => True) (.initial s) p → OneActive p.state := by
  intro h
  have hrun : ((system (.small 2)).replay (fun _ _ => true) (.initial oneJob)
      (bootUp ++ failJob ++ [.external (.request (.create 1 [])), .exec 4 {},
        .exec 4 { post := .ok smallPost }] ++ calls 4 2 ++ [.finish 4,
        .external (.request (.retry 0))] ++ calls 5 2)).any (fun p =>
      (p.state.downloads.rows 0).any (fun d => d.postId = 1 && d.status.active) ∧
      (p.state.downloads.rows 1).any (fun d => d.postId = 1 && d.status.active)) = true := by decide
  obtain ⟨p, hp, hn⟩ := Option.any_eq_true _ _ |>.mp hrun
  obtain ⟨h₀, h₁⟩ := of_decide_eq_true hn
  obtain ⟨d₀, hd₀, ha₀⟩ := Option.any_eq_true _ _ |>.mp h₀
  obtain ⟨d₁, hd₁, ha₁⟩ := Option.any_eq_true _ _ |>.mp h₁
  simp only [Bool.and_eq_true, decide_eq_true_eq] at ha₀ ha₁
  have := h (.small 2) oneJob p oneJob_down oneJob_oneActive ((system (.small 2)).replay_runs (fun _ _ _ => trivial) hp)
    0 1 d₀ d₁ hd₀ hd₁ ha₀.2 ha₁.2 (ha₀.1.trans ha₁.1.symm)
  cases this

/-- Jobs are created by requests whose calls follow one another, and queued again alone. -/
def unraced (p : DownloadPool) : DownloadLabel → Bool
  | .exec t c =>
    match p.threads t with
    | some ⟨_, .call (.createDownload _) _⟩ => History.uninterrupted p (.exec t c : DownloadLabel)
    | some ⟨_, .call (.requeue id) _⟩ => (List.range p.state.downloads.next).all fun j =>
        decide (j = id) || (p.state.downloads.rows j).all fun d' => ! d'.status.active ||
          (p.state.downloads.rows id).all fun d => d'.postId ≠ d.postId
    | _ => true
  | _ => true

theorem unraced_notRaced {p : DownloadPool} {l : DownloadLabel} (h : unraced p l = true) :
    NotRaced p l := by
  cases l with
  | exec t c =>
    refine fun k o rest ht => ⟨?_, ?_⟩
    · rintro d rfl
      simp only [unraced, ht] at h
      exact History.Since.of_consecutive h
    · rintro id d rfl hd j d' hd' hp ha
      simp only [unraced, ht, List.all_eq_true, List.mem_range] at h
      simpa [hd, hd', ha, hp] using h j (Table.lt_next hd')
  | _ => trivial

/-- A job of another title is created, and the failed one is retried. -/
theorem one_active_per_post_retried : ∃ p, (system (.small 2)).Runs NotRaced (.initial oneJob) p ∧
    p.state.downloads.next = 2 ∧ OneActive p.state := by
  have hrun : ((system (.small 2)).replay unraced (.initial oneJob)
      (bootUp ++ failJob ++ [.external (.request (.create 2 [])), .exec 4 {},
        .exec 4 { post := .ok smallPost }] ++ calls 4 2 ++ [.finish 4,
        .external (.request (.retry 0))] ++ calls 5 2)).any (fun p =>
      p.state.downloads.next = 2 ∧ (p.state.downloads.rows 0).any (·.status = .QUEUED)) = true := by
    decide
  obtain ⟨p, hp, hn⟩ := Option.any_eq_true _ _ |>.mp hrun
  have hr := (system (.small 2)).replay_runs (fun _ _ => unraced_notRaced) hp
  exact ⟨p, hr, (of_decide_eq_true hn).1,
    one_active_per_post (.small 2) oneJob_down oneJob_oneActive hr⟩

end CircleFtp.Downloads
