import CircleFtp.Posters.Flows

/-! When the poster cache serves whole images: one writer of the temporary file at a time, and nobody
near a new body before its type is there. -/
namespace CircleFtp.Posters
open Concurrent Files Strings

section
variable {file : Str} {t : Nat} {trace : List PosterEvent} {env : Env} {filename : Str} {p : PosterPool}

theorem new_at (hf : ∀ e ∈ trace, ¬ e.By t) (s : State) :
    At file s.pid t false false false ⟨s, trace⟩ :=
  ⟨rfl, History.outstanding_fresh hf, History.outstanding_fresh hf, History.outstanding_fresh hf⟩

theorem getPoster_safe {s : State} (hf : ∀ e ∈ trace, ¬ e.By t) :
    (ledger (env.cachePath filename)).discipline.SafeThread t
      ⟨(), (getPoster env s.pid filename).run⟩ ⟨s, trace⟩ := by
  refine (getPoster_does rfl _ (new_at hf s)).mono ?_
  rintro (e | served) w h
  · exact h.elim
  · refine ⟨h.1.publishes, fun image hi => h.2 image ?_⟩
    simpa using hi

/-- An event that touches no file: threads go and new ones come. -/
theorem Calm.quiet (hI : Calm file p) {q : PosterPool} {e : PosterEvent} (hfresh : q.Fresh)
    (hnext : p.next ≤ q.next) (htrace : q.trace = e :: p.trace) (hdisk : q.state.disk = p.state.disk)
    (hby : ∀ u, e.By u → u < p.next)
    (hlive : ∀ u th, q.threads u = some th → ¬ e.By u ∧ (p.threads u = some th ∨ p.next ≤ u))
    (hgone : ∀ u th, p.threads u = some th → publishes u p.trace = true → q.threads u = some th)
    (hwhole : Whole q.trace) : Calm file q := by
  have hnew {u : Nat} (hu : p.next ≤ u) : ∀ d ∈ p.trace, ¬ d.By u :=
    fun d hd hb => absurd (hI.recorded d hd u hb) (by omega)
  refine ⟨hfresh, ?_, ?_, ?_, ?_, hwhole⟩
  · intro d hd u hb
    rw [htrace] at hd
    rcases List.mem_cons.mp hd with rfl | hd
    · exact Nat.lt_of_lt_of_le (hby u hb) hnext
    · exact Nat.lt_of_lt_of_le (hI.recorded d hd u hb) hnext
  · intro u v th th' hne hu hv h
    obtain ⟨hbu, hu⟩ := hlive u th hu
    obtain ⟨hbv, hv⟩ := hlive v th' hv
    rw [htrace, stores, History.outstanding_other hbu] at h
    rw [htrace, stores, History.outstanding_other hbv]
    rcases hv with hv | hv
    · rcases hu with hu | hu
      · exact hI.oneStores u v _ _ hne hu hv h
      · rw [History.outstanding_fresh (hnew hu)] at h
        cases h
    · exact History.outstanding_fresh (hnew hv)
  · intro u v th th' hne hu hv h
    obtain ⟨hbu, hu⟩ := hlive u th hu
    obtain ⟨hbv, hv⟩ := hlive v th' hv
    rw [htrace, publishes, History.outstanding_other hbu] at h
    rw [htrace, publishes, reads, History.outstanding_other hbv, History.outstanding_other hbv]
    rcases hv with hv | hv
    · rcases hu with hu | hu
      · exact hI.onePublishes u v _ _ hne hu hv h
      · rw [History.outstanding_fresh (hnew hu)] at h
        cases h
    · exact ⟨History.outstanding_fresh (hnew hv), History.outstanding_fresh (hnew hv)⟩
  · intro hnobody
    have hshown : Shown file p.toWorld := by
      refine hI.shown fun u th hu => Bool.eq_false_iff.mpr fun hp => ?_
      have hq := hgone u th hu hp
      have := hnobody u th hq
      rw [htrace, publishes, History.outstanding_other (hlive u th hq).1] at this
      rw [publishes, this] at hp
      cases hp
    have hsame (path : Str) : p.state.disk.SameAt q.state.disk path := by
      rw [hdisk]
      exact ⟨rfl, rfl⟩
    have := hshown.after (e := e) (hsame file) (hsame (typePath file))
    rwa [← htrace] at this

theorem Calm.ended (hI : Calm file p) {served : Served} (ht : p.threads t = some ⟨(), .ret served⟩)
    (hquiet : publishes t p.trace = false)
    (hpost : ∀ image, served = .ok (some image) → image ∈ answered p.trace) :
    Calm file (p.didEnd t () served p.state []) := by
  have hthreads := Pool.didEnd_threads hI.fresh ht p.state []
  refine hI.quiet (Pool.didEnd_fresh hI.fresh ht p.state []) (Nat.le_refl _) (Pool.didEnd_trace ..)
    (by rw [Pool.didEnd_state]) ?_ ?_ ?_ ?_
  · rintro u hb
    obtain rfl : t = u := hb
    exact hI.fresh.lt ht
  · intro u th hu
    rw [hthreads] at hu
    split at hu
    · split at hu
      · cases hu
      · rename_i hne
        exact ⟨fun hb => hne hb.symm, .inl hu⟩
    · simp at hu
  · intro u th hu hp
    have hne : u ≠ t := by
      rintro rfl
      rw [hquiet] at hp
      cases hp
    rw [hthreads, if_pos (hI.fresh.lt hu), if_neg hne]
    exact hu
  · intro image hm
    rw [Pool.didEnd_trace] at hm ⊢
    refine answered_cons _ ?_
    obtain ⟨d, hd, hr⟩ := List.mem_filterMap.mp hm
    rcases List.mem_cons.mp hd with rfl | hd
    · split at hr
      · rename_i heq
        cases heq
        exact hpost image (by rw [hr])
      · cases hr
    · exact hI.whole image (List.mem_filterMap.mpr ⟨d, hd, hr⟩)

theorem Calm.arrived (hI : Calm file p) {arrival : Arrival} {s : State} {dies : Bool}
    {ths : List PosterThread} (hok : spaced file p (.external arrival) = true)
    (he : (system env filename).external p.state arrival = some (s, dies, ths)) :
    Calm file (p.didOuter arrival s dies ths) := by
  have hthreads := Pool.didOuter_threads hI.fresh arrival s dies ths
  have hdisk : s.disk = p.state.disk := by cases arrival <;> cases he <;> rfl
  refine hI.quiet (Pool.didOuter_fresh hI.fresh arrival s dies ths) ?_ (Pool.didOuter_trace ..)
    (by rw [Pool.didOuter_state, hdisk]) (fun _ hb => hb.elim) ?_ ?_ ?_
  · exact spawn_next_le { p.log s (.outer arrival p.state s) with
      threads := if dies then fun _ => none else p.threads } ths
  · intro u th hu
    refine ⟨fun hb => hb.elim, ?_⟩
    rw [hthreads] at hu
    split at hu
    · split at hu
      · cases hu
      · exact .inl hu
    · exact .inr (by omega)
  · intro u th hu hp
    rw [hthreads, if_pos (hI.fresh.lt hu)]
    cases arrival with
    | request =>
      cases he
      exact hu
    | restart pid =>
      have := nobody_of hI.fresh hok (Nat.ne_of_lt (hI.fresh.lt hu)) hu
      rw [hp] at this
      cases this
  · intro image hm
    rw [Pool.didOuter_trace] at hm ⊢
    refine answered_cons _ (hI.whole image ?_)
    obtain ⟨d, hd, hr⟩ := List.mem_filterMap.mp hm
    rcases List.mem_cons.mp hd with rfl | hd
    · cases hr
    · exact List.mem_filterMap.mpr ⟨d, hd, hr⟩

theorem keeps : (ledger (env.cachePath filename)).Keeps (system env filename)
    (fun p l => spaced (env.cachePath filename) p l = true) (Calm (env.cachePath filename)) where
  may hI hok ht he := hI.may hok ht (exec_eq he).1
  exec {p t k op rest c r s ths} hI hok ht he hg := by
    obtain ⟨hcall, rfl⟩ := exec_eq he
    refine ⟨hI.did hok ht hcall hg.1 hg.2, ⟨fun u th hne hu => ?_, fun th hth => by cases hth⟩⟩
    exact hI.frames hok ht hcall hg.1 hne hu
  finish {p t k served} hI _ ht hpost := by
    refine ⟨hI.ended ht hpost.1 hpost.2, ⟨fun u th hne hu => ?_, fun th hth => by cases hth⟩⟩
    exact ⟨rfl, fun _ => ⟨rfl, rfl⟩, fun _ => ⟨⟨rfl, rfl⟩, ⟨rfl, rfl⟩⟩⟩
  external {p arrival s dies ths} hI hok he := by
    refine ⟨hI.arrived hok he, ?_⟩
    have hnew {u : Nat} (hu : p.next ≤ u) : ∀ d ∈ p.trace, ¬ d.By u :=
      fun d hd hb => absurd (hI.recorded d hd u hb) (by omega)
    cases arrival with
    | request =>
      cases he
      refine ⟨fun u th _ hu => ⟨rfl, fun _ => ⟨rfl, rfl⟩, fun _ => ⟨⟨rfl, rfl⟩, ⟨rfl, rfl⟩⟩⟩,
        fun th hth u hu => ?_⟩
      obtain rfl := List.mem_singleton.mp hth
      refine getPoster_safe fun d hd hb => ?_
      rcases List.mem_cons.mp hd with rfl | hd
      · exact hb
      · exact hnew hu d hd hb
    | restart pid =>
      cases he
      refine ⟨fun u th h _ => ?_, fun th hth => ?_⟩
      · cases h
      · cases hth

/-- In a spaced run every image that is returned came whole from the upstream. -/
theorem whole_images {pid : Nat} {p : PosterPool}
    (h : (system env filename).Runs (fun p l => spaced (env.cachePath filename) p l = true)
      (.initial ⟨.empty, pid⟩) p) : Whole p.trace := by
  refine (keeps.keeps.safe ⟨fun _ _ => rfl, Pool.Recorded.initial _, ?_, ?_, ?_, ?_⟩
    (Discipline.allSafe_initial _ _) h).1.whole
  · intro u v th th' _ hu
    cases hu
  · intro u v th th' _ hu
    cases hu
  · exact fun _ => .inl rfl
  · intro image hm
    cases hm

end

/-- A cache in which every poster has the same digest. -/
def small : Env := ⟨"/c".toList, "http://h".toList, fun _ => "ab".toList⟩

def png (b : UInt8) : Choice := { response := ⟨200, some "image/png".toList, [[b]]⟩ }

/-- A poster is fetched, stored and served, and then served from the cache. -/
def servedTwice : List PosterLabel :=
  [.external .request, .exec 0 {}, .exec 0 (png 1)] ++ List.replicate 16 (.exec 0 {}) ++
    [.finish 0, .external .request, .exec 1 {}, .exec 1 {}, .exec 1 {}, .finish 1]

theorem whole_images_twice : ∃ p : PosterPool,
    returned p.trace = List.replicate 2 ⟨[1], "image/png".toList⟩ ∧ Whole p.trace := by
  have h : ((system small "p.png".toList).replay (spaced (small.cachePath "p.png".toList)) (.initial ⟨.empty, 1⟩)
      servedTwice).any (fun p => returned p.trace = List.replicate 2 ⟨[1], "image/png".toList⟩) := by
    decide +kernel
  obtain ⟨p, hp, hr⟩ := (Option.any_eq_true _ _).mp h
  exact ⟨p, of_decide_eq_true hr, whole_images ((system small "p.png".toList).replay_runs (fun _ _ h => h) hp)⟩

/-- Two calls write the temporary file. The second has just truncated it when the first renames it;
a third call is served what is there. -/
def mixed : List PosterLabel :=
  [.external .request, .external .request, .exec 0 {}, .exec 1 {}, .exec 0 (png 1), .exec 1 (png 2),
    .exec 0 {}, .exec 1 {}, .exec 0 {}, .exec 0 {}, .exec 0 {}, .exec 1 {}, .exec 0 {},
    .external .request, .exec 2 {}, .exec 2 {}, .exec 2 {}, .finish 2]

theorem half_written_served : ∃ p : PosterPool,
    (system small "p.png".toList).Runs (fun _ _ => True) (.initial ⟨.empty, 1⟩) p ∧
      returned p.trace = [⟨[], "image/jpeg".toList⟩] ∧ ¬ Whole p.trace := by
  have h : ((system small "p.png".toList).replay (fun _ _ => true) (.initial ⟨.empty, 1⟩) mixed).any (fun p =>
      returned p.trace = [⟨[], "image/jpeg".toList⟩] ∧ ¬ Whole p.trace) := by
    decide +kernel
  obtain ⟨p, hp, hr⟩ := (Option.any_eq_true _ _).mp h
  exact ⟨p, (system small "p.png".toList).replay_runs (fun _ _ _ => trivial) hp, of_decide_eq_true hr⟩

end CircleFtp.Posters
