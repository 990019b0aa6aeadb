import CircleFtp.Concurrent.Quota
import CircleFtp.Http.Charges

/-! The rate limits over whole runs: how many requests are served and how many guesses are made from
one address in a number of windows. -/
namespace CircleFtp.Http
open Concurrent Routing
open Auth (Runtime Store Err)

section
variable {site : Site} {limiter : Limiter} {ip : String} {s : State} {p : HttpPool site}

/-- What an event does to a counter. -/
def tick (limiter : Limiter) (ip : String) : HttpEvent site → Option Quota.Tick
  | .did _ _ (.increment l i) _ _ _ => if l = limiter ∧ i = ip then some .hit else none
  | .did _ _ (.decrement l i) _ _ _ => if l = limiter ∧ i = ip then some .refund else none
  | .outer (.window l i) _ _ => if l = limiter ∧ i = ip then some .reset else none
  | .outer .restart _ _ => some .reset
  | _ => none

def ticks (limiter : Limiter) (ip : String) (trace : List (HttpEvent site)) : List Quota.Tick :=
  trace.filterMap (tick limiter ip)

/-- The windows so far, with the one that is open. -/
def windows (limiter : Limiter) (ip : String) (trace : List (HttpEvent site)) : Nat :=
  (ticks limiter ip trace).count .reset + 1

theorem count_hits (s : State) (l : Limiter) (i : String) (n : Nat) :
    (s.count l i n).hits limiter ip = if l = limiter ∧ i = ip then n else s.hits limiter ip := by
  by_cases hl : l = limiter
  · subst hl
    by_cases hi : i = ip
    · subst hi
      simp [State.count]
    · simp [State.count, hi, Function.update_of_ne (Ne.symm hi)]
  · simp [State.count, hl, Function.update_of_ne (Ne.symm hl)]

/-- The counter is that of the ticks, and the hits that pass are those that it admits. -/
structure Counted (limiter : Limiter) (ip : String) (s : State) (trace : List (HttpEvent site)) : Prop where
  hits : s.hits limiter ip = Quota.hits (ticks limiter ip trace)
  passed : trace.countP (·.counts (passes limiter ip)) = Quota.admitted limiter.limit (ticks limiter ip trace)

theorem Counted.silent {trace : List (HttpEvent site)} {s' : State} {e : HttpEvent site}
    (h : Counted limiter ip s trace) (hs : s'.hits limiter ip = s.hits limiter ip)
    (ht : tick limiter ip e = none) (hc : e.counts (passes limiter ip) = false) :
    Counted limiter ip s' (e :: trace) := by
  have same : ticks limiter ip (e :: trace) = ticks limiter ip trace := List.filterMap_cons_none ht
  exact ⟨by rw [hs, same, h.hits], by rw [same, List.countP_cons_of_neg (by simp [hc]), h.passed]⟩

theorem Counted.call {trace : List (HttpEvent site)} {t : Nat} {k : Task site} {o : Op} {r : Reply o}
    {s' : State} {c : Choice} (h : Counted limiter ip s trace) (hc : call site.rt s c o = (r, s')) :
    Counted limiter ip s' (.did t k o r s s' :: trace) := by
  obtain rfl : (Http.call site.rt s c o).1 = r := congrArg Prod.fst hc
  obtain rfl : (Http.call site.rt s c o).2 = s' := congrArg Prod.snd hc
  cases o with
  | increment l i =>
    by_cases hli : l = limiter ∧ i = ip
    · obtain ⟨rfl, rfl⟩ := hli
      have ticked (r : Reply (.increment l i)) (s' : State) :
          ticks l i (.did t k (.increment l i) r s s' :: trace) = .hit :: ticks l i trace :=
        List.filterMap_cons_some (by simp [tick])
      refine ⟨?_, ?_⟩
      · rw [ticked, Quota.hits, ← h.hits]
        exact (count_hits s l i _).trans (if_pos ⟨rfl, rfl⟩)
      · have counted : (Event.did t k (.increment l i) (.ok (s.hits l i + 1)) s
            (s.count l i (s.hits l i + 1)) : HttpEvent site).counts (passes l i) =
              decide (s.hits l i < l.limit) := by
          simp only [Event.counts, passes, decide_true, Bool.true_and]
          exact decide_eq_decide.mpr Nat.succ_le_iff
        rw [ticked, Quota.admitted, List.countP_cons, h.passed, ← h.hits]
        simp only [Http.call, counted, decide_eq_true_eq]
    · refine h.silent ?_ (if_neg hli) ?_
      · exact (count_hits s l i _).trans (if_neg hli)
      · simpa [Event.counts, passes, Http.call] using fun hl hi => absurd ⟨hl, hi⟩ hli
  | decrement l i =>
    by_cases hli : l = limiter ∧ i = ip
    · obtain ⟨rfl, rfl⟩ := hli
      have ticked (r : Reply (.decrement l i)) (s' : State) :
          ticks l i (.did t k (.decrement l i) r s s' :: trace) = .refund :: ticks l i trace :=
        List.filterMap_cons_some (by simp [tick])
      refine ⟨?_, ?_⟩
      · rw [ticked, Quota.hits, ← h.hits]
        exact (count_hits s l i _).trans (if_pos ⟨rfl, rfl⟩)
      · rw [ticked, Quota.admitted, ← h.passed]
        exact List.countP_cons_of_neg (by simp [Event.counts, passes])
    · refine h.silent ?_ (if_neg hli) rfl
      exact (count_hits s l i _).trans (if_neg hli)
  | auth a => exact h.silent rfl rfl rfl
  | elsewhere x => exact h.silent rfl rfl rfl
  | _ =>
    refine h.silent ?_ rfl rfl
    simp only [Http.call, State.query]
    split <;> rfl

theorem Counted.outer {trace : List (HttpEvent site)} {x : Arrival site} (h : Counted limiter ip s trace) :
    Counted limiter ip (arrive s x).1 (.outer x s (arrive s x).1 :: trace) := by
  cases x with
  | request req => exact h.silent rfl rfl rfl
  | restart =>
    have ticked (s' : State) : ticks limiter ip (.outer .restart s s' :: trace) =
        .reset :: ticks limiter ip trace := List.filterMap_cons_some rfl
    refine ⟨by rw [ticked]; rfl, ?_⟩
    rw [ticked, Quota.admitted, ← h.passed]
    exact List.countP_cons_of_neg (by simp [Event.counts])
  | window l i =>
    by_cases hli : l = limiter ∧ i = ip
    · obtain ⟨rfl, rfl⟩ := hli
      have ticked (s' : State) : ticks l i (.outer (.window l i) s s' :: trace) = .reset :: ticks l i trace :=
        List.filterMap_cons_some (by simp [tick])
      refine ⟨?_, ?_⟩
      · rw [ticked, Quota.hits]
        exact (count_hits s l i _).trans (if_pos ⟨rfl, rfl⟩)
      · rw [ticked, Quota.admitted, ← h.passed]
        exact List.countP_cons_of_neg (by simp [Event.counts])
    · refine h.silent ?_ (if_neg hli) rfl
      exact (count_hits s l i _).trans (if_neg hli)

theorem counted_run (hs : s.hits limiter ip = 0) (hr : (system site).Runs (fun _ _ => True) (.initial s) p) :
    Counted limiter ip p.state p.trace := by
  have start : Counted limiter ip (Pool.initial s : HttpPool site).state (Pool.initial s : HttpPool site).trace :=
    ⟨hs, rfl⟩
  refine (system site).invariant (I := fun p => Counted limiter ip p.state p.trace) ?_ start hr
  intro p l p' h _ hst
  rcases (system site).step_cases hst with
    ⟨t, k, o, rest, c, r, s, ths, -, -, he, rfl⟩ | ⟨t, k, a, -, -, rfl⟩ | ⟨x, s, dies, ths, -, he, rfl⟩
  · rw [Pool.didCall_state, Pool.didCall_trace]
    exact h.call (system_exec he).1
  · rw [Pool.didEnd_state, Pool.didEnd_trace]
    exact h.silent rfl rfl rfl
  · obtain rfl : (arrive p.state x).1 = s := congrArg Prod.fst (Option.some.inj he)
    rw [Pool.didOuter_state, Pool.didOuter_trace]
    exact h.outer

/-- The hits that pass: as many for each window as the limit says, and one more for each refund. -/
theorem passed_le (hs : s.hits limiter ip = 0) (hr : (system site).Runs (fun _ _ => True) (.initial s) p) :
    p.trace.countP (·.counts (passes limiter ip)) ≤
      limiter.limit * windows limiter ip p.trace + (ticks limiter ip p.trace).count .refund := by
  rw [(counted_run hs hr).passed]
  exact (Quota.admitted_le _ _).2

/-- A request refunds at most once, at its end. -/
theorem serve_refunds (req : HttpRequest site) :
    (serve req).run.Ends (¬ ∃ l i, · = .decrement l i) (∃ l i, · = .decrement l i) := by
  have handlers (hs : List Handler) (ctx : Context) :
      (through req hs ctx).run.Uses (¬ ∃ l i, · = .decrement l i) := by
    induction hs generalizing ctx with
    | nil => trivial
    | cons h hs ih =>
      refine .except_bind ((handler_calls h).mono ?_) ?_
      · rintro _ ho ⟨l, i, rfl⟩
        rcases ho with ho | ⟨l, -, ho⟩ | ⟨x, -, ho⟩ <;> cases ho
      · rintro (_ | ctx')
        · trivial
        · exact ih ctx'
  refine .except_bind (handlers _ _) fun ctx => ?_
  split
  · exact .inr ⟨⟨_, _, rfl⟩, fun r => by cases r <;> exact ⟨_, rfl⟩⟩
  · trivial

theorem refunds_once (hr : (system site).Runs (fun _ _ => True) (.initial s) p) :
    LastOnce (∃ l i, · = .decrement l i) p := by
  have ends : (system site).Spawns fun th =>
      th.prog.Ends (¬ ∃ l i, · = .decrement l i) (∃ l i, · = .decrement l i) := by
    refine (system_begins site).mono fun th h => ?_
    cases h with
    | request req => exact serve_refunds req
    | prune =>
      have uses : prune.run.Uses (¬ ∃ l i, · = .decrement l i) :=
        .except_bind (.invoke fun ⟨_, _, h⟩ => by cases h) fun _ =>
          .except_bind (.invoke fun ⟨_, _, h⟩ => by cases h) fun _ => trivial
      exact uses.ends
  exact lastOnce_run ends.exec ends.finish ends.external hr

/-- A refund is for a request from the address that has signed in. -/
theorem refund_signsIn (hr : (system site).Runs (fun _ _ => True) (.initial s) p) {e : HttpEvent site}
    (he : e ∈ p.trace) (ht : tick limiter ip e = some .refund) :
    limiter = .login ∧ ∀ u, e.By u → ∃ req, req.ip = ip ∧ SignsIn req u p.trace := by
  obtain ⟨new, old, htrace⟩ := List.append_of_mem he
  cases e with
  | outer x s s' => cases x <;> simp [tick] at ht
  | ended => cases ht
  | did t k o r s s' =>
    have obeys : Obeys t old o k := obeyed_run hr new t k o r s s' old htrace
    cases o <;> simp only [tick, Option.ite_none_right_eq_some, Option.some.injEq, reduceCtorEq, and_false] at ht
    rename_i l i
    obtain ⟨⟨rfl, rfl⟩, -⟩ := ht
    cases k with
    | prune => rcases obeys with h | h <;> cases h
    | request req =>
      obtain ⟨rfl, rfl, x, j, v, v', hm⟩ := obeys.1
      refine ⟨rfl, fun u hu => ⟨req, rfl, x, j, v, v', ?_⟩⟩
      obtain rfl : t = u := hu
      rw [htrace]
      exact List.mem_append_right _ (List.mem_cons_of_mem _ hm)

/-- The request that an event refunds. -/
def refunder (ip : String) : HttpEvent site → Option Nat
  | .did t _ (.decrement l i) _ _ _ => if l = .login ∧ i = ip then some t else none
  | _ => none

theorem refunder_some {e : HttpEvent site} {u : Nat} (h : refunder ip e = some u) :
    e.By u ∧ e.Last (∃ l i, · = .decrement l i) u ∧ tick .login ip e = some .refund := by
  cases e with
  | did t k o r s s' =>
    cases o with
    | decrement l i =>
      simp only [refunder, Option.ite_none_right_eq_some] at h
      obtain ⟨hli, hu⟩ := h
      exact ⟨Option.some.inj hu, ⟨Option.some.inj hu, l, i, rfl⟩, if_pos hli⟩
    | _ => cases h
  | _ => cases h

theorem refunders_length (trace : List (HttpEvent site)) :
    (trace.filterMap (refunder ip)).length = (ticks .login ip trace).count .refund := by
  rw [List.length_filterMap_eq_countP, ticks, List.count, List.countP_filterMap]
  refine List.countP_congr fun e _ => ?_
  cases e with
  | did t k o r s s' =>
    cases o with
    | increment l i => by_cases h : l = .login ∧ i = ip <;> simp [refunder, tick, h]
    | decrement l i => by_cases h : l = .login ∧ i = ip <;> simp [refunder, tick, h]
    | _ => simp [refunder, tick]
  | ended => simp [refunder, tick]
  | outer x s s' =>
    cases x with
    | window l i => by_cases h : l = .login ∧ i = ip <;> simp [refunder, tick, h]
    | _ => simp [refunder, tick]

theorem refunders_nodup (hr : (system site).Runs (fun _ _ => True) (.initial s) p) :
    (p.trace.filterMap (refunder ip)).Nodup := by
  refine List.pairwise_filterMap.mpr ((refunds_once hr).once.imp fun {e e'} h u hu v hv huv => ?_)
  exact h u (refunder_some hu).2.1 (huv ▸ (refunder_some hv).2.1)

end

section
variable {site : Site} {s : State} {p : HttpPool site}

/-- Sign-ins alone are refunded. -/
theorem api_refunds {ip : String} (hr : (system site).Runs (fun _ _ => True) (.initial s) p) :
    (ticks .api ip p.trace).count .refund = 0 := by
  refine List.count_eq_zero.mpr fun hm => ?_
  obtain ⟨e, he, ht⟩ := List.mem_filterMap.mp hm
  cases (refund_signsIn hr he ht).1

/-- A call of the trace was permitted by what came before it. -/
theorem permitted_of_mem {req : HttpRequest site} {t : Nat} {o : Op} {r : Reply o} {before after : State}
    (hr : (system site).Runs (fun _ _ => True) (.initial s) p)
    (he : .did t (.request req) o r before after ∈ p.trace) : ∃ old, old <:+ p.trace ∧ Permitted req t old o := by
  obtain ⟨new, old, htrace⟩ := List.append_of_mem he
  refine ⟨old, ?_, (obeyed_run hr new t _ _ r before after old htrace).1⟩
  rw [htrace]
  exact (List.suffix_cons _ old).trans (List.suffix_append new _)

theorem Admitted.of_suffix {req : HttpRequest site} {t : Nat} {old trace : List (HttpEvent site)}
    {limiter : Limiter} (hold : old <:+ trace) (h : Admitted req t old limiter) : Admitted req t trace limiter := by
  obtain ⟨n, hn, s, s', hm⟩ := h
  exact ⟨n, hn, s, s', hold.subset hm⟩

end

section
variable (site : Site) {store : Store} {p : HttpPool site}

/-- From one address no more is served by the other routers than 240 in a window, counting each request
as often as it has been charged: 60 requests to the library, 48 for downloads and event streams. -/
theorem served_per_window (hr : (system site).Runs (fun _ _ => True) (.initial ⟨store, fun _ _ => 0⟩) p)
    (ip : String) (n : Nat) {ts : List Nat} (hd : ts.Nodup)
    (h : ∀ t ∈ ts, ∃ req x r s s', .did t (.request req) (.elsewhere x) r s s' ∈ p.trace ∧ req.ip = ip ∧
      n ≤ (Endpoint.elsewhere x).charge) :
    n * ts.length ≤ Limiter.api.limit * windows .api ip p.trace := by
  have each (t : Nat) (ht : t ∈ ts) : n ≤ p.trace.countP fun e => e.counts (passes .api ip) && decide (e.By t) := by
    obtain ⟨req, x, r, s, s', he, rfl, hn⟩ := h t ht
    obtain ⟨new, old, htrace⟩ := List.append_of_mem he
    rw [← charged_when_served site hr htrace] at hn
    rw [htrace, List.countP_append, List.countP_cons]
    exact hn.trans (by rw [meter]; omega)
  have passed : p.trace.countP (·.counts (passes .api ip)) ≤ Limiter.api.limit * windows .api ip p.trace +
      (ticks .api ip p.trace).count .refund := passed_le rfl hr
  rw [api_refunds hr] at passed
  exact (shares_le hd each).trans passed

/-- One event stream is within the limit. -/
theorem served_per_window_events : ∃ (p : HttpPool .small) (req : HttpRequest .small),
    (system .small).Runs (fun _ _ => True) (.initial ⟨adminAndUser, fun _ _ => 0⟩) p ∧
      5 * [0].length ≤ 240 * windows .api req.ip p.trace := by
  obtain ⟨p, req, r, s, s', old, hr, htrace⟩ := event_stream_run
  refine ⟨p, req, hr, served_per_window .small hr req.ip 5 (List.nodup_singleton 0) ?_⟩
  rintro t ht
  obtain rfl := List.mem_singleton.mp ht
  exact ⟨req, .events, r, s, s', by rw [htrace]; exact List.mem_cons_self, rfl, Nat.le_refl _⟩

/-- Different requests that a limiter has let through. -/
theorem admitted_le {limiter : Limiter} {ip : String}
    (hr : (system site).Runs (fun _ _ => True) (.initial ⟨store, fun _ _ => 0⟩) p) {ts : List Nat} (hd : ts.Nodup)
    (h : ∀ t ∈ ts, ∃ req, req.ip = ip ∧ Admitted req t p.trace limiter) :
    ts.length ≤ limiter.limit * windows limiter ip p.trace + (ticks limiter ip p.trace).count .refund := by
  have each (t : Nat) (ht : t ∈ ts) :
      1 ≤ p.trace.countP fun e => e.counts (passes limiter ip) && decide (e.By t) := by
    obtain ⟨req, rfl, n, hn, v, v', hm⟩ := h t ht
    exact List.countP_pos_iff.mpr ⟨_, hm, by simp [Event.counts, passes, hn, Event.By]⟩
  have shares : 1 * ts.length ≤ _ := (shares_le hd each).trans (passed_le rfl hr)
  rwa [Nat.one_mul] at shares

/-- A password is compared, or an invite code or a reset token redeemed. -/
def guesses : Auth.Op → Bool
  | .verifyPassword _ _ | .redeemInvite _ | .redeemPasswordReset _ _ => true
  | _ => false

/-- From one address there are no more than ten guesses in a window, and one more for each request that
has signed in, whoever they are at. Changes of the own password are left out. -/
theorem guesses_per_window (hr : (system site).Runs (fun _ _ => True) (.initial ⟨store, fun _ _ => 0⟩) p)
    (ip : String) {ts : List Nat} (hd : ts.Nodup)
    (h : ∀ t ∈ ts, ∃ req o r s s', .did t (.request req) (.auth o) r s s' ∈ p.trace ∧ req.ip = ip ∧
      guesses o = true ∧ .endpoint .password ∉ req.chain) :
    ∃ us : List Nat, us.Nodup ∧ ts.length ≤ Limiter.login.limit * windows .login ip p.trace + us.length ∧
      ∀ u ∈ us, ∃ req, req.ip = ip ∧ SignsIn req u p.trace := by
  refine ⟨p.trace.filterMap (refunder ip), refunders_nodup hr, ?_, fun u hu => ?_⟩
  · rw [refunders_length]
    refine admitted_le site hr hd fun t ht => ?_
    obtain ⟨req, o, r, s, s', he, hip, ho, hc⟩ := h t ht
    obtain ⟨old, hold, hp⟩ := permitted_of_mem hr he
    refine ⟨req, hip, Admitted.of_suffix hold ?_⟩
    cases o <;> simp only [guesses, Bool.false_eq_true] at ho
    · exact hp.resolve_right fun h => hc h.1
    · exact hp
    · exact hp
  · obtain ⟨e, he, hu⟩ := List.mem_filterMap.mp hu
    obtain ⟨hb, -, ht⟩ := refunder_some hu
    exact (refund_signsIn hr he ht).2 u hb

/-- The check of a reset link, which is behind the limit on requests only: no more than 240 in a
window. -/
theorem reset_checks_per_window (hr : (system site).Runs (fun _ _ => True) (.initial ⟨store, fun _ _ => 0⟩) p)
    (ip : String) {ts : List Nat} (hd : ts.Nodup)
    (h : ∀ t ∈ ts, ∃ req tokenHash r s s', .did t (.request req) (.findReset tokenHash) r s s' ∈ p.trace ∧
      req.ip = ip) : ts.length ≤ Limiter.api.limit * windows .api ip p.trace := by
  have bound : ts.length ≤
      Limiter.api.limit * windows .api ip p.trace + (ticks .api ip p.trace).count .refund := by
    refine admitted_le site hr hd fun t ht => ?_
    obtain ⟨req, tokenHash, r, s, s', he, hip⟩ := h t ht
    obtain ⟨old, hold, hp⟩ := permitted_of_mem hr he
    exact ⟨req, hip, Admitted.of_suffix hold hp.2.2⟩
  rwa [api_refunds hr] at bound

end

/-- A sign-in with a wrong password. -/
theorem guesses_per_window_login : ∃ (p : HttpPool .small) (req : HttpRequest .small),
    (system .small).Runs (fun _ _ => True) (.initial ⟨adminAndUser, fun _ _ => 0⟩) p ∧
      ∃ us : List Nat, us.Nodup ∧ [0].length ≤ 10 * windows .login req.ip p.trace + us.length ∧
        ∀ u ∈ us, ∃ req', req'.ip = req.ip ∧ SignsIn req' u p.trace := by
  have hrun : ((system .small).replay (fun _ _ => true) (.initial ⟨adminAndUser, fun _ _ => 0⟩)
      (.external (.request (pageRequest .POST ["api", "auth", "login"] none ["a", "guess"])) ::
        List.replicate 4 (.exec 0 {}))).any
      (fun p => newest 0 (.auth (.verifyPassword "guess" "pw"))
        (fun req => decide (.endpoint .password ∉ req.chain)) p.trace) = true := by decide
  obtain ⟨p, hp, hn⟩ := Option.any_eq_true _ _ |>.mp hrun
  have hr := (system .small).replay_runs (C := fun _ _ => True) (fun _ _ _ => trivial) hp
  obtain ⟨req, r, s, s', old, htrace, hc⟩ := newest_did hn
  refine ⟨p, req, hr, guesses_per_window .small hr req.ip (List.nodup_singleton 0) ?_⟩
  rintro t ht
  obtain rfl := List.mem_singleton.mp ht
  exact ⟨req, _, r, s, s', by rw [htrace]; exact List.mem_cons_self, rfl, rfl, of_decide_eq_true hc⟩

end CircleFtp.Http
