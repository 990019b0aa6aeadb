import CircleFtp.Concurrent.Meter
import CircleFtp.Http.Mediation

/-! What a request has been charged against the limit on requests when it is served. -/
namespace CircleFtp.Http
open Concurrent Routing
open Auth (Runtime Store Err)

/-- How often a request has been counted when it comes to the handler. -/
def Endpoint.charge : Endpoint → Nat
  | .health => 0
  | .login | .logout | .me | .redeem => 1
  | .profile | .password | .sessions | .revokeOthers | .resetCheck | .reset => 2
  | .elsewhere .search | .elsewhere (.title _) | .elsewhere (.image _) => 4
  | .elsewhere _ => 5
  | _ => 3

def Handler.counts : Handler → Bool
  | .rateLimit .api => true
  | _ => false

def Handler.owes : Handler → Nat → Bool
  | .endpoint e, n => n = e.charge
  | _, _ => true

theorem createApp_tolled (site : Site) :
    (createApp site).Tolled Handler.counts Handler.owes (pattern "/api") 0 := by
  have plain {n : Nat} {method : Method} {hs : List Handler}
      (h : (hs.all fun h => !h.counts && h.owes n) = true) (asked : Method) :
      ((method.answers hs asked).all fun h => !h.counts && h.owes n) = true :=
    Method.answers_cases (φ := fun l => (l.all fun h => !h.counts && h.owes n) = true) rfl (fun _ => h) rfl
  have param {n : Nat} {method : Method} {hs : Strings.Str → List Handler}
      (h : ∀ arg, ((hs arg).all fun h => !h.counts && h.owes n) = true) (asked : Method)
      (args : List Strings.Str) :
      ((decoded site method hs asked args).all fun h => !h.counts && h.owes n) = true := by
    rw [decoded]
    split
    · rfl
    · exact plain (h _) asked
  simp only [createApp, limited, healthRouter, authRouter, accountRouter, adminRouter, libraryRouter,
    downloadsRouter, eventsRouter, route, routeWith, Stack.Tolled, Stack.Each]
  repeat' apply And.intro
  all_goals first
    | exact trivial
    | exact rfl
    | exact fun _ => rfl
    | exact fun _ => trivial
    | exact fun h => absurd h Bool.false_ne_true
    | exact fun asked _ => plain rfl asked
    | exact param fun _ => rfl

theorem HttpRequest.paid {site : Site} (req : HttpRequest site) :
    Paid Handler.counts Handler.owes 0 req.chain := by
  cases h : site.matcher.under (pattern "/api") req.path with
  | none => exact (createApp_tolled site).unowed h 0
  | some left => exact (createApp_tolled site).paid (by rw [h]; rfl)

/-- A hit from the address that the limiter lets through. -/
def passes (limiter : Limiter) (ip : String) : (o : Op) → Reply o → Bool
  | .increment l i, .ok n => l = limiter && i = ip && decide (n ≤ limiter.limit)
  | _, _ => false

/-- What a request from the address has been charged before it is served. -/
def Due {site : Site} (ip : String) : Task site → Op → Nat → Prop
  | .request req, .elsewhere x, n => req.ip = ip → n = (Endpoint.elsewhere x).charge
  | _, _, _ => True

/-- Calls that no limiter counts and that serve nothing. -/
def Op.uncounted : Op → Bool
  | .increment _ _ | .decrement _ _ | .elsewhere _ => false
  | _ => true

section
variable {site : Site} {req : HttpRequest site} {ctx : Context} {ip : String}

theorem account_uncounted {α : Type} (f : Auth.Flow α) : (account f).run.Uses (·.uncounted = true) :=
  account_uses (.always (fun _ => rfl) f.run)

theorem parsed_uncounted {α : Type} {schema : site.Body → Except Details α} {f : α → Flow Unit}
    (h : ∀ a, (f a).run.Uses (·.uncounted = true)) : (parseBody req schema >>= f).run.Uses (·.uncounted = true) :=
  .except_bind (parseBody_uses schema) h

theorem signed_uncounted {f : SessionUser → Flow Unit} (h : ∀ su, (f su).run.Uses (·.uncounted = true)) :
    (signedIn ctx >>= f).run.Uses (·.uncounted = true) := by
  rw [signedIn]
  split
  · trivial
  · exact h _

theorem handle_uncounted {e : Endpoint} (he : ∀ x, e ≠ .elsewhere x) :
    (handle req ctx e).run.Uses (·.uncounted = true) := by
  cases e with
  | elsewhere x => exact absurd rfl (he x)
  | health => trivial
  | login => exact parsed_uncounted fun _ => .except_bind (account_uncounted _) fun _ => trivial
  | logout =>
    show (destroySession req).run.Uses _
    rw [destroySession]
    split
    · trivial
    split
    · trivial
    · exact .tryCatch (.invoke rfl) fun _ => trivial
  | me =>
    show (me ctx).run.Uses _
    rw [me]
    split
    · trivial
    · refine .except_bind (.invoke rfl) ?_
      rintro (_ | user) <;> trivial
  | redeem => exact parsed_uncounted fun _ => .except_bind (account_uncounted _) fun _ => trivial
  | profile => exact parsed_uncounted fun _ => signed_uncounted fun _ => .invoke rfl
  | password =>
    exact parsed_uncounted fun _ => signed_uncounted fun _ => .except_bind (account_uncounted _) fun _ => trivial
  | sessions => exact signed_uncounted fun _ => .invoke rfl
  | revokeOthers => exact signed_uncounted fun _ => .except_bind (account_uncounted _) fun _ => trivial
  | resetCheck =>
    show Program.Uses _ (ExceptT.run (if req.queryToken = "" then _ else _))
    split
    · trivial
    · exact .except_bind (.except_bind (.invoke rfl) fun _ => .except_bind (.invoke rfl) fun _ => trivial)
        fun _ => trivial
  | reset => exact parsed_uncounted fun _ => .except_bind (account_uncounted _) fun _ => trivial
  | listUsers => exact .invoke rfl
  | createUser =>
    refine parsed_uncounted fun input => ?_
    have rest (password : String) : (do
        let id ← account (Auth.createUser site.rt ⟨input.email, input.name, password, some input.role⟩)
        let _ ← account (Auth.getAdminUser id) : Flow Unit).run.Uses (·.uncounted = true) :=
      .except_bind (account_uncounted _) fun _ => .except_bind (account_uncounted _) fun _ => trivial
    split
    · exact rest _
    · exact .except_bind (.invoke rfl) rest
  | updateUser id =>
    exact parsed_uncounted fun _ => signed_uncounted fun _ => .except_bind (account_uncounted _) fun _ => trivial
  | deleteUser id => exact signed_uncounted fun _ => account_uncounted _
  | revokeSessions id => exact .except_bind (account_uncounted _) fun _ => trivial
  | resetLink id =>
    exact parsed_uncounted fun _ => signed_uncounted fun _ => .except_bind (account_uncounted _) fun _ => trivial
  | listInvites => exact .invoke rfl
  | createInvite =>
    exact parsed_uncounted fun _ => signed_uncounted fun _ => .except_bind (account_uncounted _) fun _ => trivial
  | revokeInvite id => exact account_uncounted _

/-- The calls of a handler: what it counts, what it serves, and calls that do neither. -/
theorem handler_calls (h : Handler) : (h.run req ctx).run.Uses fun o => o.uncounted = true ∨
    (∃ l, h = .rateLimit l ∧ o = .increment l req.ip) ∨
      ∃ x, h = .endpoint (.elsewhere x) ∧ o = .elsewhere x := by
  have quiet {α : Type} {m : Flow α} (hm : m.run.Uses (·.uncounted = true)) : m.run.Uses fun o =>
      o.uncounted = true ∨ (∃ l, h = .rateLimit l ∧ o = .increment l req.ip) ∨
        ∃ x, h = .endpoint (.elsewhere x) ∧ o = .elsewhere x := hm.mono fun _ => .inl
  cases h with
  | json =>
    show Program.Uses _ (ExceptT.run (if req.body.isNone then _ else _))
    split <;> trivial
  | rateLimit limiter =>
    refine .except_map (.except_bind (.invoke (.inr (.inl ⟨limiter, rfl, rfl⟩))) fun totalHits => ?_)
    split <;> cases limiter <;> trivial
  | requireSameOrigin =>
    refine quiet (.except_map ?_)
    rw [requireSameOrigin]
    split
    · trivial
    · split <;> trivial
  | attachUser =>
    refine quiet (.except_map (.except_bind ?_ ?_))
    · rw [resolveSession]
      split
      · trivial
      split
      · trivial
      refine .except_bind (account_uncounted _) ?_
      rintro (_ | user) <;> trivial
    · rintro (_ | user) <;> trivial
  | requireAuth =>
    refine quiet (.except_map ?_)
    rw [requireAuth]
    split <;> trivial
  | requireAdmin =>
    refine quiet (.except_map ?_)
    rw [requireAdmin]
    split
    · trivial
    · split <;> trivial
  | endpoint e =>
    by_cases he : ∃ x, e = .elsewhere x
    · obtain ⟨x, rfl⟩ := he
      exact .except_map (.invoke (.inr (.inr ⟨x, rfl, rfl⟩)))
    · exact quiet (.except_map (handle_uncounted fun x hx => he ⟨x, hx⟩))
  | options => trivial
  | undecodable => trivial
  | notFound => trivial

/-- With `n` on the meter of the limit on requests: how `m` goes on, and what it leaves there. -/
abbrev Charges (ip : String) (k : Task site) {α : Type} (m : Flow α) (n : Nat) (post : α → Nat → Prop) : Prop :=
  m.run.Meters (passes .api ip) (Due ip k) (Program.split post fun _ _ => True) n

variable {k : Task site} {n : Nat}

theorem Charges.of_uncounted {α : Type} {m : Flow α} {post : α → Nat → Prop}
    (h : m.run.Uses (·.uncounted = true)) (hpost : ∀ a, post a n) : Charges ip k m n post := by
  refine (h.meters fun o ho => ⟨fun m => ?_, fun r => ?_⟩).mono ?_
  · cases k <;> cases o <;> trivial
  · cases o <;> first | rfl | cases ho
  · rintro (e | a) m rfl
    · trivial
    · exact hpost a

theorem rateLimit_charges (hip : req.ip = ip) (limiter : Limiter) : Charges ip k (rateLimit req limiter ctx) n
    fun _ m => m = n + (Handler.rateLimit limiter).counts.toNat := by
  refine ⟨by cases k <;> trivial, ?_⟩
  rintro (e | totalHits)
  · trivial
  show Program.Meters _ _ _ (ExceptT.run (if limiter.limit < totalHits then _ else _)) _
  split
  · cases limiter <;> trivial
  · rename_i hn
    cases limiter with
    | login => rfl
    | api =>
      show n + (passes .api ip (.increment .api req.ip) (.ok totalHits)).toNat = n + 1
      simp [passes, hip, Nat.le_of_not_lt hn]

/-- A handler that hands on adds what it counts. -/
theorem handler_charges (hip : req.ip = ip) {h : Handler} (ho : h.owes n = true) :
    Charges ip (.request req) (h.run req ctx) n fun _ m => m = n + h.counts.toNat := by
  by_cases hl : ∃ l, h = .rateLimit l
  · obtain ⟨limiter, rfl⟩ := hl
    refine Program.Meters.bind (p := (rateLimit req limiter ctx).run) ((rateLimit_charges hip limiter).mono ?_)
    rintro (e | a) m hm
    · trivial
    · exact hm
  by_cases hx : ∃ x, h = .endpoint (.elsewhere x)
  · obtain ⟨x, rfl⟩ := hx
    refine ⟨fun _ => of_decide_eq_true ho, ?_⟩
    rintro (e | a) <;> trivial
  · have hc : h.counts = false := by
      cases h with
      | rateLimit l => exact absurd ⟨l, rfl⟩ hl
      | _ => rfl
    refine .of_uncounted ((handler_calls h).mono fun o => ?_) fun _ => by rw [hc]; rfl
    rintro (ho | ⟨l, hh, -⟩ | ⟨x, hh, -⟩)
    · exact ho
    · exact absurd ⟨l, hh⟩ hl
    · exact absurd ⟨x, hh⟩ hx

theorem through_charges (hip : req.ip = ip) {rest : List Handler} (hp : Paid Handler.counts Handler.owes n rest) :
    Charges ip (.request req) (through req rest ctx) n fun _ _ => True := by
  induction rest generalizing n ctx with
  | nil => trivial
  | cons h rest ih =>
    refine Program.Meters.except_bind ((handler_charges hip hp.1).mono ?_)
    rintro (e | r) m hm
    · trivial
    obtain rfl : m = n + h.counts.toNat := hm
    cases r with
    | none => trivial
    | some ctx' => exact ih hp.2

theorem serve_charges (hip : req.ip = ip) : Charges ip (.request req) (serve req) 0 fun _ _ => True := by
  refine Program.Meters.except_bind ((through_charges hip req.paid).mono ?_)
  rintro (e | ctx) m -
  · trivial
  · show Program.Meters _ _ _ (ExceptT.run (if ctx.attempt = true then _ else _)) m
    split
    · exact ⟨trivial, fun r => by cases r <;> trivial⟩
    · trivial

end

section
variable (site : Site) {s : State} {p : HttpPool site}

theorem system_charges (ip : String) : (system site).Spawns fun th =>
    th.prog.Meters (passes .api ip) (Due ip th.kind) (fun _ _ => True) 0 := by
  refine (system_begins site).mono fun th h => ?_
  cases h with
  | request req =>
    by_cases hip : req.ip = ip
    · exact (serve_charges hip).mono fun _ _ _ => trivial
    · refine .always (fun o n => ?_) _ _
      cases o with
      | elsewhere x => exact fun e => absurd e hip
      | _ => trivial
  | prune => exact .always (fun o n => by cases o <;> trivial) _ _

/-- When a request is served by the other routers, it has been counted four times for the library and
five times for the downloads and the event stream, and was let through each time. -/
theorem charged_when_served (hr : (system site).Runs (fun _ _ => True) (.initial s) p)
    {new old : List (HttpEvent site)} {t : Nat} {req : HttpRequest site} {x : Elsewhere}
    {r : Reply (.elsewhere x)} {before after : State}
    (htrace : p.trace = new ++ .did t (.request req) (.elsewhere x) r before after :: old) :
    meter (passes .api req.ip) t old = (Endpoint.elsewhere x).charge :=
  (metered_run (system_charges site req.ip) hr).went new t _ _ r before after old htrace rfl

end

/-- The administrator opens the event stream. -/
theorem event_stream_run : ∃ p req r s s' old,
    (system .small).Runs (fun _ _ => True) (.initial ⟨adminAndUser, fun _ _ => 0⟩) p ∧
      p.trace = .did 0 (.request req) (.elsewhere .events) r s s' :: old := by
  have hrun : ((system .small).replay (fun _ _ => true) (.initial ⟨adminAndUser, fun _ _ => 0⟩)
      (.external (.request (pageRequest .GET ["api", "events"] (some "token") [])) ::
        List.replicate 18 (.exec 0 {}))).any
      (fun p => newest 0 (.elsewhere .events) (fun _ => true) p.trace) = true := by decide
  obtain ⟨p, hp, hn⟩ := Option.any_eq_true _ _ |>.mp hrun
  have hr := (system .small).replay_runs (C := fun _ _ => True) (fun _ _ _ => trivial) hp
  obtain ⟨req, r, s, s', old, htrace, -⟩ := newest_did hn
  exact ⟨p, req, r, s, s', old, hr, htrace⟩

/-- It has been charged five times for it. -/
theorem charged_when_served_events : ∃ p req r s s' old,
    (system .small).Runs (fun _ _ => True) (.initial ⟨adminAndUser, fun _ _ => 0⟩) p ∧
      p.trace = .did 0 (.request req) (.elsewhere .events) r s s' :: old ∧
      meter (passes .api req.ip) 0 old = 5 := by
  obtain ⟨p, req, r, s, s', old, hr, htrace⟩ := event_stream_run
  exact ⟨p, req, r, s, s', old, hr, htrace,
    charged_when_served .small hr (htrace.trans (List.nil_append _).symm)⟩

end CircleFtp.Http
