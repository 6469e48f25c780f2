import Motif.Proofs.Engine.Undisturbed

set_option autoImplicit false
namespace Motif
namespace Engine
variable {e e' : Engine}

def Quiet (e : Engine) : Prop := e.network.events = []

theorem quiet_report (h : e.Quiet) (issues : List Issue) : (e.report issues).Quiet := by
  obtain ⟨history, reported⟩ := exists_report e issues
  rw [reported]
  exact h

theorem quiet_settleIn (e : Engine) : e.settleIn.Quiet := by
  obtain ⟨history, settled⟩ := exists_settleIn e
  rw [settled]
  rfl

theorem exists_deliver (e : Engine) (event : ProductionEvent) :
    ∃ subscriptions history, (e.deliver event).1 = { e with subscriptions, history } := by
  rw [deliver]
  split
  · exact ⟨_, _, rfl⟩
  · split
    · exact ⟨_, _, rfl⟩
    · split
      · obtain ⟨history, h⟩ := exists_report e [_]
        exact ⟨_, history, h⟩
      · exact ⟨_, _, rfl⟩

theorem exists_deliverAll (e : Engine) (events : List ProductionEvent) :
    ∃ subscriptions history, (e.deliverAll events).1 = { e with subscriptions, history } := by
  show ∃ subscriptions history, (runAll deliver e events).1 = { e with subscriptions, history }
  refine runAll_keeps (I := fun e' : Engine => ∃ subscriptions history,
    e' = { e with subscriptions, history }) (fun e' event h => ?_) ⟨_, _, rfl⟩ events
  obtain ⟨subscriptions, history, rfl⟩ := h
  exact exists_deliver { e with subscriptions, history } event

theorem quiet_round {queued : List Write} (run : e.round = .ok (e', queued)) : e'.Quiet := by
  obtain ⟨fed, -, run⟩ := bind_ok run
  obtain ⟨subscriptions, history, same⟩ := exists_deliverAll fed.takeEvents.1 fed.takeEvents.2
  have told : (fed.takeEvents.1.deliverAll fed.takeEvents.2).1 = e' := congrArg Prod.fst (Except.ok.inj run)
  rw [← told, same]
  rfl

theorem quiet_flushWithin {rounds : Nat} (run : e.flushWithin rounds = .ok e') : e'.Quiet := by
  induction rounds generalizing e with
  | zero =>
    obtain ⟨⟨e₁, queued⟩, hround, run⟩ := bind_ok run
    have told : e₁.Quiet := quiet_round hround
    dsimp only at run
    split at run <;> cases run
    · exact told
    · exact told
  | succ rounds ih =>
    obtain ⟨⟨e₁, queued⟩, hround, run⟩ := bind_ok run
    dsimp only at run
    split at run
    · cases run
      exact quiet_round hround
    · exact ih run

theorem quiet_introduce (h : e.Quiet) (s : Subscription) (ts : List Tuple) :
    (runAll introduce (e, s) ts).1.1.Quiet := by
  refine runAll_keeps (I := fun p : Engine × Subscription => p.1.Quiet) (fun p t h => ?_) h ts
  rw [introduce]
  split
  · exact quiet_report h _
  · exact h

end Engine

namespace Session
open Engine
variable {α : Type} {e : Engine}

theorem looking_quiet : Looking Quiet where
  plans _ _ _ h := h
  report _ issues h := quiet_report h issues

theorem leads_trivially (x : Session α) : x.Leads e (fun _ _ => True) fun _ _ => True := by
  unfold Leads
  split <;> trivial

theorem prepareRete_quiet (h : e.Quiet) (name : String) :
    (prepareRete name).Leads e (fun _ => Quiet) fun _ _ => True := by
  refine leads_get ?_
  split
  · exact leads_pure h
  · exact Leads.bind ((leads_trivially _).mono (fun components e₁ _ => Leads.bind
      ((leads_trivially _).mono (fun _ e₂ _ => leads_modify (quiet_settleIn e₂)) fun _ _ h => h))
      fun _ _ h => h)

theorem prepareSearch_quiet (h : e.Quiet) (name : String) :
    (prepareSearch name).Leads e (fun _ => Quiet) fun _ _ => True := by
  refine leads_get (Leads.bind (leads_liftPlan (fun components _ => ?_) fun _ _ => trivial))
  refine Leads.bind (leads_forIn (fun _ => Quiet) h (fun callee rest e₁ h₁ => ?_) fun e₁ h₁ => ?_)
  · refine leads_get (Leads.bind (leads_liftPlan (fun backend _ => ?_) fun _ _ => trivial))
    split
    · exact Leads.bind ((prepareRete_quiet h₁ callee).mono (fun _ _ h₂ => leads_pure ⟨rfl, h₂⟩)
        fun _ _ h => h)
    · exact leads_pure ⟨rfl, h₁⟩
  · refine leads_get ?_
    split
    · exact leads_throw trivial
    · exact leads_pure h₁

theorem prepare_quiet (h : e.Quiet) (name : String) :
    (prepare name).Leads e (fun _ => Quiet) fun _ _ => True := by
  refine Leads.bind ((keeps_requireLive e h).mono (fun _ e₁ h₁ => leads_get (Leads.bind
    (leads_liftPlan (fun backend _ => ?_) fun _ _ => trivial))) fun _ _ _ => trivial)
  cases backend with
  | rete => exact Leads.bind ((prepareRete_quiet h₁ name).mono (fun _ _ h₂ => leads_pure h₂)
      fun _ _ h => h)
  | localSearch => exact Leads.bind ((prepareSearch_quiet h₁ name).mono
      (fun _ _ h₂ => leads_pure h₂) fun _ _ h => h)

theorem quiet_bind {β : Type} {x : Session α} (h : x.Leads e (fun _ => Quiet) fun _ _ => True)
    {g : α → Session β} (hg : ∀ a, Keeps Quiet (g a)) :
    (x >>= g).Leads e (fun _ => Quiet) fun _ _ => True :=
  Leads.bind (h.mono (fun a e₁ h₁ => (hg a e₁ h₁).mono (fun _ _ h => h) fun _ _ _ => trivial)
    fun _ _ h => h)

theorem prepared_quiet (h : e.Quiet) (name : String) :
    (prepared name).Leads e (fun _ => Quiet) fun _ _ => True :=
  quiet_bind (prepare_quiet h name) fun _ => keeps_get fun e he =>
    ((keeps_lift _).bind fun _ => keeps_pure _) e he

theorem allMatches_quiet (h : e.Quiet) (name : String) (p : PartialMatch) :
    (allMatches name p).Leads e (fun _ => Quiet) fun _ _ => True :=
  quiet_bind (prepared_quiet h name) fun r => looking_quiet.matchesOf r.1 r.2 p

theorem flush_quiet : flush.Leads e (fun _ => Quiet) fun f _ => ∃ x, f = .fault x :=
  leads_get (Leads.bind (leads_lift (fun _ run => leads_set (quiet_flushWithin (liftFault_ok run)))
    fun _ => liftFault_error))

theorem subscribe_quiet (h : e.Quiet) (name : String) (fireNow : Bool) (listener : Listener) :
    (subscribe name fireNow listener).Leads e (fun _ => Quiet) fun _ _ => True := by
  refine Leads.bind ((prepare_quiet h name).mono (fun backend e₁ h₁ => ?_) fun _ _ h => h)
  cases backend with
  | localSearch => exact leads_throw trivial
  | rete =>
    refine leads_get (Leads.bind (leads_liftPlan (fun q _ => Leads.bind (leads_set ?_))
      fun _ _ => trivial))
    have numbered : Quiet { e₁ with nextListener := e₁.nextListener + 1 } := h₁
    cases fireNow with
    | false => exact Leads.bind (leads_modify (leads_pure numbered))
    | true =>
      refine Leads.bind ((looking_quiet.evaluate name .rete _ _ numbered).mono (fun ts e₂ h₂ => ?_)
        fun _ _ _ => trivial)
      refine leads_get ?_
      have told := quiet_introduce h₂ ⟨e₁.nextListener, q, listener, []⟩ ts
      split
      rename_i e₃ s₃ answers hr
      rw [hr] at told
      dsimp only
      split
      · exact Leads.bind (leads_set (leads_pure told))
      · exact Leads.bind (leads_set (Leads.bind (flush_quiet.mono (fun _ _ h => leads_pure h)
          fun _ _ _ => trivial)))

end Session

namespace Engine
variable {e : Engine}

def Call.Prepares : Call → Prop
  | prepare _ | allMatches .. | oneMatch .. | hasMatch .. | countMatches .. | valuesOf ..
  | converted .. | subscribe .. => True
  | _ => False

abbrev Smoothly (e : Engine) (c : Call) : Prop := c.Prepares → (c.answer e).isOk = true

/-- A request that ends leaves no events, if the query that it prepares could be prepared. -/
theorem Call.quiet (h : e.Quiet) (c : Call) : c.perform.Leads e (fun _ => Quiet)
    fun f e' => c.Prepares ∨ (∃ x, f = .fault x) ∨ e'.Quiet := by
  have prepares : ∀ {x : Session Unit}, c.Prepares → x.Leads e (fun _ => Quiet) (fun _ _ => True) →
      x.Leads e (fun _ => Quiet) fun f e' => c.Prepares ∨ (∃ x, f = .fault x) ∨ e'.Quiet :=
    fun hc led => led.mono (fun _ _ h => h) fun _ _ _ => .inl hc
  have keeps : ∀ {x : Session Unit}, Session.Keeps Quiet x →
      x.Leads e (fun _ => Quiet) fun f e' => c.Prepares ∨ (∃ x, f = .fault x) ∨ e'.Quiet :=
    fun kept => (kept e h).mono (fun _ _ h => h) fun _ _ h => .inr (.inr h)
  cases c with
  | register q =>
    refine keeps (Session.keeps_requireLive.bind fun _ => Session.keeps_get fun e he => ?_)
    split
    · exact Session.leads_throw he
    · exact Session.Leads.bind (Session.leads_liftPlan (fun catalog _ => Session.leads_set he)
        fun _ _ => he)
  | registerEvaluator v | registerAggregator op | unsubscribe id | takeHistory =>
    exact keeps (Session.keeps_modify fun _ he => he)
  | prepare name => exact prepares trivial (Session.prepare_quiet h name).map
  | allMatches name p => exact prepares trivial (Session.allMatches_quiet h name p).map
  | oneMatch name p | hasMatch name p | countMatches name p =>
    exact prepares trivial (Session.allMatches_quiet h name p).map.map
  | matchesOf q backend p => exact keeps (Session.looking_quiet.matchesOf q backend p).map
  | valuesOf name parameter p =>
    exact prepares trivial (Session.Leads.map (Session.quiet_bind (Session.prepared_quiet h name)
      fun r => (Session.keeps_lift _).bind fun _ => (Session.looking_quiet.matchesOf r.1 r.2 p).bind
        fun _ => Session.keeps_pure _))
  | converted name p convert =>
    exact prepares trivial (Session.Leads.map (Session.quiet_bind (Session.allMatches_quiet h name p)
      fun _ => (Session.keeps_modify fun _ he => quiet_report he _).bind fun _ => Session.keeps_pure _))
  | update writes =>
    refine Session.Leads.map (Session.Leads.bind ((Session.keeps_requireLive e h).mono
      (fun _ e₁ _ => ?_) fun _ _ h => .inr (.inr h)))
    exact Session.leads_get (Session.Leads.bind (Session.leads_set (Session.Leads.bind
      (Session.flush_quiet.mono (fun _ _ h => Session.leads_pure h) fun _ _ hf => .inr (.inl hf)))))
  | subscribe name fireNow listener =>
    exact prepares trivial (Session.subscribe_quiet h name fireNow listener).map
  | dispose =>
    refine keeps (Session.keeps_requireLive.bind fun _ => Session.keeps_get fun e he => ?_)
    split
    · exact Session.leads_throw he
    · exact Session.leads_set rfl

theorem Reached.quiet (h : e.Reached Smoothly) : e.Quiet := by
  induction h with
  | start settings _ => rfl
  | @call e c _ allowed ends ih =>
    have led := c.quiet ih
    cases hx : c.answer e with
    | ok => exact led.of_ok hx
    | error f =>
      obtain hc | ⟨x, rfl⟩ | quiet := led.of_error hx
      · have answered := allowed hc
        rw [hx] at answered
        cases answered
      · exact absurd hx (ends x)
      · exact quiet

end Engine
end Motif
