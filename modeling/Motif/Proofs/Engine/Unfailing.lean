import Motif.Proofs.Engine.Runs

set_option autoImplicit false
namespace Motif

def Listener.unfailing (l : Listener) : Listener := fun heard n => { writes := (l heard n).writes }

def Subscription.unfailing (s : Subscription) : Subscription := { s with listener := s.listener.unfailing }

def Happening.complaint? : Happening → Option Fatal
  | .fatal (.listenerFailed query id message) => some (.listenerFailed query id message)
  | .fatal (.listenerBroke query id message) => some (.listenerBroke query id message)
  | _ => none

theorem Subscription.complaint?_of_fatal? {s : Subscription} {n : Notice} {f : Fatal}
    (h : s.fatal? n = some f) : (Happening.fatal f).complaint? = some f := by
  rw [fatal?] at h
  split at h <;> cases h <;> rfl

/-- A run whose steps do the same in another state, but for what is made of their answers. -/
theorem runAll_map {σ τ α β γ : Type} {step : σ → α → σ × β} {step' : τ → α → τ × γ} {f : σ → τ}
    {g : β → γ} (h : ∀ s a, step' (f s) a = (f (step s a).1, g (step s a).2)) (s : σ) (l : List α) :
    runAll step' (f s) l = (f (runAll step s l).1, (runAll step s l).2.map g) := by
  induction l generalizing s with
  | nil => rfl
  | cons a rest ih =>
    rw [runAll_cons, runAll_cons, h, ih]
    rfl

theorem runAll_answers {σ α β : Type} {step : σ → α → σ × β} {P : β → Prop}
    (h : ∀ s a, P (step s a).2) (s : σ) (l : List α) : ∀ b ∈ (runAll step s l).2, P b := by
  induction l generalizing s with
  | nil => exact nofun
  | cons a rest ih =>
    rw [runAll_cons]
    exact List.forall_mem_cons.2 ⟨h s a, ih (step s a).1⟩

namespace Engine
variable {e e' e'' : Engine}

def unfailing (e : Engine) : Engine :=
  { e with
    subscriptions := e.subscriptions.map Subscription.unfailing
    history := e.history.filter (·.complaint?.isNone) }

theorem unfailing_record (e : Engine) (news : List Happening) :
    (e.record news).unfailing = e.unfailing.record (news.filter (·.complaint?.isNone)) := by
  simp only [record, unfailing, List.filter_append, List.filter_reverse]

theorem unfailing_report (e : Engine) (issues : List Issue) :
    (e.report issues).unfailing = e.unfailing.report issues := by
  have kept : (issues.map Happening.issue).filter (·.complaint?.isNone) = issues.map .issue :=
    List.filter_eq_self.2 fun h hh => by
      obtain ⟨i, -, rfl⟩ := List.mem_map.1 hh
      rfl
  rw [report, report]
  split
  · rename_i on
    rw [unfailing_record, kept]
    exact (if_pos on).symm
  · rename_i off
    exact (if_neg off).symm

theorem unfailing_reportNetwork (e : Engine) :
    e.reportNetwork.unfailing = e.unfailing.reportNetwork :=
  unfailing_report (e.setNetwork e.network.takeIssues.1) e.network.takeIssues.2

theorem listenersOf_unfailing (e : Engine) (q : Query) :
    e.unfailing.listenersOf q = (e.listenersOf q).map Subscription.unfailing := by
  rw [listenersOf, listenersOf, unfailing, List.filter_map]
  rfl

theorem filter_complaints {l : List Fatal} (h : ∀ f ∈ l, (Happening.fatal f).complaint? = some f) :
    (l.map Happening.fatal).filter (·.complaint?.isNone) = [] :=
  List.filter_eq_nil_iff.2 fun x hx => by
    obtain ⟨f, hf, rfl⟩ := List.mem_map.1 hx
    rw [h f hf]
    exact Bool.false_ne_true

theorem filter_news (l : List Subscription) (n : Notice) :
    (l.map (fun s => Happening.told s.id n) ++
      (l.filterMap (Subscription.fatal? · n)).map Happening.fatal).filter (·.complaint?.isNone) =
        l.map fun s => Happening.told s.id n := by
  have told : (l.map fun s => Happening.told s.id n).filter (·.complaint?.isNone) =
      l.map fun s => Happening.told s.id n := List.filter_eq_self.2 fun h hh => by
    obtain ⟨s, -, rfl⟩ := List.mem_map.1 hh
    rfl
  have complaints := filter_complaints (l := l.filterMap (Subscription.fatal? · n)) fun f hf => by
    obtain ⟨s, -, hs⟩ := List.mem_filterMap.1 hf
    exact Subscription.complaint?_of_fatal? hs
  rw [List.filter_append, told, complaints, List.append_nil]

theorem tellAll_unfailing (e : Engine) (n : Notice) :
    e.unfailing.tellAll n = ((e.tellAll n).1.unfailing, (e.tellAll n).2) := by
  have concerned := e.listenersOf_unfailing n.found.query
  have heard : (e.subscriptions.map Subscription.unfailing).map
      (fun s => if s.query.name = n.found.query.name then s.hear n else s) =
      (e.subscriptions.map fun s => if s.query.name = n.found.query.name then s.hear n else s).map
        Subscription.unfailing := by
    rw [List.map_map, List.map_map]
    refine List.map_congr_left fun s _ => ?_
    have query : s.unfailing.query = s.query := rfl
    simp only [Function.comp_apply, query]
    split <;> rfl
  have complaints : ((e.listenersOf n.found.query).map Subscription.unfailing).filterMap
      (·.fatal? n) = [] := List.filterMap_eq_nil_iff.2 fun s hs => by
    obtain ⟨s', -, rfl⟩ := List.mem_map.1 hs
    rfl
  simp only [tellAll, unfailing_record, filter_news, concerned, complaints, List.map_map,
    List.flatMap_map, List.map_nil, List.append_nil]
  simp only [unfailing, heard]
  rfl

theorem deliver_unfailing (e : Engine) (event : ProductionEvent) :
    e.unfailing.deliver event = ((e.deliver event).1.unfailing, (e.deliver event).2) := by
  have producers : e.unfailing.producers = e.producers := rfl
  cases hq : e.producers[event.node]? with
  | none => simp only [deliver, producers, hq]
  | some q =>
    simp only [deliver, producers, hq, listenersOf_unfailing, List.isEmpty_map]
    split
    · rfl
    · cases Match.ofTuple q event.event.tuple with
      | error issue => exact congrArg (·, []) (e.unfailing_report [issue]).symm
      | ok found => exact e.tellAll_unfailing _

theorem deliverAll_unfailing (e : Engine) (events : List ProductionEvent) :
    e.unfailing.deliverAll events = ((e.deliverAll events).1.unfailing, (e.deliverAll events).2) := by
  have told := runAll_map (g := id) deliver_unfailing e events
  rw [List.map_id] at told
  rw [deliverAll, deliverAll, told]

theorem propagate_unfailing (e : Engine) : e.unfailing.propagate = e.propagate.map unfailing := by
  have same : e.unfailing.propagate = (do
      let net ← e.network.updateAll e.model.drain.2
      return (({ e with model := e.model.drain.1 } : Engine).setNetwork net).unfailing.reportNetwork) := rfl
  rw [same, Engine.propagate]
  dsimp only
  cases e.network.updateAll e.model.drain.2 with
  | error f => rfl
  | ok net => exact congrArg Except.ok (unfailing_reportNetwork _).symm

theorem round_unfailing (e : Engine) :
    e.unfailing.round = e.round.map fun r => (r.1.unfailing, r.2) := by
  rw [round, round, propagate_unfailing]
  cases e.propagate with
  | error f => rfl
  | ok fed => exact congrArg Except.ok (deliverAll_unfailing fed.takeEvents.1 fed.takeEvents.2)

theorem runQueued_unfailing (e : Engine) (queued : List Write) :
    e.unfailing.runQueued queued = (e.runQueued queued).unfailing :=
  (unfailing_record { e with model := (e.model.writeAll queued).1 } [.wrote queued]).symm

theorem flushWithin_unfailing (rounds : Nat) (e : Engine) :
    e.unfailing.flushWithin rounds = (e.flushWithin rounds).map unfailing := by
  induction rounds generalizing e with
  | zero =>
    rw [flushWithin, flushWithin, round_unfailing]
    cases e.round with
    | error f => rfl
    | ok r =>
      obtain ⟨told, queued⟩ := r
      simp only [Except.map, bind, Except.bind]
      split
      · rfl
      · exact congrArg Except.ok (unfailing_record told
          [.fatal (.overflow told.settings.maxRounds queued.length)]).symm
  | succ left ih =>
    rw [flushWithin, flushWithin, round_unfailing]
    cases e.round with
    | error f => rfl
    | ok r =>
      obtain ⟨told, queued⟩ := r
      simp only [Except.map, bind, Except.bind]
      split
      · rfl
      · rw [runQueued_unfailing, ih]
        rfl

theorem flush_unfailing (e : Engine) : e.unfailing.flush = e.flush.map unfailing :=
  flushWithin_unfailing _ e

theorem introduce_unfailing (p : Engine × Subscription) (t : Tuple) :
    introduce (p.1.unfailing, p.2.unfailing) t =
      (((introduce p t).1.1.unfailing, (introduce p t).1.2.unfailing), (introduce p t).2.1, []) := by
  obtain ⟨e, s⟩ := p
  have query : s.unfailing.query = s.query := rfl
  simp only [introduce, query]
  cases Match.ofTuple s.query t with
  | error issue => exact congrArg (fun e => ((e, s.unfailing), [], [])) (e.unfailing_report [issue]).symm
  | ok found =>
    have recorded := e.unfailing_record [.told s.id ⟨.insert, found⟩]
    exact congrArg (fun e => ((e, (s.hear ⟨.insert, found⟩).unfailing),
      (s.react ⟨.insert, found⟩).writes, [])) recorded.symm

theorem introduceAll_unfailing (e : Engine) (s : Subscription) (ts : List Tuple) :
    runAll introduce (e.unfailing, s.unfailing) ts =
      (((runAll introduce (e, s) ts).1.1.unfailing, (runAll introduce (e, s) ts).1.2.unfailing),
        (runAll introduce (e, s) ts).2.map fun a => (a.1, [])) :=
  runAll_map (f := fun p : Engine × Subscription => (p.1.unfailing, p.2.unfailing)) introduce_unfailing
    (e, s) ts

/-- What is to be reported when a listener has been introduced is that it failed. -/
theorem complaint?_of_introduced (p : Engine × Subscription) (ts : List Tuple) :
    ∀ f ∈ (runAll introduce p ts).2.flatMap Prod.snd, (Happening.fatal f).complaint? = some f := by
  have complains : ∀ (p : Engine × Subscription) t, ∀ f ∈ (introduce p t).2.2,
      (Happening.fatal f).complaint? = some f := by
    rintro ⟨e, s⟩ t f hf
    rw [introduce] at hf
    split at hf
    · cases hf
    · exact Subscription.complaint?_of_fatal? (Option.mem_toList.1 hf)
  intro f hf
  obtain ⟨a, ha, hf⟩ := List.mem_flatMap.1 hf
  exact runAll_answers (P := fun a => ∀ f ∈ a.2, (Happening.fatal f).complaint? = some f) complains
    p ts a ha f hf

theorem attach_unfailing (e : Engine) (s : Subscription) :
    e.unfailing.attach s.unfailing = (e.attach s).unfailing := by
  simp only [attach, unfailing, List.map_append, List.map_cons, List.map_nil]

theorem attach_record_unfailing (e : Engine) (s : Subscription) {owed : List Fatal}
    (h : ∀ f ∈ owed, (Happening.fatal f).complaint? = some f) :
    ((e.record (owed.map .fatal)).attach s).unfailing = e.unfailing.attach s.unfailing := by
  rw [← attach_unfailing, unfailing_record, filter_complaints h]
  rfl

theorem unsubscribe_unfailing (e : Engine) (id : ListenerId) :
    (e.unfailing.unsubscribe id).1 = (e.unsubscribe id).1.unfailing := by
  simp only [unsubscribe, unfailing, List.filter_map]
  rfl

end Engine
end Motif
