import Motif.Proofs.Engine.Complaints

/-!
Listeners that fail are isolated. What becomes of one that is told of a match has no consequence but a
report: the engine, all it answers and all that any listener is told are the same in two runs that
differ in nothing else. What is reported of listeners is one report of every failure.
-/
set_option autoImplicit false
namespace Motif
namespace Session
variable {α β : Type} {e : Engine}

open Engine

theorem mutes_register (q : Query) : Mutes (register q) (register q) e := by
  refine aloof_requireLive.mutes.bind fun _ _ => mutes_get ?_
  generalize ((requireLive.run.run e).2) = e
  have inUse : e.unfailing.inUse q.name = e.inUse q.name := rfl
  have catalog : e.unfailing.catalog = e.catalog := rfl
  rw [inUse, catalog]
  cases e.inUse q.name with
  | true => rfl
  | false =>
    cases e.catalog.register q <;> rfl

theorem mutes_flush : Mutes Session.flush Session.flush e := by
  refine mutes_get ?_
  rw [flush_unfailing]
  cases e.flush <;> rfl

theorem mutes_update (writes : List Write) : Mutes (update writes) (update writes) e := by
  refine aloof_requireLive.mutes.bind fun _ _ => mutes_get ?_
  generalize ((requireLive.run.run e).2) = e
  refine Mutes.bind (mutes_set { e with model := (e.model.writeAll writes).1 }) fun _ _ => ?_
  exact mutes_flush.bind fun _ _ => mutes_pure _

theorem mutes_subscribe (name : String) (fireNow : Bool) (listener : Listener) :
    Mutes (subscribe name fireNow listener) (subscribe name fireNow listener.unfailing) e := by
  refine (aloof_prepare name).mutes.bind fun backend _ => ?_
  generalize ((prepare name).run.run e).2 = e
  cases backend with
  | localSearch => exact (aloof_throw _).mutes
  | rete =>
    refine mutes_get ((mutes_lift _).bind fun q hq => ?_)
    generalize ((liftM (liftPlan (e.catalog.query name)) : Session Query).run.run e).2 = e₁
    refine Mutes.bind (mutes_set { e with nextListener := e.nextListener + 1 }) fun _ _ => ?_
    generalize ({ e with nextListener := e.nextListener + 1 } : Engine) = e₂
    cases fireNow with
    | false =>
      refine Mutes.bind (mutes_modify ?_) fun _ _ => mutes_pure _
      exact attach_unfailing _ ⟨e.nextListener, q, listener, []⟩
    | true =>
      refine (aloof_evaluate name .rete _).mutes.bind fun current _ => mutes_get ?_
      generalize ((evaluate name .rete (.unbound q.arity)).run.run _).2 = e₃
      have told := introduceAll_unfailing e₃ ⟨e.nextListener, q, listener, []⟩ current
      have complaints := complaint?_of_introduced (e₃, ⟨e.nextListener, q, listener, []⟩) current
      have joining : (⟨e.unfailing.nextListener, q, listener.unfailing, []⟩ : Subscription) =
          Subscription.unfailing ⟨e.nextListener, q, listener, []⟩ := rfl
      rw [joining, told]
      generalize runAll introduce (e₃, ⟨e.nextListener, q, listener, []⟩) current = r at complaints
      obtain ⟨⟨e₄, s⟩, answers⟩ := r
      have queued : (answers.map fun a => (a.1, ([] : List Fatal))).flatMap Prod.fst =
          answers.flatMap Prod.fst := List.flatMap_map ..
      have silent : (answers.map fun a => (a.1, ([] : List Fatal))).flatMap Prod.snd = [] :=
        List.flatMap_eq_nil_iff.2 fun a ha => by
          obtain ⟨a, -, rfl⟩ := List.mem_map.1 ha
          rfl
      have attached : (e₄.unfailing.record (([] : List Fatal).map .fatal)).attach s.unfailing =
          ((e₄.record ((answers.flatMap Prod.snd).map .fatal)).attach s).unfailing :=
        (attach_record_unfailing e₄ s complaints).symm
      dsimp only
      rw [queued, silent, attached]
      generalize (e₄.record ((answers.flatMap Prod.snd).map .fatal)).attach s = e₅
      cases (answers.flatMap Prod.fst).isEmpty with
      | true => exact Mutes.bind (mutes_set _) fun _ _ => mutes_pure _
      | false =>
        refine Mutes.bind ?_ fun _ _ => mutes_flush.bind fun _ _ => mutes_pure _
        exact congrArg (Prod.mk (Except.ok PUnit.unit)) (runQueued_unfailing e₅ _)

theorem Leads.after {P : Engine → Prop} {x : Session α}
    (h : x.Leads e (fun _ e' => P e') fun _ e' => P e') : P (x.run.run e).2 := by
  rw [Leads] at h
  generalize x.run.run e = r at h ⊢
  obtain ⟨_ | _, _⟩ := r <;> exact h

end Session

namespace Engine
variable {e : Engine}

open Session Happening

namespace Call

def unfailing : Call → Call
  | subscribe name fireNow listener => subscribe name fireNow listener.unfailing
  | c => c

theorem mutes (c : Call) : Mutes c.perform c.unfailing.perform e := by
  cases c with
  | register q => exact mutes_register q
  | registerEvaluator v => exact mutes_modify rfl
  | registerAggregator op => exact mutes_modify rfl
  | prepare name => exact (aloof_prepare name).mutes.map
  | allMatches name p => exact (aloof_allMatches name p).mutes.map
  | oneMatch name p | hasMatch name p | countMatches name p =>
    exact (aloof_allMatches name p).mutes.map.map
  | matchesOf q backend p => exact (aloof_matchesOf q backend p).mutes.map
  | valuesOf name parameter p => exact (aloof_valuesOf name parameter p).mutes.map
  | converted name p convert => exact (aloof_converted name p convert).mutes.map
  | update writes => exact (mutes_update writes).map
  | subscribe name fireNow listener => exact (mutes_subscribe name fireNow listener).map
  | unsubscribe id => exact mutes_modify (unsubscribe_unfailing e id)
  | dispose => exact aloof_dispose.mutes
  | takeHistory => exact mutes_modify rfl

/-- The requests are the same, but for what becomes of a listener. It asks for the same writes. -/
inductive Alike : Call → Call → Prop
  | same (c : Call) : Alike c c
  | subscribe (name : String) (fireNow : Bool) {l l' : Listener} :
      (∀ heard n, (l heard n).writes = (l' heard n).writes) →
      Alike (subscribe name fireNow l) (subscribe name fireNow l')

theorem Alike.unfailing_eq {c c' : Call} (h : Alike c c') : c.unfailing = c'.unfailing := by
  cases h with
  | same => rfl
  | @subscribe name fireNow l l' writes =>
    have same : l.unfailing = l'.unfailing := by
      funext heard n
      rw [Listener.unfailing, Listener.unfailing, writes]
    rw [unfailing, unfailing, same]

end Call

structure Course where
  engine : Engine
  taken : List Happening := []
  roll : Roll := fun _ => none

namespace Course
variable {r r' : Course}

def next (r : Course) (c : Call) : Course where
  engine := c.after r.engine
  taken :=
    match c with
    | .takeHistory => r.engine.history ++ r.taken
    | _ => r.taken
  roll :=
    match c with
    | .subscribe name _ listener =>
      Function.update r.roll r.engine.nextListener (some (name, listener))
    | _ => r.roll

def start (settings : EngineSettings) (m : Model) : Course := { engine := Engine.start settings m }

def run (r : Course) (calls : List Call) : Course := calls.foldl next r

def log (r : Course) : List Happening := r.engine.history ++ r.taken

def Accounts (r : Course) : Prop := r.engine.Accounts r.roll r.taken

theorem Accounts.apart (h : r.Accounts) {c : Call} (apart : Apart r.engine (c.after r.engine))
    (taken : (r.next c).taken = r.taken) (roll : (r.next c).roll = r.roll) :
    (r.next c).Accounts := by
  rw [Accounts, taken, roll]
  exact Engine.Accounts.apart h apart

theorem Accounts.next (h : r.Accounts) (c : Call) : (r.next c).Accounts := by
  cases c with
  | register q => exact (register_accounts q h).after
  | registerEvaluator v | registerAggregator op => exact ⟨h.accounted, h.valid⟩
  | prepare name => exact h.apart (aloof_prepare name).map.apart rfl rfl
  | allMatches name p => exact h.apart (aloof_allMatches name p).map.apart rfl rfl
  | oneMatch name p | hasMatch name p | countMatches name p =>
    exact h.apart (aloof_allMatches name p).map.map.apart rfl rfl
  | matchesOf q backend p => exact h.apart (aloof_matchesOf q backend p).map.apart rfl rfl
  | valuesOf name parameter p => exact h.apart (aloof_valuesOf name parameter p).map.apart rfl rfl
  | converted name p convert => exact h.apart (aloof_converted name p convert).map.apart rfl rfl
  | update writes => exact (update_accounts writes h).map.after
  | subscribe name fireNow listener =>
    exact ((subscribe_accounts name fireNow listener h).mono (fun _ _ h => h.2) fun _ _ h => h).map.after
  | unsubscribe id => exact ⟨h.accounted.leave _, h.valid⟩
  | dispose => exact h.apart aloof_dispose.apart rfl rfl
  | takeHistory => exact ⟨h.accounted, h.valid⟩

structure Twin (r r' : Course) : Prop where
  engine : r'.engine.unfailing = r.engine.unfailing
  taken : r'.taken.filter (·.complaint?.isNone) = r.taken.filter (·.complaint?.isNone)

theorem Twin.next (h : Twin r r') {c c' : Call} (alike : c.Alike c') :
    Twin (r.next c) (r'.next c') := by
  have after : ∀ (c : Call) (e : Engine), (c.after e).unfailing = c.unfailing.after e.unfailing :=
    fun c e => (congrArg Prod.snd (c.mutes (e := e))).symm
  constructor
  · show (c'.after r'.engine).unfailing = (c.after r.engine).unfailing
    rw [after, after, h.engine, alike.unfailing_eq]
  · have history : r'.engine.history.filter (·.complaint?.isNone) =
        r.engine.history.filter (·.complaint?.isNone) := congrArg Engine.history h.engine
    cases alike with
    | subscribe => exact h.taken
    | same =>
      cases c with
      | takeHistory =>
        show (r'.engine.history ++ r'.taken).filter _ = (r.engine.history ++ r.taken).filter _
        rw [List.filter_append, List.filter_append, history, h.taken]
      | _ => exact h.taken

theorem twin_run {calls calls' : List Call} (h : List.Forall₂ Call.Alike calls calls')
    (start : Twin r r') : Twin (r.run calls) (r'.run calls') := by
  induction h generalizing r r' with
  | nil => exact start
  | cons alike _ ih => exact ih (start.next alike)

theorem accounts_run (calls : List Call) (h : r.Accounts) : (r.run calls).Accounts := by
  induction calls generalizing r with
  | nil => exact h
  | cons c rest ih => exact ih (h.next c)

/-- Nobody can tell the runs apart by the engine or by what has happened, but for reports of listeners
that failed. Every listener has been told the same, and the next request is answered in the same way. -/
structure Isolated (r r' : Course) : Prop where
  told : r'.log.filterMap told? = r.log.filterMap told?
  log : r'.log.filter (·.complaint?.isNone) = r.log.filter (·.complaint?.isNone)
  model : r'.engine.model = r.engine.model
  network : r'.engine.network = r.engine.network
  found : ∀ name p, ((allMatches name p).run.run r'.engine).1 =
    ((allMatches name p).run.run r.engine).1
  answers : ∀ c c', Call.Alike c c' → c'.answer r'.engine = c.answer r.engine

/-- Of all who were told of something, in order, each one that failed then is reported once, by its
number and its query; nothing else is reported of listeners. Numbers are given in turn. -/
structure Reports (r : Course) : Prop where
  due : r.log.filterMap complaint? = r.roll.due (r.log.filterMap told?)
  number : ∀ name fireNow listener id,
    ((subscribe name fireNow listener).run.run r.engine).1 = .ok id → id = r.engine.nextListener

theorem Twin.isolated (h : Twin r r') : Isolated r r' := by
  have log : r'.log.filter (·.complaint?.isNone) = r.log.filter (·.complaint?.isNone) := by
    rw [Course.log, Course.log, List.filter_append, List.filter_append, h.taken]
    exact congrArg (· ++ _) (congrArg Engine.history h.engine)
  have heard : ∀ l : List Happening, l.filterMap told? =
      (l.filter (·.complaint?.isNone)).filterMap told? := by
    intro l
    rw [List.filterMap_filter]
    refine List.filterMap_congr fun x _ => ?_
    cases x with
    | fatal f => cases f <;> rfl
    | _ => rfl
  exact {
    told := by rw [heard, log, ← heard]
    log
    model := show r'.engine.unfailing.model = r.engine.unfailing.model by rw [h.engine]
    network := show r'.engine.unfailing.network = r.engine.unfailing.network by rw [h.engine]
    found := fun name p => by
      have same : ∀ e : Engine, ((allMatches name p).run.run e).1 =
          ((allMatches name p).run.run e.unfailing).1 :=
        fun e => (congrArg Prod.fst (aloof_allMatches name p (e := e)).mutes).symm
      rw [same, h.engine, ← same]
    answers := fun c c' alike => by
      have same : ∀ (c : Call) (e : Engine), c.answer e = c.unfailing.answer e.unfailing :=
        fun c e => (congrArg Prod.fst (c.mutes (e := e))).symm
      rw [same, h.engine, ← alike.unfailing_eq, ← same] }

theorem Accounts.reports (h : r.Accounts) : r.Reports where
  due := h.accounted.reports.symm
  number name fireNow listener _ hid := ((subscribe_accounts name fireNow listener h).of_ok hid).1

/-- Two runs that differ in what becomes of listeners when they are told, and not in the writes these
ask for, cannot be told apart, however far they have come. In each of them every failure of a listener
is reported once, and nothing else is. -/
theorem failures_isolated (settings : EngineSettings) (m : Model) {calls calls' : List Call}
    (alike : List.Forall₂ Call.Alike calls calls') :
    Isolated ((start settings m).run calls) ((start settings m).run calls') ∧
      ((start settings m).run calls).Reports ∧ ((start settings m).run calls').Reports := by
  have started : (start settings m).Accounts := by
    refine ⟨⟨List.nodup_nil, nofun, nofun, nofun, rfl⟩, fun name q h => ?_⟩
    cases h
  exact ⟨(twin_run alike ⟨rfl, rfl⟩).isolated, (accounts_run calls started).reports,
    (accounts_run calls' started).reports⟩

section moody

def linked : Query where
  name := "linked"
  parameters := [⟨"x", none⟩, ⟨"z", none⟩]
  bodies := [⟨["x", "z"], [.holds (.feature "edge") ["x", "z"]]⟩]

def asking (outcome : List Notice → Outcome) : Listener := fun heard _ =>
  { writes := if heard.isEmpty then [.addValue (.int 3) "edge" (.int 4)] else []
    outcome := outcome heard }

def watched (outcome : List Notice → Outcome) : List Call :=
  [.update [.addValue (.int 1) "edge" (.int 2)], .register linked,
    .subscribe "linked" true (asking outcome), .subscribe "linked" false fun _ _ => {},
    .update [.addValue (.int 2) "edge" (.int 3)]]

def moody (heard : List Notice) : Outcome :=
  match heard.length with
  | 0 => .broke none
  | 1 => .failed "not today"
  | _ => .ok

theorem moody_isolated :
    List.Forall₂ Call.Alike (watched fun _ => .ok) (watched moody) ∧
      Isolated ((start {} {}).run (watched fun _ => .ok)) ((start {} {}).run (watched moody)) ∧
      ((start {} {}).run (watched fun _ => .ok)).Reports ∧ ((start {} {}).run (watched moody)).Reports := by
  have alike : List.Forall₂ Call.Alike (watched fun _ => .ok) (watched moody) :=
    .cons (.same _) (.cons (.same _) (.cons (.subscribe _ _ fun _ _ => rfl) (.cons (.same _)
      (.cons (.same _) .nil))))
  exact ⟨alike, failures_isolated {} {} alike⟩

example : ((start {} {}).run (watched moody)).log.filterMap (fun x =>
      match x with
      | .told id n => some (Sum.inl (id, n.found.tuple))
      | .fatal f => some (Sum.inr f)
      | _ => none) =
    [.inl (1, [.int 2, .int 3]), .inl (0, [.int 2, .int 3]),
      .inr (.listenerFailed "linked" 0 "not today"), .inl (0, [.int 3, .int 4]),
      .inr (.listenerBroke "linked" 0 none), .inl (0, [.int 1, .int 2])] := by
  cbv

end moody

end Course
end Engine
end Motif
