import Motif.Proofs.Engine.Flushing

/-!
The writes that listeners ask for. A flush is a sequence of rounds, each run on what the listeners
asked for in the one before, and the limit cuts it off after that many rounds of their writes. What is
asked for in a round is run as a whole, in the order it was asked for, or dropped as a whole and
reported.
-/
set_option autoImplicit false
namespace Motif

namespace Model
variable {m m' : Model}

def Alike (m m' : Model) : Prop := m.drain.1 = m'.drain.1

def Blind (f : Model → Model) : Prop := ∀ m log, Alike (f { m with log }) (f m)

theorem Blind.alike {f : Model → Model} (hf : Blind f) (h : Alike m m') : Alike (f m) (f m') := by
  have same : { m with log := m'.log } = m' := congrArg (fun d : Model => { d with log := m'.log }) h
  exact (hf m m'.log).symm.trans (congrArg (fun m => (f m).drain.1) same)

theorem Blind.comp {f g : Model → Model} (hg : Blind g) (hf : Blind f) : Blind fun m => g (f m) :=
  fun m log => hg.alike (hf m log)

theorem Blind.foldl {α : Type} {f : Model → α → Model} (h : ∀ a, Blind (f · a)) (l : List α) :
    Blind (l.foldl f) := by
  induction l with
  | nil => exact fun _ _ => rfl
  | cons a rest ih => exact ih.comp (h a)

theorem alike_ite {p : Prop} [Decidable p] {a b a' b' : Model × Bool} (h : Alike a.1 a'.1)
    (h' : Alike b.1 b'.1) : Alike (if p then a else b).1 (if p then a' else b').1 := by
  split
  · exact h
  · exact h'

section writes
variable {cls feature : String} {holder v : Value}

theorem blind_addInstance : Blind fun m => (m.addInstance cls v).1 :=
  fun m _ => alike_ite (p := v ∈ m.extent cls) rfl rfl

theorem blind_removeInstance : Blind fun m => (m.removeInstance cls v).1 :=
  fun m _ => alike_ite (p := v ∈ m.extent cls) rfl rfl

theorem blind_addValue : Blind fun m => (m.addValue holder feature v).1 :=
  fun m _ => alike_ite
    (p := m.schema.isUniqueFeature feature && (m.valuesOf holder feature).contains v) rfl rfl

theorem blind_removeValue : Blind fun m => (m.removeValue holder feature v).1 :=
  fun m _ => alike_ite (p := (m.valuesOf holder feature).contains v) rfl rfl

theorem blind_create : Blind fun m => (m.create cls).1 := fun m _ =>
  (Blind.foldl (f := fun m' c => (m'.addInstance c (.object (UInt64.ofNat (m.created + 1)))).1)
    (fun _ => blind_addInstance) _).alike rfl

theorem blind_setValue : Blind fun m => m.setValue holder feature v :=
  blind_addValue.comp fun m log =>
    Blind.foldl (f := fun m' old => (m'.removeValue holder feature old).1)
      (fun _ => blind_removeValue) (m.valuesOf holder feature) m log

theorem blind_removeObject {id : UInt64} : Blind fun m => (m.removeObject id).1 := by
  have held : Blind fun m => (((m.slots.toList.filter fun e => e.1.1 = .object id).flatMap fun e =>
      e.2.map fun v => (e.1.2, v)).foldl fun m p => (m.removeValue (.object id) p.1 p.2).1) m :=
    fun m log => Blind.foldl (fun _ => blind_removeValue) _ m log
  have referring : Blind fun m => (((m.holders.toList.filter fun e => e.1.2 = .object id).flatMap
      fun e => e.2.map fun h => (e.1.1, h)).foldl
        fun m p => (m.removeValue p.2 p.1 (.object id)).1) m :=
    fun m log => Blind.foldl (fun _ => blind_removeValue) _ m log
  have extents : ∀ cls, Blind fun m => (m.schema.supertypesOf cls).foldl
      (fun m c => (m.removeInstance c (.object id)).1) m :=
    fun _ m log => Blind.foldl (fun _ => blind_removeInstance) _ m log
  intro m log
  cases there : m.objects[id]? with
  | none => simp only [removeObject, there]; rfl
  | some cls =>
    simp only [removeObject, there]
    exact (extents cls).alike (referring.alike (held.alike rfl))

theorem blind_write (w : Write) : Blind fun m => (m.write w).1 := by
  cases w with
  | create cls => exact blind_create
  | removeObject id => exact blind_removeObject
  | addInstance cls v => exact blind_addInstance
  | removeInstance cls v => exact blind_removeInstance
  | addValue h f v => exact blind_addValue
  | removeValue h f v => exact blind_removeValue
  | setValue h f v => exact blind_setValue

theorem writeAll_cons (m : Model) (w : Write) (ws : List Write) :
    (m.writeAll (w :: ws)).1 = ((m.write w).1.writeAll ws).1 := by
  rw [writeAll, runAll_cons]
  rfl

theorem writeAll_append (m : Model) (ws ws' : List Write) :
    (m.writeAll (ws ++ ws')).1 = ((m.writeAll ws).1.writeAll ws').1 := by
  induction ws generalizing m with
  | nil => rfl
  | cons w rest ih =>
    rw [List.cons_append, writeAll_cons, ih, writeAll_cons]

theorem blind_writeAll (ws : List Write) : Blind fun m => (m.writeAll ws).1 := by
  induction ws with
  | nil => exact fun _ _ => rfl
  | cons w rest ih =>
    simp only [writeAll_cons]
    exact ih.comp (blind_write w)

end writes

end Model

def Subscription.attend (s : Subscription) (n : Notice) : Subscription :=
  if s.query.name = n.found.query.name then s.hear n else s

def Happening.told? : Happening → Option (ListenerId × Notice)
  | .told id n => some (id, n)
  | _ => none

def Happening.overflow? : Happening → Option (Nat × Nat)
  | .fatal (.overflow rounds dropped) => some (rounds, dropped)
  | _ => none

open Happening

def attendAll (subs : List Subscription) (notices : List Notice) : List Subscription :=
  notices.foldl (fun subs n => subs.map (·.attend n)) subs

/-- Who is told what, in order: each notice goes to all listeners of its query before the next one
does, and each listener has heard by then what came before. -/
def hearings : List Subscription → List Notice → List (Subscription × Notice)
  | _, [] => []
  | subs, n :: rest =>
    (subs.filter fun s => s.query.name = n.found.query.name).map (·, n) ++
      hearings (subs.map (·.attend n)) rest

theorem hearings_append (subs : List Subscription) (ns ns' : List Notice) :
    hearings subs (ns ++ ns') = hearings subs ns ++ hearings (attendAll subs ns) ns' := by
  induction ns generalizing subs with
  | nil => rfl
  | cons n rest ih =>
    rw [List.cons_append, hearings, hearings, ih, List.append_assoc]
    rfl

theorem hearings_singleton (subs : List Subscription) (n : Notice) :
    hearings subs [n] = (subs.filter fun s => s.query.name = n.found.query.name).map (·, n) :=
  List.append_nil _

def askedFor (told : List (Subscription × Notice)) : List Write :=
  told.flatMap fun x => (x.1.react x.2).writes

namespace Engine
variable {e e' e'' : Engine} {ns ns' : List Notice} {queued queued' : List Write}

def notice? (e : Engine) (event : ProductionEvent) : Option Notice :=
  match e.producers[event.node]? with
  | none => none
  | some q => (Match.ofTuple q event.event.tuple).toOption.map (⟨event.event.direction, ·⟩)

def Reports (overflows : List (Nat × Nat)) (e e' : Engine) : Prop :=
  ∃ news : List Happening, e'.history = news.reverse ++ e.history ∧ news.filterMap overflow? = overflows

theorem Reports.trans {o o' : List (Nat × Nat)} (h : Reports o e e') (h' : Reports o' e' e'') :
    Reports (o ++ o') e e'' := by
  obtain ⟨news, new, beyond⟩ := h
  obtain ⟨news', new', beyond'⟩ := h'
  refine ⟨news ++ news', ?_, ?_⟩
  · rw [new', new, List.reverse_append, List.append_assoc]
  · rw [List.filterMap_append, beyond, beyond']

structure Informs (ns : List Notice) (e e' : Engine) (queued : List Write) : Prop where
  model : e'.model = e.model
  settings : e'.settings = e.settings
  producers : e'.producers = e.producers
  network : e'.network = e.network
  subscriptions : e'.subscriptions = attendAll e.subscriptions ns
  queued : queued = askedFor (hearings e.subscriptions ns)
  history : ∃ news : List Happening, e'.history = news.reverse ++ e.history ∧
    news.filterMap told? = (hearings e.subscriptions ns).map (fun x => (x.1.id, x.2)) ∧
    news.filterMap overflow? = []

namespace Informs

theorem nothing (e : Engine) : Informs [] e e [] :=
  ⟨rfl, rfl, rfl, rfl, rfl, rfl, [], rfl, rfl, rfl⟩

theorem trans (h : Informs ns e e' queued) (h' : Informs ns' e' e'' queued') :
    Informs (ns ++ ns') e e'' (queued ++ queued') where
  model := h'.model.trans h.model
  settings := h'.settings.trans h.settings
  producers := h'.producers.trans h.producers
  network := h'.network.trans h.network
  subscriptions := by
    rw [h'.subscriptions, h.subscriptions, attendAll, attendAll, attendAll, List.foldl_append]
  queued := by
    rw [h.queued, h'.queued, h.subscriptions, hearings_append, askedFor, askedFor, askedFor,
      List.flatMap_append]
  history := by
    obtain ⟨news, new, told, beyond⟩ := h.history
    obtain ⟨news', new', told', beyond'⟩ := h'.history
    refine ⟨news ++ news', ?_, ?_, ?_⟩
    · rw [new', new, List.reverse_append, List.append_assoc]
    · rw [List.filterMap_append, told, told', h.subscriptions, hearings_append, List.map_append]
    · rw [List.filterMap_append, beyond, beyond', List.append_nil]

theorem reports (h : Informs ns e e' queued) : Reports [] e e' :=
  let ⟨news, new, _, beyond⟩ := h.history
  ⟨news, new, beyond⟩

end Informs

theorem informs_report (e : Engine) (issues : List Issue) : Informs [] e (e.report issues) [] := by
  rw [report]
  split
  · refine ⟨rfl, rfl, rfl, rfl, rfl, rfl, _, rfl, ?_, ?_⟩
    all_goals
      rw [List.filterMap_map]
      exact List.filterMap_eq_nil_iff.2 fun _ _ => rfl
  · exact .nothing e

theorem informs_tellAll (e : Engine) (n : Notice) : Informs [n] e (e.tellAll n).1 (e.tellAll n).2 := by
  refine ⟨rfl, rfl, rfl, rfl, rfl, ?_, _, rfl, ?_, ?_⟩
  · rw [hearings_singleton, askedFor, List.flatMap_map]
    rfl
  · have fatal : ∀ l : List Fatal, (l.map Happening.fatal).filterMap told? = [] := fun l => by
      rw [List.filterMap_map]
      exact List.filterMap_eq_nil_iff.2 fun _ _ => rfl
    rw [List.filterMap_append, fatal, List.append_nil, List.filterMap_map, hearings_singleton,
      List.map_map]
    exact congrFun List.filterMap_eq_map _
  · have told : ∀ l : List Subscription,
        (l.map fun s => Happening.told s.id n).filterMap overflow? = [] := fun l => by
      rw [List.filterMap_map]
      exact List.filterMap_eq_nil_iff.2 fun _ _ => rfl
    rw [List.filterMap_append, told, List.nil_append, List.filterMap_map]
    refine List.filterMap_eq_nil_iff.2 fun f hf => ?_
    obtain ⟨s, -, hs⟩ := List.mem_filterMap.1 hf
    rw [Subscription.fatal?] at hs
    split at hs <;> cases hs <;> rfl

theorem informs_unheard {n : Notice} (h : e.listenersOf n.found.query = []) : Informs [n] e e [] := by
  have others : ∀ s ∈ e.subscriptions, ¬s.query.name = n.found.query.name := fun s hs heq =>
    List.filter_eq_nil_iff.1 h s hs (decide_eq_true heq)
  have same : attendAll e.subscriptions [n] = e.subscriptions := by
    rw [attendAll, List.foldl_cons, List.foldl_nil]
    refine (List.map_congr_left fun s hs => ?_).trans (List.map_id _)
    exact if_neg (others s hs)
  have silent : hearings e.subscriptions [n] = [] := by
    rw [hearings_singleton, show e.subscriptions.filter _ = [] from h]
    rfl
  refine ⟨rfl, rfl, rfl, rfl, same.symm, ?_, [], rfl, ?_, rfl⟩
  · rw [silent]
    rfl
  · rw [silent]
    rfl

theorem informs_deliver (e : Engine) (event : ProductionEvent) :
    Informs (e.notice? event).toList e (e.deliver event).1 (e.deliver event).2 := by
  cases hq : e.producers[event.node]? with
  | none =>
    simp only [deliver, notice?, hq]
    exact .nothing e
  | some q =>
    simp only [deliver, notice?, hq]
    cases hm : Match.ofTuple q event.event.tuple with
    | error issue =>
      split
      · exact .nothing e
      · exact informs_report e [issue]
    | ok found =>
      split
      · rename_i unheard
        exact informs_unheard (Match.query_eq hm ▸ List.isEmpty_iff.1 unheard)
      · exact informs_tellAll e _

theorem informs_deliverAll (e : Engine) (events : List ProductionEvent) :
    Informs (events.filterMap e.notice?) e (e.deliverAll events).1 (e.deliverAll events).2 := by
  induction events generalizing e with
  | nil => exact .nothing e
  | cons event rest ih =>
    have first := informs_deliver e event
    have same : (e.deliver event).1.notice? = e.notice? := by
      funext event'
      rw [notice?, notice?, first.producers]
    have others := first.trans (ih (e.deliver event).1)
    rw [same] at others
    rw [deliverAll, runAll_cons, List.filterMap_eq_flatMap_toList, List.flatMap_cons,
      ← List.filterMap_eq_flatMap_toList]
    exact others

end Engine

namespace Engine
variable {e e' : Engine} {rounds : Nat}

structure Round where
  start : Engine
  /-- the engine when what had changed has gone through the network -/
  fed : Engine
  /-- the engine when all listeners have been told -/
  told : Engine
  /-- the writes they asked for -/
  queued : List Write

/-- The round takes place. Nothing that was written is left in the log, and the listeners are told of
all that came of it. -/
structure Round.Ran (r : Round) : Prop where
  propagated : r.start.propagate = .ok r.fed
  drained : r.fed.model = r.start.model.drain.1
  settings : r.fed.settings = r.start.settings
  subscriptions : r.fed.subscriptions = r.start.subscriptions
  reports : Reports [] r.start r.fed
  informs : Informs (r.fed.takeEvents.2.filterMap r.fed.notice?) r.fed.takeEvents.1 r.told r.queued

theorem Round.Ran.model {r : Round} (h : r.Ran) : r.told.model = r.start.model.drain.1 :=
  h.informs.model.trans h.drained

theorem Round.Ran.settings_told {r : Round} (h : r.Ran) : r.told.settings = r.start.settings :=
  h.informs.settings.trans h.settings

theorem Round.Ran.reports_told {r : Round} (h : r.Ran) : Reports [] r.start r.told :=
  h.reports.trans h.informs.reports

theorem exists_ran {fed : Engine} (h : e.propagate = .ok fed) :
    ∃ r : Round, r.start = e ∧ r.Ran ∧ e.round = .ok (r.told, r.queued) := by
  have round : e.round = .ok (fed.takeEvents.1.deliverAll fed.takeEvents.2) := by
    rw [Engine.round, h]
    rfl
  have informs := informs_deliverAll fed.takeEvents.1 fed.takeEvents.2
  obtain ⟨net, -, hnet⟩ := bind_ok h
  have reported : (({ e with model := e.model.drain.1 } : Engine).setNetwork
      net.takeIssues.1).report net.takeIssues.2 = fed := Except.ok.inj hnet
  have said := informs_report
    (({ e with model := e.model.drain.1 } : Engine).setNetwork net.takeIssues.1) net.takeIssues.2
  rw [reported] at said
  exact ⟨⟨e, fed, _, _⟩, rfl, ⟨h, said.model, said.settings, said.subscriptions, said.reports,
    informs⟩, round⟩

/-- The rounds lead from one engine to the next, each but the first from what the listeners asked for
in the one before. -/
def Follows : Engine → List Round → Engine → Prop
  | e, [], next => e = next
  | e, r :: rest, next => r.start = e ∧ Follows (r.told.runQueued r.queued) rest next

structure Goes (rounds : Nat) (e : Engine) (done : List Round) (next : Engine) : Prop where
  follows : Follows e done next
  ran : ∀ r ∈ done, r.Ran ∧ r.queued ≠ []
  bounded : done.length ≤ rounds

/-- How a flush ends that is granted so many rounds of the listeners' writes: with a last round, in
which either nothing is asked for, or what is asked for exceeds the limit and is dropped. -/
structure Ends (rounds : Nat) (e : Engine) (done : List Round) (last : Round) (e' : Engine) : Prop where
  goes : Goes rounds e done last.start
  ran : last.Ran
  ending : last.queued = [] ∧ e' = last.told ∨
    last.queued ≠ [] ∧ done.length = rounds ∧
      e' = last.told.record [.fatal (.overflow e.settings.maxRounds last.queued.length)]
  /-- the model is as the writes of all rounds but the last leave it -/
  model : e'.model = (e.model.writeAll (done.flatMap Round.queued)).1.drain.1
  drained : e'.model.log = []
  /-- what overflows are reported -/
  reports : Reports (if last.queued = [] then [] else [(e.settings.maxRounds, last.queued.length)]) e e'

theorem Goes.nil : Goes rounds e [] e := ⟨rfl, List.forall_mem_nil _, Nat.zero_le _⟩

theorem Ends.of_ran {last : Round} (ran : last.Ran) (hs : last.start = e)
    (ending : last.queued = [] ∧ e' = last.told ∨ last.queued ≠ [] ∧ 0 = rounds ∧
      e' = last.told.record [.fatal (.overflow e.settings.maxRounds last.queued.length)]) :
    Ends rounds e [] last e' := by
  subst hs
  have model : e'.model = last.start.model.drain.1 := by
    obtain ⟨-, rfl⟩ | ⟨-, -, rfl⟩ := ending
    · exact ran.model
    · exact ran.model
  refine ⟨.nil, ran, ending, model, model ▸ rfl, ?_⟩
  obtain ⟨none, rfl⟩ | ⟨some, -, rfl⟩ := ending
  · rw [if_pos none]
    exact ran.reports_told
  · rw [if_neg some]
    exact ran.reports_told.trans ⟨_, rfl, rfl⟩

theorem Goes.cons {r : Round} {done : List Round} {next : Engine} (ran : r.Ran) (some : r.queued ≠ [])
    (h : Goes rounds (r.told.runQueued r.queued) done next) :
    Goes (rounds + 1) r.start (r :: done) next :=
  ⟨⟨rfl, h.follows⟩, List.forall_mem_cons.2 ⟨⟨ran, some⟩, h.ran⟩, Nat.succ_le_succ h.bounded⟩

theorem Ends.cons {r last : Round} {done : List Round} (ran : r.Ran) (some : r.queued ≠ [])
    (h : Ends rounds (r.told.runQueued r.queued) done last e') :
    Ends (rounds + 1) r.start (r :: done) last e' := by
  have settings : (r.told.runQueued r.queued).settings = r.start.settings := ran.settings_told
  have wrote : Reports [] r.told (r.told.runQueued r.queued) := ⟨[.wrote r.queued], rfl, rfl⟩
  refine ⟨h.goes.cons ran some, h.ran, ?_, ?_, h.drained, ?_⟩
  · have ending := h.ending
    rw [settings] at ending
    exact ending.imp_right (And.imp_right (And.imp_left (congrArg (· + 1))))
  · calc e'.model
      _ = ((r.told.model.writeAll r.queued).1.writeAll (done.flatMap Round.queued)).1.drain.1 := h.model
      _ = ((r.start.model.drain.1).writeAll ((r :: done).flatMap Round.queued)).1.drain.1 := by
        rw [← Model.writeAll_append, ran.model, List.flatMap_cons]
      _ = (r.start.model.writeAll ((r :: done).flatMap Round.queued)).1.drain.1 :=
        Model.blind_writeAll _ _ []
  · have reports := h.reports
    rw [settings] at reports
    exact (ran.reports_told.trans wrote).trans reports

/-- The first round of a flush, and what comes of it. -/
theorem flushWithin_cases (rounds : Nat) (e : Engine) :
    (∃ f, e.propagate = .error f ∧ e.flushWithin rounds = .error f) ∨
    ∃ r : Round, r.start = e ∧ r.Ran ∧
      (r.queued = [] ∧ e.flushWithin rounds = .ok r.told ∨
        r.queued ≠ [] ∧ e.flushWithin rounds = match rounds with
          | 0 => .ok (r.told.record [.fatal (.overflow e.settings.maxRounds r.queued.length)])
          | left + 1 => (r.told.runQueued r.queued).flushWithin left) := by
  cases hp : e.propagate with
  | error f =>
    have round : e.round = .error f := by
      rw [Engine.round, hp]
      rfl
    refine .inl ⟨f, rfl, ?_⟩
    cases rounds <;> rw [flushWithin, round] <;> rfl
  | ok fed =>
    obtain ⟨r, rfl, ran, round⟩ := exists_ran hp
    refine .inr ⟨r, rfl, ran, ?_⟩
    by_cases none : r.queued = []
    · refine .inl ⟨none, ?_⟩
      cases rounds <;> rw [flushWithin, round, none] <;> rfl
    · refine .inr ⟨none, ?_⟩
      have some : ¬r.queued.isEmpty = true := fun h => none (List.isEmpty_iff.1 h)
      have settings := ran.settings_told
      cases rounds <;> rw [flushWithin, round]
      · rw [← settings]
        exact if_neg some
      · exact if_neg some

theorem flushWithin_ends (rounds : Nat) (e : Engine) :
    (∃ done next f, Goes rounds e done next ∧ next.propagate = .error f ∧
      e.flushWithin rounds = .error f) ∨
    ∃ done last e', e.flushWithin rounds = .ok e' ∧ Ends rounds e done last e' := by
  induction rounds generalizing e with
  | zero =>
    obtain ⟨f, hp, hf⟩ | ⟨r, hr, ran, ⟨none, hf⟩ | ⟨some, hf⟩⟩ := flushWithin_cases 0 e
    · exact .inl ⟨[], e, f, .nil, hp, hf⟩
    · exact .inr ⟨[], r, _, hf, .of_ran ran hr (.inl ⟨none, rfl⟩)⟩
    · exact .inr ⟨[], r, _, hf, .of_ran ran hr (.inr ⟨some, rfl, rfl⟩)⟩
  | succ left ih =>
    obtain ⟨f, hp, hf⟩ | ⟨r, rfl, ran, ⟨none, hf⟩ | ⟨some, hf⟩⟩ := flushWithin_cases (left + 1) e
    · exact .inl ⟨[], e, f, .nil, hp, hf⟩
    · exact .inr ⟨[], r, _, hf, .of_ran ran rfl (.inl ⟨none, rfl⟩)⟩
    · rw [hf]
      obtain ⟨done, next, f, goes, hp, hf⟩ | ⟨done, last, e', hf, ends⟩ :=
        ih (r.told.runQueued r.queued)
      · exact .inl ⟨r :: done, next, f, goes.cons ran some, hp, hf⟩
      · exact .inr ⟨r :: done, last, e', hf, ends.cons ran some⟩

/-- Whatever the listeners ask for, a flush is over after as many rounds of their writes as are
allowed, and one more propagation. What was written is run, or it is dropped as a whole and reported
once. -/
theorem flush_bounded (e : Engine) :
    (∃ done next f, Goes e.settings.maxRounds e done next ∧ next.propagate = .error f ∧
      e.flush = .error f ∧ (e.Written False → f = .unsettled ∧ ¬e.catalog.Calm)) ∨
    ∃ done last e', e.flush = .ok e' ∧ Ends e.settings.maxRounds e done last e' ∧
      (e.Written False → e'.network.Mirrors e'.model.schema e'.model.held) := by
  obtain ⟨done, next, f, goes, hp, hf⟩ | ⟨done, last, e', hf, ends⟩ :=
    flushWithin_ends e.settings.maxRounds e
  · refine .inl ⟨done, next, f, goes, hp, hf, fun h => ?_⟩
    obtain ⟨e', he', -⟩ | ⟨hu, restless⟩ := h.flush
    · cases hf.symm.trans he'
    · cases hf.symm.trans hu
      exact ⟨rfl, restless⟩
  · refine .inr ⟨done, last, e', hf, ends, fun h => ?_⟩
    obtain ⟨e₁, he₁, sound, -⟩ | ⟨hu, -⟩ := h.flush
    · cases hf.symm.trans he₁
      exact sound.mirrors
    · cases hf.symm.trans hu

def insatiable : Engine :=
  let q : Query := { name := "q", parameters := [], bodies := [] }
  { settings := { maxRounds := 0 }
    installed := { network := { events := [⟨0, .insert, []⟩] } }
    producers := (∅ : Std.ExtTreeMap NodeId Query).insert 0 q
    subscriptions := [⟨0, q, fun _ _ => { writes := [.create "A"] }, []⟩] }

theorem insatiable_bounded : ∃ last e', insatiable.flush = .ok e' ∧
    Ends 0 insatiable [] last e' ∧ last.queued.length = 1 := by
  have cut : (insatiable.flush.map fun e' => e'.history.filterMap overflow?).toOption =
    some [(0, 1)] := by decide +kernel
  obtain ⟨_, _, f, -, -, hf, -⟩ | ⟨done, last, e', hf, ends, -⟩ := flush_bounded insatiable
  · rw [hf] at cut
    cases cut
  · cases done with
    | nil =>
      refine ⟨last, e', hf, ends, ?_⟩
      obtain ⟨news, new, beyond⟩ := ends.reports
      rw [hf] at cut
      replace cut : e'.history.filterMap overflow? = [(0, 1)] := Option.some.inj cut
      rw [new, List.filterMap_append, List.filterMap_reverse, beyond] at cut
      split at cut
      · cases cut
      · exact congrArg Prod.snd (List.head_eq_of_cons_eq cut)
    | cons => exact absurd ends.goes.bounded (Nat.not_succ_le_zero _)

end Engine
end Motif
