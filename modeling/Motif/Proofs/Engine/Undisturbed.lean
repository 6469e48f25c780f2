import Motif.Proofs.Engine.Mirror
import Motif.Proofs.Network.Annexes

set_option autoImplicit false
namespace Motif

theorem liftFault_ok {α : Type} {x : Except Fault α} {a : α}
    (h : (liftM x : Except Failure α) = .ok a) : x = .ok a := by
  cases x with
  | error f => cases h
  | ok b =>
    cases h
    rfl

theorem liftFault_error {α : Type} {x : Except Fault α} {f : Failure}
    (h : (liftM x : Except Failure α) = .error f) : ∃ fault, f = .fault fault := by
  cases x with
  | error fault =>
    cases h
    exact ⟨fault, rfl⟩
  | ok b => cases h

namespace Session
variable {α β : Type} {I : Engine → Prop}

def Keeps (I : Engine → Prop) (x : Session α) : Prop :=
  ∀ e, I e → x.Leads e (fun _ => I) fun _ => I

theorem keeps_pure (a : α) : Keeps I (pure a) := fun _ he => he

theorem keeps_throw (f : Failure) : Keeps I (throw f : Session α) := fun _ he => he

theorem Keeps.bind {x : Session α} {g : α → Session β} (h : Keeps I x) (hg : ∀ a, Keeps I (g a)) :
    Keeps I (x >>= g) := fun e he =>
  Leads.bind ((h e he).mono (fun a e' he' => hg a e' he') fun _ _ hf => hf)

theorem Keeps.map {x : Session α} {g : α → β} (h : Keeps I x) : Keeps I (g <$> x) := fun e he =>
  (h e he).map

theorem keeps_get {g : Engine → Session β}
    (h : ∀ e, I e → (g e).Leads e (fun _ => I) fun _ => I) : Keeps I (get >>= g) := fun e he =>
  leads_get (h e he)

theorem keeps_modify {g : Engine → Engine} (h : ∀ e, I e → I (g e)) :
    Keeps I (modify g : Session PUnit) := fun e he => leads_modify (h e he)

theorem keeps_lift (r : Except Failure α) : Keeps I (liftM r : Session α) := fun _ he =>
  leads_lift (fun _ _ => he) fun _ _ => he

theorem keeps_forIn {l : List α} {g : α → PUnit → Session (ForInStep PUnit)}
    (h : ∀ a, Keeps I (g a ⟨⟩)) : Keeps I (forIn l ⟨⟩ g : Session PUnit) := by
  induction l with
  | nil => exact keeps_pure _
  | cons a rest ih =>
    rw [List.forIn_cons]
    refine (h a).bind fun step => ?_
    cases step with
    | done b => exact keeps_pure b
    | yield b => exact ih

theorem keeps_forM {l : List α} {g : α → Session PUnit} (h : ∀ a, Keeps I (g a)) :
    Keeps I (l.forM g : Session PUnit) := by
  induction l with
  | nil => exact keeps_pure _
  | cons a rest ih => exact (h a).bind fun _ => ih

theorem keeps_requireLive : Keeps I requireLive := by
  refine keeps_get fun e he => ?_
  split
  · exact leads_throw he
  · exact leads_pure he

structure Looking (I : Engine → Prop) : Prop where
  plans : ∀ (e : Engine) (r : Reference) (ps : List SearchPlan), I e →
    I { e with searchPlans := e.searchPlans.insert r ps }
  report : ∀ (e : Engine) (issues : List Issue), I e → I (e.report issues)

namespace Looking

theorem evaluate (L : Looking I) (name : String) (backend : Backend) (b : Binding) :
    Keeps I (evaluate name backend b) := by
  have lasting : Lasting I fun _ => True := {
    plans := fun he _ => L.plans _ _ _ he
    unplanned := fun _ _ => trivial
    report := fun he _ => L.report _ _ he
    refused := fun _ => trivial
    endless := trivial }
  exact keeps_get fun e he => (lasting.evaluateWithin he _ name backend b).mono (fun _ _ h => h)
    fun _ _ h => h.1

theorem typedTuples (L : Looking I) (q : Query) (ts : List Tuple) : Keeps I (typedTuples q ts) :=
  (keeps_modify fun e he => L.report e _ he).bind fun _ => keeps_pure _

theorem matchesOf (L : Looking I) (q : Query) (backend : Backend) (p : PartialMatch) :
    Keeps I (matchesOf q backend p) :=
  (keeps_lift _).bind fun b => keeps_requireLive.bind fun _ =>
    (L.evaluate q.name backend b).bind fun ts => L.typedTuples q ts

end Looking

structure Abiding (I : Engine → Prop) : Prop extends Looking I where
  install : ∀ component, Keeps I (install component)
  settleIn : ∀ e, I e → I e.settleIn
  attended : ∀ (e : Engine) (subscriptions : List Subscription) (nextListener : ListenerId), I e →
    I { e with subscriptions, nextListener }

namespace Abiding

theorem prepareRete (A : Abiding I) (name : String) : Keeps I (prepareRete name) := by
  refine keeps_get fun e he => ?_
  split
  · exact leads_pure he
  · exact ((keeps_lift _).bind fun _ => (keeps_forM A.install).bind fun _ =>
      keeps_modify A.settleIn) e he

theorem prepareSearch (A : Abiding I) (name : String) : Keeps I (prepareSearch name) := by
  refine keeps_get fun e he => ((keeps_lift _).bind fun components =>
    (keeps_forIn fun callee => ?_).bind fun _ => ?_) e he
  · refine keeps_get fun e he => ((keeps_lift _).bind fun backend => ?_) e he
    split
    · exact (A.prepareRete callee).bind fun _ => keeps_pure _
    · exact keeps_pure _
  · refine keeps_get fun e he => ?_
    split
    · exact leads_throw he
    · exact leads_pure he

theorem prepare (A : Abiding I) (name : String) : Keeps I (prepare name) := by
  refine keeps_requireLive.bind fun _ => keeps_get fun e he =>
    ((keeps_lift _).bind fun backend => ?_) e he
  cases backend with
  | rete => exact (A.prepareRete name).bind fun _ => keeps_pure _
  | localSearch => exact (A.prepareSearch name).bind fun _ => keeps_pure _

end Abiding

structure Readying (e : Engine) (I : Engine → Prop) : Prop extends Looking I where
  start : I e
  prepare : ∀ name, (prepare name).Leads e (fun _ => I) fun _ => I
  attended : ∀ (e : Engine) (subscriptions : List Subscription) (nextListener : ListenerId), I e →
    I { e with subscriptions, nextListener }

theorem Abiding.readying (A : Abiding I) {e : Engine} (he : I e) : Readying e I where
  toLooking := A.toLooking
  start := he
  prepare name := A.prepare name e he
  attended := A.attended

theorem Leads.keeps {e : Engine} {x : Session α} {g : α → Session β}
    (h : x.Leads e (fun _ => I) fun _ => I) (hg : ∀ a, Keeps I (g a)) :
    (x >>= g).Leads e (fun _ => I) fun _ => I :=
  Leads.bind (h.mono (fun a e' he' => hg a e' he') fun _ _ hf => hf)

namespace Readying
variable {e : Engine} (R : Readying e I)
include R

theorem prepared (name : String) : (prepared name).Leads e (fun _ => I) fun _ => I :=
  (R.prepare name).keeps fun _ => keeps_get fun e he => ((keeps_lift _).bind fun _ => keeps_pure _) e he

theorem allMatches (name : String) (p : PartialMatch) :
    (allMatches name p).Leads e (fun _ => I) fun _ => I :=
  (R.prepared name).keeps fun r => R.matchesOf r.1 r.2 p

theorem valuesOf (name parameter : String) (p : PartialMatch) :
    (valuesOf name parameter p).Leads e (fun _ => I) fun _ => I :=
  (R.prepared name).keeps fun r => (keeps_lift _).bind fun _ =>
    (R.matchesOf r.1 r.2 p).bind fun _ => keeps_pure _

theorem converted {γ : Type} (name : String) (p : PartialMatch) (convert : Match → Except String γ) :
    (converted name p convert).Leads e (fun _ => I) fun _ => I :=
  (R.allMatches name p).keeps fun _ => (keeps_modify fun e he => R.report e _ he).bind fun _ =>
    keeps_pure _

theorem subscribe (name : String) (listener : Listener) :
    (subscribe name false listener).Leads e (fun _ => I) fun _ => I := by
  refine (R.prepare name).keeps fun backend => ?_
  cases backend with
  | localSearch => exact keeps_throw _
  | rete =>
    refine keeps_get fun e he => Leads.bind (leads_liftPlan (fun q _ => ?_) fun _ _ => he)
    have numbered := R.attended e e.subscriptions (e.nextListener + 1) he
    exact Leads.bind (leads_set (Leads.bind (leads_modify
      (leads_pure (R.attended _ _ _ numbered)))))

end Readying
end Session

namespace Engine
variable {e e₁ e₂ e' : Engine}

structure Carries (e e' : Engine) : Prop where
  annexes : Network.Annexes { e.network with events := e'.network.events } e'.network
  events : ∃ new waiting, e'.network.events = new ++ waiting ∧
    (∀ ev ∈ new, e.network.vertices.size ≤ ev.node) ∧
    (waiting = e.network.events ∨ waiting = [])
  catalog : e'.catalog = e.catalog
  history : ∃ issues : List Issue, e'.history = issues.map Happening.issue ++ e.history

def Hushes (e e₁ e₂ : Engine) : Prop :=
  ∃ new, e₂.network.events = new ++ e₁.network.events ∧ ∀ ev ∈ new, e.network.vertices.size ≤ ev.node

theorem Hushes.refl (e e₁ : Engine) : Hushes e e₁ e₁ := ⟨[], rfl, by simp⟩

theorem Hushes.trans (h : Hushes e e₁ e₂) (h' : Hushes e e₂ e') : Hushes e e₁ e' := by
  obtain ⟨new, hnew, late⟩ := h
  obtain ⟨new', hnew', late'⟩ := h'
  refine ⟨new' ++ new, by rw [hnew', hnew, List.append_assoc], fun ev hev => ?_⟩
  exact (List.mem_append.1 hev).elim (late' ev) (late ev)

namespace Carries

theorem refl (e : Engine) : Carries e e where
  annexes := .refl e.network
  events := ⟨[], e.network.events, rfl, by simp, .inl rfl⟩
  catalog := rfl
  history := ⟨[], rfl⟩

theorem grown (h : Carries e e₁)
    (built : Network.Annexes { e.network with events := e₁.network.events } e₂.network)
    (catalog : e₂.catalog = e₁.catalog) (history : e₂.history = e₁.history) :
    Carries e e₂ ∧ Hushes e e₁ e₂ := by
  obtain ⟨new, hnew, late⟩ := built.outside.events
  obtain ⟨before, waiting, hbefore, earlier, hwaiting⟩ := h.events
  refine ⟨⟨built.since rfl rfl, ⟨new ++ before, waiting, ?_, fun ev hev => ?_, hwaiting⟩,
    catalog.trans h.catalog, history ▸ h.history⟩, new, hnew, late⟩
  · rw [hnew, List.append_assoc]
    exact congrArg (new ++ ·) hbefore
  · exact (List.mem_append.1 hev).elim (late ev) (earlier ev)

theorem addProduction (h : Carries e e₁) (q : Query) :
    (Carries e (e₁.addProduction q) ∧ Hushes e e₁ (e₁.addProduction q)) ∧
      ∃ id, (e₁.addProduction q).productions[q.name]? = some id ∧ e.network.vertices.size ≤ id :=
  ⟨h.grown (h.annexes.push _ _ _) rfl rfl, _, productions_addProduction_self, h.annexes.nodes⟩

theorem addBody {name : String} {body : Compiled} {id : NodeId} (h : Carries e e₁)
    (hid : e₁.productions[name]? = some id) (new : e.network.vertices.size ≤ id)
    (run : e₁.addBody name body = .ok e₂) :
    (Carries e e₂ ∧ Hushes e e₁ e₂) ∧ e₂.productions = e₁.productions := by
  obtain ⟨⟨s, p⟩, hinstall, run⟩ := bind_ok run
  rw [hid] at run
  have built : Network.Annexes _ s.network := Installed.install_annexes h.annexes hinstall
  obtain ⟨net, hconnect, run⟩ := bind_ok run
  cases run
  exact ⟨h.grown (built.perform (c := .connect id p) new (liftFault_ok hconnect)) rfl rfl, rfl⟩

theorem report (h : Carries e e₁) (issues : List Issue) : Carries e (e₁.report issues) := by
  rw [Engine.report]
  split
  · obtain ⟨before, hbefore⟩ := h.history
    refine ⟨h.annexes, h.events, h.catalog, issues.reverse ++ before, ?_⟩
    rw [List.map_append, List.append_assoc, ← hbefore, List.map_reverse]
    rfl
  · exact h

theorem settleIn (h : Carries e e₁) : Carries e e₁.settleIn := by
  have taken : Carries e ((e₁.setNetwork e₁.network.takeEvents.1).setNetwork
      (e₁.setNetwork e₁.network.takeEvents.1).network.takeIssues.1) :=
    ⟨h.annexes.since rfl rfl, ⟨[], [], rfl, by simp, .inr rfl⟩, h.catalog, h.history⟩
  exact taken.report _

/-- A component is built onto the network, as far as that goes. -/
theorem install (h : Carries e e₁) (valid : e.catalog.Valid) (component : List String) :
    (Session.install component).Leads e₁ (fun _ e₂ => Carries e e₂ ∧ Hushes e e₁ e₂)
      fun _ e₂ => Carries e e₂ ∧ Hushes e e₁ e₂ := by
  -- The queries of the component that have a node have got it now.
  refine Session.leads_install (fun rest todo e₂ => (Carries e e₂ ∧ Hushes e e₁ e₂) ∧
      (∀ n ∈ component, ∃ q, e.catalog.queries[n]? = some q) ∧ (∀ n ∈ rest, n ∈ component) ∧
      (∀ p ∈ todo, p.1 ∈ component) ∧ ∀ n ∈ component, n ∈ rest ∨
        ∃ id, e₂.productions[n]? = some id ∧ e.network.vertices.size ≤ id)
    (fun _ => ⟨h, .refl e e₁⟩) (fun _ _ => ⟨h, .refl e e₁⟩) (fun bodies hbodies _ => ?_) ?_ ?_
    fun _ kept => kept.1
  · obtain ⟨compiled, listed⟩ := Catalog.compile_ok hbodies
    rw [h.catalog] at compiled
    exact ⟨⟨h, .refl e e₁⟩, fun n hn => (compiled n hn).imp fun _ hq => hq.1, fun _ hn => hn,
      fun p hp => (listed p hp).1, fun _ hn => .inl hn⟩
  · rintro name rest todo e₂ ⟨⟨h₂, hushed⟩, registered, within, listed, placed⟩
    obtain ⟨q, hq⟩ := registered name (within name List.mem_cons_self)
    obtain rfl := (valid name q hq).1
    obtain ⟨⟨h₃, hushed'⟩, id, hid, new⟩ := h₂.addProduction q
    refine ⟨q, by rw [Catalog.query, h.catalog, hq], ⟨h₃, hushed.trans hushed'⟩, registered,
      fun n hn => within n (.tail _ hn), listed, fun n hn => ?_⟩
    by_cases same : n = q.name
    · exact .inr ⟨id, same ▸ hid, new⟩
    · refine (placed n hn).imp (fun hn => (List.mem_cons.1 hn).resolve_left same) ?_
      rintro ⟨i, hi, late⟩
      have other : compare q.name n ≠ .eq := fun eq =>
        same (Std.LawfulEqCmp.eq_of_compare eq).symm
      exact ⟨i, Std.ExtTreeMap.getElem?_insert.trans ((if_neg other).trans hi), late⟩
  · rintro name r rest e₂ ⟨⟨h₂, hushed⟩, registered, within, listed, placed⟩
    obtain ⟨id, hid, new⟩ := (placed name (listed _ List.mem_cons_self)).resolve_left List.not_mem_nil
    refine ⟨fun e₃ he₃ => ?_, fun f _ => ⟨h₂, hushed⟩⟩
    obtain ⟨⟨h₃, hushed'⟩, same⟩ := h₂.addBody hid new he₃
    exact ⟨⟨h₃, hushed.trans hushed'⟩, registered, within, fun p hp => listed p (.tail _ hp),
      by rwa [same]⟩

theorem abiding (valid : e.catalog.Valid) : Session.Abiding (Carries e) where
  install component _ h := (h.install valid component).mono (fun _ _ h => h.1) fun _ _ h => h.1
  settleIn _ h := h.settleIn
  plans _ _ _ h := ⟨h.annexes, h.events, h.catalog, h.history⟩
  report _ issues h := h.report issues
  attended _ _ _ h := ⟨h.annexes, h.events, h.catalog, h.history⟩

end Carries

/-- All that was in the network is as it was: what nodes put out, what indexes hold and what
productions remember. Of the productions that were there no events wait that did not wait before, and
nobody has been told of anything but problems. -/
structure Undisturbed (e e' : Engine) : Prop where
  pull : ∀ q < e.network.vertices.size, ∃ rows,
    e.network.pull q = .ok rows ∧ e'.network.pull q = .ok rows
  content : ∀ (I : IndexId) (ix : Index), e.network.index I = .ok ix →
    ∃ ix', e'.network.index I = .ok ix' ∧ ix'.idle = ix.idle
  memory : ∀ q < e.network.vertices.size,
    e'.network.productionMemory? q = e.network.productionMemory? q
  events : (e'.network.events.filter (·.node < e.network.vertices.size)).Sublist e.network.events
  history : ∃ issues : List Issue, e'.history = issues.map Happening.issue ++ e.history

theorem Carries.undisturbed (h : Carries e e') (regular : e.network.Regular) : Undisturbed e e' where
  pull q hq := by
    obtain ⟨rows, hrows, -⟩ := regular.pull hq
    exact ⟨rows, hrows, h.annexes.pull hrows⟩
  content I ix hix := by
    obtain ⟨a, ha, rfl⟩ := Network.exists_of_index hix
    have old : I < e.network.arrangements.size := (Array.getElem?_eq_some_iff.1 ha).1
    obtain ⟨a', ha', same⟩ := h.annexes.outside.arrangement (Network.Annexes.notMem_indexes old) ha
    refine ⟨a'.index, ?_, (Arrangement.eq_of_unread_eq same).2⟩
    rw [Network.index, Network.arrangement, ha']
    rfl
  memory q hq := h.annexes.outside.productionMemory?_eq (Network.Annexes.notMem_nodes hq)
  events := by
    obtain ⟨new, waiting, hevents, late, old⟩ := h.events
    have none : new.filter (·.node < e.network.vertices.size) = [] :=
      List.filter_eq_nil_iff.2 fun ev hev => by simpa using late ev hev
    rw [hevents, List.filter_append, none, List.nil_append]
    obtain rfl | rfl := old
    · exact List.filter_sublist
    · exact List.nil_sublist _
  history := h.history

theorem Carries.productions (h : Carries e e') {faithful faithful' : Prop}
    (sound : e.Sound faithful [] []) (sound' : e'.Sound faithful' [] []) {name : String} {id : NodeId}
    (hid : e.productions[name]? = some id) : e'.productions[name]? = some id := by
  obtain ⟨q, -, ps, v, hv, hbare, -⟩ := sound.exists_node hid
  have old : id < e.network.vertices.size := (Array.getElem?_eq_some_iff.1 hv).1
  obtain ⟨v', hv', same⟩ := h.annexes.outside.vertex (Network.Annexes.notMem_nodes old) hv
  rw [← (Vertex.eq_of_unread_eq same).1] at hbare
  obtain ⟨name', hid'⟩ := sound'.owner id v' hv' ((Node.isProduction_of_bare_eq hbare).trans rfl)
  obtain ⟨q', -, ps', w, hw, hbare', -⟩ := sound'.exists_node hid'
  cases hv'.symm.trans hw
  cases hbare.symm.trans hbare'
  exact hid'

theorem maintained_congr {name : String}
    (h : (e'.productions[name]?).bind e'.network.productionMemory? =
      (e.productions[name]?).bind e.network.productionMemory?) (b : Binding) :
    e'.maintained name b = e.maintained name b := by
  rw [maintained, maintained, h]

theorem Carries.maintained_eq (h : Carries e e') {faithful faithful' : Prop}
    (sound : e.Sound faithful [] []) (sound' : e'.Sound faithful' [] []) {name : String}
    (there : e.InNetwork name) (b : Binding) : e'.maintained name b = e.maintained name b := by
  obtain ⟨id, hid⟩ := there
  refine maintained_congr ?_ b
  rw [hid, h.productions sound sound' hid]
  exact (h.undisturbed sound.regular).memory id (sound.lt_size hid)

/-- The request makes queries ready and looks them up, or attaches a listener that is told of nothing
yet. -/
def Call.Readies : Call → Prop
  | prepare _ | allMatches .. | oneMatch .. | hasMatch .. | countMatches .. | matchesOf .. | valuesOf ..
  | converted .. => True
  | subscribe _ fireNow _ => fireNow = false
  | _ => False

theorem Call.leads_readies {I : Engine → Prop} (R : Session.Readying e I) {c : Call} (hc : c.Readies) :
    c.perform.Leads e (fun _ => I) fun _ => I := by
  cases c with
  | prepare name => exact (R.prepare name).map
  | allMatches name p => exact (R.allMatches name p).map
  | oneMatch name p | hasMatch name p | countMatches name p => exact (R.allMatches name p).map.map
  | matchesOf q backend p => exact (R.matchesOf q backend p e R.start).map
  | valuesOf name parameter p => exact (R.valuesOf name parameter p).map
  | converted name p convert => exact (R.converted name p convert).map
  | subscribe name fireNow listener =>
    obtain rfl : fireNow = false := hc
    exact (R.subscribe name listener).map
  | _ => exact hc.elim

theorem Carries.of_readies (valid : e.catalog.Valid) {c : Call} (hc : c.Readies) :
    Carries e (c.after e) := by
  have led := Call.leads_readies ((Carries.abiding valid).readying (.refl e)) hc
  cases hx : c.answer e with
  | ok => exact led.of_ok hx
  | error f => exact led.of_error hx

/-- Making queries ready disturbs none that are there. However a request to prepare a query, to look it
up or to listen to it from now on ends, and whatever has been requested before, all that was in the
network is as it was; and what queries in it have at hand too, if the request ends at all. The same is
so after every component that goes into the network on the way, and before the events are forgotten:
no production that was there announces anything. -/
theorem readying_undisturbed (h : e.Reached Any) :
    (∀ c : Call, c.Readies → e.Carries (c.after e) ∧ e.Undisturbed (c.after e) ∧
      ((∀ x, c.answer e ≠ .error (.fault x)) → ∀ (name : String) (b : Binding), e.InNetwork name →
        (c.after e).maintained name b = e.maintained name b)) ∧
    ∀ (e₁ : Engine) (components : List (List String)), e.Carries e₁ →
      (components.forM Session.install).Leads e₁
        (fun _ e₂ => e.Carries e₂ ∧ e.Undisturbed e₂ ∧ e.Hushes e₁ e₂)
        fun _ e₂ => e.Carries e₂ ∧ e.Undisturbed e₂ ∧ e.Hushes e₁ e₂ := by
  have sound : e.Sound False [] [] := h.sound False.elim
  refine ⟨fun c hc => ?_, fun e₁ components h₁ => ?_⟩
  · have carried : e.Carries (c.after e) := .of_readies sound.valid hc
    refine ⟨carried, carried.undisturbed sound.regular, fun ends name b there => ?_⟩
    have sound' : (c.after e).Sound False [] [] := (Reached.call c h trivial ends).sound False.elim
    exact carried.maintained_eq sound sound' there b
  · have led : (components.forM Session.install).Leads e₁
        (fun _ e₂ => e.Carries e₂ ∧ e.Hushes e₁ e₂) fun _ e₂ => e.Carries e₂ ∧ e.Hushes e₁ e₂ := by
      refine Session.leads_forM (fun _ e₂ => e.Carries e₂ ∧ e.Hushes e₁ e₂) ⟨h₁, .refl e e₁⟩
        (fun component _ e₂ kept => ?_) fun _ kept => kept
      have installed := kept.1.install sound.valid component
      exact installed.mono (fun _ _ kept' => ⟨kept'.1, kept.2.trans kept'.2⟩)
        fun _ _ kept' => ⟨kept'.1, kept.2.trans kept'.2⟩
    exact led.mono (fun _ _ kept => ⟨kept.1, kept.1.undisturbed sound.regular, kept.2⟩)
      fun _ _ kept => ⟨kept.1, kept.1.undisturbed sound.regular, kept.2⟩

def circuit : Query where
  name := "circuit"
  parameters := [⟨"x", none⟩]
  bodies := [⟨["x"], [.find "reach" ["x", "y"], .holds (.feature "edge") ["y", "x"]]⟩]
  backend := some .rete

def circuitEngine : Engine := (Call.register circuit).after reachEngine

theorem reached_circuitEngine {ok : Engine → Call → Prop} (h : ∀ e c, c.Faithful e → ok e c) :
    circuitEngine.Reached ok :=
  (reached_reachEngine h).next _ (h _ _ trivial) id

theorem circuit_undisturbed : circuitEngine.Undisturbed ((Call.prepare "circuit").after circuitEngine) ∧
    circuitEngine.productions.contains "reach" = true ∧
    ((Call.prepare "circuit").after circuitEngine).productions.contains "circuit" = true := by
  obtain ⟨requests, -⟩ := readying_undisturbed (reached_circuitEngine fun _ _ _ => trivial)
  exact ⟨(requests (.prepare "circuit") trivial).2.1, by decide +kernel, by decide +kernel⟩

end Engine
end Motif
