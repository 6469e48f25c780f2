import Motif.Proofs.Engine.Deferring
import Motif.Proofs.Engine.Quiet

/-!
Changes and the queries that do not read what changes. What reaches a query in the network is part of
one of its bodies or of a body it leads to by calls. So a change of a relation that none of them asks
for goes past the query, and its listeners hear nothing.
-/
set_option autoImplicit false
namespace Motif

open Std (ExtTreeMap)

namespace Network
variable {net : Network} {evaluators : String → Evaluator → Prop}
  {operators : String → Aggregator → Prop} {productions : ExtTreeMap String NodeId}

/-- Only a relation shows as an input. -/
theorem Shows.eq_input {e : Algebra} {q : NodeId} (h : net.Shows evaluators operators productions e q)
    {v : Vertex} (hv : net.vertices[q]? = some v) {r : Relation} {unique : Bool} {memory : Bag Tuple}
    (hn : v.node = .input r unique memory) : e = .input r := by
  have same : ∀ {n : Node} {ps : List NodeId} {arity : Nat}, net.HasNode q n ps arity →
      n.bare = (Node.input r unique memory).bare := by
    rintro n ps arity ⟨u, hu, hb, -⟩
    cases hv.symm.trans hu
    rw [← hn, hb]
  cases e with
  | input r' =>
    obtain ⟨unique', ps, h⟩ := h
    cases same h
    rfl
  | constant _ _ => cases same h
  | production _ _ =>
    obtain ⟨-, ps, h⟩ := h
    cases same h
  | trim _ _ | constantFilter _ _ _ | equalityFilter _ _ | inequalityFilter _ _ _ | closure _ =>
    obtain ⟨p, -, h⟩ := h
    cases same h
  | expression _ _ _ _ =>
    obtain ⟨p, x, -, -, h⟩ := h
    cases same h
  | join _ _ _ _ | existence _ _ _ _ _ | outerJoin _ _ _ _ _ =>
    obtain ⟨p, q, -, -, I, J, h, -⟩ := h
    cases same h
  | grouping _ _ _ _ =>
    obtain ⟨p, op, -, -, I, h, -⟩ := h
    cases same h

end Network

namespace Engine
variable {e e' e'' : Engine} {name : String} {id n : NodeId} {faithful : Prop}

def Contributes (e : Engine) (name : String) (n : NodeId) : Prop :=
  ∃ callee, e.catalog.Leads name callee ∧ (e.productions[callee]? = some n ∨
    ∃ q, e.catalog.queries[callee]? = some q ∧ ∃ b ∈ q.bodies, ∃ expr : Algebra,
      e.network.Shows (fun _ _ => True) (fun _ _ => True) e.productions expr n ∧
      expr.KeepsTo (b.scope e.catalog) ∧ expr.ReadsIn {r | b.Reads r})

theorem Sound.contributes (h : e.Sound faithful [] []) (hid : e.productions[name]? = some id)
    (hr : e.network.Reaches n id) : e.Contributes name n := by
  -- What feeds the node of a query shows one of its bodies.
  have fed : ∀ {callee m q}, e.catalog.Leads name callee → e.productions[callee]? = some m →
      e.network.Feeds q m → e.Contributes name q := by
    intro callee m q leads hm hf
    obtain ⟨query, -, ps, v, hv, hb, -⟩ := h.exists_node hm
    have hp := h.regular.wired.mem_parents_of_feeds hv (Node.isFed_of_bare_eq hb) hf
    obtain ⟨query', hq, b, hb, r, yields, shows⟩ := h.exists_fed hm hv hp
    exact ⟨callee, leads, .inr ⟨query', hq, b, hb, r.expr, shows, .inl yields.wellFormed, yields.reads⟩⟩
  induction hr using Relation.ReflTransGen.head_induction_on with
  | refl => exact ⟨name, .refl, .inl hid⟩
  | head hf _ ih =>
    obtain ⟨callee, leads, hm | ⟨q, hq, b, hb, expr, shows, keeps, reads⟩⟩ := ih
    · exact fed leads hm hf
    · obtain ⟨name', arity, rfl⟩ | ⟨e', mem, shows'⟩ := shows.exists_operand h.regular.wired hf
      · have called : b.Calls name' := by
          rcases keeps with ⟨called, -⟩ | ⟨⟨k, hk, called, -⟩, -⟩
          · exact called
          · exact ⟨k, hk, called⟩
        exact fed (leads.tail (Catalog.mem_callees.2 ⟨q, hq, b, hb, called⟩)) shows.1 hf
      · exact ⟨callee, leads, .inr ⟨q, hq, b, hb, e', shows', keeps.operand mem, reads.operand mem⟩⟩

theorem Sound.reads (h : e.Sound faithful [] []) (hid : e.productions[name]? = some id) {r : Relation}
    (hn : e.network.inputs[r]? = some n) (hr : e.network.Reaches n id) : e.catalog.Reads name r := by
  obtain ⟨v, unique, memory, hv, hnode⟩ := (h.regular.wired.inputs r n).1 hn
  obtain ⟨callee, leads, hm | ⟨q, hq, b, hb, expr, shows, -, reads⟩⟩ := h.contributes hid hr
  · obtain ⟨-, -, ps, u, hu, hb, -⟩ := h.exists_node hm
    cases hv.symm.trans hu
    rw [hnode] at hb
    cases hb
  · obtain rfl := shows.eq_input hv hnode
    exact ⟨callee, q, leads, hq, b, hb, reads⟩

def changesWithin : Nat → Engine → List Change
  | 0, e => e.model.drain.2
  | rounds + 1, e => e.model.drain.2 ++
    match e.round with
    | .ok (e, queued) => if queued.isEmpty then [] else changesWithin rounds (e.runQueued queued)
    | .error _ => []

/-- What an update changes in the model, by its own writes and by those that listeners ask for and that
are run. -/
def changesOf (e : Engine) (writes : List Write) : List Change :=
  changesWithin e.settings.maxRounds { e with model := (e.model.writeAll writes).1 }

/-- Nothing has happened to the query: it has the matches that it had, its listeners have heard nothing,
and nobody has been told of its matches. -/
structure Ignores (name : String) (e e' : Engine) : Prop where
  maintained : ∀ b, e'.maintained name b = e.maintained name b
  listeners : (e'.subscriptions.filter fun s => s.query.name = name) =
    e.subscriptions.filter fun s => s.query.name = name
  history : ∃ news, e'.history = news ++ e.history ∧
    ∀ id n, Happening.told id n ∈ news → n.found.query.name ≠ name

namespace Ignores

theorem refl (name : String) (e : Engine) : Ignores name e e := ⟨fun _ => rfl, rfl, [], rfl, by simp⟩

theorem trans (h : Ignores name e e') (h' : Ignores name e' e'') : Ignores name e e'' where
  maintained b := (h'.maintained b).trans (h.maintained b)
  listeners := h'.listeners.trans h.listeners
  history := by
    obtain ⟨news, hnews, others⟩ := h.history
    obtain ⟨news', hnews', others'⟩ := h'.history
    refine ⟨news' ++ news, by rw [hnews', hnews, List.append_assoc], fun id n hn => ?_⟩
    exact (List.mem_append.1 hn).elim (others' id n) (others id n)

theorem record (name : String) (e : Engine) {news : List Happening}
    (quiet : ∀ id n, Happening.told id n ∉ news) : Ignores name e (e.record news) where
  maintained _ := rfl
  listeners := rfl
  history := ⟨news.reverse, rfl, fun id n hn => absurd (List.mem_reverse.1 hn) (quiet id n)⟩

theorem report (name : String) (e : Engine) (issues : List Issue) :
    Ignores name e (e.report issues) := by
  rw [Engine.report]
  split
  · exact record name e fun id n hn => by simp at hn
  · exact refl name e

theorem tellAll {n : Notice} (other : n.found.query.name ≠ name) :
    Ignores name e (e.tellAll n).1 where
  maintained _ := rfl
  listeners := by
    have query : ∀ s : Subscription, (s.attend n).query = s.query := fun s => by
      rw [Subscription.attend]
      split <;> rfl
    change ((e.subscriptions.map (·.attend n)).filter fun s => s.query.name = name) = _
    simp only [List.filter_map, Function.comp_def, query]
    refine (List.map_congr_left fun s hs => ?_).trans (List.map_id _)
    have mine : s.query.name = name := of_decide_eq_true (List.mem_filter.1 hs).2
    exact if_neg fun same => other (same.symm.trans mine)
  history := by
    refine ⟨_, rfl, fun id n' hn => ?_⟩
    simp only [List.mem_reverse, List.mem_append, List.mem_map] at hn
    obtain ⟨s, -, hs⟩ | ⟨f, -, hf⟩ := hn
    · cases hs
      exact other
    · cases hf

end Ignores

theorem ignores_deliverAll {events : List ProductionEvent}
    (others : ∀ ev ∈ events, ∀ q, e.producers[ev.node]? = some q → q.name ≠ name) :
    Ignores name e (e.deliverAll events).1 := by
  induction events generalizing e with
  | nil => exact .refl name e
  | cons event rest ih =>
    have first : Ignores name e (e.deliver event).1 := by
      rw [deliver]
      split
      · exact .refl name e
      · rename_i q hq
        split
        · exact .refl name e
        · split
          · exact .report name e _
          · rename_i found hfound
            refine .tellAll ?_
            exact Match.query_eq hfound ▸ others event List.mem_cons_self q hq
    obtain ⟨subscriptions, history, he⟩ := exists_deliver e event
    rw [deliverAll, runAll_cons]
    refine first.trans (ih fun ev hev => ?_)
    rw [he]
    exact others ev (List.mem_cons_of_mem event hev)

theorem exists_of_mem_coalesce {events : List ProductionEvent} {ev : ProductionEvent}
    (h : ev ∈ coalesce events) : ∃ ev' ∈ events, ev'.node = ev.node := by
  have subject : ev.subject ∈ (coalesce events).map ProductionEvent.subject := List.mem_map_of_mem h
  rw [map_subject_coalesce, List.mem_filter, mem_firsts] at subject
  obtain ⟨ev', hev', same⟩ := List.mem_map.1 subject.1
  exact ⟨ev', hev', congrArg Prod.fst same⟩

structure Screens (P : Part) (R : Set Relation) (name : String) (e : Engine) : Prop where
  apart : e.network.Apart
  seals : e.network.Seals P
  inputs : ∀ r ∈ R, ∀ q, e.network.inputs[r]? = some q → q ∈ P.nodes
  events : ∀ ev ∈ e.network.events, ev.node ∈ P.nodes ∧ e.network.produces ev.node = true
  producers : ∀ q ∈ P.nodes, e.network.produces q = true → ∀ query, e.producers[q]? = some query →
    query.name ≠ name
  production : ∀ id, e.productions[name]? = some id → id ∉ P.nodes

namespace Screens
variable {P : Part} {R : Set Relation}

theorem attended (h : Screens P R name e) (subscriptions : List Subscription)
    (history : List Happening) : Screens P R name { e with subscriptions, history } :=
  ⟨h.apart, h.seals, h.inputs, h.events, h.producers, h.production⟩

theorem report (h : Screens P R name e) (issues : List Issue) : Screens P R name (e.report issues) := by
  obtain ⟨history, reported⟩ := exists_report e issues
  rw [reported]
  exact h.attended e.subscriptions history

theorem propagate (h : Screens P R name e) (within : ∀ c ∈ e.model.drain.2, c.relation ∈ R)
    (run : e.propagate = .ok e') : Screens P R name e' ∧ Ignores name e e' := by
  obtain ⟨net, hnet, run⟩ := bind_ok run
  cases run
  have stays := Network.updateAll_stays h.seals (fun c hc => h.inputs c.relation (within c hc)) hnet
  obtain ⟨log, alters, produced⟩ := Network.updateAll_produced h.apart hnet
  obtain ⟨new, hnew, inside⟩ := stays.events
  have told : new = log.reverse := List.append_cancel_right (hnew.symm.trans alters.events)
  have sealed := stays.seals h.seals
  have kinds : ∀ q, q < e.network.vertices.size → net.produces q = e.network.produces q :=
    alters.produces
  have fed : Screens P R name
      (({ e with model := e.model.drain.1 } : Engine).setNetwork net.takeIssues.1) := by
    refine ⟨alters.apart h.apart, ⟨sealed.receivers, sealed.listeners⟩, fun r hr q hq => ?_, fun ev hev => ?_,
      fun q hq hp => h.producers q hq ?_, h.production⟩
    · exact h.inputs r hr q (stays.inputs ▸ hq)
    · replace hev : ev ∈ net.events := hev
      rw [hnew] at hev
      rcases List.mem_append.1 hev with hev | hev
      · exact ⟨inside ev hev, produced ev (List.mem_reverse.1 (told ▸ hev))⟩
      · obtain ⟨hP, hp⟩ := h.events ev hev
        exact ⟨hP, (kinds _ (Network.lt_size_of_produces hp)).trans hp⟩
    · exact (kinds q (stays.nodes ▸ Network.lt_size_of_produces hp)).symm.trans hp
  have ignored : Ignores name e
      (({ e with model := e.model.drain.1 } : Engine).setNetwork net.takeIssues.1) := by
    refine ⟨fun b => ?_, rfl, [], rfl, by simp⟩
    refine maintained_congr ?_ b
    exact Option.bind_congr fun id hid => stays.productionMemory?_eq (h.production id hid)
  exact ⟨fed.report _, ignored.trans (.report name _ _)⟩

theorem takeEvents (h : Screens P R name e) : Screens P R name e.takeEvents.1 ∧
    ∀ ev ∈ e.takeEvents.2, ∀ q, e.producers[ev.node]? = some q → q.name ≠ name := by
  have others : ∀ ev ∈ e.network.events, ∀ q, e.producers[ev.node]? = some q → q.name ≠ name :=
    fun ev hev => h.producers ev.node (h.events ev hev).1 (h.events ev hev).2
  refine ⟨⟨h.apart, ⟨h.seals.receivers, h.seals.listeners⟩, h.inputs, List.forall_mem_nil _,
    h.producers, h.production⟩, fun ev hev => ?_⟩
  rw [Engine.takeEvents] at hev
  dsimp only at hev
  split at hev
  · obtain ⟨ev', hev', same⟩ := exists_of_mem_coalesce hev
    exact same ▸ others ev' (List.mem_reverse.1 hev')
  · exact others ev (List.mem_reverse.1 hev)

theorem round (h : Screens P R name e) (within : ∀ c ∈ e.model.drain.2, c.relation ∈ R)
    {queued : List Write} (run : e.round = .ok (e', queued)) :
    Screens P R name e' ∧ Ignores name e e' := by
  obtain ⟨fed, hfed, run⟩ := bind_ok run
  obtain ⟨screens, ignores⟩ := h.propagate within hfed
  obtain ⟨taken, others⟩ := screens.takeEvents
  have told : (fed.takeEvents.1.deliverAll fed.takeEvents.2).1 = e' := congrArg Prod.fst (Except.ok.inj run)
  have unheard : Ignores name fed.takeEvents.1 (fed.takeEvents.1.deliverAll fed.takeEvents.2).1 :=
    ignores_deliverAll others
  obtain ⟨subscriptions, history, same⟩ := exists_deliverAll fed.takeEvents.1 fed.takeEvents.2
  rw [told] at unheard same
  refine ⟨same ▸ taken.attended subscriptions history, ignores.trans (.trans ?_ unheard)⟩
  exact ⟨fun _ => rfl, rfl, [], rfl, by simp⟩

theorem flushWithin {rounds : Nat} (h : Screens P R name e)
    (within : ∀ c ∈ changesWithin rounds e, c.relation ∈ R) (run : e.flushWithin rounds = .ok e') :
    Ignores name e e' := by
  induction rounds generalizing e with
  | zero =>
    obtain ⟨⟨e₁, queued⟩, hround, run⟩ := bind_ok run
    obtain ⟨-, ignores⟩ := h.round within hround
    dsimp only at run
    split at run
    · cases run
      exact ignores
    · cases run
      exact ignores.trans (.record name e₁ fun id n hn => by simp at hn)
  | succ rounds ih =>
    obtain ⟨⟨e₁, queued⟩, hround, run⟩ := bind_ok run
    rw [changesWithin, hround] at within
    obtain ⟨screens, ignores⟩ := h.round (fun c hc => within c (List.mem_append_left _ hc)) hround
    dsimp only at run within
    split at run
    · cases run
      exact ignores
    · rename_i some
      have next : Screens P R name (e₁.runQueued queued) :=
        ⟨screens.apart, screens.seals, screens.inputs, screens.events, screens.producers,
          screens.production⟩
      have wrote : Ignores name e₁ (e₁.runQueued queued) :=
        ⟨fun _ => rfl, rfl, [.wrote queued], rfl, by simp⟩
      refine ignores.trans (wrote.trans (ih next (fun c hc => ?_) run))
      refine within c (List.mem_append_right _ ?_)
      rwa [if_neg some]

end Screens

theorem Sound.exists_producer (h : e.Sound faithful [] []) (hq : e.network.produces n = true) :
    ∃ query, e.producers[n]? = some query ∧ e.productions[query.name]? = some n := by
  have hlt := Network.lt_size_of_produces hq
  rw [Network.produces_eq (Array.getElem?_eq_getElem hlt)] at hq
  obtain ⟨name, hid⟩ := h.owner n _ (Array.getElem?_eq_getElem hlt) hq
  obtain ⟨query, -, registered, producer, -⟩ := h.lodged name n hid
  obtain rfl := (h.valid name query registered).1
  exact ⟨query, producer, hid⟩

def unread (e : Engine) (name : String) : Set NodeId :=
  {q | ∃ r, ¬e.catalog.Reads name r ∧ e.network.inputs[r]? = some q}

theorem Sound.screens (h : e.Sound faithful [] []) (there : e.InNetwork name)
    (quiet : e.network.events = []) : ∃ P, Screens P {r | ¬e.catalog.Reads name r} name e := by
  obtain ⟨id, hid⟩ := there
  have aside : id ∉ (e.network.downstream (e.unread name)).nodes := by
    rintro ⟨q, ⟨r, hr, hq⟩, reaches⟩
    exact hr (h.reads hid hq reaches)
  refine ⟨e.network.downstream (e.unread name), h.regular.wired.apart,
    Network.seals_downstream e.network (e.unread name), fun r hr q hq => ⟨q, ⟨r, hr, hq⟩, .refl⟩,
    fun ev hev => ?_, fun q hq hp query hquery same => ?_, fun id' hid' => ?_⟩
  · rw [quiet] at hev
    cases hev
  · obtain ⟨query', hproducer, hname⟩ := h.exists_producer hp
    cases hquery.symm.trans hproducer
    cases hid.symm.trans (same ▸ hname)
    exact aside hq
  · cases hid.symm.trans hid'
    exact aside

theorem Screens.update {P : Part} {R : Set Relation} (h : Screens P R name e) (writes : List Write)
    (within : ∀ c ∈ e.changesOf writes, c.relation ∈ R) :
    Ignores name e ((Call.update writes).after e) := by
  have written : Screens P R name { e with model := (e.model.writeAll writes).1 } :=
    ⟨h.apart, h.seals, h.inputs, h.events, h.producers, h.production⟩
  have begun : Ignores name e { e with model := (e.model.writeAll writes).1 } :=
    ⟨fun _ => rfl, rfl, [], rfl, by simp⟩
  have led : (Call.update writes).perform.Leads e (fun _ => Ignores name e) fun _ => Ignores name e := by
    refine Session.Leads.map (Session.Leads.bind ?_)
    rw [Session.requireLive]
    refine Session.leads_get ?_
    split
    · exact Session.leads_throw (.refl name e)
    refine Session.leads_pure (Session.leads_get (Session.Leads.bind (Session.leads_set
      (Session.Leads.bind (Session.leads_get (Session.Leads.bind (Session.leads_lift (fun e' he' => ?_)
        fun _ _ => begun)))))))
    refine Session.leads_set (Session.leads_pure (begun.trans (written.flushWithin within ?_)))
    exact liftFault_ok he'
  cases hx : (Call.update writes).answer e with
  | ok => exact led.of_ok hx
  | error f => exact led.of_error hx

/-- Changes concern only the queries that read what changes. Whatever has been requested before, if all
queries that were to be prepared could be, an update passes by a query in the network whose bodies, and
those of the queries it leads to, ask for none of the relations in which the model changes, be it by the
update's own writes or by those that listeners ask for. The query has the matches that it had, and its
listeners are told nothing. -/
theorem unread_ignored (h : e.Reached Smoothly) (there : e.InNetwork name) (writes : List Write)
    (unread : ∀ c ∈ e.changesOf writes, ¬e.catalog.Reads name c.relation) :
    Ignores name e ((Call.update writes).after e) := by
  have sound : e.Sound False [] [] := h.sound False.elim
  obtain ⟨P, screens⟩ := sound.screens there h.quiet
  exact screens.update writes unread

section example_unread
open Served

def attendedEngine : Engine :=
  (Call.subscribe "reach" false fun _ _ => { writes := [.create "A"] }).after reachEngine

theorem catalog_attendedEngine : attendedEngine.catalog = reachability := by
  rw [← catalog_reachEngine]
  have valid := catalog_reachEngine.symm ▸ valid_reachability
  exact (Carries.of_readies (c := .subscribe "reach" false _) valid rfl).catalog

theorem reached_reachEngine_smoothly : reachEngine.Reached Smoothly := by
  have registered : ((Call.register reach).after (start {} {})).Reached Smoothly :=
    (Reached.start {} (.start {})).next _ False.elim id
  exact registered.next (.prepare "reach") (fun _ => by decide +kernel)
    (not_not_intro calm_reachability)

theorem reached_attendedEngine : attendedEngine.Reached Smoothly :=
  reached_reachEngine_smoothly.next (.subscribe "reach" false _) (fun _ => by decide +kernel)
    (not_not_intro (catalog_reachEngine ▸ calm_reachability))

theorem eq_edge_of_reads {r : Relation} (h : reachability.Reads "reach" r) : r = .feature "edge" := by
  obtain ⟨callee, q, -, hq, b, hb, xs, hxs⟩ := h
  obtain ⟨-, rfl⟩ := eq_reach hq
  obtain rfl | hb := List.mem_cons.1 hb
  · cases List.mem_singleton.1 hxs
    rfl
  · obtain rfl := List.mem_singleton.1 hb
    simp at hxs

theorem reach_ignores : Ignores "reach" attendedEngine
    ((Call.update [.addInstance "A" (.int 1)]).after attendedEngine) := by
  refine unread_ignored reached_attendedEngine ?_ _ fun c hc reads => ?_
  · exact Houses.inNetwork_iff_contains.2 (by decide +kernel)
  · have extents : (attendedEngine.changesOf [.addInstance "A" (.int 1)]).all
        fun c => c.relation = .extent "A" := by decide +kernel
    have extent : c.relation = .extent "A" := of_decide_eq_true (List.all_eq_true.1 extents c hc)
    rw [catalog_attendedEngine, extent] at reads
    cases eq_edge_of_reads reads

end example_unread

end Engine
end Motif
