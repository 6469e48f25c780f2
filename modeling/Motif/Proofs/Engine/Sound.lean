import Motif.Proofs.Algebra.Reads
import Motif.Proofs.Network.Resting
import Motif.Proofs.Registration
import Motif.Proofs.Search.Slots

/-!
Sound engines: the network mirrors the model, and every query in it is the one that the catalog holds,
fed by what its bodies have been compiled to. So its loops are calls that lead back, and its cascades
come to an end if no body of a recursive query computes anything.
-/
set_option autoImplicit false
namespace Motif

open Std (ExtTreeMap)

namespace Catalog

def HasEvaluator (faithful : Prop) (c : Catalog) (name : String) (x : Evaluator) : Prop :=
  faithful → c.evaluators[name]? = some x

def HasAggregator (faithful : Prop) (c : Catalog) (name : String) (op : Aggregator) : Prop :=
  faithful → c.aggregators[name]? = some op

/-- What a checked body has been compiled to: it is well-formed and reads what the body reads, and unless
something has been replaced the body would be compiled to the same. -/
structure Yields (faithful : Prop) (c : Catalog) (b : Body) (r : Compiled) : Prop where
  checked : b.constraints.forM c.checkCall = .ok ()
  wellFormed : r.expr.WellFormed (b.scope c)
  arity : r.expr.arity = b.parameters.length
  reads : r.expr.ReadsIn {rel | b.Reads rel}
  compiles : faithful → c.Compiles b r

structure Serves (c : Catalog) (name : String) (p : SearchPlan) : Prop where
  fits : p.Fits
  registered : ∃ q, c.queries[name]? = some q
  asks : ∀ op ∈ p.operations, ∀ r, op.callee? = some r → r.query ∈ c.callees name

variable {faithful : Prop} {c c' : Catalog} {kept : String → Prop} {b : Body} {r : Compiled}

theorem Keeps.serves (k : Keeps faithful kept c c') {name : String} (hk : kept name) {p : SearchPlan}
    (h : c.Serves name p) : c'.Serves name p where
  fits := h.fits
  registered := h.registered.imp fun q hq => k.queries name q hk hq
  asks := k.callees hk h.registered ▸ h.asks

theorem Keeps.yields (k : Keeps faithful kept c c') (hb : ∀ n, b.Calls n → kept n)
    (h : c.Yields faithful b r) : c'.Yields faithful b r where
  checked := k.checkCalls hb h.checked
  wellFormed := h.wellFormed.mono (k.scope_within hb)
  arity := h.arity
  reads := h.reads
  compiles hf := k.compiles hf hb (h.compiles hf)

theorem Keeps.hasEvaluator (k : Keeps faithful kept c c') {name : String} {x : Evaluator}
    (h : c.HasEvaluator faithful name x) : c'.HasEvaluator faithful name x := fun hf => by
  obtain ⟨x', hx', same⟩ := k.evaluators name x (h hf)
  rw [hx', same hf]

theorem Keeps.hasAggregator (k : Keeps faithful kept c c') {name : String} {op : Aggregator}
    (h : c.HasAggregator faithful name op) : c'.HasAggregator faithful name op := fun hf => by
  obtain ⟨op', hop', same⟩ := k.aggregators name op (h hf)
  rw [hop', same hf]

end Catalog

def bodiesOf (todo : List (String × Compiled)) (name : String) : List Compiled :=
  (todo.filter fun p => p.1 = name).map Prod.snd

namespace Network

theorem Extends.exists_vertex {net net' : Network} (x : Extends net net') {q : NodeId} {v : Vertex}
    (hv : net.vertices[q]? = some v) :
    ∃ v' : Vertex, net'.vertices[q]? = some v' ∧ v'.parents = v.parents := by
  have hq := x.lt_size (Array.getElem?_eq_some_iff.1 hv).1
  exact ⟨_, Array.getElem?_eq_getElem hq, x.parents q v _ hv (Array.getElem?_eq_getElem hq)⟩

end Network

namespace Installed
variable {site site' : Site} {evaluators evaluators' : String → Evaluator → Prop}
  {operators operators' : String → Aggregator → Prop} {s s' : Installed}

/-- What is mounted stays so while the network keeps its nodes and the names keep their meaning. -/
theorem Mounted.renew (h : s.Mounted site evaluators operators) (regular : s'.network.Regular)
    (k : Network.Keeps s.network.bare s'.network.bare)
    (mirrors : s'.network.Mirrors site'.graph.schema fun r => ↑(site'.graph.tuples r))
    (nodes : s'.nodes = s.nodes) (hp : site'.productions = site.productions)
    (hq : ∀ (q : String) (id : NodeId) (query : Query), site.productions[q]? = some id →
      site'.catalog.queries[q]? = some query → site.catalog.queries[q]? = some query)
    (he : ∀ (name : String) (x : Evaluator), evaluators name x → evaluators' name x)
    (ho : ∀ (name : String) (op : Aggregator), operators name op → operators' name op) :
    s'.Mounted site' evaluators' operators' where
  regular := regular
  inputs := mirrors
  productions q id query hid hquery := by
    rw [hp] at hid
    exact Network.HasNode.exists_keeps (h.productions q id query hid (hq q id query hid hquery)) k
  nodes a id ha := by
    rw [nodes] at ha
    exact (h.nodes a id ha).keeps k he ho fun _ _ hid => by rwa [hp]

theorem Mounted.shows (h : s.Mounted site evaluators operators) {e : Algebra} {id : NodeId}
    (has : s.Has site e id) {sc : Scope} (he : e.WellFormed sc)
    (registered : ∀ name arity, sc.calls name arity →
      ∃ q, site.catalog.queries[name]? = some q ∧ q.arity = arity) :
    s.network.Shows evaluators operators site.productions e id := by
  cases e with
  | production name arity =>
    obtain ⟨q, hq, rfl⟩ := registered name arity he
    exact ⟨has, h.productions name id q has hq⟩
  | _ => exact h.nodes _ id has

end Installed

namespace Engine

/-- The query has the node, and is registered as it was when it was compiled. What its bodies were
compiled to feeds the node, but for the last ones, which are still to be built. -/
def Lodges (faithful : Prop) (e : Engine) (todo : List (String × Compiled)) (name : String)
    (id : NodeId) : Prop :=
  ∃ q done, e.catalog.queries[name]? = some q ∧ e.producers[id]? = some q ∧
    List.Forall₂ (e.catalog.Yields faithful) q.bodies (done ++ bodiesOf todo name) ∧
    ∃ v, e.network.vertices[id]? = some v ∧
      List.Forall₂ (fun r p => e.installed.Has e.site r.expr p) done v.parents

/-- The network mirrors the model and is made of what the queries in it were compiled to. Their calls
are to queries in it, or in `pending`; bodies in `todo` are still to be built. Unless something has been
replaced, the network is at rest if it is in order. -/
structure Sound (faithful : Prop) (e : Engine) (pending : List String)
    (todo : List (String × Compiled)) : Prop where
  mounted : e.installed.Mounted e.site (e.catalog.HasEvaluator faithful)
    (e.catalog.HasAggregator faithful)
  owner : ∀ (id : NodeId) (v : Vertex), e.network.vertices[id]? = some v →
    v.node.isProduction = true → ∃ name : String, e.productions[name]? = some id
  lodged : ∀ (name : String) (id : NodeId), e.productions[name]? = some id →
    e.Lodges faithful todo name id
  calls : ∀ name, e.InNetwork name → ∀ m ∈ e.catalog.callees name, m ∈ pending ∨ e.InNetwork m
  stratified : ∀ name, e.InNetwork name → e.catalog.Stratified name
  valid : e.catalog.Valid
  plans : ∀ (r : Reference) (ps : List SearchPlan), e.searchPlans[r]? = some ps →
    (faithful → e.catalog.searchPlans e.model.schema r = .ok ps) ∧
      ∀ p ∈ ps, e.catalog.Serves r.query p
  reached : e.model.Reached
  log : e.model.log = []
  issues : ∀ i ∈ e.network.issues, ¬i.IsRelational
  history : ∀ i, Happening.issue i ∈ e.history → ¬i.IsRelational
  rests : faithful → e.network.Rests

variable {faithful : Prop} {e e' : Engine} {pending : List String} {todo : List (String × Compiled)}
  {name : String} {id : NodeId}

theorem Lodges.transfer (h : e.Lodges faithful todo name id)
    (query : ∀ q, e.catalog.queries[name]? = some q → e'.catalog.queries[name]? = some q ∧
      ∀ b ∈ q.bodies, ∀ r, e.catalog.Yields faithful b r → e'.catalog.Yields faithful b r)
    (producer : ∀ q, e.producers[id]? = some q → e'.producers[id]? = some q)
    (parents : ∀ v, e.network.vertices[id]? = some v →
      ∃ v', e'.network.vertices[id]? = some v' ∧ v'.parents = v.parents)
    (files : e.installed.Files e'.installed)
    (productions : ∀ (q : String) (id : NodeId), e.productions[q]? = some id →
      e'.productions[q]? = some id) : e'.Lodges faithful todo name id := by
  obtain ⟨q, done, hq, hproducer, bodies, v, hv, fed⟩ := h
  obtain ⟨hq', yields⟩ := query q hq
  obtain ⟨v', hv', hpar⟩ := parents v hv
  refine ⟨q, done, hq', producer q hproducer, ?_, v', hv', hpar ▸ fed.imp fun r p hp =>
    hp.mono files productions⟩
  refine (List.forall₂_iff_get.2 ?_)
  obtain ⟨len, all⟩ := List.forall₂_iff_get.1 bodies
  exact ⟨len, fun i hi hj => yields _ (List.getElem_mem hi) _ (all i hi hj)⟩

namespace Sound

theorem regular (h : e.Sound faithful pending todo) : e.network.Regular := h.mounted.regular

theorem mounted_of_faithful (h : e.Sound faithful pending todo) (hf : faithful) :
    e.installed.Mounted e.site (fun name x => e.catalog.evaluators[name]? = some x)
      fun name op => e.catalog.aggregators[name]? = some op :=
  h.mounted.renew h.regular (.of_bare_eq rfl) h.mounted.inputs rfl rfl (fun _ _ _ _ hq => hq)
    (fun _ _ hx => hx hf) fun _ _ ho => ho hf

theorem mirrors (h : e.Sound faithful pending todo) :
    e.network.Mirrors e.model.schema e.model.held :=
  e.model.held_graph ▸ h.mounted.inputs

theorem exists_fed (h : e.Sound faithful pending todo) {p : NodeId} {v : Vertex}
    (hid : e.productions[name]? = some id) (hv : e.network.vertices[id]? = some v)
    (hp : p ∈ v.parents) : ∃ q, e.catalog.queries[name]? = some q ∧ ∃ b ∈ q.bodies, ∃ r,
      e.catalog.Yields faithful b r ∧
      e.network.Shows (fun _ _ => True) (fun _ _ => True) e.productions r.expr p := by
  obtain ⟨q, done, hq, -, bodies, v', hv', fed⟩ := h.lodged name id hid
  cases hv.symm.trans hv'
  obtain ⟨r, hr, has⟩ := (exists_of_forall₂ fed).2 p hp
  obtain ⟨b, hb, yields⟩ := (exists_of_forall₂ bodies).2 r (List.mem_append_left _ hr)
  refine ⟨q, hq, b, hb, r, yields, ?_⟩
  exact (h.mounted.shows has yields.wellFormed fun name arity hc => hc.2).keeps
    (.of_bare_eq rfl) (fun _ _ _ => trivial) (fun _ _ _ => trivial) fun _ _ hid => hid

theorem composes (h : e.Sound faithful pending todo) :
    e.network.Composes e.catalog e.productions where
  owner := h.owner
  node name id hid := by
    obtain ⟨q, done, hq, -⟩ := h.lodged name id hid
    obtain ⟨ps, hn⟩ := h.mounted.productions name id q hid hq
    exact ⟨ps, q.arity, hn⟩
  fed name id p v hid hv hp := by
    obtain ⟨q, hq, b, hb, r, yields, shows⟩ := h.exists_fed hid hv hp
    exact ⟨q, hq, b, hb, r.expr, yields.wellFormed, shows⟩
  stratified name id hid := h.stratified name ⟨id, hid⟩

theorem ends (h : e.Sound faithful pending todo) (calm : e.catalog.Calm) {n : NodeId}
    (hn : n < e.network.vertices.size) : e.network.Ends n :=
  h.regular.ends (h.composes.tame h.regular calm) hn

theorem exists_query (h : e.Sound faithful pending todo) (hn : e.InNetwork name) :
    ∃ q, e.catalog.queries[name]? = some q := by
  obtain ⟨id, hid⟩ := hn
  obtain ⟨q, -, hq, -⟩ := h.lodged name id hid
  exact ⟨q, hq⟩

theorem exists_node (h : e.Sound faithful pending todo) (hid : e.productions[name]? = some id) :
    ∃ q, e.catalog.queries[name]? = some q ∧
      ∃ ps, e.network.HasNode id (.production name ∅) ps q.arity := by
  obtain ⟨q, hq⟩ := h.exists_query ⟨id, hid⟩
  exact ⟨q, hq, h.mounted.productions name id q hid hq⟩

theorem exists_memory (h : e.Sound faithful pending todo) (hid : e.productions[name]? = some id) :
    ∃ memory, e.network.productionMemory? id = some memory := by
  obtain ⟨query, -, ps, ⟨node, parents, receivers, arity⟩, hv, hb, -⟩ := h.exists_node hid
  cases node with
  | production query memory => exact ⟨memory, by rw [Network.productionMemory?, hv]⟩
  | _ => cases hb

/-- What else is installed leaves the queries in the network as they are. -/
theorem grown (h : e.Sound faithful pending todo) {s : Installed}
    (mounted : s.Mounted e.site (e.catalog.HasEvaluator faithful) (e.catalog.HasAggregator faithful))
    (g : Network.Grows e.network s.network) (files : e.installed.Files s)
    (rests : faithful → s.network.Rests) :
    Sound faithful { e with installed := s } pending todo where
  mounted := mounted
  owner id v hv hprod := by
    obtain ⟨u, hu⟩ : ∃ u, e.network.vertices[id]? = some u :=
      ⟨_, Array.getElem?_eq_getElem (g.productions id v hv hprod)⟩
    obtain ⟨w, hw, hnode, -⟩ := g.extension.keeps.vertex id _ (Network.vertex_bare hu)
    obtain ⟨v', hv', rfl⟩ := Network.vertices_bare_eq_some.1 hw
    cases hv.symm.trans hv'
    exact h.owner id u hu ((Node.isProduction_of_bare_eq hnode).symm.trans hprod)
  lodged name id hid := (h.lodged name id hid).transfer (fun q hq => ⟨hq, fun _ _ _ hr => hr⟩)
    (fun q hq => hq) (fun v hv => g.extension.exists_vertex hv) files fun _ _ hid => hid
  calls := h.calls
  stratified := h.stratified
  valid := h.valid
  plans := h.plans
  reached := h.reached
  log := h.log
  issues i hi := by
    obtain ⟨l, e, hl⟩ := g.issues
    replace hi : i ∈ s.network.issues := hi
    rw [e] at hi
    exact (List.mem_append.1 hi).elim (hl i) (h.issues i)
  history := h.history
  rests := rests

theorem loosen (h : e.Sound faithful pending todo) : e.Sound False pending todo :=
  { h with
    mounted := h.mounted.renew h.regular (.of_bare_eq rfl) h.mounted.inputs rfl rfl
      (fun _ _ _ _ hq => hq) (fun _ _ _ => False.elim) fun _ _ _ => False.elim
    lodged := fun name id hid => by
      obtain ⟨q, done, hq, hproducer, bodies, fed⟩ := h.lodged name id hid
      exact ⟨q, done, hq, hproducer, bodies.imp fun _ _ y => { y with compiles := False.elim }, fed⟩
    plans := fun r ps hr => ⟨False.elim, (h.plans r ps hr).2⟩
    rests := False.elim }

theorem await (h : e.Sound faithful [] []) (fresh : ∀ name, e.InNetwork name → bodiesOf todo name = []) :
    e.Sound faithful pending todo where
  __ := h
  lodged name id hid := by
    obtain ⟨q, done, hq, hproducer, bodies, fed⟩ := h.lodged name id hid
    refine ⟨q, done, hq, hproducer, ?_, fed⟩
    rw [fresh name ⟨id, hid⟩]
    exact bodies
  calls n hn m hm := .inr ((h.calls n hn m hm).resolve_left List.not_mem_nil)

theorem inUse (hn : e.InNetwork name) : e.inUse name = true := by
  rw [Engine.inUse, Houses.inNetwork_iff_contains.1 hn, Bool.true_or]

theorem inUse_of_searchPlans {r : Reference} {ps : List SearchPlan}
    (hr : e.searchPlans[r]? = some ps) : e.inUse r.query = true := by
  rw [Engine.inUse, Bool.or_eq_true]
  refine .inr (List.any_eq_true.2 ⟨r, ?_, beq_self_eq_true _⟩)
  exact ExtTreeMap.mem_keys.2 (ExtTreeMap.mem_iff_isSome_getElem?.2 (hr ▸ rfl))

/-- Between two requests what is in use keeps its meaning, and the network may have taken in what the
model has become. -/
theorem renew (h : e.Sound faithful [] [])
    (k : Catalog.Keeps faithful (fun n => e.inUse n = true) e.catalog e'.catalog)
    (valid : e'.catalog.Valid) (reached : e'.model.Reached) (log : e'.model.log = [])
    (schema : e'.model.schema = e.model.schema) (regular : e'.network.Regular)
    (bare : e'.network.bare = e.network.bare)
    (mirrors : e'.network.Mirrors e'.model.schema e'.model.held)
    (nodes : e'.installed.nodes = e.installed.nodes) (hp : e'.productions = e.productions)
    (producers : e'.producers = e.producers) (plans : e'.searchPlans = e.searchPlans)
    (issues : ∀ i ∈ e'.network.issues, ¬i.IsRelational)
    (history : ∀ i, Happening.issue i ∈ e'.history → ¬i.IsRelational)
    (rests : faithful → e'.network.Rests) : e'.Sound faithful [] [] := by
  have inNetwork : ∀ n, e'.InNetwork n ↔ e.InNetwork n := fun n => by rw [InNetwork, hp]; rfl
  have query : ∀ n, e.InNetwork n → ∀ q, e.catalog.queries[n]? = some q →
      e'.catalog.queries[n]? = some q := fun n hn q => k.queries n q (inUse hn)
  have same : ∀ n q, e.InNetwork n → e'.catalog.queries[n]? = some q →
      e.catalog.queries[n]? = some q := by
    intro n q hn hq
    obtain ⟨q', hq'⟩ := h.exists_query hn
    cases hq.symm.trans (query n hn q' hq')
    exact hq'
  have callees : ∀ n, e.InNetwork n → e'.catalog.callees n = e.catalog.callees n := by
    exact fun n hn => k.callees (inUse hn) (h.exists_query hn)
  have closed : ∀ n, e.InNetwork n → ∀ m ∈ e.catalog.callees n, e.InNetwork m := fun n hn m hm =>
    (h.calls n hn m hm).resolve_left List.not_mem_nil
  exact {
    mounted := h.mounted.renew regular (Network.Keeps.of_bare_eq bare)
      (e'.model.held_graph ▸ mirrors) nodes hp
      (fun q id query hid hq => same q query ⟨id, hid⟩ hq) (fun _ _ hx => k.hasEvaluator hx)
      fun _ _ ho => k.hasAggregator ho
    owner := fun id v hv hprod => by
      obtain ⟨u, hu, e⟩ := Network.exists_vertex_of_bare_eq bare hv
      rw [hp]
      exact h.owner id u hu
        ((Node.isProduction_of_bare_eq (Vertex.eq_of_bare_eq e).1).symm.trans hprod)
    lodged := fun name id hid => by
      rw [hp] at hid
      refine (h.lodged name id hid).transfer (fun q hq => ⟨query name ⟨id, hid⟩ q hq,
        fun b hb r hr => k.yields (fun n hn => inUse (closed name ⟨id, hid⟩ n ?_)) hr⟩)
        (fun q hq => by rw [producers]; exact hq)
        (fun v hv => (Network.Extends.of_bare_eq bare).exists_vertex hv)
        (fun key id hid => by rw [nodes]; exact hid) fun _ _ hid => by rw [hp]; exact hid
      exact Catalog.mem_callees.2 ⟨q, hq, b, hb, hn⟩
    calls := fun n hn m hm => by
      have hn := (inNetwork n).1 hn
      rw [callees n hn] at hm
      exact .inr ((inNetwork m).2 (closed n hn m hm))
    stratified := fun n hn => by
      have hn := (inNetwork n).1 hn
      refine k.stratified (fun m hm => ⟨inUse hm, ?_⟩) closed hn (h.stratified n hn)
      obtain ⟨q, hq⟩ := h.exists_query hm
      rw [Catalog.contains, ExtTreeMap.contains_eq_isSome_getElem?, hq]
      rfl
    valid := valid
    plans := fun r ps hr => by
      rw [plans] at hr
      obtain ⟨made, serves⟩ := h.plans r ps hr
      exact ⟨fun hf => schema ▸ k.searchPlans hf (inUse_of_searchPlans hr) (made hf),
        fun p hp => k.serves (inUse_of_searchPlans hr) (serves p hp)⟩
    reached := reached
    log := log
    issues := issues
    history := history
    rests := rests }

theorem takes (h : e.Sound faithful [] []) {m : Model} {net : Network} (reached : m.Reached)
    (log : m.log = []) (schema : m.schema = e.model.schema) (regular : net.Regular)
    (bare : net.bare = e.network.bare) (mirrors : net.Mirrors m.schema m.held)
    (issues : ∀ i ∈ net.issues, ¬i.IsRelational) (rests : faithful → net.Rests) :
    Sound faithful (({ e with model := m } : Engine).setNetwork net) [] [] :=
  h.renew .refl h.valid reached log schema regular bare mirrors rfl rfl rfl rfl issues h.history
    rests

theorem attended (h : e.Sound faithful [] []) (subscriptions : List Subscription)
    (nextListener : ListenerId) {history : List Happening}
    (quiet : ∀ i, Happening.issue i ∈ history → ¬i.IsRelational) :
    Sound faithful { e with subscriptions, nextListener, history } [] [] :=
  { h with history := quiet }

theorem record (h : e.Sound faithful [] []) {news : List Happening}
    (hn : ∀ i, Happening.issue i ∈ news → ¬i.IsRelational) : (e.record news).Sound faithful [] [] :=
  h.attended _ _ fun i hi =>
    (List.mem_append.1 hi).elim (fun hi => hn i (List.mem_reverse.1 hi)) (h.history i)

theorem report (h : e.Sound faithful [] []) {issues : List Issue}
    (hi : ∀ i ∈ issues, ¬i.IsRelational) : (e.report issues).Sound faithful [] [] := by
  rw [Engine.report]
  split
  · refine h.record fun i hi' => hi i ?_
    obtain ⟨i', hi', e⟩ := List.mem_map.1 hi'
    cases e
    exact hi'
  · exact h

theorem reportNetwork (h : e.Sound faithful [] []) : e.reportNetwork.Sound faithful [] [] := by
  have quiet : Sound faithful (e.setNetwork e.network.takeIssues.1) [] [] :=
    h.takes h.reached h.log rfl
      (h.regular.of_within ⟨rfl, h.regular.within.nodes, h.regular.within.indexes⟩) rfl h.mirrors nofun
      fun hf => (h.rests hf).of_eq rfl rfl rfl
  exact quiet.report fun i hi => h.issues i (List.mem_reverse.1 hi)

theorem takeEvents (h : e.Sound faithful [] []) :
    Sound faithful (e.setNetwork e.network.takeEvents.1) [] [] :=
  h.takes h.reached h.log rfl
    (h.regular.of_within ⟨rfl, h.regular.within.nodes, h.regular.within.indexes⟩) rfl h.mirrors h.issues
    fun hf => (h.rests hf).of_eq rfl rfl rfl

theorem settleIn (h : e.Sound faithful [] []) : e.settleIn.Sound faithful [] [] :=
  h.takeEvents.reportNetwork

end Sound
end Engine
end Motif
