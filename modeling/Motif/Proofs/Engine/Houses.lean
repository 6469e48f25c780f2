import Motif.Engine.Preparation
import Motif.Proofs.Greedy
import Motif.Proofs.Model
import Motif.Proofs.Network.Rendering
import Motif.Proofs.Normal
import Motif.Proofs.Resolution

set_option autoImplicit false
namespace Motif

open Std (ExtTreeMap)

namespace Catalog

def Compiles (c : Catalog) (b : Body) (r : Compiled) : Prop :=
  ∃ p, Plan.greedy .rete b.normalize {} = .ok p ∧ Compiled.ofPlan c b.normalize p = .ok r

variable {c : Catalog} {name : String} {q : Query} {b : Body} {r : Compiled}

theorem Compiles.mem_value (h : c.Compiles b r) (valid : q.validateBody b = .ok ())
    (calls : b.constraints.forM c.checkCall = .ok ())
    (folds : ∀ k ∈ b.normalize.constraints, c.Folds k) (f : Facts c) {t : Tuple} :
    t ∈ r.expr.value f ↔ t ∈ b.normalize.meaning f := by
  obtain ⟨p, hp, hr⟩ := h
  exact (Compiled.ofPlan_exact (Query.validateBody_normalize valid) (Body.checkCall_normalize calls)
    folds (Plan.coherent_greedy hp) hr f).1 t

theorem Compiles.mem_value_iff (h : c.Compiles b r) (valid : q.validateBody b = .ok ())
    (calls : b.constraints.forM c.checkCall = .ok ())
    (positive : ∀ k ∈ b.constraints, k.isPositive = true) (f : Facts c) {t : Tuple} :
    t ∈ r.expr.value f ↔ t ∈ b.derives c f.base f.matched := by
  have normal := Body.isPositive_normalize positive
  have folds : ∀ k ∈ b.normalize.constraints, c.Folds k := by
    intro k hk
    have hpos := normal k hk
    cases k with
    | count | aggregate => cases hpos
    | _ => trivial
  rw [h.mem_value valid calls folds f, Body.meaning_eq_derives normal, Body.derives_normalize]

theorem Compiles.positive (there : String → Nat → Prop) (h : c.Compiles b r)
    (valid : q.validateBody b = .ok ()) (calls : b.constraints.forM c.checkCall = .ok ())
    (positive : ∀ k ∈ b.constraints, k.isPositive = true)
    (hthere : ∀ n q, b.Calls n → c.queries[n]? = some q → there n q.arity) :
    r.expr.Positive c there ∧ r.expr.arity = b.parameters.length := by
  obtain ⟨p, -, hr⟩ := h
  rw [← Body.length_parameters_normalize]
  refine Compiled.positive_ofPlan (fun k hk => ?_) hr
  refine ⟨Body.isPositive_normalize positive k hk,
    (Query.validateBody_ok (Query.validateBody_normalize valid)).2 k hk,
    forM_ok (Body.checkCall_normalize calls) hk, fun n q hn hq => ?_⟩
  exact hthere n q (Body.calls_normalize ⟨k, hk, hn⟩) hq

end Catalog

def Network.HasParent (net : Network) (id p : NodeId) : Prop :=
  ∃ v, net.vertices[id]? = some v ∧ p ∈ v.parents

namespace Engine

def InNetwork (e : Engine) (name : String) : Prop := ∃ id, e.productions[name]? = some id

/-- The network is sound, and every query in it is fed by the expressions of its bodies, but for
bodies in `todo`. What a query in the network calls is there too, or in `pending`. -/
structure Houses (e : Engine) (pending : List String) (todo : List (String × Compiled)) : Prop where
  sound : e.installed.Sound e.site
  checked : ∀ name, e.InNetwork name → e.catalog.checkCalls name = .ok ()
  calls : ∀ name, e.InNetwork name → ∀ m ∈ e.catalog.callees name, m ∈ pending ∨ e.InNetwork m
  fed : ∀ (name : String) (id p : NodeId), e.productions[name]? = some id →
    e.network.HasParent id p → ∃ q, e.catalog.queries[name]? = some q ∧ ∃ b ∈ q.bodies, ∃ r,
      e.catalog.Compiles b r ∧ e.network.Renders e.site r.expr p
  bodies : ∀ (name : String) (id : NodeId) (q : Query), e.productions[name]? = some id →
    e.catalog.queries[name]? = some q → ∀ b ∈ q.bodies, ∃ r, e.catalog.Compiles b r ∧
      ((name, r) ∈ todo ∨ ∃ p, e.network.HasParent id p ∧ e.network.Renders e.site r.expr p)

namespace Houses
variable {e : Engine} {pending : List String} {todo : List (String × Compiled)}
  {out : NodeId → Multiset Tuple} {name : String} {id : NodeId}

theorem exists_query (h : e.Houses pending todo) (hid : e.productions[name]? = some id) :
    ∃ q, e.catalog.queries[name]? = some q ∧
      (∀ b ∈ q.bodies, b.constraints.forM e.catalog.checkCall = .ok ()) ∧
      ∃ ps, e.network.HasNode id (.production name ∅) ps q.arity := by
  obtain ⟨q, hq, calls⟩ := Catalog.checkCalls_ok (h.checked name ⟨id, hid⟩)
  exact ⟨q, hq, calls, h.sound.productions name id q hid hq⟩

theorem mem_out_of_hasParent (h : e.Houses pending todo) (hs : e.network.Saturated out)
    (hid : e.productions[name]? = some id) {p : NodeId} (hp : e.network.HasParent id p) {t : Tuple}
    (ht : t ∈ out p) : t ∈ out id := by
  obtain ⟨v, hv, hp⟩ := hp
  obtain ⟨q, -, -, ps, v', hv', hbare, -, -⟩ := h.exists_query hid
  cases hv.symm.trans hv'
  refine hs.least.1 id v hv out (fun _ _ hm => hm) t ?_
  rw [Node.output_of_bare_eq hbare]
  exact Multiset.mem_dedup.2
    ((Network.mem_fedFrom (Node.isFed_of_bare_eq hbare)).2 ⟨p, hp, ht⟩)

open Classical in
theorem exists_facts (h : e.Houses pending todo) (hs : e.network.Saturated out)
    (among : String → Tuple → Prop) :
    ∃ f : Facts e.catalog, f.base = e.model.base ∧
      ∀ name t, t ∈ f.matched name ↔
        (∃ id, e.productions[name]? = some id ∧ t ∈ out id) ∧ among name t := by
  obtain ⟨found, hfound⟩ : ∃ found : String → Finset Tuple, ∀ name t,
      t ∈ found name ↔ (∃ id, e.productions[name]? = some id ∧ t ∈ out id) ∧ among name t := by
    refine ⟨fun name => (e.productions[name]?).elim ∅ fun id =>
      (out id).toFinset.filter (among name), fun name t => ?_⟩
    cases hid : e.productions[name]? <;> simp [hid]
  refine ⟨e.model.facts found fun name q hq t ht => ?_, rfl, hfound⟩
  obtain ⟨⟨id, hid, hm⟩, -⟩ := (hfound name t).1 ht
  obtain ⟨q', hq', -, ps, v, hv, -, -, harity⟩ := h.exists_query hid
  cases hq.symm.trans hq'
  rw [hs.width hv t hm, harity]

theorem mem_out_of_value (h : e.Houses pending todo) (hs : e.network.Saturated out) {f : Facts e.catalog}
    (hb : f.base = e.model.base)
    (hf : ∀ name, ∀ t ∈ f.matched name, ∃ id, e.productions[name]? = some id ∧ t ∈ out id)
    (hid : e.productions[name]? = some id) {p : NodeId} (hp : e.network.HasParent id p)
    {expr : Algebra} (hr : e.network.Renders e.site expr p) :
    ∀ t ∈ expr.value f, t ∈ out id := by
  intro t ht
  refine h.mem_out_of_hasParent hs hid hp (hr.mem_out hs.positive hs.least.1
    (fun r id unique ps hn t ht => ?_)
    (fun name id hid t ht => ?_) t ht)
  · obtain ⟨v, hv, hbare, -, -⟩ := hn
    obtain ⟨b, memory, hn⟩ := Node.exists_input_of_bare_eq hbare ⟨unique, ∅, rfl⟩
    have input := (hs.wired.inputs r id).2 ⟨v, b, memory, hv, hn⟩
    have held : t ∈ f.base r := ht
    rw [hb] at held
    exact ((h.sound.given r id input).2 t).2 (e.model.tuples_graph r ▸ held)
  · obtain ⟨id', hid', hm⟩ := hf name t ht
    cases hid.symm.trans hid'
    exact hm

variable (h : e.Houses [] []) (valid : e.catalog.Valid) (positive : e.catalog.Positive)
  (hs : e.network.Saturated out)
include h valid positive hs

theorem mem_out_of_mem_least (hid : e.productions[name]? = some id) {t : Tuple}
    (ht : t ∈ e.catalog.least e.model.base name) : t ∈ out id := by
  -- Nothing is said of the queries that are not in the network.
  refine ht (fun name => {t | ∀ id, e.productions[name]? = some id → t ∈ out id})
    (fun name q hq b hb t ht id hid => ?_) id hid
  obtain ⟨q', hq', calls, -⟩ := h.exists_query hid
  cases hq.symm.trans hq'
  obtain ⟨r, hr, hfed⟩ := h.bodies name id q hid hq b hb
  obtain ⟨p, hp, renders⟩ := hfed.resolve_left List.not_mem_nil
  obtain ⟨f, hbase, hfound⟩ := h.exists_facts hs fun _ _ => True
  refine h.mem_out_of_value hs hbase (fun n u hu => ((hfound n u).1 hu).1) hid hp renders t ?_
  rw [hr.mem_value_iff (valid.validateBody hq hb) (calls b hb) (positive name q hq b hb), hbase]
  refine Body.derives_mono (fun n hn u hu => ?_) ht
  obtain ⟨id', hid'⟩ := (h.calls name ⟨id, hid⟩ n
    (Catalog.mem_callees.2 ⟨q, hq, b, hb, hn⟩)).resolve_left List.not_mem_nil
  exact (hfound n u).2 ⟨⟨id', hid', hu id' hid'⟩, trivial⟩

/-- Only least matches have been put out. -/
theorem mem_least_of_mem_out (hid : e.productions[name]? = some id) {t : Tuple} (ht : t ∈ out id) :
    t ∈ e.catalog.least e.model.base name := by
  obtain ⟨f, hbase, hfound⟩ := h.exists_facts hs fun n u => u ∈ e.catalog.least e.model.base n
  have closed : e.network.Closed e.network.given (e.network.rendered e.site f) := by
    refine Network.closed_rendered hs.wired hs.positive (fun r id hid t ht => ?_)
      fun n id v hid hv p hp => ?_
    · have held := ((h.sound.given r id hid).2 t).1 ht
      rw [show e.site.graph.tuples r = _ from e.model.tuples_graph r] at held
      exact (Set.ext_iff.1 (congrFun hbase r) t).2 held
    · obtain ⟨q, hq, b, hb, r, hr, renders⟩ := h.fed n id p hid ⟨v, hv, hp⟩
      obtain ⟨q', hq', calls, -⟩ := h.exists_query hid
      cases hq.symm.trans hq'
      refine ⟨r.expr, renders, fun u hu => (hfound n u).2 ⟨⟨id, hid, ?_⟩, ?_⟩⟩
      · exact h.mem_out_of_value hs hbase (fun n u hu => ((hfound n u).1 hu).1) hid ⟨v, hv, hp⟩
          renders u hu
      · replace hu := (hr.mem_value_iff (valid.validateBody hq hb) (calls b hb)
          (positive n q hq b hb) f).1 hu
        rw [hbase] at hu
        exact Catalog.isLeast_least.1 n q hq b hb
          (Body.derives_mono (fun m _ u hu => ((hfound m u).1 hu).2) hu)
  obtain ⟨q, hq, -, ps, hn⟩ := h.exists_query hid
  have rendered := hs.least.2 closed id ht (.production name q.arity) ⟨hid, ps, hn⟩
  exact ((hfound name t).1 rendered).2

end Houses
end Engine
end Motif
