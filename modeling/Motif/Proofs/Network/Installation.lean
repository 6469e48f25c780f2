import Motif.Proofs.Model
import Motif.Proofs.Network.Exact
import Motif.Proofs.Network.Laying

/-!
Expressions installed in a network at rest. Whatever has been installed before, over whatever shared
nodes and indexes, the node of an expression puts out what the expression stands for, every row as
often as it stands for it.
-/
set_option autoImplicit false
namespace Motif

open Std (ExtTreeMap)

namespace Network
variable {net : Network}

theorem insertAll_ok (w : net.Wired) (h : ∃ val, net.AtRest val) {r : Relation} {id : NodeId}
    (hid : net.inputs[r]? = some id) (quiet : net.receiversOf id = []) {unique : Bool}
    {ps : List NodeId} {arity : Nat} (kind : net.HasNode id (.input r unique ∅) ps arity)
    {ts : List Tuple} (hw : ∀ t ∈ ts, t.length = arity)
    (hn : unique = true → (net.given id + ↑ts).Nodup) :
    ∃ net', net.updateAll (ts.map fun t => ⟨r, ⟨.insert, t⟩⟩) = .ok net' ∧ net'.bare = net.bare ∧
      (∃ val, net'.AtRest val) ∧
      net'.given = Function.update net.given id (net.given id + ↑ts) := by
  induction ts generalizing net with
  | nil => exact ⟨net, rfl, rfl, h, by simp⟩
  | cons t rest ih =>
    obtain ⟨val, hval⟩ := h
    have moved : net.given id + ↑(t :: rest) = (t ::ₘ net.given id) + (↑rest : Multiset Tuple) := by
      rw [← Multiset.cons_coe, Multiset.add_cons, Multiset.cons_add]
    obtain ⟨net₁, v, u, memory, hv, hnode, hupdate, updated⟩ := hval.update w hid
      (e := ⟨.insert, t⟩) ((hw t (by simp)).trans kind.widthOf.2.symm)
      (flushes_of_receiversOf_eq_nil (by rw [receiversOf_bare, quiet]))
    have ⟨v', hv', hbare, _⟩ := kind
    cases hv.symm.trans hv'
    obtain rfl : u = unique := by
      rw [hnode] at hbare
      exact (Node.input.inj hbare).2.1
    cases updated with
    | refused issue hm =>
      -- Only a tuple that is there already would be refused.
      have there : (u && memory.contains t) = true := by
        by_contra hnot
        simp [changeMemory, hnot] at hm
      rw [Bool.and_eq_true] at there
      have := hn there.1
      rw [moved, Multiset.cons_add, Multiset.nodup_cons] at this
      refine absurd (Multiset.mem_add.2 (.inl ?_)) this.1
      rw [given_of_input hv hnode]
      exact Bag.contains_iff_mem.1 there.2
    | taken memory' net₁ val' hm honly bare rest' given =>
      have self : net₁.given id = t ::ₘ net.given id := by
        rw [given, Function.update_self, Event.apply_insert]
      have inputs : net₁.inputs = net.inputs :=
        (congrArg Network.inputs bare : net₁.bare.inputs = net.bare.inputs)
      obtain ⟨net₂, hall, bare₂, rest₂, given₂⟩ := ih (w.of_bare_eq bare) ⟨val', rest'⟩
        (inputs ▸ hid) (by rw [receiversOf_of_bare_eq bare, quiet])
        (kind.keeps (.of_bare_eq bare) rfl) (fun u hu => hw u (by simp [hu])) fun hu => by
          rw [self, ← moved]
          exact hn hu
      refine ⟨net₂, ?_, bare₂.trans bare, rest₂, ?_⟩
      · rw [List.map_cons, updateAll, hupdate]
        exact hall
      · rw [given₂, self, moved, given, Function.update_idem]

structure Bypasses (site : Site) (net net' : Network) : Prop where
  keeps : Keeps net.bare net'.bare
  receivers : ∀ (q : String) (id : NodeId) (arity : Nat), site.productions[q]? ≠ some id →
    (∃ ps, net.HasNode id (.production q ∅) ps arity) → net'.receiversOf id = net.receiversOf id

variable {site : Site} {net' net'' : Network}

theorem Bypasses.of_bare_eq (h : net'.bare = net.bare) : Bypasses site net net' :=
  ⟨.of_bare_eq h, fun _ _ _ _ _ => by rw [receiversOf_of_bare_eq h]⟩

theorem Bypasses.trans (h : Bypasses site net net') (h' : Bypasses site net' net'') :
    Bypasses site net net'' :=
  ⟨h.keeps.trans h'.keeps, fun q id arity hid hn =>
    (h'.receivers q id arity hid (HasNode.exists_keeps hn h.keeps)).trans (h.receivers q id arity hid hn)⟩

theorem Grown.bypasses {ps : List NodeId} (g : Grown net net' ps)
    (read : ∀ p ∈ ps, ∃ e, net.Renders site e p) : Bypasses site net net' := by
  refine ⟨g.keeps, fun q id arity hid hn => ?_⟩
  obtain ⟨parents, node⟩ := hn
  refine g.others id node.widthOf.1 fun mem => hid ?_
  obtain ⟨e, renders⟩ := read id mem
  exact (renders_iff_shows.1 renders).productions_eq ⟨parents, node⟩

end Network

namespace Installed

structure Settled (site : Site) (s : Installed) : Prop where
  wired : s.network.Wired
  rest : ∃ val, s.network.AtRest val
  given : ∀ (r : Relation) (id : NodeId), s.network.inputs[r]? = some id →
    s.network.widthOf id = r.arity ∧ s.network.given id = ↑(site.graph.tuples r)
  productions : ∀ (q : String) (id : NodeId) (query : Query), site.productions[q]? = some id →
    site.catalog.queries[q]? = some query → ∃ ps, s.network.HasNode id (.production q ∅) ps query.arity
  nodes : ∀ (e : Algebra) (id : NodeId), s.nodes.get? (e.size, e) = some id →
    s.network.Renders site e id

variable {site : Site} {s s' : Installed}

theorem Settled.keeps (h : s.Settled site) {net : Network} (w : net.Wired)
    (rest : ∃ val, net.AtRest val) (k : Network.Keeps s.network.bare net.bare)
    (hg : ∀ (r : Relation) (id : NodeId), net.inputs[r]? = some id →
      net.widthOf id = r.arity ∧ net.given id = ↑(site.graph.tuples r)) :
    Settled site { s with network := net } where
  wired := w
  rest := rest
  given := hg
  productions q id query hq hc := Network.HasNode.exists_keeps (h.productions q id query hq hc) k
  nodes a id ha := (h.nodes a id ha).keeps k rfl fun _ _ hq => hq

def settling (site : Site) : Discipline site where
  good := Settled site
  ext := Network.Bypasses site
  refl _ := .of_bare_eq rfl
  renders net := net.Renders site
  trans := Network.Bypasses.trans
  wide := Network.Renders.widthOf
  stays k hr := hr.keeps k.keeps rfl fun _ _ hq => hq
  nodes h ha := h.nodes _ _ ha
  file h hr := ⟨h.wired, h.rest, h.given, h.productions, forall_file h.nodes hr⟩

theorem Settled.grown (h : s.Settled site) {net : Network} {ps : List NodeId}
    (g : Network.Grown s.network net ps) (inputs : net.inputs = s.network.inputs) :
    Settled site { s with network := net } :=
  h.keeps g.wired g.rest g.keeps fun r id hid => by
    rw [inputs] at hid
    obtain ⟨hw, hgiven⟩ := h.given r id hid
    obtain ⟨v, -, -, hv, -⟩ := (h.wired.inputs r id).1 hid
    exact ⟨(g.keeps.widthOf_eq hv).trans hw, g.given ▸ hgiven⟩

theorem Settled.meets (h : s.Settled site) {r : Except Fault (Network × NodeId)} {ps : List NodeId}
    {make : Network → NodeId → Prop} (y : s.network.Yields r ps make)
    (read : ∀ p ∈ ps, ∃ e, s.network.Renders site e p) :
    (settling site).Meets s (s.make r) make := by
  obtain ⟨net, id, rfl, grown, inputs, -, made⟩ := y
  exact ⟨{ s with network := net }, id, rfl, h.grown grown inputs, grown.bypasses read, made⟩

/-- The input of a relation that has none yet is given what the relation holds. -/
theorem Settled.installInput (h : s.Settled site)
    (hg : ∀ r, ∀ t ∈ site.graph.tuples r, t.length = r.arity)
    (sets : ∀ r, site.graph.schema.isUnique r = true → (site.graph.tuples r).Nodup) (r : Relation) :
    (settling site).Meets s (s.make (s.network.installInput site.graph r)) fun net id =>
      net.Renders site (.input r) id := by
  cases hr : s.network.inputs[r]? with
  | some id =>
    obtain ⟨hnet, renders⟩ := Network.installInput_of_some site h.wired hr (h.given r id hr).1
      site.graph
    exact ⟨s, id, by rw [hnet]; rfl, h, .of_bare_eq rfl, renders⟩
  | none =>
    obtain ⟨grown, hid, hin, quiet, hnode⟩ :=
      Network.addInput_grown h.wired h.rest hr r.arity (site.graph.schema.isUnique r)
    obtain ⟨net₁, hnet₁⟩ : ∃ net₁,
      net₁ = (s.network.addInput r r.arity (site.graph.schema.isUnique r)).1 := ⟨_, rfl⟩
    rw [← hnet₁] at grown hin quiet hnode
    have hself : net₁.inputs[r]? = some s.network.vertices.size := by rw [hin, if_pos rfl]
    have fresh : net₁.given s.network.vertices.size = 0 := grown.given ▸ Network.given_size
    obtain ⟨net₂, hall, bare, rest, given⟩ := Network.insertAll_ok grown.wired grown.rest hself quiet
      hnode (hg r) fun hu => by
        rw [fresh, zero_add]
        exact Multiset.coe_nodup.2 (sets r hu)
    rw [fresh, zero_add, grown.given] at given
    have keeps := grown.keeps.trans (.of_bare_eq bare)
    have inputs : net₂.inputs = net₁.inputs :=
      (congrArg Network.inputs bare : net₂.bare.inputs = net₁.bare.inputs)
    have hcall := Network.installInput_of_none hr hid (hnet₁ ▸ hall)
    have hnode₂ := hnode.keeps (.of_bare_eq bare) rfl
    refine ⟨{ s with network := net₂ }, s.network.vertices.size, by rw [hcall]; rfl,
      h.keeps (grown.wired.of_bare_eq bare) rest keeps fun r' id hid => ?_,
      (grown.bypasses fun _ hp => absurd hp List.not_mem_nil).trans (.of_bare_eq bare), _, _, hnode₂⟩
    rw [inputs, hin] at hid
    split at hid
    · rename_i e
      cases hid
      cases e
      exact ⟨hnode₂.widthOf.2, by rw [given, Function.update_self]⟩
    · obtain ⟨hw, hgiven⟩ := h.given r' id hid
      obtain ⟨v, -, -, hv, -⟩ := (h.wired.inputs r' id).1 hid
      refine ⟨(keeps.widthOf_eq hv).trans hw, ?_⟩
      rw [given, Function.update_of_ne (Nat.ne_of_lt (Array.getElem?_eq_some_iff.1 hv).1), hgiven]

theorem lays_settling (hg : ∀ r, ∀ t ∈ site.graph.tuples r, t.length = r.arity)
    (sets : ∀ r, site.graph.schema.isUnique r = true → (site.graph.tuples r).Nodup) :
    (settling site).Lays (fun name x => site.catalog.evaluators[name]? = some x)
      fun name op => site.catalog.aggregators[name]? = some op where
  shows := Network.renders_iff_shows
  evaluator _ _ hx := hx
  operator _ _ hop := hop
  production h hid hq := h.productions _ _ _ hid hq
  constant h hw := by
    obtain ⟨grown, inputs, hn⟩ := Network.addConstant_grown h.wired h.rest hw
    exact ⟨_, _, rfl, h.grown grown inputs, grown.bypasses fun _ hp => absurd hp List.not_mem_nil, hn⟩
  input r h := (h.installInput hg sets r).mono fun hr => hr
  child h hp hf hprod hempty hfits :=
    h.meets (Network.addChild_yields h.wired h.rest (Network.Renders.widthOf hp).1 hf hprod hempty hfits)
      (List.forall_mem_singleton.2 ⟨_, hp⟩)
  pair make h hp hq hpm hsm hprim hsec hs hfits :=
    h.meets (Network.pair_yields h.wired h.rest make (Network.Renders.widthOf hp).1
      (Network.Renders.widthOf hq).1 hpm hsm hprim hsec hs hfits)
      (List.forall_mem_cons.2 ⟨⟨_, hp⟩, List.forall_mem_singleton.2 ⟨_, hq⟩⟩)
  grouping op _ h hp hm hc :=
    h.meets (Network.addGrouping_yields h.wired h.rest (Network.Renders.widthOf hp).1 hm op hc)
      (List.forall_mem_singleton.2 ⟨_, hp⟩)

theorem Settled.install (h : s.Settled site)
    (hg : ∀ r, ∀ t ∈ site.graph.tuples r, t.length = r.arity)
    (sets : ∀ r, site.graph.schema.isUnique r = true → (site.graph.tuples r).Nodup) {e : Algebra}
    (he : e.Buildable site) :
    (settling site).Meets s (s.install site e) fun net id => net.Renders site e id :=
  (lays_settling hg sets).install h he

theorem settled_empty (c : Catalog) (g : Graph) : Settled ⟨c, g, ∅⟩ {} where
  wired := Network.wired_empty
  rest := ⟨_, Network.atRest_empty⟩
  given r id h := by cases h
  productions q id query h := by cases h
  nodes e id h := by cases h

theorem Settled.addProduction (h : s.Settled site) {q : String} {query : Query}
    (hq : site.catalog.queries[q]? = some query) (fresh : site.productions[q]? = none) :
    Settled { site with
        productions := site.productions.insert q (s.network.addProduction q query.arity).2 }
      { s with network := (s.network.addProduction q query.arity).1 } := by
  obtain ⟨grown, inputs, hn⟩ := Network.addProduction_grown h.wired h.rest q query.arity
  have settled := h.grown grown inputs
  have get : ∀ q', (site.productions.insert q (s.network.addProduction q query.arity).2)[q']? =
      if q = q' then some (s.network.addProduction q query.arity).2 else site.productions[q']? := by
    intro q'
    simp only [ExtTreeMap.getElem?_insert, Std.LawfulEqCmp.compare_eq_iff_eq]
  refine ⟨settled.wired, settled.rest, settled.given, fun q' id query' hid hq' => ?_, fun e id he => ?_⟩
  · replace hid := (get q').symm.trans hid
    split at hid
    · rename_i e
      cases hid
      cases e
      cases hq.symm.trans hq'
      exact ⟨[], hn⟩
    · exact settled.productions q' id query' hid hq'
  · refine (settled.nodes e id he).keeps (.refl _) rfl fun q' id hid => ?_
    refine (get q').trans ?_
    rw [if_neg, hid]
    rintro rfl
    cases fresh.symm.trans hid

theorem Settled.connect (h : s.Settled site) {q : String} {arity : Nat} {id p : NodeId}
    (hn : ∃ ps, s.network.HasNode id (.production q ∅) ps arity)
    (hp : p < s.network.vertices.size) (hw : s.network.widthOf p = arity) (hne : id ≠ p)
    (quiet : s.network.receiversOf id = []) :
    ∃ net, s.network.connect id p = .ok net ∧ Settled site { s with network := net } ∧
      Network.Grown s.network net [p] := by
  obtain ⟨ps, hn⟩ := hn
  have wide := hn.widthOf.2
  obtain ⟨v, hv, hbare, -, -⟩ := hn
  have hprod : v.node.isProduction = true := by
    rw [← Node.isProduction_bare, hbare]
    rfl
  obtain ⟨net, hnet, grown, inputs, -⟩ := Network.connect_grown h.wired h.rest hv hprod hp
    (hw.trans wide.symm) hne (Network.not_below_of_receiversOf_eq_nil quiet) fun net' x _ =>
      Network.flushes_of_receiversOf_eq_nil (by
        rw [Network.receiversOf_bare, x.receiversOf hp, if_neg hne, quiet, List.nil_append])
  exact ⟨net, hnet, h.grown grown inputs, grown⟩

theorem Settled.exists_facts {c : Catalog} {m : Model} {productions : ExtTreeMap String NodeId}
    (h : s.Settled ⟨c, m.graph, productions⟩)
    (registered : ∀ (q : String) (id : NodeId), productions[q]? = some id →
      ∃ query, c.queries[q]? = some query)
    {val : NodeId → Multiset Tuple} (hval : s.network.AtRest val) :
    ∃ f : Facts c, (∀ r, f.holds r = ↑(m.tuples r)) ∧
      ∀ (q : String) (id : NodeId), productions[q]? = some id →
        id < s.network.vertices.size ∧ val id = (f.found q).val := by
  have node := h.productions
  refine ⟨m.facts (fun q => (productions[q]?.elim 0 val).toFinset) fun q query hq t ht => ?_,
    fun _ => rfl, fun q id hid => ?_⟩
  · cases hid : productions[q]? with
    | none => simp [hid] at ht
    | some id =>
      obtain ⟨ps, hn⟩ := node q id query hid hq
      rw [Multiset.mem_toFinset, hid, Option.elim_some] at ht
      rw [← hn.widthOf.2]
      exact hval.width_of_mem hn.widthOf.1 t ht
  · obtain ⟨query, hq⟩ := registered q id hid
    obtain ⟨ps, hn⟩ := node q id query hid hq
    refine ⟨hn.widthOf.1, ?_⟩
    obtain ⟨v, hv, hbare, -⟩ := hn
    have nodup : (val id).Nodup := by
      rw [hval.means id v hv, Node.output_of_bare_eq hbare]
      exact Multiset.nodup_dedup _
    rw [Model.facts_found, Multiset.toFinset_val, hid, Option.elim_some, nodup.dedup]

section raised

/-- Networks over a model whose queries are put into them callees first: a query gets a node, its
bodies are installed, and its node, which nothing reads yet, is fed by theirs. -/
inductive Raised (c : Catalog) (m : Model) : ExtTreeMap String NodeId → Installed → Prop where
  | empty : Raised c m ∅ {}
  | production {productions : ExtTreeMap String NodeId} {s : Installed} {q : String} {query : Query} :
      Raised c m productions s → c.queries[q]? = some query → productions[q]? = none →
      Raised c m (productions.insert q (s.network.addProduction q query.arity).2)
        { s with network := (s.network.addProduction q query.arity).1 }
  | install {productions : ExtTreeMap String NodeId} {s s' : Installed} {e : Algebra} {id : NodeId} :
      Raised c m productions s → e.Fits c (Site.Calls ⟨c, m.graph, productions⟩) →
      s.install ⟨c, m.graph, productions⟩ e = .ok (s', id) → Raised c m productions s'
  | connect {productions : ExtTreeMap String NodeId} {s : Installed} {q : String} {query : Query}
      {id p : NodeId} {net : Network} :
      Raised c m productions s → productions[q]? = some id → c.queries[q]? = some query →
      p < s.network.vertices.size → s.network.widthOf p = query.arity → id ≠ p →
      s.network.receiversOf id = [] → s.network.connect id p = .ok net →
      Raised c m productions { s with network := net }

variable {c : Catalog} {m : Model} {productions : ExtTreeMap String NodeId}

theorem Settled.install_model (hm : m.Reached) (h : s.Settled ⟨c, m.graph, productions⟩) {e : Algebra}
    (he : e.Buildable ⟨c, m.graph, productions⟩) :
    (settling ⟨c, m.graph, productions⟩).Meets s (s.install ⟨c, m.graph, productions⟩ e)
      fun net id => net.Renders ⟨c, m.graph, productions⟩ e id :=
  h.install (fun r t ht => Model.length_of_mem_tuples (m.tuples_graph r ▸ ht))
    (fun r hr => by
      rw [m.tuples_graph]
      exact hm.sets.nodup_tuples hr) he

theorem Raised.settled (hm : m.Reached) (h : Raised c m productions s) :
    s.Settled ⟨c, m.graph, productions⟩ := by
  induction h with
  | empty => exact settled_empty c m.graph
  | production _ hq fresh ih => exact ih.addProduction hq fresh
  | install _ he hcall ih =>
    obtain ⟨s', id, hmade, settled, -⟩ := ih.install_model hm he.buildable
    cases hcall.symm.trans hmade
    exact settled
  | connect _ hid hq hp hw hne quiet hcall ih =>
    obtain ⟨net, hnet, settled, -⟩ := ih.connect (ih.productions _ _ _ hid hq) hp hw hne quiet
    cases hcall.symm.trans hnet
    exact settled

theorem Raised.registered (h : Raised c m productions s) {q : String} {id : NodeId}
    (hid : productions[q]? = some id) : ∃ query, c.queries[q]? = some query := by
  induction h with
  | empty => cases hid
  | production _ hq _ ih =>
    obtain ⟨rfl, -⟩ | hid := eq_or_of_getElem?_insert hid
    · exact ⟨_, hq⟩
    · exact ih hid
  | install _ _ _ ih | connect _ _ _ _ _ _ _ _ ih => exact ih hid

/-- In such a network an expression that fits can be installed. Reading its node then gives the rows
that the expression stands for over the tuples of the model and the matches of the queries, each as
often as the expression has it. -/
theorem Raised.install_exact (hm : m.Reached) (h : Raised c m productions s) {e : Algebra}
    (he : e.Fits c (Site.Calls ⟨c, m.graph, productions⟩)) :
    ∃ s' id rows, s.install ⟨c, m.graph, productions⟩ e = .ok (s', id) ∧
      Raised c m productions s' ∧ s'.network.widthOf id = e.arity ∧
      s'.network.pull id = .ok rows ∧
      ∃ f : Facts c, (∀ r, f.holds r = ↑(m.tuples r)) ∧
        (∀ (q : String) (p : NodeId), productions[q]? = some p →
          ∃ matched, s'.network.pull p = .ok matched ∧ (↑matched : Multiset Tuple) = (f.found q).val) ∧
        (↑rows : Multiset Tuple) = e.value f := by
  obtain ⟨s', id, hcall, settled, -, renders⟩ := (h.settled hm).install_model hm he.buildable
  have raised := h.install he hcall
  obtain ⟨val, hval⟩ := settled.rest
  obtain ⟨hlt, hwidth⟩ := renders.widthOf
  obtain ⟨f, holds, found⟩ := settled.exists_facts (fun _ _ => raised.registered) hval
  obtain ⟨rows, hpull, hrows⟩ := hval.pull settled.wired hlt
  refine ⟨s', id, rows, hcall, raised, hwidth, hpull, f, holds, fun q p hq => ?_, ?_⟩
  · obtain ⟨hp, same⟩ := found q p hq
    obtain ⟨matched, hmatched, hval'⟩ := hval.pull settled.wired hp
    exact ⟨matched, hmatched, hval'.trans same⟩
  · refine hrows.trans (hval.val_eq_value settled.wired renders he (fun r id hid => ?_)
      fun q id hid => (found q id hid).2)
    rw [(settled.given r id hid).2, m.tuples_graph, holds]

end raised

end Installed
end Motif
