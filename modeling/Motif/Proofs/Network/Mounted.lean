import Motif.Proofs.Log
import Motif.Proofs.Network.Additions
import Motif.Proofs.Network.Ending
import Motif.Proofs.Network.Mounting
import Motif.Proofs.Network.Renders

/-!
Networks whose inputs mirror the base relations. Changes that lead on from what the relations hold are
taken in one by one: none is refused, and the inputs mirror the relations again when all have been
propagated. Installing an expression in such a network never fails and brings nothing into motion that
was there before; only feeding a production may have no end.
-/
set_option autoImplicit false
namespace Motif

open Std (ExtTreeMap)

namespace Network
variable {net net' net'' : Network} {s : Schema} {held held' : Relation → Multiset Tuple}

def Mirrors (net : Network) (s : Schema) (held : Relation → Multiset Tuple) : Prop :=
  ∀ (r : Relation) (id : NodeId), net.inputs[r]? = some id →
    net.HasNode id (.input r (s.isUnique r) ∅) [] r.arity ∧ net.given id = held r

structure Took (net net' : Network) : Prop where
  regular : net'.Regular
  bare : net'.bare = net.bare
  issues : ∃ l, net'.issues = l ++ net.issues ∧ ∀ i ∈ l, ¬i.IsRelational

theorem Took.refl (h : net.Regular) : Took net net := ⟨h, rfl, [], rfl, by simp⟩

theorem Took.trans (t : Took net net') (t' : Took net' net'') : Took net net'' := by
  refine ⟨t'.regular, t'.bare.trans t.bare, ?_⟩
  obtain ⟨l, e, hl⟩ := t.issues
  obtain ⟨l', e', hl'⟩ := t'.issues
  refine ⟨l' ++ l, by rw [e', e, List.append_assoc], fun i hi => ?_⟩
  exact (List.mem_append.1 hi).elim (hl' i) (hl i)

theorem Took.inputs (t : Took net net') : net'.inputs = net.inputs :=
  (congrArg Network.inputs t.bare : net'.bare.inputs = net.bare.inputs)

/-- A change that its relation can take is taken in. It comes to an end if the changes of the
relation's node do. -/
theorem Regular.update_mirrors (h : net.Regular) (m : net.Mirrors s held) {c : Change}
    (suits : c.Suits s held) :
    Arrives (net.update c.relation c.event) (fun p => Took net p.1 ∧ p.1.Mirrors s (c.apply held)) ∧
      ((∀ id, net.inputs[c.relation]? = some id → net.Ends id) →
        ∃ p, net.update c.relation c.event = .ok p) := by
  cases hid : net.inputs[c.relation]? with
  | none =>
    have hupdate : net.update c.relation c.event = .ok (net, false) := by
      rw [update_eq, hid]
      rfl
    refine ⟨hupdate ▸ .ok ⟨.refl h, fun r id hr => ?_⟩, fun _ => ⟨_, hupdate⟩⟩
    have hne : r ≠ c.relation := fun e => by
      rw [e, hid] at hr
      cases hr
    rw [Change.apply, Function.update_of_ne hne]
    exact m r id hr
  | some id =>
    obtain ⟨hn, hgiven⟩ := m c.relation id hid
    obtain ⟨v, hv, hbare, -⟩ := (m c.relation id hid).1
    obtain ⟨memory, hnode⟩ : ∃ memory, v.node = .input c.relation (s.isUnique c.relation) memory := by
      cases hv' : v.node <;> rw [hv'] at hbare <;> cases hbare
      exact ⟨_, rfl⟩
    have hw : c.event.tuple.length = net.widthOf id := suits.width.trans hn.widthOf.2.symm
    have accepts : net.Accepts id (s.isUnique c.relation) c.event := by
      rw [Accepts, hgiven]
      exact ⟨suits.insert, suits.revoke⟩
    refine ⟨(h.update_accepted hid hw hv hnode accepts).mono ?_, fun ends => ?_⟩
    · rintro p ⟨-, fed⟩
      refine ⟨⟨fed.regular, fed.bare, fed.issues⟩, fun r id' hr => ?_⟩
      rw [show p.1.inputs = net.inputs from
        (congrArg Network.inputs fed.bare : p.1.bare.inputs = net.bare.inputs)] at hr
      obtain ⟨hn', hgiven'⟩ := m r id' hr
      refine ⟨hn'.extends (.of_bare_eq fed.bare), ?_⟩
      rw [fed.given, Change.apply]
      by_cases he : r = c.relation
      · subst he
        cases hid.symm.trans hr
        rw [Function.update_self, Function.update_self, hgiven]
      · rw [Function.update_of_ne fun e => he ?_, Function.update_of_ne he, hgiven']
        exact h.wired.eq_of_inputs hid (e ▸ hr)
    · obtain ⟨net', hupdate, -⟩ := h.update_of_ends hid hw hv hnode accepts (ends id rfl)
      exact ⟨_, hupdate⟩

theorem Regular.updateAll_mirrors (h : net.Regular) (m : net.Mirrors s held) {cs : List Change}
    (leads : s.Leads held cs held') :
    Arrives (net.updateAll cs) (fun net' => Took net net' ∧ net'.Mirrors s held') ∧
      ((∀ c ∈ cs, ∀ id, net.inputs[c.relation]? = some id → net.Ends id) →
        ∃ net', net.updateAll cs = .ok net') := by
  induction cs generalizing net held with
  | nil =>
    cases leads
    exact ⟨.ok ⟨.refl h, m⟩, fun _ => ⟨net, rfl⟩⟩
  | cons c rest ih =>
    obtain ⟨suits, leads⟩ := leads
    obtain ⟨first, ended⟩ := h.update_mirrors m suits
    refine ⟨first.bind fun p ⟨took, m₁⟩ => ?_, fun ends => ?_⟩
    · exact (ih took.regular m₁ leads).1.mono fun net' ⟨took', m'⟩ => ⟨took.trans took', m'⟩
    · obtain ⟨p, hp⟩ := ended (ends c List.mem_cons_self)
      obtain ⟨took, m₁⟩ := first.of_ok hp
      obtain ⟨net', hnet'⟩ := (ih took.regular m₁ leads).2 fun c' hc id hid =>
        (ends c' (List.mem_cons_of_mem _ hc) id (took.inputs ▸ hid)).of_bare_eq took.bare
      refine ⟨net', ?_⟩
      rw [Network.updateAll, hp]
      exact hnet'

end Network

theorem Schema.leads_insert (s : Schema) (held : Relation → Multiset Tuple) {r : Relation}
    {ts : List Tuple} (hw : ∀ t ∈ ts, t.length = r.arity)
    (hn : s.isUnique r = true → (held r + ↑ts).Nodup) :
    s.Leads held (ts.map fun t => ⟨r, ⟨.insert, t⟩⟩) (Function.update held r (held r + ↑ts)) := by
  induction ts generalizing held with
  | nil => exact (by simp : held = Function.update held r (held r + ↑([] : List Tuple)))
  | cons t rest ih =>
    have moved : held r + ↑(t :: rest) = (t ::ₘ held r) + (↑rest : Multiset Tuple) := by
      rw [← Multiset.cons_coe, Multiset.add_cons, Multiset.cons_add]
    refine ⟨Event.suits_insert.2 ⟨hw t List.mem_cons_self, fun hu ht => ?_⟩, ?_⟩
    · have := hn hu
      rw [moved, Multiset.cons_add, Multiset.nodup_cons] at this
      exact this.1 (Multiset.mem_add.2 (.inl ht))
    · have self : (Change.apply ⟨r, ⟨.insert, t⟩⟩ held) r = t ::ₘ held r := by
        rw [Change.apply, Function.update_self, Event.apply_insert]
      have := ih (Change.apply ⟨r, ⟨.insert, t⟩⟩ held)
        (fun u hu => hw u (List.mem_cons_of_mem _ hu)) fun hu => by
          rw [self, ← moved]
          exact hn hu
      rw [self, ← moved, Change.apply, Function.update_idem] at this
      exact this

namespace Network
variable {net net' : Network}

theorem Took.grows (t : Took net net') : Grows net net' := .of_bare_eq t.bare t.issues

theorem Regular.connect (h : net.Regular) {p m : NodeId} {v : Vertex}
    (hm : net.vertices[m]? = some v) (hv : v.node.isProduction = true)
    (hp : p < net.vertices.size) (hw : net.widthOf p = net.widthOf m) :
    ∃ net₁, Hooked net net₁ p m ∧ net₁.Regular ∧ net₁.issues = net.issues ∧
      Arrives (net.connect m p) (Onward net₁) ∧
      (net₁.Ends m → ∃ net', net.connect m p = .ok net') := by
  obtain ⟨net₁, x, same, hconnect⟩ := exists_connect (Array.getElem?_eq_some_iff.1 hm).1 hp hw
  have h₁ := h.hooked x hm hv hp hw
  obtain ⟨rows, hpull, hrows⟩ := h₁.pull (q := p) (x.size ▸ hp)
  have fed : .node m ∈ net₁.receiversOf p := by
    rw [x.receiversOf hp, if_pos rfl]
    exact List.mem_append.2 (.inr (List.mem_singleton.2 rfl))
  have feed : net.connect m p = net₁.feed m rows := by
    rw [hconnect, hpull]
    rfl
  refine ⟨net₁, x, h₁, same, feed ▸ h₁.feed fed hrows, fun ends => ?_⟩
  obtain ⟨net', hfeed, -⟩ := h₁.feed_of_ends fed ends hrows
  exact ⟨net', feed.trans hfeed⟩

/-- A new input mirrors a relation that is empty so far. -/
theorem Mirrors.pushed {net net' : Network} {schema : Schema}
    {held : Relation → Multiset Tuple} (h : net.Mirrors schema held) {r : Relation}
    (pu : Pushed net net' ⟨.input r (schema.isUnique r) ∅, [], [], r.arity⟩)
    (hin : ∀ r', net'.inputs[r']? =
      if r = r' then some net.vertices.size else net.inputs[r']?) :
    net'.Mirrors schema (Function.update held r 0) := by
  have given : net'.given = net.given := pu.given fun _ => Bag.toMultiset_empty
  intro r' id hid
  rw [hin] at hid
  split at hid
  · next e =>
    cases hid
    cases e
    exact ⟨⟨_, pu.fresh, rfl, rfl, rfl⟩, by rw [Function.update_self, given, given_size]⟩
  · next hne =>
    obtain ⟨hn, hgiven⟩ := h r' id hid
    refine ⟨hn.extends pu.extends, ?_⟩
    rw [Function.update_of_ne (Ne.symm hne), given, hgiven]

end Network

namespace Installed

/-- The network is regular, its inputs hold what the base relations hold, and its nodes show what
they are filed under. -/
structure Mounted (site : Site) (evaluators : String → Evaluator → Prop)
    (operators : String → Aggregator → Prop) (s : Installed) : Prop where
  regular : s.network.Regular
  inputs : s.network.Mirrors site.graph.schema fun r => ↑(site.graph.tuples r)
  productions : ∀ (q : String) (id : NodeId) (query : Query), site.productions[q]? = some id →
    site.catalog.queries[q]? = some query → ∃ ps, s.network.HasNode id (.production q ∅) ps query.arity
  nodes : ∀ (e : Algebra) (id : NodeId), s.nodes.get? (e.size, e) = some id →
    s.network.Shows evaluators operators site.productions e id

variable {site : Site} {evaluators : String → Evaluator → Prop}
  {operators : String → Aggregator → Prop} {s : Installed}

theorem Mounted.grows (h : s.Mounted site evaluators operators) {net : Network} (hr : net.Regular)
    (g : Network.Grows s.network net)
    (inputs : net.Mirrors site.graph.schema fun r => ↑(site.graph.tuples r)) :
    Mounted site evaluators operators { s with network := net } where
  regular := hr
  inputs := inputs
  productions q id query hq hc :=
    Network.HasNode.exists_keeps (h.productions q id query hq hc) g.extension.keeps
  nodes a id ha := (h.nodes a id ha).keeps g.extension.keeps (fun _ _ hx => hx) (fun _ _ ho => ho)
    fun _ _ hq => hq

theorem Mounted.gains (h : s.Mounted site evaluators operators) {net : Network}
    (g : Network.Gains s.network net) : Mounted site evaluators operators { s with network := net } :=
  h.grows g.regular g.toGrows fun r id hid => by
    rw [g.inputs] at hid
    obtain ⟨hn, hgiven⟩ := h.inputs r id hid
    exact ⟨hn.extends g.extension, g.given ▸ hgiven⟩

def mounting (site : Site) (evaluators : String → Evaluator → Prop)
    (operators : String → Aggregator → Prop) : Discipline site where
  good := Mounted site evaluators operators
  ext := Network.Grows
  refl := .refl
  renders net := net.Shows evaluators operators site.productions
  trans := Network.Grows.trans
  wide := Network.Shows.widthOf
  stays g hr := hr.keeps g.extension.keeps (fun _ _ hx => hx) (fun _ _ ho => ho) fun _ _ hq => hq
  nodes h ha := h.nodes _ _ ha
  file h hr := ⟨h.regular, h.inputs, h.productions, forall_file h.nodes hr⟩

theorem Mounted.meets (h : s.Mounted site evaluators operators)
    {r : Except Fault (Network × NodeId)} {make : Network → NodeId → Prop}
    (y : s.network.Supplies r make) :
    (mounting site evaluators operators).Meets s (s.make r) make := by
  obtain ⟨net, id, rfl, gains, made⟩ := y
  exact ⟨{ s with network := net }, id, rfl, h.gains gains, gains.toGrows, made⟩

/-- The input of a relation that has none yet is given what the relation holds. -/
theorem Mounted.installInput (h : s.Mounted site evaluators operators)
    (hg : ∀ r, ∀ t ∈ site.graph.tuples r, t.length = r.arity)
    (sets : ∀ r, site.graph.schema.isUnique r = true → (site.graph.tuples r).Nodup) (r : Relation) :
    (mounting site evaluators operators).Meets s (s.make (s.network.installInput site.graph r))
      fun net id => ∃ unique ps, net.HasNode id (.input r unique ∅) ps r.arity := by
  cases hr : s.network.inputs[r]? with
  | some id =>
    refine ⟨s, id, ?_, h, .refl _, _, _, (h.inputs r id hr).1⟩
    rw [Network.installInput, Network.inputNode?, hr, Network.addInput_of_some hr]
    rfl
  | none =>
    obtain ⟨pu, hid, hin⟩ :=
      Network.pushed_addInput hr r.arity (site.graph.schema.isUnique r)
    have issues : (s.network.addInput r r.arity (site.graph.schema.isUnique r)).1.issues =
        s.network.issues := by
      rw [Network.addInput, hr]
      rfl
    obtain ⟨net₁, hnet₁⟩ : ∃ net₁,
      net₁ = (s.network.addInput r r.arity (site.graph.schema.isUnique r)).1 := ⟨_, rfl⟩
    rw [← hnet₁] at pu hin issues
    have ad : s.network.Admits ⟨.input r (site.graph.schema.isUnique r) ∅, [], [], r.arity⟩ :=
      .root r.arity (fun side => by cases side <;> rfl) rfl
    have h₁ := h.regular.pushed ad (fun hf => by cases hf) pu fun t ht =>
      absurd ht (by rw [Bag.toMultiset_empty]; exact Multiset.notMem_zero t)
    have hself : net₁.inputs[r]? = some s.network.vertices.size := by rw [hin, if_pos rfl]
    have quiet : net₁.receiversOf s.network.vertices.size = [] := by
      rw [Network.receiversOf, pu.fresh]
      rfl
    have hnode : net₁.HasNode s.network.vertices.size
        (.input r (site.graph.schema.isUnique r) ∅) [] r.arity := ⟨_, pu.fresh, rfl, rfl, rfl⟩
    obtain ⟨held, hheld⟩ : ∃ held : Relation → Multiset Tuple, held = fun r' => ↑(site.graph.tuples r') :=
      ⟨_, rfl⟩
    have mirrors₁ : net₁.Mirrors site.graph.schema (Function.update held r 0) :=
      Network.Mirrors.pushed (hheld ▸ h.inputs) pu hin
    have self : Function.update held r 0 r + ↑(site.graph.tuples r) = held r := by
      rw [Function.update_self, zero_add, hheld]
    have leads := site.graph.schema.leads_insert (Function.update held r 0) (hg r) fun hu => by
      rw [self, hheld]
      exact Multiset.coe_nodup.2 (sets r hu)
    rw [self, Function.update_idem, Function.update_eq_self] at leads
    obtain ⟨arrives, ended⟩ := h₁.updateAll_mirrors mirrors₁ leads
    obtain ⟨net₂, hall⟩ := ended fun c hc id hid => by
      obtain ⟨t, -, rfl⟩ := List.mem_map.1 hc
      cases hself.symm.trans hid
      exact Network.ends_of_receiversOf_eq_nil hnode.widthOf.1 quiet
    obtain ⟨took, mirrors₂⟩ := arrives.of_ok hall
    have hcall := Network.installInput_of_none hr hid (hnet₁ ▸ hall)
    have grown : Network.Grows s.network net₂ := (pu.grows rfl issues).trans took.grows
    exact ⟨{ s with network := net₂ }, s.network.vertices.size, by rw [hcall]; rfl,
      h.grows took.regular grown (hheld ▸ mirrors₂), grown, _, _,
      hnode.extends (.of_bare_eq took.bare)⟩

theorem lays_mounting (hg : ∀ r, ∀ t ∈ site.graph.tuples r, t.length = r.arity)
    (sets : ∀ r, site.graph.schema.isUnique r = true → (site.graph.tuples r).Nodup)
    (he : ∀ (name : String) (x : Evaluator), site.catalog.evaluators[name]? = some x →
      evaluators name x)
    (ho : ∀ (name : String) (op : Aggregator), site.catalog.aggregators[name]? = some op →
      operators name op) : (mounting site evaluators operators).Lays evaluators operators where
  shows := .rfl
  evaluator := he
  operator := ho
  production h hid hq := h.productions _ _ _ hid hq
  constant h hw := h.meets (h.regular.addConstant hw)
  input r h := h.installInput hg sets r
  child h hp hf hprod hempty hfits :=
    h.meets (h.regular.addChild (Network.Shows.widthOf hp).1 hf hprod hempty hfits)
  pair make h hp hq hpm hsm hprim hsec hs hfits := h.meets (h.regular.pair make
    (Network.Shows.widthOf hp).1 (Network.Shows.widthOf hq).1 hpm hsm hprim hsec hs hfits)
  grouping op _ h hp hm hc :=
    h.meets (h.regular.addGrouping (Network.Shows.widthOf hp).1 hm op hc)

end Installed
end Motif
