import Motif.Network.Install
import Motif.Proofs.Network.Indexing

set_option autoImplicit false
namespace Motif

open Std (ExtTreeMap)

theorem Node.output_of_isFed {n : Node} (hf : n.isFed = true) (masks masks' : IndexId → Mask)
    (fed : Multiset Tuple) (view view' : Side → Multiset Tuple) :
    n.output masks fed view = n.output masks' fed view' := by
  cases n <;> first | rfl | cases hf

namespace Network

def Renders (net : Network) (site : Site) : Algebra → NodeId → Prop
  | .constant rows arity, id => net.HasNode id (.constant rows) [] arity
  | .input r, id => ∃ unique ps, net.HasNode id (.input r unique ∅) ps r.arity
  | .production q arity, id =>
    site.productions[q]? = some id ∧ ∃ ps, net.HasNode id (.production q ∅) ps arity
  | .trim e mask, id => ∃ p, net.Renders site e p ∧ net.HasNode id (.trim mask) [p] mask.arity
  | .constantFilter e column value, id =>
    ∃ p, net.Renders site e p ∧ net.HasNode id (.constantFilter column value) [p] e.arity
  | .equalityFilter e groups, id =>
    ∃ p, net.Renders site e p ∧ net.HasNode id (.equalityFilter groups) [p] e.arity
  | .inequalityFilter e left right, id =>
    ∃ p, net.Renders site e p ∧ net.HasNode id (.inequalityFilter left right) [p] e.arity
  | .expression e evaluator inputs mode, id => ∃ p x, site.catalog.evaluators[evaluator]? = some x ∧
    net.Renders site e p ∧ net.HasNode id (.expression { evaluator := x, inputs, mode }) [p]
      (Algebra.expression e evaluator inputs mode).arity
  | .join a pm b sm, id => ∃ p q, net.Renders site a p ∧ net.Renders site b q ∧
    net.HasPair id (.join · · sm.complement) p pm q sm (a.arity + sm.complement.arity)
  | .existence a pm b sm negative, id => ∃ p q, net.Renders site a p ∧ net.Renders site b q ∧
    net.HasPair id (.existence · · negative) p pm q sm a.arity
  | .outerJoin a pm b sm defaults, id => ∃ p q, net.Renders site a p ∧ net.Renders site b q ∧
    net.HasPair id (.outerJoin · · sm.complement defaults) p pm q sm (a.arity + sm.complement.arity)
  | .grouping e mask operator column, id => ∃ p op,
    site.catalog.aggregators[operator]? = some op ∧ net.Renders site e p ∧
      net.HasGrouping id p mask op column
  | .closure e, id => ∃ p, net.Renders site e p ∧ net.HasNode id (.closure {}) [p] 2

def Shows (net : Network) (evaluators : String → Evaluator → Prop)
    (operators : String → Aggregator → Prop) (productions : ExtTreeMap String NodeId) :
    Algebra → NodeId → Prop
  | .constant rows arity, id => net.HasNode id (.constant rows) [] arity
  | .input r, id => ∃ unique ps, net.HasNode id (.input r unique ∅) ps r.arity
  | .production q arity, id =>
    productions[q]? = some id ∧ ∃ ps, net.HasNode id (.production q ∅) ps arity
  | .trim e mask, id => ∃ p, net.Shows evaluators operators productions e p ∧
    net.HasNode id (.trim mask) [p] mask.arity
  | .constantFilter e column value, id => ∃ p, net.Shows evaluators operators productions e p ∧
    net.HasNode id (.constantFilter column value) [p] e.arity
  | .equalityFilter e groups, id => ∃ p, net.Shows evaluators operators productions e p ∧
    net.HasNode id (.equalityFilter groups) [p] e.arity
  | .inequalityFilter e left right, id => ∃ p, net.Shows evaluators operators productions e p ∧
    net.HasNode id (.inequalityFilter left right) [p] e.arity
  | .expression e evaluator inputs mode, id => ∃ p x, evaluators evaluator x ∧
    net.Shows evaluators operators productions e p ∧
      net.HasNode id (.expression { evaluator := x, inputs, mode }) [p]
        (Algebra.expression e evaluator inputs mode).arity
  | .join a pm b sm, id => ∃ p q, net.Shows evaluators operators productions a p ∧
    net.Shows evaluators operators productions b q ∧
      net.HasPair id (.join · · sm.complement) p pm q sm (a.arity + sm.complement.arity)
  | .existence a pm b sm negative, id => ∃ p q, net.Shows evaluators operators productions a p ∧
    net.Shows evaluators operators productions b q ∧
      net.HasPair id (.existence · · negative) p pm q sm a.arity
  | .outerJoin a pm b sm defaults, id => ∃ p q, net.Shows evaluators operators productions a p ∧
    net.Shows evaluators operators productions b q ∧
      net.HasPair id (.outerJoin · · sm.complement defaults) p pm q sm
        (a.arity + sm.complement.arity)
  | .grouping e mask operator column, id => ∃ p op, operators operator op ∧
    net.Shows evaluators operators productions e p ∧ net.HasGrouping id p mask op column
  | .closure e, id => ∃ p, net.Shows evaluators operators productions e p ∧
    net.HasNode id (.closure {}) [p] 2

theorem renders_iff_shows {net : Network} {site : Site} {e : Algebra} {id : NodeId} :
    net.Renders site e id ↔ net.Shows (fun name x => site.catalog.evaluators[name]? = some x)
      (fun name op => site.catalog.aggregators[name]? = some op) site.productions e id := by
  induction e generalizing id with
  | constant _ _ | input _ | production _ _ => rfl
  | trim e _ ih | constantFilter e _ _ ih | equalityFilter e _ ih | inequalityFilter e _ _ ih
  | closure e ih => simp only [Renders, Shows, ih]
  | expression e _ _ _ ih => simp only [Renders, Shows, ih]
  | join a _ b _ iha ihb | existence a _ b _ _ iha ihb | outerJoin a _ b _ _ iha ihb =>
    simp only [Renders, Shows, iha, ihb]
  | grouping e _ _ _ ih => simp only [Renders, Shows, ih]

variable {net net' : Network} {site site' : Site}

theorem HasPair.keeps {id : NodeId} {make : IndexId → IndexId → Node} {p q : NodeId} {pm sm : Mask}
    {arity : Nat} (h : net.HasPair id make p pm q sm arity) (k : Keeps net.bare net'.bare)
    (hm : ∀ I J, (make I J).isProduction = false) : net'.HasPair id make p pm q sm arity := by
  obtain ⟨I, J, hn, hI, hJ⟩ := h
  exact ⟨I, J, hn.keeps k (hm I J), hI.keeps k, hJ.keeps k⟩

theorem HasGrouping.keeps {id p : NodeId} {mask : Mask} {op : Aggregator} {column : Option Nat}
    (h : net.HasGrouping id p mask op column) (k : Keeps net.bare net'.bare) :
    net'.HasGrouping id p mask op column := by
  obtain ⟨I, hn, hI⟩ := h
  exact ⟨I, hn.keeps k rfl, hI.keeps k⟩

theorem HasNode.exists_keeps {id : NodeId} {n : Node} {arity : Nat}
    (h : ∃ ps, net.HasNode id n ps arity) (k : Keeps net.bare net'.bare) :
    ∃ ps, net'.HasNode id n ps arity := by
  obtain ⟨ps, v, hv, hn, -, ha⟩ := h
  obtain ⟨u, hu, hn', ha', -⟩ := k.vertex id _ (vertex_bare hv)
  obtain ⟨v', hv', rfl⟩ := vertices_bare_eq_some.1 hu
  exact ⟨v'.parents, v', hv', hn'.trans hn, rfl, ha'.trans ha⟩

section shows
variable {evaluators evaluators' : String → Evaluator → Prop}
  {operators operators' : String → Aggregator → Prop} {productions productions' : ExtTreeMap String NodeId}

/-- A node goes on showing its expression when the network grows, or when more is allowed. -/
theorem Shows.keeps {e : Algebra} {id : NodeId} (h : net.Shows evaluators operators productions e id)
    (k : Keeps net.bare net'.bare) (he : ∀ name x, evaluators name x → evaluators' name x)
    (ho : ∀ name op, operators name op → operators' name op)
    (hp : ∀ (q : String) (id : NodeId), productions[q]? = some id → productions'[q]? = some id) :
    net'.Shows evaluators' operators' productions' e id := by
  induction e generalizing id with
  | constant rows arity => exact HasNode.keeps h k rfl
  | input r =>
    obtain ⟨unique, hn⟩ := h
    exact ⟨unique, HasNode.exists_keeps hn k⟩
  | production q arity => exact ⟨hp q id h.1, HasNode.exists_keeps h.2 k⟩
  | trim e _ ih | constantFilter e _ _ ih | equalityFilter e _ ih | inequalityFilter e _ _ ih
  | closure e ih =>
    obtain ⟨p, hr, hn⟩ := h
    exact ⟨p, ih hr, hn.keeps k rfl⟩
  | expression e _ _ _ ih =>
    obtain ⟨p, x, hx, hr, hn⟩ := h
    exact ⟨p, x, he _ x hx, ih hr, hn.keeps k rfl⟩
  | join a _ b _ iha ihb | existence a _ b _ _ iha ihb | outerJoin a _ b _ _ iha ihb =>
    obtain ⟨p, q, ha, hb, hn⟩ := h
    exact ⟨p, q, iha ha, ihb hb, hn.keeps k fun _ _ => rfl⟩
  | grouping e _ _ _ ih =>
    obtain ⟨p, op, hop, hr, hn⟩ := h
    exact ⟨p, op, ho _ op hop, ih hr, hn.keeps k⟩

theorem Renders.keeps {e : Algebra} {id : NodeId} (h : net.Renders site e id)
    (k : Keeps net.bare net'.bare) (hc : site'.catalog = site.catalog)
    (hp : ∀ (q : String) (id : NodeId), site.productions[q]? = some id →
      site'.productions[q]? = some id) : net'.Renders site' e id :=
  renders_iff_shows.2 ((renders_iff_shows.1 h).keeps k (fun _ _ hx => hc ▸ hx)
    (fun _ _ hop => hc ▸ hop) hp)

theorem HasNode.widthOf {id : NodeId} {n : Node} {ps : List NodeId} {arity : Nat}
    (h : net.HasNode id n ps arity) : id < net.vertices.size ∧ net.widthOf id = arity := by
  obtain ⟨v, hv, -, -, rfl⟩ := h
  refine ⟨(Array.getElem?_eq_some_iff.1 hv).1, ?_⟩
  rw [Network.widthOf, hv]
  rfl

theorem Shows.widthOf {e : Algebra} {id : NodeId}
    (h : net.Shows evaluators operators productions e id) :
    id < net.vertices.size ∧ net.widthOf id = e.arity := by
  cases e with
  | constant rows arity => exact HasNode.widthOf h
  | input r =>
    obtain ⟨unique, ps, hn⟩ := h
    exact hn.widthOf
  | production q arity =>
    obtain ⟨-, ps, hn⟩ := h
    exact hn.widthOf
  | trim e _ | constantFilter e _ _ | equalityFilter e _ | inequalityFilter e _ _ | closure e =>
    obtain ⟨p, -, hn⟩ := h
    exact hn.widthOf
  | expression e _ _ _ =>
    obtain ⟨p, x, -, -, hn⟩ := h
    exact hn.widthOf
  | join a _ b _ | existence a _ b _ _ | outerJoin a _ b _ _ =>
    obtain ⟨p, q, -, -, I, J, hn, -⟩ := h
    exact hn.widthOf
  | grouping e _ _ _ =>
    obtain ⟨p, op, -, -, I, hn, -⟩ := h
    exact hn.widthOf

/-- Only a call shows as a production, and only a computation as one. -/
theorem Shows.exists_node {e : Algebra} {id : NodeId}
    (h : net.Shows evaluators operators productions e id) :
    ∃ n ps arity, net.HasNode id n ps arity ∧
      (n.isProduction = true → ∃ name arity, e = .production name arity) ∧
      ∀ x, n = .expression x → x.mode = .bind → ∃ e' evaluator inputs,
        e = .expression e' evaluator inputs .bind := by
  cases e with
  | constant _ _ => exact ⟨_, _, _, h, nofun, nofun⟩
  | input r =>
    obtain ⟨unique, ps, hn⟩ := h
    exact ⟨_, _, _, hn, nofun, nofun⟩
  | production name arity =>
    obtain ⟨-, ps, hn⟩ := h
    exact ⟨_, _, _, hn, fun _ => ⟨name, arity, rfl⟩, nofun⟩
  | trim e _ | constantFilter e _ _ | equalityFilter e _ | inequalityFilter e _ _ | closure e =>
    obtain ⟨p, -, hn⟩ := h
    exact ⟨_, _, _, hn, nofun, nofun⟩
  | expression e evaluator inputs mode =>
    obtain ⟨p, x, -, -, hn⟩ := h
    refine ⟨_, _, _, hn, nofun, fun y hy hm => ⟨e, evaluator, inputs, ?_⟩⟩
    cases hy
    cases hm
    rfl
  | join a _ b _ | existence a _ b _ _ | outerJoin a _ b _ _ =>
    obtain ⟨p, q, -, -, I, J, hn, -⟩ := h
    exact ⟨_, _, _, hn, nofun, nofun⟩
  | grouping e _ _ _ =>
    obtain ⟨p, op, -, -, I, hn, -⟩ := h
    exact ⟨_, _, _, hn, nofun, nofun⟩

theorem Shows.eq_production {e : Algebra} {id : NodeId}
    (h : net.Shows evaluators operators productions e id) {v : Vertex}
    (hv : net.vertices[id]? = some v) (hp : v.node.isProduction = true) :
    ∃ name arity, e = .production name arity := by
  obtain ⟨n, ps, arity, ⟨u, hu, hb, -, -⟩, prod, -⟩ := h.exists_node
  cases hv.symm.trans hu
  exact prod ((Node.isProduction_of_bare_eq hb).symm.trans hp)

theorem Shows.eq_bind {e : Algebra} {id : NodeId}
    (h : net.Shows evaluators operators productions e id) {v : Vertex}
    (hv : net.vertices[id]? = some v) {x : Expression} (hx : v.node = .expression x)
    (hm : x.mode = .bind) : ∃ e' evaluator inputs, e = .expression e' evaluator inputs .bind := by
  obtain ⟨n, ps, arity, ⟨u, hu, hb, -, -⟩, -, bind⟩ := h.exists_node
  cases hv.symm.trans hu
  rw [hx] at hb
  cases n with
  | expression y =>
    refine bind y rfl ?_
    rw [← hm]
    exact (congrArg Expression.mode (Node.expression.inj hb)).symm
  | _ => cases hb

theorem Shows.productions_eq {e : Algebra} {id : NodeId} {q : String} {arity : Nat}
    (h : net.Shows evaluators operators productions e id)
    (hn : ∃ ps, net.HasNode id (.production q ∅) ps arity) : productions[q]? = some id := by
  obtain ⟨ps, v, hv, hb, -⟩ := hn
  obtain ⟨name, arity, rfl⟩ := h.eq_production hv ((Node.isProduction_of_bare_eq hb).trans rfl)
  obtain ⟨hid, ps', u, hu, hb', -⟩ := h
  cases hv.symm.trans hu
  cases hb.symm.trans hb'
  exact hid

end shows

theorem Renders.widthOf {e : Algebra} {id : NodeId} (h : net.Renders site e id) :
    id < net.vertices.size ∧ net.widthOf id = e.arity := (renders_iff_shows.1 h).widthOf

theorem Keeps.widthOf_eq (k : Keeps net.bare net'.bare) {id : NodeId} {v : Vertex}
    (hv : net.vertices[id]? = some v) : net'.widthOf id = net.widthOf id := by
  obtain ⟨u, hu, -, ha, -⟩ := k.vertex id _ (vertex_bare hv)
  rw [← widthOf_bare, Network.widthOf, hu, Network.widthOf, hv]
  exact ha

theorem installInput_of_some (site : Site) (w : net.Wired) {r : Relation} {id : NodeId}
    (hr : net.inputs[r]? = some id) (hw : net.widthOf id = r.arity) (g : Graph) :
    net.installInput g r = .ok (net, id) ∧ net.Renders site (.input r) id := by
  constructor
  · rw [Network.installInput, Network.inputNode?, hr, Network.addInput_of_some hr]
    rfl
  · obtain ⟨v, unique, memory, hv, hn⟩ := (w.inputs r id).1 hr
    refine ⟨unique, v.parents, v, hv, by rw [hn]; rfl, rfl, ?_⟩
    rw [← hw, Network.widthOf, hv]
    rfl

theorem installInput_of_none {net' : Network} {g : Graph} {r : Relation} {id : NodeId}
    (hr : net.inputs[r]? = none) (hid : (net.addInput r r.arity (g.schema.isUnique r)).2 = id)
    (hall : (net.addInput r r.arity (g.schema.isUnique r)).1.updateAll
      ((g.tuples r).map fun t => ⟨r, ⟨.insert, t⟩⟩) = .ok net') :
    net.installInput g r = .ok (net', id) := by
  rw [installInput, inputNode?, hr]
  simp only [Option.isNone_none, if_true, hid, hall]
  rfl

end Network

theorem Installed.forall_file {s : Installed} {R : Algebra → NodeId → Prop} {e : Algebra} {id : NodeId}
    (h : ∀ (a : Algebra) (i : NodeId), s.nodes.get? (a.size, a) = some i → R a i) (hr : R e id)
    (a : Algebra) (i : NodeId) (ha : (s.nodes.set (e.size, e) id).get? (a.size, a) = some i) :
    R a i := by
  rw [Table.get?_set] at ha
  split at ha
  · next hk =>
    cases ha
    obtain rfl : e = a := congrArg Prod.snd hk
    exact hr
  · exact h a i ha

def Site.Calls (site : Site) (q : String) (arity : Nat) : Prop :=
  (∃ id, site.productions[q]? = some id) ∧
    ∃ query, site.catalog.queries[q]? = some query ∧ query.arity = arity

/-- What requests for nodes keep of what is installed, and how they may make a network grow. What is
filed stands for its expression, as `renders` says. -/
structure Discipline (site : Site) where
  good : Installed → Prop
  ext : Network → Network → Prop
  renders : Network → Algebra → NodeId → Prop
  refl : ∀ net, ext net net
  trans : ∀ {net net' net''}, ext net net' → ext net' net'' → ext net net''
  wide : ∀ {net : Network} {e : Algebra} {id : NodeId}, renders net e id →
    id < net.vertices.size ∧ net.widthOf id = e.arity
  stays : ∀ {net net' : Network} {e : Algebra} {id : NodeId}, ext net net' → renders net e id →
    renders net' e id
  nodes : ∀ {s : Installed} {e : Algebra} {id : NodeId}, good s →
    s.nodes.get? (e.size, e) = some id → renders s.network e id
  file : ∀ {s : Installed} {e : Algebra} {id : NodeId}, good s → renders s.network e id →
    good { s with nodes := s.nodes.set (e.size, e) id }

namespace Discipline
variable {site : Site} (D : Discipline site) {s s' : Installed}

def Meets (s : Installed) (r : Except Failure (Installed × NodeId))
    (make : Network → NodeId → Prop) : Prop :=
  ∃ s' id, r = .ok (s', id) ∧ D.good s' ∧ D.ext s.network s'.network ∧ make s'.network id

variable {D}

theorem Meets.mono {r : Except Failure (Installed × NodeId)} {make make' : Network → NodeId → Prop}
    (i : D.Meets s r make) (hm : ∀ {net id}, make net id → make' net id) : D.Meets s r make' := by
  obtain ⟨s', id, hr, h, e, hn⟩ := i
  exact ⟨s', id, hr, h, e, hm hn⟩

theorem Meets.behind {r : Except Failure (Installed × NodeId)} {make make' : Network → NodeId → Prop}
    (i : D.Meets s' r make) (e : D.ext s.network s'.network)
    (hm : ∀ {net id}, D.ext s'.network net → make net id → make' net id) :
    D.Meets s r make' := by
  obtain ⟨s₂, id, hr, h₂, e₂, hn⟩ := i
  exact ⟨s₂, id, hr, h₂, D.trans e e₂, hm e₂ hn⟩

theorem remember (h : D.good s) {e : Algebra}
    {build : Installed → Except Failure (Installed × NodeId)}
    (hb : D.Meets s (build s) fun net id => D.renders net e id) :
    D.Meets s (s.remember e build) fun net id => D.renders net e id := by
  cases hold : s.nodes.get? (e.size, e) with
  | some id =>
    refine ⟨s, id, ?_, h, D.refl _, D.nodes h hold⟩
    simp only [Installed.remember, hold]
  | none =>
    obtain ⟨s', id, hbuild, h', ext, hr⟩ := hb
    refine ⟨{ s' with nodes := s'.nodes.set (e.size, e) id }, id, ?_, D.file h' hr, ext, hr⟩
    simp only [Installed.remember, hold, hbuild]
    rfl

theorem child (h : D.good s) {a e : Algebra} {made : Network → NodeId → NodeId → Prop}
    (add : Network → NodeId → Except Fault (Network × NodeId))
    (he : D.Meets s (s.install site e) fun net id => D.renders net e id)
    (ha : ∀ {s : Installed} {p}, D.good s → D.renders s.network e p →
      s.network.widthOf p = e.arity → D.Meets s (s.make (add s.network p)) fun net id => made net p id)
    (hr : ∀ {net : Network} {p id}, D.renders net e p → made net p id → D.renders net a id) :
    D.Meets s
      (s.remember a fun s => do
        let (s, p) ← s.install site e
        s.make (add s.network p))
      fun net id => D.renders net a id := by
  refine remember h ?_
  obtain ⟨s₁, p, h₁, hs₁, ext, hp⟩ := he
  simp only [h₁]
  exact (ha hs₁ hp (D.wide hp).2).behind ext fun k hn => hr (D.stays k hp) hn

theorem pair (h : D.good s) {a e₁ e₂ : Algebra} {made : Network → NodeId → NodeId → NodeId → Prop}
    (add : Network → NodeId → NodeId → Except Fault (Network × NodeId))
    (he₁ : D.Meets s (s.install site e₁) fun net id => D.renders net e₁ id)
    (he₂ : ∀ {s}, D.good s → D.Meets s (s.install site e₂) fun net id => D.renders net e₂ id)
    (ha : ∀ {s : Installed} {p q}, D.good s → D.renders s.network e₁ p →
      D.renders s.network e₂ q → s.network.widthOf p = e₁.arity → s.network.widthOf q = e₂.arity →
      D.Meets s (s.make (add s.network p q)) fun net id => made net p q id)
    (hr : ∀ {net : Network} {p q id}, D.renders net e₁ p → D.renders net e₂ q →
      made net p q id → D.renders net a id) :
    D.Meets s
      (s.remember a fun s => do
        let (s, p) ← s.install site e₁
        let (s, q) ← s.install site e₂
        s.make (add s.network p q))
      fun net id => D.renders net a id := by
  refine remember h ?_
  obtain ⟨s₁, p, h₁, hs₁, ext₁, hp⟩ := he₁
  obtain ⟨s₂, q, h₂, hs₂, ext₂, hq⟩ := he₂ hs₁
  replace hp := D.stays ext₂ hp
  simp only [h₁, bind, Except.bind, h₂]
  exact (ha hs₂ hp hq (D.wide hp).2 (D.wide hq).2).behind (D.trans ext₁ ext₂) fun k hn =>
    hr (D.stays k hp) (D.stays k hq) hn

end Discipline
end Motif
