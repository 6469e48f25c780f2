import Motif.Proofs.Algebra.Positive
import Motif.Proofs.Network.Additions
import Motif.Proofs.Network.Renders

set_option autoImplicit false
namespace Motif

open Std (ExtTreeMap)

namespace Network

variable {net net' : Network} {site site' : Site} {out : NodeId → Multiset Tuple}

theorem HasNode.isPositive {id : NodeId} {n : Node} {ps : List NodeId} {arity : Nat}
    (h : net.HasNode id n ps arity) (pos : net.Positive) : n.isPositive = true := by
  obtain ⟨v, hv, hbare, -⟩ := h
  rw [← Node.isPositive_bare, ← hbare, Node.isPositive_bare]
  exact pos.nodes id v hv

section value

variable {base val : NodeId → Multiset Tuple} {id p : NodeId} {n : Node} {arity : Nat}
  {F : Multiset Tuple}

theorem HasNode.mem_of_mem_output (h : net.HasNode id n [p] arity) (masks : IndexId → Mask)
    (view : Side → Multiset Tuple) {v : Vertex} (hv : net.vertices[id]? = some v)
    (hf : n.isFed = true) (hp : n.isPositive = true) (hF : ∀ t ∈ val p, t ∈ F) {t : Tuple}
    (ht : t ∈ v.node.output net.maskOf (fedFrom base val id v) (net.viewBy val v)) :
    t ∈ n.output masks F view := by
  obtain ⟨v', hv', hbare, hpar, -⟩ := h
  cases hv.symm.trans hv'
  rw [Node.output_of_bare_eq hbare, Node.output_of_isFed hf _ masks _ _ view] at ht
  refine Node.output_mono hp (fun u hu => hF u ?_) (fun _ _ hu => hu) ht
  rw [mem_fedFrom ((Node.isFed_of_bare_eq hbare).trans hf), hpar] at hu
  simpa using hu

theorem HasNode.mem_out (h : net.HasNode id n [p] arity) (masks : IndexId → Mask)
    (view : Side → Multiset Tuple) (hc : net.Closed base (supports out)) (hf : n.isFed = true)
    (hp : n.isPositive = true) (hF : ∀ t ∈ F, t ∈ out p) {t : Tuple}
    (ht : t ∈ n.output masks F view) : t ∈ out id := by
  obtain ⟨v, hv, hbare, hpar, -⟩ := h
  refine hc id v hv out (fun _ _ hm => hm) t ?_
  rw [Node.output_of_bare_eq hbare, Node.output_of_isFed hf _ masks _ _ view]
  refine Node.output_mono hp (fun u hu => ?_) (fun _ _ hu => hu) ht
  rw [mem_fedFrom ((Node.isFed_of_bare_eq hbare).trans hf), hpar]
  exact ⟨p, by simp, hF u hu⟩

variable {q : NodeId} {pm sm : Mask} {P S : Multiset Tuple}

theorem HasPair.mem_of_mem_output (h : net.HasPair id (.join · · sm.complement) p pm q sm arity)
    {v : Vertex} (hv : net.vertices[id]? = some v) (hP : ∀ t ∈ val p, t ∈ P)
    (hS : ∀ t ∈ val q, t ∈ S) {t : Tuple}
    (ht : t ∈ v.node.output net.maskOf (fedFrom base val id v) (net.viewBy val v)) :
    t ∈ naturalJoin pm sm sm.complement P S := by
  obtain ⟨I, J, ⟨v', hv', hbare, -⟩, ⟨a, ha, rfl, rfl⟩, ⟨b, hb, rfl, rfl⟩⟩ := h
  cases hv.symm.trans hv'
  rw [Node.output_of_bare_eq hbare] at ht
  obtain ⟨x, hx, y, hy, hs, rfl⟩ := mem_naturalJoin.1 ht
  have source := Node.source_of_bare_eq hbare
  rw [viewBy_of_source (source .primary), parentOf_eq ha] at hx
  rw [viewBy_of_source (source .secondary), parentOf_eq hb] at hy
  rw [maskOf_eq ha, maskOf_eq hb] at hs
  exact mem_naturalJoin.2 ⟨x, hP x hx, y, hS y hy, hs, rfl⟩

theorem HasPair.mem_out (h : net.HasPair id (.join · · sm.complement) p pm q sm arity)
    (hc : net.Closed base (supports out)) (hP : ∀ t ∈ P, t ∈ out p) (hS : ∀ t ∈ S, t ∈ out q)
    {t : Tuple} (ht : t ∈ naturalJoin pm sm sm.complement P S) : t ∈ out id := by
  obtain ⟨I, J, ⟨v, hv, hbare, -⟩, ⟨a, ha, rfl, rfl⟩, ⟨b, hb, rfl, rfl⟩⟩ := h
  refine hc id v hv out (fun _ _ hm => hm) t ?_
  rw [Node.output_of_bare_eq hbare]
  obtain ⟨x, hx, y, hy, hs, rfl⟩ := mem_naturalJoin.1 ht
  have source := Node.source_of_bare_eq hbare
  refine mem_naturalJoin.2 ⟨x, ?_, y, ?_, by rwa [maskOf_eq ha, maskOf_eq hb], rfl⟩
  · rw [viewBy_of_source (source .primary), parentOf_eq ha]
    exact hP x hx
  · rw [viewBy_of_source (source .secondary), parentOf_eq hb]
    exact hS y hy

variable {f : Facts site.catalog}

/-- What an expression stands for its node has put out, if the inputs and the productions have put out
what it reads. -/
theorem Renders.mem_out {e : Algebra} (h : net.Renders site e id) (pos : net.Positive)
    (hc : net.Closed base (supports out))
    (holds : ∀ (r : Relation) (id : NodeId) (unique : Bool) (ps : List NodeId),
      net.HasNode id (.input r unique ∅) ps r.arity → ∀ t ∈ f.holds r, t ∈ base id)
    (found : ∀ (q : String) (id : NodeId), site.productions[q]? = some id →
      ∀ t ∈ f.found q, t ∈ out id) : ∀ t ∈ e.value f, t ∈ out id := by
  induction e generalizing id with
  | constant rows arity =>
    intro t ht
    obtain ⟨v, hv, hbare, -⟩ := h
    refine hc id v hv out (fun _ _ hm => hm) t ?_
    rw [Node.output_of_bare_eq hbare]
    exact ht
  | input r =>
    intro t ht
    obtain ⟨unique, ps, hn⟩ := h
    have hb := holds r id unique ps hn t ht
    obtain ⟨v, hv, hbare, -⟩ := hn
    refine hc id v hv out (fun _ _ hm => hm) t ?_
    rw [Node.output_of_bare_eq hbare, fedFrom, Node.isFed_of_bare_eq hbare]
    exact hb
  | production q arity => exact found q id h.1
  | trim e _ ih | constantFilter e _ _ ih | equalityFilter e _ ih | inequalityFilter e _ _ ih
  | closure e ih =>
    obtain ⟨p, hr, hn⟩ := h
    exact fun t => hn.mem_out net.maskOf (fun _ => 0) hc rfl rfl (ih hr)
  | expression e evaluator inputs mode ih =>
    obtain ⟨p, x, hx, hr, hn⟩ := h
    intro t ht
    rw [Algebra.value, hx] at ht
    exact hn.mem_out net.maskOf (fun _ => 0) hc rfl (hn.isPositive pos) (ih hr) ht
  | join a pm b sm iha ihb =>
    obtain ⟨p, q, ha, hb, hn⟩ := h
    exact fun t => hn.mem_out hc (iha ha) (ihb hb)
  | existence | outerJoin =>
    obtain ⟨p, q, -, -, I, J, hn, -⟩ := h
    cases hn.isPositive pos
  | grouping =>
    obtain ⟨p, op, -, -, I, hn, -⟩ := h
    cases hn.isPositive pos

def rendered (net : Network) (site : Site) (f : Facts site.catalog) (id : NodeId) : Set Tuple :=
  {t | ∀ e, net.Renders site e id → t ∈ e.value f}

/-- What the expressions stand for is closed, if what the bodies of a query stand for is among its
matches. -/
theorem closed_rendered (w : net.Wired) (pos : net.Positive)
    (holds : ∀ (r : Relation) (id : NodeId), net.inputs[r]? = some id →
      ∀ t ∈ base id, t ∈ f.holds r)
    (found : ∀ (q : String) (id : NodeId) (v : Vertex), site.productions[q]? = some id →
      net.vertices[id]? = some v → ∀ p ∈ v.parents, ∃ e, net.Renders site e p ∧
        ∀ t ∈ e.value f, t ∈ f.found q) : net.Closed base (net.rendered site f) := by
  intro id v hv val hval t ht e he
  have below : ∀ {e p}, net.Renders site e p → ∀ u ∈ val p, u ∈ e.value f :=
    fun he u hu => hval _ u hu _ he
  cases e with
  | constant rows arity =>
    obtain ⟨v', hv', hbare, -⟩ := he
    cases hv.symm.trans hv'
    rw [Node.output_of_bare_eq hbare] at ht
    exact ht
  | input r =>
    obtain ⟨unique, ps, v', hv', hbare, -⟩ := he
    cases hv.symm.trans hv'
    rw [Node.output_of_bare_eq hbare, fedFrom, Node.isFed_of_bare_eq hbare] at ht
    obtain ⟨b, memory, hn⟩ := Node.exists_input_of_bare_eq hbare ⟨unique, ∅, rfl⟩
    exact holds r id ((w.inputs r id).2 ⟨v, b, memory, hv, hn⟩) t ht
  | production q arity =>
    obtain ⟨hq, ps, v', hv', hbare, -⟩ := he
    cases hv.symm.trans hv'
    rw [Node.output_of_bare_eq hbare] at ht
    replace ht : t ∈ fedFrom base val id v := Multiset.mem_dedup.1 ht
    obtain ⟨p, hp, hm⟩ := (mem_fedFrom (Node.isFed_of_bare_eq hbare)).1 ht
    obtain ⟨e, he, hle⟩ := found q id v hq hv p hp
    exact hle t (below he t hm)
  | trim e _ | constantFilter e _ _ | equalityFilter e _ | inequalityFilter e _ _ | closure e =>
    obtain ⟨p, hr, hn⟩ := he
    exact hn.mem_of_mem_output net.maskOf (fun _ => 0) hv rfl rfl (below hr) ht
  | expression e evaluator inputs mode =>
    obtain ⟨p, x, hx, hr, hn⟩ := he
    rw [Algebra.value, hx]
    exact hn.mem_of_mem_output net.maskOf (fun _ => 0) hv rfl (hn.isPositive pos) (below hr) ht
  | join a pm b sm =>
    obtain ⟨p, q, ha, hb, hn⟩ := he
    exact hn.mem_of_mem_output hv (below ha) (below hb) ht
  | existence | outerJoin =>
    obtain ⟨p, q, -, -, I, J, hn, -⟩ := he
    cases hn.isPositive pos
  | grouping =>
    obtain ⟨p, op, -, -, I, hn, -⟩ := he
    cases hn.isPositive pos

end value

end Network

namespace Installed

structure Sound (site : Site) (s : Installed) : Prop where
  saturated : ∃ out, s.network.Saturated out
  given : ∀ (r : Relation) (id : NodeId), s.network.inputs[r]? = some id →
    s.network.widthOf id = r.arity ∧ ∀ t, t ∈ s.network.given id ↔ t ∈ site.graph.tuples r
  productions : ∀ (q : String) (id : NodeId) (query : Query), site.productions[q]? = some id →
    site.catalog.queries[q]? = some query → ∃ ps, s.network.HasNode id (.production q ∅) ps query.arity
  nodes : ∀ (e : Algebra) (id : NodeId), s.nodes.get? (e.size, e) = some id →
    s.network.Renders site e id

variable {site : Site} {s s' : Installed}

theorem Sound.keeps (h : s.Sound site) {net : Network} (hs : ∃ out, net.Saturated out)
    (k : Network.Keeps s.network.bare net.bare) (hg : ∀ (r : Relation) (id : NodeId),
      net.inputs[r]? = some id →
        net.widthOf id = r.arity ∧ ∀ t, t ∈ net.given id ↔ t ∈ site.graph.tuples r) :
    Sound site { s with network := net } where
  saturated := hs
  given := hg
  productions q id query hq hc := Network.HasNode.exists_keeps (h.productions q id query hq hc) k
  nodes a id ha := (h.nodes a id ha).keeps k rfl fun _ _ hq => hq

theorem Sound.given_of_eq (h : s.Sound site) {net : Network}
    (k : Network.Keeps s.network.bare net.bare) (hi : net.inputs = s.network.inputs)
    (hg : net.given = s.network.given) (r : Relation) (id : NodeId) (hid : net.inputs[r]? = some id) :
    net.widthOf id = r.arity ∧ ∀ t, t ∈ net.given id ↔ t ∈ site.graph.tuples r := by
  rw [hi] at hid
  obtain ⟨hw, hgiven⟩ := h.given r id hid
  rw [hg]
  refine ⟨?_, hgiven⟩
  obtain ⟨out, hs⟩ := h.saturated
  obtain ⟨v, -, -, hv, -⟩ := (hs.wired.inputs r id).1 hid
  rw [k.widthOf_eq hv, hw]

def soundness (site : Site) : Discipline site where
  good := Sound site
  ext := Network.Extends
  refl _ := .of_bare_eq rfl
  renders net := net.Renders site
  trans := Network.Extends.trans
  wide := Network.Renders.widthOf
  stays e hr := hr.keeps e.keeps rfl fun _ _ hq => hq
  nodes h ha := h.nodes _ _ ha
  file h hr := ⟨h.saturated, h.given, h.productions, forall_file h.nodes hr⟩

theorem Sound.meets (h : s.Sound site) {r : Except Fault (Network × NodeId)}
    {make : Network → NodeId → Prop} (a : Network.Saturated.Adds s.network r make) :
    (soundness site).Meets s (s.make r) make := by
  obtain ⟨net, id, rfl, e, hm⟩ := a
  exact ⟨{ s with network := net }, id, rfl, h.keeps e.saturated e.extension.keeps
    (h.given_of_eq e.extension.keeps e.inputs e.given), e.extension, hm⟩

theorem Sound.installInput (h : s.Sound site)
    (hg : ∀ r, ∀ t ∈ site.graph.tuples r, t.length = r.arity) (r : Relation) :
    (soundness site).Meets s (s.make (s.network.installInput site.graph r)) fun net id =>
      net.Renders site (.input r) id := by
  obtain ⟨out, hs⟩ := h.saturated
  cases hr : s.network.inputs[r]? with
  | some id =>
    obtain ⟨hnet, renders⟩ := Network.installInput_of_some site hs.wired hr (h.given r id hr).1
      site.graph
    exact ⟨s, id, by rw [hnet]; rfl, h, .of_bare_eq rfl, renders⟩
  | none =>
    obtain ⟨⟨out₁, hs₁⟩, ext₁, given₁, hid, hin, hnode⟩ :=
      hs.addInput hr r.arity (site.graph.schema.isUnique r)
    obtain ⟨net₁, hnet₁⟩ : ∃ net₁,
      net₁ = (s.network.addInput r r.arity (site.graph.schema.isUnique r)).1 := ⟨_, rfl⟩
    rw [← hnet₁] at hs₁ ext₁ given₁ hin hnode
    have hself : net₁.inputs[r]? = some s.network.vertices.size := by rw [hin, if_pos rfl]
    have hchange : ∀ c ∈ (site.graph.tuples r).map fun t => (⟨r, ⟨.insert, t⟩⟩ : Change),
        c.event.direction = .insert ∧ c.relation = r ∧ c.event.tuple ∈ site.graph.tuples r := by
      intro c hc
      obtain ⟨t, ht, rfl⟩ := List.mem_map.1 hc
      exact ⟨rfl, rfl, ht⟩
    obtain ⟨net₂, hall, bare₂, ⟨out₂, hs₂, -⟩, given₂⟩ := hs₁.insertAll
      (fun c hc => (hchange c hc).1) fun c hc id hid => by
        obtain ⟨-, hrel, ht⟩ := hchange c hc
        rw [hrel, hself] at hid
        cases hid
        rw [hnode.widthOf.2]
        exact hg r _ ht
    have ext := ext₁.trans (.of_bare_eq bare₂)
    have inputs : net₂.inputs = net₁.inputs :=
      (congrArg Network.inputs bare₂ : net₂.bare.inputs = net₁.bare.inputs)
    have hcall := Network.installInput_of_none hr hid (hnet₁ ▸ hall)
    refine ⟨{ s with network := net₂ }, s.network.vertices.size, by rw [hcall]; rfl,
      h.keeps ⟨out₂, hs₂⟩ ext.keeps fun r' id hid => ?_, ext,
      _, _, hnode.extends (.of_bare_eq bare₂)⟩
    have told : ∀ t, t ∈ net₂.given id ↔
        t ∈ s.network.given id ∨ (r = r' ∧ t ∈ site.graph.tuples r) := by
      intro t
      rw [given₂, given₁]
      refine or_congr_right ⟨?_, ?_⟩
      · rintro ⟨c, hc, hci, rfl⟩
        obtain ⟨-, hrel, ht⟩ := hchange c hc
        refine ⟨?_, ht⟩
        rw [hrel, hself] at hci
        rw [inputs, hin] at hid
        by_contra hne
        rw [if_neg hne, ← Option.some.inj hci] at hid
        obtain ⟨v, -, -, hv, -⟩ := (hs.wired.inputs r' _).1 hid
        exact Nat.lt_irrefl _ (Array.getElem?_eq_some_iff.1 hv).1
      · rintro ⟨rfl, ht⟩
        exact ⟨⟨r, ⟨.insert, t⟩⟩, List.mem_map.2 ⟨t, ht, rfl⟩, inputs ▸ hid, rfl⟩
    by_cases e : r = r'
    · subst e
      rw [inputs, hself] at hid
      cases hid
      refine ⟨(hnode.extends (.of_bare_eq bare₂)).widthOf.2, fun t => ?_⟩
      rw [told, Network.given_size]
      simp
    · rw [inputs, hin, if_neg e] at hid
      obtain ⟨hw, hgiven⟩ := h.given r' id hid
      refine ⟨?_, fun t => by rw [told, hgiven]; simp [e]⟩
      obtain ⟨v, -, -, hv, -⟩ := (hs.wired.inputs r' id).1 hid
      rw [← hw]
      have hn : s.network.HasNode id v.node v.parents v.arity := ⟨v, hv, rfl, rfl, rfl⟩
      rw [hn.widthOf.2, (hn.extends ext).widthOf.2]

theorem Sound.install (h : s.Sound site)
    (hg : ∀ r, ∀ t ∈ site.graph.tuples r, t.length = r.arity) {e : Algebra}
    (he : e.Positive site.catalog site.Calls) :
    (soundness site).Meets s (s.install site e) fun net id => net.Renders site e id := by
  have adds : ∀ {s : Installed} {r make}, s.Sound site →
      (∀ {out}, s.network.Saturated out → Network.Saturated.Adds s.network r make) →
      (soundness site).Meets s (s.make r) make := fun hs ha =>
    let ⟨_, sat⟩ := hs.saturated
    hs.meets (ha sat)
  induction e generalizing s with
  | production q arity =>
    obtain ⟨⟨id, hid⟩, query, hq, rfl⟩ := he
    refine ⟨s, id, ?_, h, .of_bare_eq rfl, hid, h.productions q id query hid hq⟩
    simp only [Installed.install, hid]
  | constant rows arity =>
    refine Discipline.remember h (adds h fun sat => ?_)
    obtain ⟨e, hn⟩ := sat.addConstant he
    exact ⟨_, _, rfl, e, hn⟩
  | input r => exact Discipline.remember h (h.installInput hg r)
  | trim e mask ih =>
    rw [Installed.install]
    exact Discipline.child (a := .trim e mask) h (·.addTrim · mask) (ih h he.1)
      (fun hs hp hw => adds hs fun sat => sat.addTrim hp.widthOf.1 (he.2.trans hw.symm))
      fun hr hn => ⟨_, hr, hn⟩
  | constantFilter e column value ih =>
    rw [Installed.install]
    exact Discipline.child (a := .constantFilter e column value) h (·.addConstantFilter · column value)
      (ih h he.1) (fun hs hp hw => adds hs fun sat => by
        rw [← hw]; exact sat.addConstantFilter hp.widthOf.1 value (hw ▸ he.2))
      fun hr hn => ⟨_, hr, hn⟩
  | equalityFilter e groups ih =>
    rw [Installed.install]
    exact Discipline.child (a := .equalityFilter e groups) h (·.addEqualityFilter · groups) (ih h he.1)
      (fun hs hp hw => adds hs fun sat => by
        rw [← hw]; exact sat.addEqualityFilter hp.widthOf.1 (hw ▸ he.2))
      fun hr hn => ⟨_, hr, hn⟩
  | inequalityFilter e left right ih =>
    rw [Installed.install]
    exact Discipline.child (a := .inequalityFilter e left right) h (·.addInequalityFilter · left right)
      (ih h he.1) (fun hs hp hw => adds hs fun sat => by
        rw [← hw]; exact sat.addInequalityFilter hp.widthOf.1 (hw ▸ he.2.1) (hw ▸ he.2.2))
      fun hr hn => ⟨_, hr, hn⟩
  | expression e evaluator inputs mode ih =>
    obtain ⟨he, rfl, ⟨x, hx⟩, hi⟩ := he
    rw [Installed.install, Catalog.evaluator_of hx]
    exact Discipline.child (a := .expression e evaluator inputs .check) h
      (·.addExpression · x inputs .check) (ih h he)
      (fun hs hp hw => adds hs fun sat => by
        have added := sat.addCheck hp.widthOf.1 x (hw ▸ hi)
        rwa [hw] at added)
      fun hr hn => ⟨_, x, hx, hr, hn⟩
  | join a pm b sm iha ihb =>
    obtain ⟨⟨ha, hpm⟩, hb, hsm⟩ := he
    rw [Installed.install]
    exact Discipline.pair (a := .join a pm b sm) h (·.addJoin · pm · sm) (iha h ha)
      (fun hs => ihb hs hb)
      (fun hs hp hq hwp hwq => adds hs fun sat => by
        rw [← hwp]; exact sat.addJoin hp.widthOf.1 hq.widthOf.1 (hpm.trans hwp.symm) (hsm.trans hwq.symm))
      fun hr hr' hn => ⟨_, _, hr, hr', hn⟩
  | closure e ih =>
    rw [Installed.install]
    exact Discipline.child (a := .closure e) h (·.addClosure ·) (ih h he.1)
      (fun hs hp hw => adds hs fun sat => sat.addClosure hp.widthOf.1 (hw.trans he.2)) fun hr hn => ⟨_, hr, hn⟩
  | _ => exact he.elim

end Installed
end Motif
