import Motif.Proofs.Network.Wiring

/-!
A network in the middle of a propagation. What the nodes put out has come through their places up to
the changes that are still to be delivered there, and what the nodes were told of the indexes is what
these hold up to the notices that are still due.
-/
set_option autoImplicit false
namespace Motif

abbrev IndexNotice := Event × IndexChange

/-- What a node has been told of an index is what this holds, or is one notice behind. -/
def Behind (mask : Mask) (unique : Bool) (view content : Multiset Tuple) : Option IndexNotice → Prop
  | none => view = content
  | some (e, c) => e.Suits mask.width (unique = true) view ∧ e.apply view = content ∧
      c.signature = mask.signature e.tuple ∧
      (c.transition = true ↔ ∀ u ∈ e.rest view, mask.signature u ≠ mask.signature e.tuple)

namespace Event

theorem eq_of_apply_eq {e : Event} {w : Nat} {flat : Prop} {m m' : Multiset Tuple}
    (h : e.Suits w flat m) (h' : e.Suits w flat m') (he : e.apply m = e.apply m') : m = m' := by
  cases hd : e.direction with
  | insert =>
    rw [apply_of_insert hd, apply_of_insert hd, rest_of_insert hd, rest_of_insert hd] at he
    exact (Multiset.cons_inj_right _).1 he
  | revoke =>
    rw [apply_of_revoke hd, apply_of_revoke hd] at he
    rw [h.cons_rest hd, h'.cons_rest hd, he]

end Event

namespace Node

@[simp] theorem isFed_bare (n : Node) : n.bare.isFed = n.isFed := by cases n <;> rfl

@[simp] theorem isInput_bare (n : Node) : n.bare.isInput = n.isInput := by cases n <;> rfl

@[simp] theorem isProduction_bare (n : Node) : n.bare.isProduction = n.isProduction := by
  cases n <;> rfl

end Node

namespace Network

def fedTo (s : Network) (base : NodeId → Multiset Tuple) (seen : NodeId → Nat → Multiset Tuple)
    (q : NodeId) : Multiset Tuple :=
  base q + s.inflow seen (.node q)

/-- The network `net`, wired like `s`, with changes on their way: `lag` are those a node has put out
but a place of it has not passed on, and `due` the notices that a side is still to get. -/
structure Flowing (s : Network) (base : NodeId → Multiset Tuple) (net : Network)
    (lag : NodeId → Nat → List Event) (due : NodeId → Side → Option IndexNotice)
    (seen : NodeId → Nat → Multiset Tuple) (view : NodeId → Side → Multiset Tuple) : Prop where
  bare : net.bare = s
  inside : ∀ (q : NodeId) (v : Vertex), net.vertices[q]? = some v → v.node.isFed = true → base q = 0
  holds : ∀ (q : NodeId) (v : Vertex), net.vertices[q]? = some v →
    v.node.Holds s.maskOf (s.fedTo base seen q) (view q)
  width : ∀ (q : NodeId) (v : Vertex), net.vertices[q]? = some v →
    ∀ t ∈ v.node.output s.maskOf (s.fedTo base seen q) (view q), t.length = v.arity
  flat : ∀ (q : NodeId) (v : Vertex), net.vertices[q]? = some v → s.Flat q →
    (v.node.output s.maskOf (s.fedTo base seen q) (view q)).Nodup
  slot : ∀ (q : NodeId) (v : Vertex) (k : Nat), net.vertices[q]? = some v →
    k < v.receivers.length → Leads v.arity (s.Flat q) (seen q k) (lag q k)
      (v.node.output s.maskOf (s.fedTo base seen q) (view q)) ∧ (s.Flat q → (seen q k).Nodup)
  index : ∀ (I : IndexId) (a : Arrangement), net.arrangements[I]? = some a →
    a.index.Sound ∧ a.index.content = s.inflow seen (.index I)
  side : ∀ (q : NodeId) (v : Vertex) (side : Side) (I : IndexId) (a : Arrangement),
    net.vertices[q]? = some v → v.node.source side = some I → net.arrangements[I]? = some a →
    Behind a.index.mask a.index.unique (view q side) a.index.content (due q side) ∧
      (a.index.unique = true → (view q side).Nodup)

section setNode
variable {net : Network} {m q : NodeId} {n' : Node} {v v' : Vertex}

theorem vertices_setNode : (net.setNode m n').vertices[q]? =
    if m = q then net.vertices[q]?.map fun v => { v with node := n' } else net.vertices[q]? :=
  Array.getElem?_modify

theorem vertex_setNode_of_ne (h : q ≠ m) : (net.setNode m n').vertices[q]? = net.vertices[q]? := by
  rw [vertices_setNode, if_neg (Ne.symm h)]

theorem vertex_setNode (h : net.vertices[m]? = some v) :
    (net.setNode m n').vertices[m]? = some { v with node := n' } := by
  rw [vertices_setNode, if_pos rfl, h]
  rfl

theorem vertex_setNode_cases {u : Vertex} (h : net.vertices[m]? = some v)
    (hu : (net.setNode m n').vertices[q]? = some u) :
    (q = m ∧ u = { v with node := n' }) ∨ (q ≠ m ∧ net.vertices[q]? = some u) := by
  by_cases hq : q = m
  · subst hq
    rw [vertex_setNode h] at hu
    exact .inl ⟨rfl, (Option.some.inj hu).symm⟩
  · rw [vertex_setNode_of_ne hq] at hu
    exact .inr ⟨hq, hu⟩

theorem setNode_self (h : net.node m = .ok n') : net.setNode m n' = net := by
  rw [node, vertex] at h
  cases hv : net.vertices[m]? with
  | none => simp [hv] at h
  | some v =>
    simp only [hv, Except.map_ok] at h
    cases h
    have e : net.vertices.modify m (fun u => { u with node := v.node }) = net.vertices := by
      refine Array.ext_getElem? fun q => ?_
      rw [Array.getElem?_modify]
      split
      · next hq =>
        rw [← hq, hv]
        rfl
      · rfl
    rw [setNode, e]

theorem bare_setNode (h : net.vertices[m]? = some v) (hb : n'.bare = v.node.bare) :
    (net.setNode m n').bare = net.bare := by
  have e : (net.setNode m n').vertices.map Vertex.bare = net.vertices.map Vertex.bare := by
    refine Array.ext_getElem? fun q => ?_
    rw [Array.getElem?_map, Array.getElem?_map, vertices_setNode]
    by_cases hq : m = q
    · subst hq
      rw [if_pos rfl, h]
      exact congrArg some (by simp [Vertex.bare, hb])
    · rw [if_neg hq]
  simp only [bare, e]
  rfl

def changeMemory (relation : Relation) (unique : Bool) (memory : Bag Tuple) (e : Event) :
    Except Issue (Bag Tuple) :=
  match e.direction with
  | .insert =>
    if unique && memory.contains e.tuple then .error (.duplicateInsert relation.text e.tuple)
    else .ok (memory.add e.tuple)
  | .revoke =>
    if memory.contains e.tuple then .ok (memory.remove e.tuple)
    else .error (.missingTuple relation.text e.tuple)

/-- What is counted up or down in vain is as it was before. -/
theorem countInput_eq (relation : Relation) (unique : Bool) (memory : Bag Tuple) (e : Event) :
    countInput relation unique memory e =
      match changeMemory relation unique memory e with
      | .error issue => (memory, some issue)
      | .ok memory => (memory, none) := by
  obtain ⟨_ | _, t⟩ := e
  · have back : ((memory.increment t).1.decrement t).1 = memory := Bag.ext fun u => by
      change ((memory.add t).remove t).count u = _
      simp
    by_cases held : memory.contains t = true <;> cases unique <;>
      simp [countInput, changeMemory, Bag.increment_snd, held, back] <;> rfl
  · by_cases held : memory.contains t = true
    · have count := Bag.contains_iff.1 held
      have there : (memory.decrement t).2 ≠ .missing := by
        rw [Bag.decrement_snd]
        split <;> simp_all
      simp [countInput, changeMemory, held, there]
      rfl
    · have count : memory.count t = 0 := by simpa [Bag.contains_iff] using held
      have same : (memory.decrement t).1 = memory := Bag.ext fun u => by
        change (memory.remove t).count u = _
        by_cases hu : t = u
        · simp [← hu, count]
        · simp [hu]
      simp [countInput, changeMemory, held, same, Bag.decrement_snd, count]

/-- A change that is refused leaves only its report. -/
theorem update_eq (net : Network) (relation : Relation) (e : Event) :
    net.update relation e = (do
      match net.inputs[relation]? with
      | none => return (net, false)
      | some id =>
        match ← net.node id with
        | .input key unique memory =>
          match changeMemory relation unique memory e with
          | .error issue => return (net.report issue, true)
          | .ok memory =>
            return (← (net.setNode id (.input key unique memory)).settle [.propagate id e], true)
        | _ => return (← net.settle [.propagate id e], true)) := by
  rw [update]
  cases net.inputs[relation]? with
  | none => rfl
  | some id =>
    simp only [changeInput, bind_assoc]
    cases hn : net.node id with
    | error f => rfl
    | ok n =>
      cases n with
      | input key unique memory =>
        simp only [countInput_eq, bind, Except.bind]
        cases changeMemory relation unique memory e with
        | error issue => simp [setNode_self hn, pure, Except.pure]
        | ok memory => rfl
      | _ => rfl

end setNode

section setIndex
variable {net : Network} {I J : IndexId} {ix : Index} {a : Arrangement}

theorem arrangements_setIndex : (net.setIndex I ix).arrangements[J]? =
    if I = J then net.arrangements[J]?.map fun a => { a with index := ix }
    else net.arrangements[J]? := Array.getElem?_modify

theorem bare_setIndex (h : net.arrangements[I]? = some a) (hb : ix.bare = a.index.bare) :
    (net.setIndex I ix).bare = net.bare := by
  have e : (net.setIndex I ix).arrangements.map Arrangement.bare =
      net.arrangements.map Arrangement.bare := by
    refine Array.ext_getElem? fun J => ?_
    rw [Array.getElem?_map, Array.getElem?_map, arrangements_setIndex]
    by_cases hJ : I = J
    · subst hJ
      rw [if_pos rfl, h]
      exact congrArg some (by simp [Arrangement.bare, hb])
    · rw [if_neg hJ]
  simp only [bare, e]
  rfl

end setIndex

namespace Flowing
variable {s net : Network} {base : NodeId → Multiset Tuple} {lag : NodeId → Nat → List Event}
  {due : NodeId → Side → Option IndexNotice} {seen : NodeId → Nat → Multiset Tuple}
  {view : NodeId → Side → Multiset Tuple}

theorem vertex (h : Flowing s base net lag due seen view) {q : NodeId} {v : Vertex}
    (hv : net.vertices[q]? = some v) : s.vertices[q]? = some v.bare := by
  rw [← h.bare, vertices_bare, hv]
  rfl

theorem arrangement (h : Flowing s base net lag due seen view) {I : IndexId} {a : Arrangement}
    (ha : net.arrangements[I]? = some a) : s.arrangements[I]? = some a.bare := by
  rw [← h.bare, arrangements_bare, ha]
  rfl

theorem exists_vertex (h : Flowing s base net lag due seen view) {q : NodeId} {w : Vertex}
    (hw : s.vertices[q]? = some w) : ∃ v, net.vertices[q]? = some v ∧ w = v.bare := by
  rw [← h.bare, vertices_bare] at hw
  obtain ⟨v, hv, rfl⟩ := Option.map_eq_some_iff.1 hw
  exact ⟨v, hv, rfl⟩

theorem exists_arrangement (h : Flowing s base net lag due seen view) {I : IndexId}
    {b : Arrangement} (hb : s.arrangements[I]? = some b) :
    ∃ a, net.arrangements[I]? = some a ∧ b = a.bare := by
  rw [← h.bare, arrangements_bare] at hb
  obtain ⟨a, ha, rfl⟩ := Option.map_eq_some_iff.1 hb
  exact ⟨a, ha, rfl⟩

theorem maskOf (h : Flowing s base net lag due seen view) {I : IndexId} {a : Arrangement}
    (ha : net.arrangements[I]? = some a) : s.maskOf I = a.index.mask := by
  rw [Network.maskOf, h.arrangement ha]
  rfl

theorem uniqueOf (h : Flowing s base net lag due seen view) {I : IndexId} {a : Arrangement}
    (ha : net.arrangements[I]? = some a) : s.uniqueOf I = a.index.unique := by
  rw [Network.uniqueOf, h.arrangement ha]
  rfl

theorem receiversOf (h : Flowing s base net lag due seen view) {q : NodeId} {v : Vertex}
    (hv : net.vertices[q]? = some v) : s.receiversOf q = v.receivers := by
  rw [Network.receiversOf, h.vertex hv]
  rfl

theorem of_eq {net' : Network} (h : Flowing s base net lag due seen view)
    (hv : net'.vertices = net.vertices) (ha : net'.arrangements = net.arrangements)
    (hb : net'.bare = net.bare) : Flowing s base net' lag due seen view := by
  obtain ⟨h1, h2, h3, h4, h5, h6, h7, h8⟩ := h
  constructor <;> simp only [hv, ha, hb] <;> assumption

theorem congr_lag {lag' : NodeId → Nat → List Event} (h : Flowing s base net lag due seen view)
    (he : ∀ q k, k < (s.receiversOf q).length → lag' q k = lag q k) :
    Flowing s base net lag' due seen view :=
  ⟨h.bare, h.inside, h.holds, h.width, h.flat, fun q v k hv hk => by
    rw [he q k (by rwa [h.receiversOf hv])]
    exact h.slot q v k hv hk, h.index, h.side⟩

end Flowing
end Network
end Motif
