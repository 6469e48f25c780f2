import Motif.Proofs.Network.Reading

set_option autoImplicit false
namespace Motif
namespace Network

variable {net : Network} {val : NodeId → Multiset Tuple}

theorem changeMemory_ok {r : Relation} {u : Bool} {memory memory' : Bag Tuple} {e : Event}
    (h : changeMemory r u memory e = .ok memory') : memory'.toMultiset = e.apply memory.toMultiset ∧
      e.Suits e.tuple.length (u = true) memory.toMultiset := by
  obtain ⟨d, t⟩ := e
  cases d with
  | insert =>
    by_cases hc : (u && memory.contains t) = true
    · rw [changeMemory, if_pos hc] at h
      cases h
    · rw [changeMemory, if_neg hc] at h
      cases h
      refine ⟨Bag.toMultiset_add _ _, rfl, fun _ hu hm => hc ?_, fun hd => by cases hd⟩
      rw [hu, Bag.contains_iff_mem.2 hm]
      rfl
  | revoke =>
    by_cases hc : memory.contains t = true
    · rw [changeMemory, if_pos hc] at h
      cases h
      exact ⟨Bag.toMultiset_remove _ _, rfl, (fun hd => by cases hd),
        fun _ => Bag.contains_iff_mem.1 hc⟩
    · rw [changeMemory, if_neg hc] at h
      cases h

theorem slots_of_not_isFed (w : net.Wired) {q : NodeId} {v : Vertex}
    (hv : net.vertices[q]? = some v) (hf : v.node.isFed = false) :
    net.slots (.node q) = ∅ := by
  refine Finset.eq_empty_of_forall_notMem fun x hx => ?_
  obtain ⟨v', hv', hf'⟩ := w.fed x.1 q (List.mem_of_getElem? (net.mem_slots.1 hx))
  cases hv.symm.trans hv'
  rw [hf] at hf'
  cases hf'

theorem fedTo_of_not_isFed {s : Network} {base : NodeId → Multiset Tuple}
    {seen : NodeId → Nat → Multiset Tuple} (w : s.Wired) {q : NodeId} {v : Vertex}
    (hv : s.vertices[q]? = some v) (hf : v.node.isFed = false) : s.fedTo base seen q = base q := by
  rw [fedTo, inflow, slots_of_not_isFed w hv hf, Finset.sum_empty, add_zero]

theorem given_of_input {q : NodeId} {v : Vertex} {r : Relation} {u : Bool} {memory : Bag Tuple}
    (hv : net.vertices[q]? = some v) (hn : v.node = .input r u memory) :
    net.given q = memory.toMultiset := by
  rw [given, hv]
  simp [hn]

theorem given_of_isInput_eq_false {q : NodeId} {v : Vertex} (hv : net.vertices[q]? = some v)
    (hn : v.node.isInput = false) : net.given q = 0 := by
  rw [given, hv]
  cases h : v.node <;> simp_all [Node.isInput]

/-- The memories of the inputs are what came from outside. -/
theorem Flowing.given_eq {s : Network} {base : NodeId → Multiset Tuple}
    {lag : NodeId → Nat → List Event} {due : NodeId → Side → Option IndexNotice}
    {seen : NodeId → Nat → Multiset Tuple} {view : NodeId → Side → Multiset Tuple} (w : s.Wired)
    (h : Flowing s base net lag due seen view)
    (hb : ∀ q, (∀ v, s.vertices[q]? = some v → v.node.isInput = false) → base q = 0) :
    net.given = base := by
  funext q
  cases hv : net.vertices[q]? with
  | none =>
    rw [hb q fun v hv' => ?_, given, hv]
    · rfl
    · rw [← h.bare, vertices_bare, hv] at hv'
      cases hv'
  | some v =>
    cases hi : v.node.isInput with
    | false =>
      rw [given_of_isInput_eq_false hv hi, hb q fun v' hv' => ?_]
      cases (h.vertex hv).symm.trans hv'
      exact (Node.isInput_bare _).trans hi
    | true =>
      cases hn : v.node with
      | input r u memory =>
        have hf : v.bare.node.isFed = false := (Node.isFed_bare _).trans (by rw [hn]; rfl)
        have holds := h.holds q v hv
        rw [hn] at holds
        rw [given_of_input hv hn, show memory.toMultiset = _ from holds,
          fedTo_of_not_isFed w (h.vertex hv) hf]
      | _ =>
        rw [hn] at hi
        cases hi

theorem given_eq_zero {q : NodeId}
    (h : ∀ v, net.vertices[q]? = some v → v.node.isInput = false) : net.given q = 0 := by
  cases hv : net.vertices[q]? with
  | none =>
    rw [given, hv]
    rfl
  | some v => exact given_of_isInput_eq_false hv (h v hv)

theorem given_size : net.given net.vertices.size = 0 :=
  given_eq_zero fun _ hv => absurd (Array.getElem?_eq_some_iff.1 hv).1 (Nat.lt_irrefl _)

theorem isInput_eq_false_of_bare {q : NodeId}
    (h : ∀ v, net.bare.vertices[q]? = some v → v.node.isInput = false) :
    ∀ v, net.vertices[q]? = some v → v.node.isInput = false := fun v hv =>
  (Node.isInput_bare _).symm.trans (h v.bare (vertex_bare hv))

theorem propagate_input (w : net.Wired) (h : net.AtRest val) {id : NodeId} {v : Vertex}
    {r : Relation} {u : Bool} {memory memory' : Bag Tuple} {e : Event}
    (hv : net.vertices[id]? = some v) (hn : v.node = .input r u memory)
    (hm : changeMemory r u memory e = .ok memory') (hw : e.tuple.length = v.arity)
    (flushes : Flushes net.bare id) :
    ∃ net' val', (net.setNode id (.input r u memory')).settle [.propagate id e] = .ok net' ∧
      OnlyFailures net net' ∧ net'.bare = net.bare ∧ net'.AtRest val' ∧
      net'.given = Function.update net.given id (e.apply (net.given id)) := by
  obtain ⟨view, hflow⟩ := h.flowing w
  obtain ⟨hmem, hsuits⟩ := changeMemory_ok hm
  rw [hw] at hsuits
  have hf : v.node.isFed = false := by rw [hn]; rfl
  have hs : ∀ base seen, net.bare.fedTo base seen id = base id := fun base seen =>
    fedTo_of_not_isFed w.bare (vertex_bare hv) ((Node.isFed_bare _).trans hf)
  have hout : ∀ fed, v.node.output net.bare.maskOf fed (view id) = fed := fun fed => by
    rw [hn]
    rfl
  have hgiven := given_of_input hv hn
  have hflow' := hflow.setNode (.input r u memory') [e]
    (Function.update net.given id (e.apply (net.given id))) (fun _ _ => []) (fun _ _ => none)
    (fun q _ => val q) (view id) hv (by rw [hn]; rfl)
    (fun hfed => by rw [hf] at hfed; cases hfed) (fun q hq => Function.update_of_ne hq _ _)
    (fun _ _ => rfl) (fun _ _ => rfl) (fun _ => rfl)
    (by
      rw [hs, Function.update_self, hgiven]
      exact hmem)
    (by
      rw [hs, hs, hout, hout, Function.update_self, hgiven]
      refine Leads.weaken (fun hflat => ?_) (Leads.single hsuits)
      have := (hflow.flat_node hv hflat)
      rw [hn] at this
      exact this)
    rfl (fun _ _ _ => .inl ⟨rfl, rfl⟩) (fun _ _ => rfl)
    (fun side I a hsrc => by rw [hn] at hsrc; cases side <;> cases hsrc)
  have hlt : id < net.bare.vertices.size := (Array.getElem?_eq_some_iff.1 (vertex_bare hv)).1
  obtain ⟨net', seen, view', hset, honly, hrest⟩ :=
    flushes hlt _ _ _ _ _ _ [e] hflow' fun _ _ => ⟨rfl, fun _ => rfl⟩
  have hlag : (Function.update (fun _ _ => []) id fun _ => [] : NodeId → Nat → List Event) =
      fun _ _ => [] := Function.update_eq_self _ _
  rw [hlag] at hrest
  obtain ⟨val', hval'⟩ := hrest.atRest w.bare
  refine ⟨net', val', hset.settle_eq, honly, hrest.bare, hval', hrest.given_eq w.bare fun q hq => ?_⟩
  have hne : q ≠ id := by
    rintro rfl
    have := isInput_eq_false_of_bare hq v hv
    rw [hn] at this
    cases this
  rw [Function.update_of_ne hne, given_eq_zero (isInput_eq_false_of_bare hq)]

theorem update_of_none {r : Relation} (e : Event) (h : net.inputs[r]? = none) :
    net.update r e = .ok (net, false) := by
  rw [update_eq, h]
  rfl

theorem AtRest.report (h : net.AtRest val) (issue : Issue) : (net.report issue).AtRest val := by
  have hb : (net.report issue).bare = net.bare := rfl
  exact ⟨h.means, h.holds, h.width, fun q hq hf => h.flat q hq ((flat_of_bare_eq hb q).1 hf),
    h.index⟩

inductive Updated (net : Network) (r : Relation) (id : NodeId) (u : Bool) (memory : Bag Tuple)
    (e : Event) : Network → Prop where
  | refused (issue : Issue) : changeMemory r u memory e = .error issue →
      Updated net r id u memory e (net.report issue)
  | taken (memory' : Bag Tuple) (net' : Network) (val' : NodeId → Multiset Tuple) :
      changeMemory r u memory e = .ok memory' → OnlyFailures net net' → net'.bare = net.bare →
      net'.AtRest val' → net'.given = Function.update net.given id (e.apply (net.given id)) →
      Updated net r id u memory e net'

theorem AtRest.update (w : net.Wired) (h : net.AtRest val) {r : Relation} {id : NodeId}
    (hr : net.inputs[r]? = some id) {e : Event} (hw : e.tuple.length = net.widthOf id)
    (flushes : Flushes net.bare id) :
    ∃ net' v u memory, net.vertices[id]? = some v ∧ v.node = .input r u memory ∧
      net.update r e = .ok (net', true) ∧ Updated net r id u memory e net' := by
  obtain ⟨v, u, memory, hv, hn⟩ := (w.inputs r id).1 hr
  have hnode : net.node id = .ok (.input r u memory) := by
    rw [node, vertex, hv, ← hn]
    rfl
  have hwidth : e.tuple.length = v.arity := by
    rw [hw, widthOf, hv]
    rfl
  cases hm : changeMemory r u memory e with
  | error issue =>
    refine ⟨net.report issue, v, u, memory, hv, hn, ?_, .refused issue hm⟩
    rw [update_eq, hr]
    simp only [bind, Except.bind, hnode, hm]
    rfl
  | ok memory' =>
    obtain ⟨net', val', hs, ho, hb, hat, hg⟩ := propagate_input w h hv hn hm hwidth flushes
    refine ⟨net', v, u, memory, hv, hn, ?_, .taken memory' net' val' hm ho hb hat hg⟩
    rw [update_eq, hr]
    simp only [bind, Except.bind, hnode, hm, hs]
    rfl

end Network
end Motif
