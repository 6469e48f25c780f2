import Motif.Proofs.Network.ActiveDomain

/-!
Positive networks with nothing left to do, whose nodes have put out the least closed family. Inserting
into a base relation saturates the network again, and reading a node gives the tuples it has put out.
-/
set_option autoImplicit false
namespace Motif

theorem Node.exists_input {n : Node} (h : n.isInput = true) :
    ∃ r u memory, n = .input r u memory := by
  cases n with
  | input r u memory => exact ⟨r, u, memory, rfl⟩
  | _ => cases h

namespace Network

section bare
variable (net : Network)

theorem positive_bare : net.bare.Positive ↔ net.Positive := by
  constructor
  · refine fun h => ⟨fun q v hv => ?_, by simpa using h.forward⟩
    exact (Node.isPositive_bare _).symm.trans (h.nodes q _ (vertex_bare hv))
  · refine fun h => ⟨fun q v hv => ?_, by simpa using h.forward⟩
    obtain ⟨u, hu, rfl⟩ := vertices_bare_eq_some.1 hv
    exact (Node.isPositive_bare _).trans (h.nodes q u hu)

variable {net} in
theorem Positive.of_bare_eq {net' : Network} (h : net.Positive) (e : net'.bare = net.bare) :
    net'.Positive := (positive_bare net').1 (e ▸ (positive_bare net).2 h)

theorem fedFrom_bare (base val : NodeId → Multiset Tuple) (q : NodeId) (v : Vertex) :
    fedFrom base val q v.bare = fedFrom base val q v := by
  rw [fedFrom, fedFrom, show v.bare.node.isFed = v.node.isFed from Node.isFed_bare _]
  rfl

theorem viewBy_bare (val : NodeId → Multiset Tuple) (v : Vertex) :
    net.bare.viewBy val v.bare = net.viewBy val v := by
  funext side
  rw [viewBy, viewBy, show v.bare.node.source side = v.node.source side from Node.source_bare _ _,
    parentOf_bare]

theorem closed_bare (base : NodeId → Multiset Tuple) (M : NodeId → Set Tuple) :
    net.bare.Closed base M ↔ net.Closed base M := by
  have output : ∀ (q : NodeId) (v : Vertex) (val : NodeId → Multiset Tuple),
      v.bare.node.output net.bare.maskOf (fedFrom base val q v.bare) (net.bare.viewBy val v.bare) =
        v.node.output net.maskOf (fedFrom base val q v) (net.viewBy val v) := fun q v val => by
    rw [fedFrom_bare, viewBy_bare, maskOf_bare]
    exact Node.output_bare _ _ _
  constructor
  · intro h q v hv val le t ht
    refine h q v.bare (vertex_bare hv) val le t ?_
    rw [output]
    exact ht
  · intro h q w hw val le t ht
    obtain ⟨v, hv, rfl⟩ := vertices_bare_eq_some.1 hw
    rw [output] at ht
    exact h q v hv val le t ht

end bare

namespace Spreading
variable {s net : Network} {base fed out : NodeId → Multiset Tuple} {agenda : Agenda}

theorem given_eq (h : Spreading s base net agenda fed out)
    (hb : ∀ q, (∀ v, s.vertices[q]? = some v → v.node.isInput = false) → base q = 0) :
    net.given = base := by
  funext q
  by_cases none : ∀ v, net.vertices[q]? = some v → v.node.isInput = false
  · rw [given_eq_zero none, hb q fun w hw => ?_]
    obtain ⟨v, hv, rfl⟩ := h.exists_vertex hw
    exact (Node.isInput_bare _).trans (none v hv)
  · push Not at none
    obtain ⟨v, hv, hi⟩ := none
    obtain ⟨r, u, memory, hn⟩ := Node.exists_input (Bool.eq_true_of_not_eq_false hi)
    have holds := h.holds q v hv
    rw [hn] at holds
    rw [given_of_input hv hn, show memory.toMultiset = _ from holds,
      h.given q v hv (by rw [hn]; rfl)]

theorem base_width (h : Spreading s base net agenda fed out) {q : NodeId} {w : Vertex}
    (hw : s.vertices[q]? = some w) (hi : w.node.isInput = true) :
    ∀ t ∈ base q, t.length = w.arity := by
  intro t ht
  obtain ⟨v, hv, rfl⟩ := h.exists_vertex hw
  obtain ⟨r, u, memory, hn⟩ := Node.exists_input ((Node.isInput_bare _).symm.trans hi)
  refine h.width q v hv t (h.makes q v hv (by rw [hn]; rfl) t ?_)
  rw [h.given q v hv (by rw [hn]; rfl), hn]
  exact ht

theorem clears (w : s.Wired) (pos : s.Positive) (tasks rest : Agenda)
    (h : Spreading s base net (tasks ++ rest) fed out) : Clears s base net tasks rest out := by
  obtain ⟨room, hroom⟩ := exists_room w pos fun q v hv hi => h.base_width hv hi
  exact clears_all (fun task _ => clearsWithin w pos hroom (missing room out) task) h le_rfl

theorem feed {m : NodeId} {rows : List Tuple} (w : s.Wired) (pos : s.Positive)
    (h : Spreading s base net (rows.map fun t => .deliver (.node m) ⟨.insert, t⟩) fed out) :
    ∃ net' fed' out', net.feed m rows = .ok net' ∧ Spreading s base net' [] fed' out' ∧
      ∀ q, ∀ t ∈ out q, t ∈ out' q := by
  induction rows generalizing net fed out with
  | nil => exact ⟨net, fed, out, rfl, h, fun _ _ ht => ht⟩
  | cons t rest ih =>
    obtain ⟨net₁, fed₁, out₁, hs, h₁, le₁⟩ :=
      clears w pos [.deliver (.node m) ⟨.insert, t⟩] _ h
    obtain ⟨net₂, fed₂, out₂, hfeed, h₂, le₂⟩ := ih h₁
    refine ⟨net₂, fed₂, out₂, ?_, h₂, fun q u hu => le₂ q u (le₁ q u hu)⟩
    rw [Network.feed, hs.settle_eq]
    exact hfeed

theorem mem_fed_iff (w : s.Wired) (h : Spreading s base net [] fed out) {q : NodeId} {v : Vertex}
    (hv : net.vertices[q]? = some v) (hf : v.node.isFed = true) {t : Tuple} :
    t ∈ fed q ↔ ∃ p ∈ v.parents, t ∈ out p := by
  refine ⟨h.taken q v hv hf t, ?_⟩
  rintro ⟨p, hp, ht⟩
  have hR : Receiver.node q ∈ s.receiversOf p :=
    (w.mem_receiversOf_node (h.vertex hv) ((Node.isFed_bare _).trans hf)).2 hp
  have hg : t ∈ net.got fed (.node q) := by simpa using h.reached p (.node q) hR t ht
  exact hg

end Spreading

structure Saturated (net : Network) (out : NodeId → Multiset Tuple) : Prop where
  wired : net.Wired
  positive : net.Positive
  settled : ∃ fed, Spreading net.bare net.given net [] fed out

variable {net : Network} {out : NodeId → Multiset Tuple}

theorem given_of_not_input {q : NodeId}
    (hq : ∀ v, net.bare.vertices[q]? = some v → v.node.isInput = false) : net.given q = 0 :=
  given_eq_zero (isInput_eq_false_of_bare hq)

theorem Spreading.saturated {s net : Network} {base fed out : NodeId → Multiset Tuple}
    (w : s.Wired) (pos : s.Positive) (h : Spreading s base net [] fed out)
    (hb : ∀ q, (∀ v, s.vertices[q]? = some v → v.node.isInput = false) → base q = 0) :
    net.Saturated out := by
  have e : net.bare = s.bare := by rw [← net.bare_bare, h.bare]
  refine ⟨w.of_bare_eq e, pos.of_bare_eq e, fed, ?_⟩
  rw [h.bare, h.given_eq hb]
  exact h

namespace Saturated

theorem least (h : net.Saturated out) : net.Least net.given out := by
  obtain ⟨fed, hs⟩ := h.settled
  have hl := hs.least_of_nil h.wired.bare ((positive_bare net).2 h.positive)
  rw [Least] at hl ⊢
  simpa only [closed_bare] using hl

theorem width (h : net.Saturated out) {q : NodeId} {v : Vertex} (hv : net.vertices[q]? = some v) :
    ∀ t ∈ out q, t.length = v.arity := by
  obtain ⟨fed, hs⟩ := h.settled
  exact hs.width q v hv

theorem length_of_mem (h : net.Saturated out) {q : NodeId} {t : Tuple} (ht : t ∈ out q) :
    t.length = net.widthOf q := by
  obtain ⟨fed, hs⟩ := h.settled
  obtain ⟨v, hv⟩ := hs.vertex_of_mem ht
  rw [widthOf, hv]
  exact hs.width q v hv t ht

theorem report (h : net.Saturated out) (issue : Issue) : (net.report issue).Saturated out := by
  obtain ⟨fed, hs⟩ := h.settled
  have hb : (net.report issue).bare = net.bare := rfl
  exact ⟨h.wired.of_bare_eq hb, h.positive.of_bare_eq hb, fed, hs.of_eq hb rfl rfl⟩

section update

/-- An input that has been given a tuple has it on its way to its receivers. -/
theorem supply (h : net.Saturated out) {id : NodeId} {v : Vertex} {r : Relation} {u : Bool}
    {memory : Bag Tuple} (hv : net.vertices[id]? = some v) (hn : v.node = .input r u memory)
    {t : Tuple} (hw : t.length = v.arity) :
    ∃ fed, Spreading net.bare (Function.update net.given id (t ::ₘ net.given id))
      (net.setNode id (.input r u (memory.add t))) [.propagate id ⟨.insert, t⟩] fed
      (Function.update out id (out id + ↑[t])) := by
  obtain ⟨fed, hs⟩ := h.settled
  have hf : v.node.isFed = false := by rw [hn]; rfl
  have hfed : fed id = memory.toMultiset := (hs.given id v hv hf).trans (given_of_input hv hn)
  have output : ∀ F view, v.node.output net.bare.maskOf F view = F := fun F view => by
    rw [hn]
    rfl
  have gains : Spreading.Gains net.bare net net.given (Function.update net.given id (t ::ₘ net.given id)) fed out
      id v (.input r u (memory.add t)) (t ::ₘ memory.toMultiset) [t] := {
    bare := by rw [hn]; rfl
    holds := Bag.toMultiset_add _ _
    others := fun q hq => Function.update_of_ne hq _ _
    grown := fun u hu => Multiset.mem_cons_of_mem (hfed ▸ hu)
    supplied := fun u hu => by
      rw [Function.update_self]
      exact Multiset.mem_cons_of_mem hu
    given := fun _ => by rw [Function.update_self, given_of_input hv hn]
    taken := fun hx => by rw [hf] at hx; cases hx
    width := fun u hu => by
      rw [List.mem_singleton.1 hu]
      exact hw
    made := fun u hu => by
      rw [List.mem_singleton.1 hu, output]
      exact Multiset.mem_cons_self _ _
    makes := fun hs' u hu => by
      rw [output] at hu
      rcases Multiset.mem_cons.1 hu with rfl | hu
      · exact .inr (by simp)
      · refine .inl (hs.makes id v hv hs' u ?_)
        rw [output, hfed]
        exact hu }
  have leaves : Spreading.Leaves net.bare net [] [] id v (t ::ₘ memory.toMultiset) [t] := {
    left := fun _ hx => hx
    joins := fun _ _ _ _ _ hx => .inl hx
    reached := fun _ _ hx => .inl hx
    passed := fun _ _ hx => hx }
  exact ⟨_, hs.setNode ((positive_bare net).2 h.positive) hv gains leaves⟩

/-- The network is saturated, and wired as before; the inputs of `r` have been given `t` besides. -/
structure Took (net : Network) (out : NodeId → Multiset Tuple) (given : NodeId → Tuple → Prop)
    (net' : Network) : Prop where
  bare : net'.bare = net.bare
  saturated : ∃ out', net'.Saturated out' ∧ ∀ q, ∀ t ∈ out q, t ∈ out' q
  given : ∀ q t, t ∈ net'.given q ↔ t ∈ net.given q ∨ given q t

theorem took_of_eq (h : net.Saturated out) {given : NodeId → Tuple → Prop}
    (hg : ∀ q t, given q t → t ∈ net.given q) : Took net out given net :=
  ⟨rfl, ⟨out, h, fun _ _ ht => ht⟩, fun q t => (or_iff_left_of_imp (hg q t)).symm⟩

/-- An insertion into a base relation is taken in, or there already. -/
theorem insert (h : net.Saturated out) {r : Relation} {t : Tuple}
    (hw : ∀ id, net.inputs[r]? = some id → t.length = net.widthOf id) :
    ∃ net' read, net.update r ⟨.insert, t⟩ = .ok (net', read) ∧
      Took net out (fun q u => net.inputs[r]? = some q ∧ u = t) net' := by
  cases hr : net.inputs[r]? with
  | none =>
    exact ⟨net, false, update_of_none _ hr, h.took_of_eq fun q u hx => by cases hx.1⟩
  | some id =>
    obtain ⟨v, u, memory, hv, hn⟩ := (h.wired.inputs r id).1 hr
    have hnode : net.node id = .ok (.input r u memory) := by
      rw [node, vertex, hv, ← hn]
      rfl
    have hgiven := given_of_input hv hn
    have hwidth : t.length = v.arity := by
      rw [hw id hr, widthOf, hv]
      rfl
    by_cases hheld : (u && memory.contains t) = true
    · obtain ⟨issue, hissue⟩ : ∃ issue, changeMemory r u memory ⟨.insert, t⟩ = .error issue :=
        ⟨_, if_pos hheld⟩
      refine ⟨net.report issue, true, ?_, rfl, ⟨out, h.report issue, fun _ _ hx => hx⟩, fun q u => ?_⟩
      · rw [update_eq, hr]
        simp only [bind, Except.bind, hnode, hissue]
        rfl
      · refine (or_iff_left_of_imp ?_).symm
        rintro ⟨e, rfl⟩
        obtain rfl := Option.some.inj e
        rw [show (net.report issue).given id = _ from hgiven]
        exact Bag.contains_iff_mem.1 (Bool.and_eq_true_iff.1 hheld).2
    · obtain ⟨fed, hs⟩ := h.supply hv hn hwidth
      have w := h.wired.bare
      have pos := (positive_bare net).2 h.positive
      obtain ⟨net', fed', out', hset, hs', le⟩ := hs.clears w pos [_] []
      have hbase : ∀ q, (∀ v, net.bare.vertices[q]? = some v → v.node.isInput = false) →
          Function.update net.given id (t ::ₘ net.given id) q = 0 := by
        intro q hq
        have hne : q ≠ id := by
          rintro rfl
          have := isInput_eq_false_of_bare hq v hv
          rw [hn] at this
          cases this
        rw [Function.update_of_ne hne]
        exact given_of_not_input hq
      refine ⟨net', true, ?_, hs'.bare, ⟨out', hs'.saturated w pos hbase, fun q u hu => ?_⟩,
        fun q u => ?_⟩
      · have hm : changeMemory r u memory ⟨.insert, t⟩ = .ok (memory.add t) := if_neg hheld
        rw [update_eq, hr]
        simp only [bind, Except.bind, hnode, hm, hset.settle_eq]
        rfl
      · refine le q u ?_
        by_cases hq : q = id
        · subst hq
          rw [Function.update_self]
          exact Multiset.mem_add.2 (.inl hu)
        · rwa [Function.update_of_ne hq]
      · rw [hs'.given_eq hbase]
        by_cases hq : q = id
        · subst hq
          simp [or_comm]
        · rw [Function.update_of_ne hq]
          simp [Ne.symm hq]

theorem insertAll (h : net.Saturated out) {changes : List Change}
    (hd : ∀ c ∈ changes, c.event.direction = .insert)
    (hw : ∀ c ∈ changes, ∀ id, net.inputs[c.relation]? = some id →
      c.event.tuple.length = net.widthOf id) :
    ∃ net', net.updateAll changes = .ok net' ∧ Took net out
      (fun q u => ∃ c ∈ changes, net.inputs[c.relation]? = some q ∧ u = c.event.tuple) net' := by
  induction changes generalizing net out with
  | nil => exact ⟨net, rfl, h.took_of_eq fun q u hx => by simp at hx⟩
  | cons c rest ih =>
    obtain ⟨r, d, t⟩ := c
    obtain rfl : d = .insert := hd ⟨r, d, t⟩ (by simp)
    obtain ⟨net₁, read, hcall, bare₁, ⟨out₁, h₁, le₁⟩, given₁⟩ :=
      h.insert (hw ⟨r, ⟨.insert, t⟩⟩ (by simp))
    have inputs : net₁.inputs = net.inputs :=
      (congrArg Network.inputs bare₁ : net₁.bare.inputs = net.bare.inputs)
    obtain ⟨net₂, hall, bare₂, ⟨out₂, h₂, le₂⟩, given₂⟩ := ih h₁
      (fun c hc => hd c (by simp [hc])) fun c hc id hid => by
        rw [widthOf_of_bare_eq bare₁]
        exact hw c (by simp [hc]) id (inputs ▸ hid)
    refine ⟨net₂, ?_, bare₂.trans bare₁, ⟨out₂, h₂, fun q u hu => le₂ q u (le₁ q u hu)⟩,
      fun q u => ?_⟩
    · rw [updateAll, hcall]
      exact hall
    · rw [given₂, given₁, inputs]
      simp [or_assoc]

end update

section pull

theorem index_source {fed : NodeId → Multiset Tuple} (h : net.Saturated out)
    (hs : Spreading net.bare net.given net [] fed out) {q : NodeId} {v : Vertex}
    (hv : net.vertices[q]? = some v) {side : Side} {I : IndexId}
    (hI : v.node.source side = some I) :
    ∃ ix, net.index I = .ok ix ∧ ix.Sound ∧ ix.content = net.reading v side ∧
      ix.mask = net.maskOf I := by
  obtain ⟨a, ha⟩ := h.wired.exists_arrangement hv hI
  refine ⟨a.index, index_eq ha, (hs.index I a ha).1, ?_, (maskOf_eq ha).symm⟩
  rw [reading_of_source hI, contentOf_eq ha]

theorem pullWithin (h : net.Saturated out) {depth : Nat} {q : NodeId}
    (hq : q < net.vertices.size) (hd : q < depth) :
    ∃ rows, net.pullWithin depth q = .ok rows ∧ ∀ t, t ∈ rows ↔ t ∈ out q := by
  obtain ⟨fed, hs⟩ := h.settled
  have w := h.wired
  have pos := (positive_bare net).2 h.positive
  induction depth generalizing q with
  | zero => exact absurd hd (Nat.not_lt_zero q)
  | succ depth ih =>
    obtain ⟨v, hv⟩ : ∃ v, net.vertices[q]? = some v := ⟨_, Array.getElem?_eq_getElem hq⟩
    obtain ⟨width, hfits, hparents⟩ := w.fits q v hv
    have hpos := h.positive.nodes q v hv
    have holds := hs.holds q v hv
    rw [maskOf_bare] at holds
    have source : ∀ side I, v.node.source side = some I → _ := fun _ _ => h.index_source hs hv
    -- A node that keeps nothing is read through its parent, which has put out what it was fed.
    obtain ⟨read, legible, same⟩ : ∃ read, net.Legible depth v read (net.reading v) width ∧
        ∀ t, t ∈ read ↔ t ∈ fed q := by
      by_cases fedOnly : v.node.isFed = true ∧ v.node.isStateful = false
      · obtain ⟨hf, hn⟩ := fedOnly
        obtain ⟨p, hpar, hlt⟩ := w.earlier q v hv hf (Node.isProduction_of_isStateful_eq_false hn)
        obtain ⟨rows, hrows, hval⟩ :=
          ih (hlt.trans hq) (Nat.lt_of_lt_of_le hlt (Nat.le_of_lt_succ hd))
        refine ⟨↑rows, ⟨hfits, Node.holds_of_isStateful_eq_false hn, fun _ _ =>
          ⟨p, rows, by rw [Vertex.parent, hpar], hrows, rfl, fun t ht => ?_⟩, source⟩, fun t => ?_⟩
        · rw [← hparents hf p (by simp [hpar])]
          exact h.length_of_mem ((hval t).1 ht)
        · rw [Multiset.mem_coe, hval, hs.mem_fed_iff w.bare hv hf, hpar]
          simp
      · exact ⟨fed q, ⟨hfits, Node.holds_congr_view hpos holds,
          fun hf hn => absurd ⟨hf, hn⟩ fedOnly, source⟩, fun _ => Iff.rfl⟩
    obtain ⟨rows, hrows, hout⟩ := legible.pullWithin hv
    refine ⟨rows, hrows, fun t => ?_⟩
    rw [hs.mem_out_iff pos hv, maskOf_bare, ← Multiset.mem_coe, hout]
    exact ⟨Node.output_mono hpos (fun u => (same u).1) fun _ _ hu => hu,
      Node.output_mono hpos (fun u => (same u).2) fun _ _ hu => hu⟩

theorem pull (h : net.Saturated out) {q : NodeId} (hq : q < net.vertices.size) :
    ∃ rows, net.pull q = .ok rows ∧ ∀ t, t ∈ rows ↔ t ∈ out q :=
  h.pullWithin hq hq

theorem mem_distinct (h : net.Saturated out) {q : NodeId} {v : Vertex} {query : String}
    {memory : Bag Tuple} (hv : net.vertices[q]? = some v) (hn : v.node = .production query memory)
    {t : Tuple} : t ∈ memory.distinct ↔ t ∈ out q := by
  obtain ⟨fed, hs⟩ := h.settled
  have holds := hs.holds q v hv
  rw [hn] at holds
  rw [hs.mem_out_iff ((positive_bare net).2 h.positive) hv, hn, Bag.mem_distinct,
    show memory.toMultiset = _ from holds]
  exact Multiset.mem_dedup.symm

end pull

end Saturated
end Network
end Motif
