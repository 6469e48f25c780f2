import Motif.Proofs.Network.Flow

set_option autoImplicit false
namespace Motif

theorem Index.Sound.update {ix : Index} {e : Event} (h : ix.Sound)
    (hs : e.Suits ix.mask.width (ix.unique = true) ix.content) :
    ∃ ix' transition, ix.update e = .ok (ix', .ok ⟨ix.mask.signature e.tuple, transition⟩) ∧
      ix'.Sound ∧ ix'.bare = ix.bare ∧ ix'.content = e.apply ix.content ∧
      (transition = true ↔
        ∀ u ∈ e.rest ix.content, ix.mask.signature u ≠ ix.mask.signature e.tuple) := by
  obtain ⟨d, t⟩ := e
  cases d with
  | insert => exact h.insert hs.width (hs.insert rfl)
  | revoke => exact h.remove (hs.revoke rfl)

namespace Network

def OnlyFailures (net net' : Network) : Prop :=
  ∃ l, net'.issues = l ++ net.issues ∧ ∀ i ∈ l, i.isFailure

theorem OnlyFailures.of_eq {net net' : Network} (h : net'.issues = net.issues) :
    OnlyFailures net net' := ⟨[], h, by simp⟩

theorem OnlyFailures.trans {net net' net'' : Network} (h : OnlyFailures net net')
    (h' : OnlyFailures net' net'') : OnlyFailures net net'' := by
  obtain ⟨l, e, hl⟩ := h
  obtain ⟨l', e', hl'⟩ := h'
  refine ⟨l' ++ l, by rw [e', e, List.append_assoc], fun i hi => ?_⟩
  exact (List.mem_append.1 hi).elim (hl' i) (hl i)

/-- The network when a node has answered, apart from the tasks that follow. -/
def answered (net : Network) (m : NodeId) (production : Bool) (r : Reply) : Network :=
  let net := net.setNode m r.node
  let net := match r.issue with
    | some issue => net.report issue
    | none => net
  if production then net.announce m r.out else net

section answered
variable {net : Network} {m : NodeId} {production : Bool} {r : Reply}

@[simp] theorem vertices_answered :
    (net.answered m production r).vertices = (net.setNode m r.node).vertices := by
  rw [answered]
  cases r.issue <;> cases production <;> rfl

@[simp] theorem arrangements_answered :
    (net.answered m production r).arrangements = net.arrangements := by
  rw [answered]
  cases r.issue <;> cases production <;> rfl

@[simp] theorem bare_answered : (net.answered m production r).bare = (net.setNode m r.node).bare := by
  rw [answered]
  cases r.issue <;> cases production <;> rfl

theorem issues_answered :
    (net.answered m production r).issues = r.issue.toList ++ net.issues := by
  rw [answered]
  cases r.issue <;> cases production <;> rfl

theorem step_deliver_node {v : Vertex} {e : Event} (hv : net.vertices[m]? = some v)
    (hr : v.node.receive e = .ok r) : net.step (.deliver (.node m) e) =
      .ok (net.answered m v.node.isProduction r, r.out.map (Task.propagate m)) := by
  rw [step, deliverToNode, Network.vertex, hv]
  simp only [bind, Except.bind, hr]
  rfl

end answered

theorem step_notify {net net' : Network} {m : NodeId} {v : Vertex} {side : Side} {e : Event}
    {c : IndexChange} {bucket : Option (Bag Tuple)} {n : Node} {out : List Event}
    (hv : net.vertices[m]? = some v)
    (hconsult : net.consult (v.node.consults side c) c.signature = .ok (net', bucket))
    (hrespond : v.node.respond side e c bucket = .ok (n, out)) :
    net.step (.notify m side e c) = .ok (net'.setNode m n, out.map (Task.propagate m)) := by
  rw [step, notifyNode, node, vertex, hv]
  simp only [Functor.map, Except.map, bind, Except.bind, hconsult, hrespond]
  rfl

variable {s net : Network} {base : NodeId → Multiset Tuple} {lag : NodeId → Nat → List Event}
  {due : NodeId → Side → Option IndexNotice} {seen : NodeId → Nat → Multiset Tuple}
  {view : NodeId → Side → Multiset Tuple}

namespace Flowing

def Passes (seen seen' : Multiset Tuple) (lag lag' : List Event) : Prop :=
  (seen' = seen ∧ lag' = lag) ∨ ∃ e, lag = e :: lag' ∧ seen' = e.apply seen

theorem passes_atSlot {n q : NodeId} {k j : Nat} {e : Event} {es : List Event}
    (hl : lag n k = e :: es) : Passes (seen q j) (atSlot n k (e.apply (seen n k)) seen q j)
      (lag q j) (atSlot n k es lag q j) := by
  by_cases hq : q = n ∧ j = k
  · obtain ⟨rfl, rfl⟩ := hq
    exact .inr ⟨e, by rw [hl]; simp [atSlot], by simp [atSlot]⟩
  · exact .inl ⟨if_neg hq, if_neg hq⟩

theorem Passes.leads {m m' o : Multiset Tuple} {es es' : List Event} {w : Nat} {flat : Prop}
    (h : Passes m m' es es') (hl : Leads w flat m es o ∧ (flat → m.Nodup)) :
    Leads w flat m' es' o ∧ (flat → m'.Nodup) := by
  obtain ⟨rfl, rfl⟩ | ⟨e, rfl, rfl⟩ := h
  · exact hl
  · exact ⟨hl.1.2, fun hf => hl.1.1.nodup_apply hf (hl.2 hf)⟩

/-- A node that has answered a change puts the change of its output on the way to its receivers. -/
theorem setNode {m : NodeId} {v : Vertex} (h : Flowing s base net lag due seen view) (n' : Node)
    (out : List Event) (base' : NodeId → Multiset Tuple) (lag' : NodeId → Nat → List Event)
    (due' : NodeId → Side → Option IndexNotice) (seen' : NodeId → Nat → Multiset Tuple)
    (view' : Side → Multiset Tuple) (hv : net.vertices[m]? = some v) (hb : n'.bare = v.node.bare)
    (inside : v.node.isFed = true → base' m = 0) (hbase : ∀ q, q ≠ m → base' q = base q)
    (still : ∀ k, k < v.receivers.length → lag m k = [])
    (fed : ∀ q, q ≠ m → s.inflow seen' (.node q) = s.inflow seen (.node q))
    (index : ∀ I, s.inflow seen' (.index I) = s.inflow seen (.index I))
    (holds : n'.Holds s.maskOf (s.fedTo base' seen' m) view')
    (leads : Leads v.arity (s.Flat m) (v.node.output s.maskOf (s.fedTo base seen m) (view m)) out
      (v.node.output s.maskOf (s.fedTo base' seen' m) view'))
    (same : seen' m = seen m)
    (slots : ∀ q k, q ≠ m → Passes (seen q k) (seen' q k) (lag q k) (lag' q k))
    (hdue : ∀ q, q ≠ m → due' q = due q)
    (side : ∀ (side : Side) (I : IndexId) (a : Arrangement), v.node.source side = some I →
      net.arrangements[I]? = some a →
      Behind a.index.mask a.index.unique (view' side) a.index.content (due' m side) ∧
        (a.index.unique = true → (view' side).Nodup)) :
    Flowing s base' (net.setNode m n') (Function.update lag' m fun _ => out) due' seen'
      (Function.update view m view') := by
  have fedTo : ∀ q, q ≠ m → s.fedTo base' seen' q = s.fedTo base seen q := fun q hq => by
    rw [Network.fedTo, Network.fedTo, hbase q hq, fed q hq]
  have output : n'.output s.maskOf (s.fedTo base' seen' m) view' = _ :=
    Node.output_of_bare_eq hb _ _
  constructor
  case bare => exact (bare_setNode hv hb).trans h.bare
  case inside =>
    intro q w hw hf
    obtain ⟨rfl, rfl⟩ | ⟨hq, hw⟩ := vertex_setNode_cases hv hw
    · refine inside ?_
      rw [← Node.isFed_bare, ← hb, Node.isFed_bare]
      exact hf
    · rw [hbase q hq]
      exact h.inside q w hw hf
  case holds =>
    intro q w hw
    obtain ⟨rfl, rfl⟩ | ⟨hq, hw⟩ := vertex_setNode_cases hv hw
    · rw [Function.update_self]
      exact holds
    · rw [Function.update_of_ne hq, fedTo q hq]
      exact h.holds q w hw
  case width =>
    intro q w hw
    obtain ⟨rfl, rfl⟩ | ⟨hq, hw⟩ := vertex_setNode_cases hv hw
    · rw [Function.update_self]
      dsimp only
      rw [output]
      exact leads.width_right (h.width q v hv)
    · rw [Function.update_of_ne hq, fedTo q hq]
      exact h.width q w hw
  case flat =>
    intro q w hw hf
    obtain ⟨rfl, rfl⟩ | ⟨hq, hw⟩ := vertex_setNode_cases hv hw
    · rw [Function.update_self]
      dsimp only
      rw [output]
      exact leads.nodup hf (h.flat q v hv hf)
    · rw [Function.update_of_ne hq, fedTo q hq]
      exact h.flat q w hw hf
  case slot =>
    intro q w k hw hk
    obtain ⟨rfl, rfl⟩ | ⟨hq, hw⟩ := vertex_setNode_cases hv hw
    · have old := h.slot q v k hv hk
      rw [still k hk] at old
      rw [Function.update_self, Function.update_self, same, show seen q k = _ from old.1]
      dsimp only
      rw [output]
      exact ⟨leads, h.flat q v hv⟩
    · rw [Function.update_of_ne hq, Function.update_of_ne hq, fedTo q hq]
      exact (slots q k hq).leads (h.slot q w k hw hk)
  case index =>
    intro I a ha
    rw [index]
    exact h.index I a ha
  case side =>
    intro q w sd I a hw hs ha
    obtain ⟨rfl, rfl⟩ | ⟨hq, hw⟩ := vertex_setNode_cases hv hw
    · rw [Function.update_self]
      exact side sd I a ((Node.source_of_bare_eq hb sd).symm.trans hs) ha
    · rw [Function.update_of_ne hq, hdue q hq]
      exact h.side q w sd I a hw hs ha

section place
variable (h : Flowing s base net lag due seen view) {n : NodeId} {k : Nat} {R : Receiver}
include h

theorem vertex_of_slot (hr : (s.receiversOf n)[k]? = some R) :
    ∃ u, net.vertices[n]? = some u ∧ k < u.receivers.length ∧ u.arity = s.widthOf n := by
  obtain ⟨hk, -⟩ := List.getElem?_eq_some_iff.1 hr
  have hn := s.lt_size_of_receiversOf_ne_nil (List.ne_nil_of_length_pos (Nat.zero_lt_of_lt hk))
  obtain ⟨u, hu, hb⟩ := h.exists_vertex (Array.getElem?_eq_getElem hn)
  refine ⟨u, hu, h.receiversOf hu ▸ hk, ?_⟩
  rw [widthOf, h.vertex hu]
  rfl

theorem length_of_mem_seen (hr : (s.receiversOf n)[k]? = some R) :
    ∀ t ∈ seen n k, t.length = s.widthOf n := by
  obtain ⟨u, hu, hk, ha⟩ := h.vertex_of_slot hr
  exact ha ▸ (h.slot n u k hu hk).1.width (h.width n u hu)

theorem nodup_seen (hr : (s.receiversOf n)[k]? = some R) (hf : s.Flat n) : (seen n k).Nodup := by
  obtain ⟨u, hu, hk, -⟩ := h.vertex_of_slot hr
  exact (h.slot n u k hu hk).2 hf

theorem suits_of_lag (hr : (s.receiversOf n)[k]? = some R) {e : Event} {es : List Event}
    (hl : lag n k = e :: es) : e.Suits (s.widthOf n) (s.Flat n) (seen n k) := by
  obtain ⟨u, hu, hk, ha⟩ := h.vertex_of_slot hr
  have := (h.slot n u k hu hk).1
  rw [hl, ha] at this
  exact this.1

end place

theorem flat_node (h : Flowing s base net lag due seen view) {m : NodeId} {v : Vertex}
    (hv : net.vertices[m]? = some v) (hm : s.Flat m) :
    v.node.Flat s.uniqueOf (∃ p rest, v.parents = p :: rest ∧ s.Flat p) :=
  (Node.flat_bare _).1 (hm.node (h.vertex hv))

section fed
variable (w : s.Wired) (h : Flowing s base net lag due seen view) {m : NodeId} {v : Vertex}
  (hv : net.vertices[m]? = some v) (hf : v.node.isFed = true)
include w h hv hf

theorem mem_parents_of_slot {n : NodeId} {k : Nat}
    (hr : (s.receiversOf n)[k]? = some (.node m)) : n ∈ v.parents :=
  (w.mem_receiversOf_node (h.vertex hv) ((Node.isFed_bare _).trans hf)).1 (List.mem_of_getElem? hr)

theorem exists_fits : ∃ width, v.node.Fits s.maskOf width v.arity ∧
    (∀ t ∈ s.fedTo base seen m, t.length = width) ∧
    ∀ (n k : Nat), (s.receiversOf n)[k]? = some (.node m) → s.widthOf n = width := by
  obtain ⟨width, hfits, hp⟩ := w.fits m _ (h.vertex hv)
  have source : ∀ (n k : Nat), (s.receiversOf n)[k]? = some (.node m) → s.widthOf n = width :=
    fun n k hr => hp ((Node.isFed_bare _).trans hf) n (h.mem_parents_of_slot w hv hf hr)
  refine ⟨width, (Node.fits_bare _).1 hfits, fun t ht => ?_, source⟩
  rw [fedTo, h.inside m v hv hf, zero_add, inflow, Multiset.mem_sum] at ht
  obtain ⟨⟨n, k⟩, hx, ht⟩ := ht
  have hr := s.mem_slots.1 hx
  exact (h.length_of_mem_seen hr t ht).trans (source n k hr)

theorem fedTo_eq_seen (hp : v.node.isProduction = false) {n : NodeId} {k : Nat}
    (hr : (s.receiversOf n)[k]? = some (.node m)) :
    v.parents = [n] ∧ s.fedTo base seen m = seen n k := by
  obtain ⟨p, hpar, -⟩ := w.earlier m _ (h.vertex hv) ((Node.isFed_bare _).trans hf)
    ((Node.isProduction_bare _).trans hp)
  have hpar : v.parents = [p] := hpar
  obtain rfl : n = p := by
    simpa [hpar] using h.mem_parents_of_slot w hv hf hr
  refine ⟨hpar, ?_⟩
  have hone : (s.slots (.node m)).erase (n, k) = ∅ := by
    refine Finset.eq_empty_of_forall_notMem fun x hx => ?_
    obtain ⟨hne, hslot⟩ := Finset.mem_erase.1 hx
    obtain ⟨q, j⟩ := x
    obtain rfl : q = n := by
      simpa [hpar] using h.mem_parents_of_slot w hv hf (s.mem_slots.1 hslot)
    have hcard := s.card_slots (.node m) q
    rw [w.parents q m _ (h.vertex hv) ((Node.isFed_bare _).trans hf),
      show v.bare.parents = [q] from hpar, List.count_singleton_self, Finset.card_eq_one] at hcard
    obtain ⟨y, hy⟩ := hcard
    have same : ∀ x ∈ s.slots (.node m), x.1 = q → x = y := fun x hx e =>
      Finset.mem_singleton.1 (hy ▸ Finset.mem_filter.2 ⟨hx, e⟩)
    exact hne ((same _ hslot rfl).trans (same _ (s.mem_slots.2 hr) rfl).symm)
  rw [fedTo, h.inside m v hv hf, zero_add, s.inflow_eq_add (s.mem_slots.2 hr), hone,
    Finset.sum_empty, add_zero]

end fed

/-- When a change is delivered to a node, the change of its output is on the way to its receivers. -/
theorem deliver_node (w : s.Wired) (h : Flowing s base net lag due seen view) {n m : NodeId}
    {k : Nat} {e : Event} {es : List Event} (hr : (s.receiversOf n)[k]? = some (.node m))
    (hl : lag n k = e :: es) (hne : m ≠ n) (still : lag m = fun _ => []) :
    ∃ net' out seen', net.step (.deliver (.node m) e) = .ok (net', out.map (Task.propagate m)) ∧
      OnlyFailures net net' ∧
      Flowing s base net' (Function.update (atSlot n k es lag) m fun _ => out) due seen' view := by
  obtain ⟨v₀, hv₀, hf⟩ := w.fed n m (List.mem_of_getElem? hr)
  obtain ⟨v, hv, rfl⟩ := h.exists_vertex hv₀
  have hf : v.node.isFed = true := (Node.isFed_bare _).symm.trans hf
  have suits := h.suits_of_lag hr hl
  have slot := s.mem_slots.2 hr
  obtain ⟨width, hfits, hwidth, hsource⟩ := h.exists_fits w hv hf
  have hfed : s.fedTo base seen m = s.inflow seen (.node m) := by
    rw [fedTo, h.inside m v hv hf, zero_add]
  -- Only a node with one parent may rely on being fed no tuple twice.
  obtain ⟨flat, hflat⟩ : ∃ flat, flat = (v.node.isProduction = false ∧ s.Flat n) := ⟨_, rfl⟩
  have hs : e.Suits width flat (s.fedTo base seen m) := by
    refine ⟨hsource n k hr ▸ suits.width, fun hd hp => ?_, fun hd => ?_⟩
    · rw [hflat] at hp
      rw [(h.fedTo_eq_seen w hv hf hp.1 hr).2]
      exact suits.insert hd hp.2
    · rw [hfed]
      exact s.mem_inflow slot (suits.revoke hd)
  have hnodup : flat → (s.fedTo base seen m).Nodup := fun hp => by
    rw [hflat] at hp
    rw [(h.fedTo_eq_seen w hv hf hp.1 hr).2]
    exact h.nodup_seen hr hp.2
  obtain ⟨reply, hreply, hbare, hholds, hleads, hissue⟩ :=
    Node.receive_replies s.uniqueOf hs hwidth hnodup hf hfits (h.holds m v hv)
  have hleads : Leads v.arity (s.Flat m) _ _ _ := hleads.weaken fun hm => by
    have hn := h.flat_node hv hm
    cases hp : v.node.isProduction with
    | true =>
      cases hnode : v.node <;> simp_all [Node.isProduction, Node.Flat]
    | false =>
      have hpar := (h.fedTo_eq_seen w hv hf hp hr).1
      have : (∃ p rest, v.parents = p :: rest ∧ s.Flat p) ↔ flat := by
        rw [hflat, hpar]
        simp [hp]
      rw [← this]
      exact hn
  have inflow : ∀ R', R' ≠ Receiver.node m →
      s.inflow (atSlot n k (e.apply (seen n k)) seen) R' = s.inflow seen R' := fun R' hR =>
    s.inflow_atSlot_of_notMem
      (fun hx => hR (Option.some.inj ((s.mem_slots.1 hx).symm.trans hr))) _
  have hfed' : s.fedTo base (atSlot n k (e.apply (seen n k)) seen) m =
      e.apply (s.fedTo base seen m) := by
    rw [hfed, fedTo, h.inside m v hv hf, zero_add, s.inflow_atSlot slot suits]
  have flowing := h.setNode reply.node reply.out base (atSlot n k es lag) due
    (atSlot n k (e.apply (seen n k)) seen) (view m) hv hbare
    (h.inside m v hv) (fun _ _ => rfl) (fun j _ => by rw [still])
    (fun q hq => inflow _ fun e => hq (Receiver.node.inj e)) (fun I => inflow _ (by simp))
    (by rw [hfed']; exact hholds) (by rw [hfed']; exact hleads)
    (by funext j; exact if_neg fun e => hne e.1)
    (fun q j _ => passes_atSlot hl) (fun _ _ => rfl) fun side I a hs ha => h.side m v side I a hv hs ha
  rw [Function.update_eq_self] at flowing
  refine ⟨_, reply.out, _, step_deliver_node hv hreply, ⟨_, issues_answered, fun i hi => ?_⟩,
    flowing.of_eq vertices_answered arrangements_answered bare_answered⟩
  exact hissue i (Option.mem_toList.1 hi)

theorem slots_index (w : s.Wired) {I : IndexId} {b : Arrangement} (hb : s.arrangements[I]? = some b)
    {n : NodeId} {k : Nat} (hr : (s.receiversOf n)[k]? = some (.index I)) :
    n = b.parent ∧ s.slots (.index I) = {(n, k)} := by
  have source : ∀ {q j : Nat}, (s.receiversOf q)[j]? = some (Receiver.index I) → q = b.parent :=
    fun hq => (w.mem_receiversOf_index hb).1 (List.mem_of_getElem? hq)
  obtain rfl := source hr
  refine ⟨rfl, ?_⟩
  have hcard := s.card_slots (.index I) b.parent
  rw [w.parent _ I b hb, if_pos rfl, Finset.card_eq_one] at hcard
  obtain ⟨y, hy⟩ := hcard
  have same : ∀ x ∈ s.slots (.index I), x = y := fun x hx =>
    Finset.mem_singleton.1 (hy ▸ Finset.mem_filter.2 ⟨hx, source (s.mem_slots.1 hx)⟩)
  rw [same _ (s.mem_slots.2 hr)]
  exact Finset.eq_singleton_iff_unique_mem.2 ⟨same _ (s.mem_slots.2 hr) ▸ s.mem_slots.2 hr, same⟩

section index
variable (w : s.Wired) (h : Flowing s base net lag due seen view) {n : NodeId} {k : Nat} {I : IndexId}
  {a : Arrangement} {e : Event} {es : List Event}
include w h

theorem content_eq_seen (ha : net.arrangements[I]? = some a)
    (hr : (s.receiversOf n)[k]? = some (.index I)) : a.index.content = seen n k := by
  rw [(h.index I a ha).2, inflow, (slots_index w (h.arrangement ha) hr).2, Finset.sum_singleton]

theorem suits_index (ha : net.arrangements[I]? = some a)
    (hr : (s.receiversOf n)[k]? = some (.index I)) (hl : lag n k = e :: es) :
    e.Suits a.index.mask.width (a.index.unique = true) a.index.content := by
  have suits := h.suits_of_lag hr hl
  have hb := h.arrangement ha
  obtain ⟨hn, -⟩ := slots_index w hb hr
  have width : a.index.mask.width = s.widthOf n := by
    rw [hn]
    exact w.width I a.bare hb
  rw [h.content_eq_seen w ha hr, width]
  refine ⟨suits.width, fun hd hu => suits.insert hd ?_, suits.revoke⟩
  rw [hn]
  exact w.unique I a.bare hb hu

theorem mem_listenersOf_iff {q : NodeId} {v : Vertex} {side : Side} {J : IndexId}
    (hv : net.vertices[q]? = some v) (hs : v.node.source side = some J) :
    (q, side) ∈ s.listenersOf I ↔ J = I := by
  rw [w.listens]
  constructor
  · rintro ⟨u, hu, hsu⟩
    cases (h.vertex hv).symm.trans hu
    rw [← Node.source_bare v.node side] at hs
    exact Option.some.inj (hs.symm.trans hsu)
  · rintro rfl
    exact ⟨_, h.vertex hv, (Node.source_bare v.node side).trans hs⟩

end index

/-- When a change is delivered to an index, a notice of it is due to all its listeners. -/
theorem deliver_index (w : s.Wired) (h : Flowing s base net lag due seen view) {n : NodeId}
    {k : Nat} {I : IndexId} {e : Event} {es : List Event}
    (hr : (s.receiversOf n)[k]? = some (.index I)) (hl : lag n k = e :: es)
    (still : ∀ l ∈ s.listenersOf I, due l.1 l.2 = none) :
    ∃ net' change seen', net.step (.deliver (.index I) e) =
        .ok (net', (s.listenersOf I).map fun l => .notify l.1 l.2 e change) ∧
      OnlyFailures net net' ∧
      Flowing s base net' (atSlot n k es lag)
        (fun q side => if (q, side) ∈ s.listenersOf I then some (e, change) else due q side)
        seen' view := by
  obtain ⟨b, hb⟩ := w.indexed n I (List.mem_of_getElem? hr)
  obtain ⟨a, ha, rfl⟩ := h.exists_arrangement hb
  have hs := h.suits_index w ha hr hl
  obtain ⟨ix', transition, hup, hsound, hbare, hcont, htrans⟩ := (h.index I a ha).1.update hs
  obtain ⟨change, hchange⟩ :
      ∃ c, c = IndexChange.mk (a.index.mask.signature e.tuple) transition := ⟨_, rfl⟩
  have hfed : ∀ q, s.fedTo base (atSlot n k (e.apply (seen n k)) seen) q = s.fedTo base seen q := by
    intro q
    rw [fedTo, fedTo, s.inflow_atSlot_of_notMem fun hx => ?_]
    cases (s.mem_slots.1 hx).symm.trans hr
  have step : net.step (.deliver (.index I) e) =
      .ok (net.setIndex I ix', (s.listenersOf I).map fun l => .notify l.1 l.2 e change) := by
    have hlisteners : s.listenersOf I = a.listeners := by
      rw [listenersOf, hb]
      rfl
    rw [Network.step, deliverToIndex, Network.arrangement, ha, hlisteners, hchange]
    simp only [bind, Except.bind, hup]
    rfl
  refine ⟨_, change, atSlot n k (e.apply (seen n k)) seen, step, .of_eq rfl, ?_⟩
  constructor
  case bare => exact (bare_setIndex ha hbare).trans h.bare
  case inside => exact h.inside
  case holds => exact fun q v hv => hfed q ▸ h.holds q v hv
  case width => exact fun q v hv => hfed q ▸ h.width q v hv
  case flat => exact fun q v hv => hfed q ▸ h.flat q v hv
  case slot =>
    intro q v j hv hj
    rw [hfed q]
    exact (passes_atSlot hl).leads (h.slot q v j hv hj)
  case index =>
    intro J c hc
    rw [arrangements_setIndex] at hc
    by_cases hJ : I = J
    · subst hJ
      rw [if_pos rfl, ha] at hc
      cases hc
      refine ⟨hsound, ?_⟩
      rw [s.inflow_atSlot (s.mem_slots.2 hr) (h.suits_of_lag hr hl), ← (h.index I a ha).2, hcont]
    · rw [if_neg hJ] at hc
      rw [s.inflow_atSlot_of_notMem fun hx => hJ (Receiver.index.inj (Option.some.inj
        (hr.symm.trans (s.mem_slots.1 hx))))]
      exact h.index J c hc
  case side =>
    intro q v side J c hv hsrc hc
    have listens := h.mem_listenersOf_iff (I := I) w hv hsrc
    rw [arrangements_setIndex] at hc
    by_cases hJ : I = J
    · subst hJ
      rw [if_pos rfl, ha] at hc
      cases hc
      obtain ⟨hbehind, hnodup⟩ := h.side q v side I a hv hsrc ha
      rw [still _ (listens.2 rfl)] at hbehind
      have hview : view q side = a.index.content := hbehind
      rw [if_pos (listens.2 rfl)]
      dsimp only
      rw [Index.mask_eq_of_bare_eq hbare, Index.unique_eq_of_bare_eq hbare]
      refine ⟨⟨hview ▸ hs, hview ▸ hcont.symm, by rw [hchange], ?_⟩, hnodup⟩
      rw [hchange, hview]
      exact htrans
    · rw [if_neg hJ] at hc
      rw [if_neg fun hm => hJ (listens.1 hm).symm]
      exact h.side q v side J c hv hsrc hc

theorem setIndex (h : Flowing s base net lag due seen view) {I : IndexId} {a : Arrangement}
    {ix : Index} (ha : net.arrangements[I]? = some a) (hb : ix.bare = a.index.bare)
    (hs : ix.Sound) (hc : ix.content = a.index.content) :
    Flowing s base (net.setIndex I ix) lag due seen view := by
  have found : ∀ J (c : Arrangement), (net.setIndex I ix).arrangements[J]? = some c →
      (I = J ∧ c = { a with index := ix }) ∨ net.arrangements[J]? = some c := by
    intro J c hJ
    rw [arrangements_setIndex] at hJ
    split at hJ
    · next e =>
      subst e
      rw [ha] at hJ
      exact .inl ⟨rfl, (Option.some.inj hJ).symm⟩
    · exact .inr hJ
  refine ⟨(bare_setIndex ha hb).trans h.bare, h.inside, h.holds, h.width, h.flat, h.slot, ?_, ?_⟩
  · intro J c hJ
    obtain ⟨rfl, rfl⟩ | hJ := found J c hJ
    · exact ⟨hs, hc.trans (h.index I a ha).2⟩
    · exact h.index J c hJ
  · intro q v side J c hv hsrc hJ
    obtain ⟨rfl, rfl⟩ | hJ := found J c hJ
    · dsimp only
      rw [Index.mask_eq_of_bare_eq hb, Index.unique_eq_of_bare_eq hb, hc]
      exact h.side q v side I a hv hsrc ha
    · exact h.side q v side J c hv hsrc hJ

theorem width_view (h : Flowing s base net lag due seen view) {n : NodeId} {v : Vertex}
    {side : Side} {I : IndexId} {a : Arrangement} (hv : net.vertices[n]? = some v)
    (hs : v.node.source side = some I) (ha : net.arrangements[I]? = some a) :
    ∀ t ∈ view n side, t.length = a.index.mask.width := by
  have hb := (h.side n v side I a hv hs ha).1
  have hw := fun t => (h.index I a ha).1.width (t := t)
  cases hd : due n side with
  | none =>
    rw [hd] at hb
    rw [show view n side = _ from hb]
    exact hw
  | some notice =>
    rw [hd] at hb
    have leads : Leads a.index.mask.width (a.index.unique = true) (view n side) [notice.1]
      a.index.content := ⟨hb.1, hb.2.1⟩
    exact leads.width hw

theorem exists_source (w : s.Wired) (h : Flowing s base net lag due seen view) {n : NodeId}
    {v : Vertex} {side : Side} {I : IndexId} (hv : net.vertices[n]? = some v)
    (hs : v.node.source side = some I) :
    (n, side) ∈ s.listenersOf I ∧ ∃ a, net.arrangements[I]? = some a := by
  have hm : (n, side) ∈ s.listenersOf I := (w.listens n side I).2
    ⟨_, h.vertex hv, (Node.source_bare v.node side).trans hs⟩
  refine ⟨hm, ?_⟩
  cases hb : s.arrangements[I]? with
  | none =>
    rw [listenersOf, hb] at hm
    cases hm
  | some b =>
    obtain ⟨a, ha, -⟩ := h.exists_arrangement hb
    exact ⟨a, ha⟩

end Flowing
end Network

namespace Node

theorem source_of_consults {n : Node} {side : Side} {change : IndexChange} {I J : IndexId}
    (hs : n.source side = some I) (hc : n.consults side change = some J) :
    (side = .primary ∧ n.source .secondary = none ∧ J = I) ∨
      (side = .primary ∧ n.source .secondary = some J) ∨
      (side = .secondary ∧ n.source .primary = some J) := by
  cases n <;> cases side <;> simp_all [source, consults]

end Node

theorem Index.Sound.finds {ix : Index} (h : ix.Sound) (s : Tuple) :
    Finds (ix.bucket? s) (group ix.mask ix.content s) :=
  ⟨h.bucket_eq_filter s, (h.bucket?_eq_none_iff s).trans group_eq_zero_iff.symm⟩

namespace Network
namespace Flowing
variable {s net : Network} {base : NodeId → Multiset Tuple} {lag : NodeId → Nat → List Event}
  {due : NodeId → Side → Option IndexNotice} {seen : NodeId → Nat → Multiset Tuple}
  {view : NodeId → Side → Multiset Tuple}

theorem finds_consulted (w : s.Wired) (h : Flowing s base net lag due seen view) {n : NodeId}
    {v : Vertex} {side : Side} {I : IndexId} {e : Event} {c : IndexChange}
    (hv : net.vertices[n]? = some v) (hs : v.node.source side = some I)
    (hd : due n side = some (e, c))
    (other : ∀ o J, o ≠ side → (n, o) ∈ s.listenersOf J →
      due n o = if J = I ∧ side = .primary then some (e, c) else none)
    {J : IndexId} (hc : v.node.consults side c = some J) :
    ∃ b, net.arrangements[J]? = some b ∧ b.index.content = v.node.consulted side e (view n) := by
  rcases Node.source_of_consults hs hc with ⟨rfl, hsec, rfl⟩ | ⟨rfl, hsec⟩ | ⟨rfl, hprim⟩
  · obtain ⟨-, b, hb⟩ := exists_source w h hv hs
    have hbehind := (h.side n v .primary J b hv hs hb).1
    rw [hd] at hbehind
    refine ⟨b, hb, ?_⟩
    rw [Node.consulted_primary_of_none hsec]
    exact hbehind.2.1.symm
  · obtain ⟨hm, b, hb⟩ := exists_source w h hv hsec
    have hbehind := (h.side n v .secondary J b hv hsec hb).1
    rw [other .secondary J (by simp) hm] at hbehind
    refine ⟨b, hb, ?_⟩
    rw [Node.consulted_primary_of_some hsec, hs]
    by_cases hJ : J = I
    · rw [if_pos ⟨hJ, rfl⟩] at hbehind
      rw [if_pos (by rw [hJ])]
      exact hbehind.2.1.symm
    · rw [if_neg fun hx => hJ hx.1] at hbehind
      rw [if_neg fun hx => hJ (Option.some.inj hx).symm]
      exact (show view n .secondary = _ from hbehind).symm
  · obtain ⟨hm, b, hb⟩ := exists_source w h hv hprim
    have hbehind := (h.side n v .primary J b hv hprim hb).1
    rw [other .primary J (by simp) hm, if_neg (by simp)] at hbehind
    refine ⟨b, hb, ?_⟩
    rw [Node.consulted_secondary]
    exact (show view n .primary = _ from hbehind).symm

theorem consult (h : Flowing s base net lag due seen view) {id? : Option IndexId} (sig : Tuple)
    (hid : ∀ J, id? = some J → ∃ b, net.arrangements[J]? = some b) :
    ∃ net' bucket, net.consult id? sig = .ok (net', bucket) ∧ net'.vertices = net.vertices ∧
      net'.issues = net.issues ∧ Flowing s base net' lag due seen view ∧
      ∀ J b, id? = some J → net.arrangements[J]? = some b → bucket = b.index.bucket? sig := by
  cases id? with
  | none => exact ⟨net, none, rfl, rfl, rfl, h, fun J b hJ => by cases hJ⟩
  | some J =>
    obtain ⟨b, hb⟩ := hid J rfl
    refine ⟨net.setIndex J (b.index.probe sig).1, b.index.bucket? sig, ?_, rfl, rfl,
      h.setIndex hb (Index.bare_probe _ _) ((h.index J b hb).1.probe sig)
        (Index.content_probe _ _), fun J' b' hJ hb' => ?_⟩
    · rw [Network.consult, Network.index, Network.arrangement, hb]
      rfl
    · cases hJ
      rw [hb] at hb'
      cases hb'
      rfl

/-- A node to which a notice is due is told of the change that the notice is of. -/
theorem told (w : s.Wired) (h : Flowing s base net lag due seen view) {n : NodeId} {v : Vertex}
    {side : Side} {I : IndexId} {e : Event} {c : IndexChange} (hv : net.vertices[n]? = some v)
    (hs : v.node.source side = some I) (hd : due n side = some (e, c))
    (other : ∀ o J, o ≠ side → (n, o) ∈ s.listenersOf J →
      due n o = if J = I ∧ side = .primary then some (e, c) else none) :
    v.node.Told s.maskOf s.uniqueOf side e c (view n) I := by
  obtain ⟨-, a, ha⟩ := exists_source w h hv hs
  have hbehind := (h.side n v side I a hv hs ha).1
  rw [hd] at hbehind
  obtain ⟨suits, happ, hsig, htrans⟩ := hbehind
  rw [← h.maskOf ha] at hsig htrans
  refine ⟨hs, ?_, hsig, htrans, ?_, ?_, ?_⟩
  · rw [h.maskOf ha, h.uniqueOf ha]
    exact suits
  · intro t J hJ
    obtain ⟨-, b, hb⟩ := exists_source w h hv hJ
    rw [h.maskOf hb]
    exact h.width_view hv hJ hb
  · intro t J hJ hu
    obtain ⟨-, b, hb⟩ := exists_source w h hv hJ
    rw [h.uniqueOf hb] at hu
    exact (h.side n v t J b hv hJ hb).2 hu
  · rintro rfl hsec
    obtain ⟨hm, -⟩ := exists_source w h hv hsec
    have hb := (h.side n v .secondary I a hv hsec ha).1
    rw [other .secondary I (by simp) hm, if_pos ⟨rfl, rfl⟩] at hb
    exact Event.eq_of_apply_eq hb.1 suits (hb.2.1.trans happ.symm)

/-- When a node has been notified, the change of its output is on the way to its receivers. -/
theorem notify (w : s.Wired) (h : Flowing s base net lag due seen view) {n : NodeId} {side : Side}
    {I : IndexId} {e : Event} {c : IndexChange} (hl : (n, side) ∈ s.listenersOf I)
    (hd : due n side = some (e, c))
    (other : ∀ o J, o ≠ side → (n, o) ∈ s.listenersOf J →
      due n o = if J = I ∧ side = .primary then some (e, c) else none)
    (still : lag n = fun _ => []) :
    ∃ net' out view', net.step (.notify n side e c) = .ok (net', out.map (Task.propagate n)) ∧
      OnlyFailures net net' ∧ Flowing s base net' (Function.update lag n fun _ => out)
        (fun q t => if q = n ∧ t = side then none else due q t) seen view' := by
  obtain ⟨v₀, hv₀, hs₀⟩ := (w.listens n side I).1 hl
  obtain ⟨v, hv, rfl⟩ := h.exists_vertex hv₀
  have hs : v.node.source side = some I :=
    (Node.source_bare v.node side).symm.trans hs₀
  have told := told w h hv hs hd other
  obtain ⟨width, hfits, -⟩ := w.fits n _ (h.vertex hv)
  have hfits : v.node.Fits s.maskOf width v.arity := (Node.fits_bare _).1 hfits
  have found := fun J (hJ : v.node.consults side c = some J) => finds_consulted w h hv hs hd other hJ
  obtain ⟨net₁, bucket, hconsult, hvertices, hissues, h₁, hbucket⟩ :=
    h.consult c.signature fun J hJ => (found J hJ).imp fun _ hb => hb.1
  have finds : ∀ J, v.node.consults side c = some J → Finds bucket
      (group (s.maskOf J) (v.node.consulted side e (view n)) c.signature) := by
    intro J hJ
    obtain ⟨b, hb, hcont⟩ := found J hJ
    rw [hbucket J b hJ hb, ← hcont, h.maskOf hb]
    exact (h.index J b hb).1.finds _
  obtain ⟨n', out, hrespond, hbare, hholds, hleads⟩ := Node.respond_responds
    (∃ p rest, v.parents = p :: rest ∧ s.Flat p) hfits (h.holds n v hv) told finds
  have hv₁ : net₁.vertices[n]? = some v := hvertices ▸ hv
  have flowing := h₁.setNode n' out base lag
    (fun q t => if q = n ∧ t = side then none else due q t) seen
    (onSide side (e.apply (view n side)) (view n)) hv₁ hbare (h.inside n v hv)
    (fun _ _ => rfl) (fun j _ => by rw [still]) (fun _ _ => rfl) (fun _ => rfl) hholds
    (hleads.weaken fun hf => h.flat_node hv hf) rfl (fun _ _ _ => .inl ⟨rfl, rfl⟩)
    (fun q hq => funext fun t => if_neg fun hx => hq hx.1) (fun t J b hJ hb => by
      by_cases ht : t = side
      · subst ht
        cases hs.symm.trans hJ
        obtain ⟨hbehind, -⟩ := h₁.side n v t I b hv₁ hs hb
        rw [hd] at hbehind
        rw [onSide_self, if_pos ⟨rfl, rfl⟩]
        exact ⟨hbehind.2.1, fun hu => hbehind.1.nodup_apply hu
          ((h₁.side n v t I b hv₁ hs hb).2 hu)⟩
      · rw [onSide_of_ne ht, if_neg fun hx => ht hx.2]
        exact h₁.side n v t J b hv₁ hJ hb)
  exact ⟨net₁.setNode n n', out, _, step_notify hv hconsult hrespond, .of_eq hissues, flowing⟩

end Flowing
end Network
end Motif
