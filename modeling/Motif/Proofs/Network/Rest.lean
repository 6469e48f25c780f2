import Motif.Proofs.Network.Settling

set_option autoImplicit false
namespace Motif

theorem Node.isFed_of_bare_eq {n n' : Node} (h : n'.bare = n.bare) : n'.isFed = n.isFed := by
  rw [← Node.isFed_bare n', h, Node.isFed_bare]

theorem Node.isProduction_of_bare_eq {n n' : Node} (h : n'.bare = n.bare) :
    n'.isProduction = n.isProduction := by
  rw [← Node.isProduction_bare n', h, Node.isProduction_bare]

theorem Node.fits_of_bare_eq {n n' : Node} {masks : IndexId → Mask} {width arity : Nat}
    (h : n'.bare = n.bare) : n'.Fits masks width arity ↔ n.Fits masks width arity := by
  rw [← Node.fits_bare n', h, Node.fits_bare]

theorem Node.exists_input_of_bare_eq {n n' : Node} (h : n'.bare = n.bare) {r : Relation}
    (hn : ∃ u memory, n = .input r u memory) : ∃ u memory, n' = .input r u memory := by
  obtain ⟨u, memory, rfl⟩ := hn
  cases n' with
  | input r' u' memory' =>
    cases h
    exact ⟨_, _, rfl⟩
  | _ => cases h

theorem Vertex.eq_of_bare_eq {v v' : Vertex} (h : v.bare = v'.bare) :
    v'.node.bare = v.node.bare ∧ v'.parents = v.parents ∧ v'.arity = v.arity := by
  obtain ⟨n, parents, receivers, arity⟩ := v
  obtain ⟨n', parents', receivers', arity'⟩ := v'
  obtain ⟨hn, hp, -, ha⟩ := Vertex.mk.inj h
  exact ⟨hn.symm, hp.symm, ha.symm⟩

theorem Arrangement.eq_of_bare_eq {a a' : Arrangement} (h : a.bare = a'.bare) :
    a'.parent = a.parent ∧ a'.index.mask = a.index.mask ∧ a'.index.unique = a.index.unique := by
  obtain ⟨p, ix, ls⟩ := a
  obtain ⟨p', ix', ls'⟩ := a'
  obtain ⟨hp, hi, -⟩ := Arrangement.mk.inj h
  exact ⟨hp.symm, (congrArg Index.mask hi).symm, (congrArg Index.unique hi).symm⟩

namespace Network

def parentOf (net : Network) (I : IndexId) : NodeId := net.arrangements[I]?.elim 0 Arrangement.parent

def fedBy (val : NodeId → Multiset Tuple) (v : Vertex) : Multiset Tuple :=
  match v.node with
  | .input _ _ memory => memory.toMultiset
  | _ => (v.parents.map val).sum

def viewBy (net : Network) (val : NodeId → Multiset Tuple) (v : Vertex) (side : Side) :
    Multiset Tuple :=
  (v.node.source side).elim 0 fun I => val (net.parentOf I)

/-- Every node puts out what its kind makes of what the nodes before it put out. -/
def Means (net : Network) (val : NodeId → Multiset Tuple) : Prop :=
  ∀ (q : NodeId) (v : Vertex), net.vertices[q]? = some v →
    val q = v.node.output net.maskOf (fedBy val v) (net.viewBy val v)

structure AtRest (net : Network) (val : NodeId → Multiset Tuple) : Prop where
  means : net.Means val
  holds : ∀ (q : NodeId) (v : Vertex), net.vertices[q]? = some v →
    v.node.Holds net.maskOf (fedBy val v) (net.viewBy val v)
  width : ∀ (q : NodeId) (v : Vertex), net.vertices[q]? = some v → ∀ t ∈ val q, t.length = v.arity
  flat : ∀ q, q < net.vertices.size → net.Flat q → (val q).Nodup
  index : ∀ (I : IndexId) (a : Arrangement), net.arrangements[I]? = some a →
    a.index.Sound ∧ a.index.content = val a.parent

section bare
variable (net : Network)

@[simp] theorem parentOf_bare : net.bare.parentOf = net.parentOf := by
  funext I
  rw [parentOf, parentOf, arrangements_bare]
  cases net.arrangements[I]? <;> rfl

theorem index_bare_unique (I : IndexId) :
    Index.unique <$> net.bare.index I = Index.unique <$> net.index I := by
  rw [index, index, arrangement, arrangement, arrangements_bare]
  cases net.arrangements[I]? <;> rfl

theorem producesSetWithin_bare (depth : Nat) (q : NodeId) :
    net.bare.producesSetWithin depth q = net.producesSetWithin depth q := by
  induction depth generalizing q with
  | zero => rfl
  | succ depth ih =>
    have first : ∀ parents, firstHas (net.bare.producesSetWithin depth) parents =
        firstHas (net.producesSetWithin depth) parents := by
      intro parents
      cases parents with
      | nil => rfl
      | cons p rest => exact ih p
    have both : ∀ p s : IndexId, (do
        if (← net.bare.index p).unique then return (← net.bare.index s).unique else return false) =
          (do if (← net.index p).unique then return (← net.index s).unique else return false :
            Except Fault Bool) := by
      intro p s
      have hp := net.index_bare_unique p
      have hs := net.index_bare_unique s
      cases h : net.bare.index p <;> cases h' : net.index p <;> rw [h, h'] at hp
      · cases hp
        rfl
      · cases hp
      · cases hp
      · have hu := Except.ok.inj hp
        simp only [bind, Except.bind, hu]
        split
        · exact hs
        · rfl
    rw [producesSetWithin, producesSetWithin, vertex, vertex, vertices_bare]
    cases hv : net.vertices[q]? with
    | none => rfl
    | some v =>
      obtain ⟨n, parents, receivers, arity⟩ := v
      cases n with
      | trim mask =>
        by_cases hm : mask.isIdentity = true
        · simp only [Option.map_some, Vertex.bare, Node.bare, bind, Except.bind, hm, if_true]
          exact first parents
        · simp only [Option.map_some, Vertex.bare, Node.bare, bind, Except.bind, hm]
          rfl
      | constantFilter _ _ | equalityFilter _ | inequalityFilter _ _ | expression _ =>
        exact first parents
      | join p s _ | outerJoin p s _ _ => exact both p s
      | existence p _ _ => exact net.index_bare_unique p
      | _ => rfl

theorem flat_bare (q : NodeId) : net.bare.Flat q ↔ net.Flat q := by
  simp only [Flat, producesSetWithin_bare]

theorem bare_bare : net.bare.bare = net.bare := by
  simp [bare, Function.comp_def, Vertex.bare, Arrangement.bare, Index.bare]

theorem size_vertices_bare : net.bare.vertices.size = net.vertices.size := Array.size_map ..

variable {net}

theorem vertices_bare_eq_some {q : NodeId} {w : Vertex} :
    net.bare.vertices[q]? = some w ↔ ∃ v, net.vertices[q]? = some v ∧ v.bare = w := by
  rw [vertices_bare, Option.map_eq_some_iff]

theorem arrangements_bare_eq_some {I : IndexId} {b : Arrangement} :
    net.bare.arrangements[I]? = some b ↔ ∃ a, net.arrangements[I]? = some a ∧ a.bare = b := by
  rw [arrangements_bare, Option.map_eq_some_iff]

theorem vertex_bare {q : NodeId} {v : Vertex} (h : net.vertices[q]? = some v) :
    net.bare.vertices[q]? = some v.bare := vertices_bare_eq_some.2 ⟨v, h, rfl⟩

theorem arrangement_bare {I : IndexId} {a : Arrangement} (h : net.arrangements[I]? = some a) :
    net.bare.arrangements[I]? = some a.bare := arrangements_bare_eq_some.2 ⟨a, h, rfl⟩

end bare

section
variable {net net' : Network} (h : net'.bare = net.bare)
include h

theorem exists_vertex_of_bare_eq {q : NodeId} {v' : Vertex} (hv : net'.vertices[q]? = some v') :
    ∃ v, net.vertices[q]? = some v ∧ v.bare = v'.bare :=
  vertices_bare_eq_some.1 (h ▸ vertex_bare hv)

theorem exists_arrangement_of_bare_eq {I : IndexId} {a' : Arrangement}
    (ha : net'.arrangements[I]? = some a') :
    ∃ a, net.arrangements[I]? = some a ∧ a.bare = a'.bare :=
  arrangements_bare_eq_some.1 (h ▸ arrangement_bare ha)

theorem receiversOf_of_bare_eq : net'.receiversOf = net.receiversOf := by
  funext q
  rw [← receiversOf_bare, h, receiversOf_bare]

theorem listenersOf_of_bare_eq : net'.listenersOf = net.listenersOf := by
  funext q
  rw [← listenersOf_bare, h, listenersOf_bare]

theorem widthOf_of_bare_eq : net'.widthOf = net.widthOf := by
  funext q
  rw [← widthOf_bare, h, widthOf_bare]

theorem flat_of_bare_eq (q : NodeId) : net'.Flat q ↔ net.Flat q := by
  rw [← flat_bare, h, flat_bare]

theorem exists_node_of_bare_eq (P : Node → Prop)
    (hP : ∀ {n n' : Node}, n.bare = n'.bare → P n' → P n) {q : NodeId} :
    (∃ v, net'.vertices[q]? = some v ∧ P v.node) → ∃ v, net.vertices[q]? = some v ∧ P v.node := by
  rintro ⟨v', hv', hn⟩
  obtain ⟨v, hv, e⟩ := exists_vertex_of_bare_eq h hv'
  exact ⟨v, hv, hP (Vertex.eq_of_bare_eq e).1.symm hn⟩

theorem exists_node_iff_of_bare_eq (P : Node → Prop)
    (hP : ∀ {n n' : Node}, n.bare = n'.bare → P n' → P n) {q : NodeId} :
    (∃ v, net'.vertices[q]? = some v ∧ P v.node) ↔ ∃ v, net.vertices[q]? = some v ∧ P v.node :=
  ⟨exists_node_of_bare_eq h P hP, exists_node_of_bare_eq h.symm P hP⟩

/-- Whether the parts of a network fit together does not depend on what they hold. -/
theorem Wired.of_bare_eq (w : net.Wired) : net'.Wired := by
  have hmask : net'.maskOf = net.maskOf := by rw [← maskOf_bare, h, maskOf_bare]
  have hmap : net'.bare.arranged = net.bare.arranged := by rw [h]
  have hin : net'.bare.inputs = net.bare.inputs := by rw [h]
  have hr := receiversOf_of_bare_eq h
  have hl := listenersOf_of_bare_eq h
  constructor
  case fed =>
    intro q m hm
    rw [hr] at hm
    exact exists_node_of_bare_eq h.symm (·.isFed = true)
      (fun e hf => (Node.isFed_of_bare_eq e).trans hf) (w.fed q m hm)
  case parents =>
    intro q m v' hv' hf
    obtain ⟨v, hv, e⟩ := exists_vertex_of_bare_eq h hv'
    obtain ⟨hn, hp, -⟩ := Vertex.eq_of_bare_eq e
    rw [hr, hp]
    exact w.parents q m v hv ((Node.isFed_of_bare_eq hn).symm.trans hf)
  case earlier =>
    intro m v' hv' hf hprod
    obtain ⟨v, hv, e⟩ := exists_vertex_of_bare_eq h hv'
    obtain ⟨hn, hp, -⟩ := Vertex.eq_of_bare_eq e
    rw [hp]
    exact w.earlier m v hv ((Node.isFed_of_bare_eq hn).symm.trans hf)
      ((Node.isProduction_of_bare_eq hn).symm.trans hprod)
  case indexed =>
    intro q I hI
    rw [hr] at hI
    obtain ⟨a, ha⟩ := w.indexed q I hI
    obtain ⟨a', ha', -⟩ := exists_arrangement_of_bare_eq h.symm ha
    exact ⟨a', ha'⟩
  case parent =>
    intro q I a' ha'
    obtain ⟨a, ha, e⟩ := exists_arrangement_of_bare_eq h ha'
    rw [hr, w.parent q I a ha, (Arrangement.eq_of_bare_eq e).1]
  case fits =>
    intro q v' hv'
    obtain ⟨v, hv, e⟩ := exists_vertex_of_bare_eq h hv'
    obtain ⟨hn, hpar, ha⟩ := Vertex.eq_of_bare_eq e
    obtain ⟨width, hf, hp⟩ := w.fits q v hv
    refine ⟨width, ?_, fun hfed p hm => ?_⟩
    · rw [hmask, Node.fits_of_bare_eq hn, ha]
      exact hf
    · rw [widthOf_of_bare_eq h]
      exact hp ((Node.isFed_of_bare_eq hn).symm.trans hfed) p (hpar ▸ hm)
  case width =>
    intro I a' ha'
    obtain ⟨a, ha, e⟩ := exists_arrangement_of_bare_eq h ha'
    obtain ⟨hp, hm, -⟩ := Arrangement.eq_of_bare_eq e
    rw [widthOf_of_bare_eq h, hp, hm, w.width I a ha]
  case unique =>
    intro I a' ha' hunique
    obtain ⟨a, ha, e⟩ := exists_arrangement_of_bare_eq h ha'
    obtain ⟨hp, -, hu⟩ := Arrangement.eq_of_bare_eq e
    rw [flat_of_bare_eq h, hp]
    exact w.unique I a ha (hu.symm.trans hunique)
  case listens =>
    intro n side I
    rw [hl, w.listens]
    exact (exists_node_iff_of_bare_eq h (·.source side = some I) fun e hs =>
      (Node.source_of_bare_eq e side).trans hs).symm
  case nodup => exact hl ▸ w.nodup
  case order => exact hl ▸ w.order
  case inputs =>
    intro r id
    rw [show net'.inputs = net.inputs from hin, w.inputs]
    simp only [exists_and_left]
    exact (exists_node_iff_of_bare_eq h (fun n => ∃ u memory, n = .input r u memory) fun e hn =>
      Node.exists_input_of_bare_eq e hn).symm
  case arranged =>
    intro p m I hI
    rw [show net'.arranged = net.arranged from hmap] at hI
    obtain ⟨a, ha, hp, hm⟩ := w.arranged p m I hI
    obtain ⟨a', ha', e⟩ := exists_arrangement_of_bare_eq h.symm ha
    obtain ⟨hp', hm', -⟩ := Arrangement.eq_of_bare_eq e
    exact ⟨a', ha', hp'.symm.trans hp, hm'.symm.trans hm⟩

end

theorem Wired.bare {net : Network} (w : net.Wired) : net.bare.Wired := w.of_bare_eq net.bare_bare

section
variable {net : Network} {val : NodeId → Multiset Tuple}

theorem fedBy_of_isInput {v : Vertex} {r : Relation} {u : Bool} {memory : Bag Tuple}
    (h : v.node = .input r u memory) : fedBy val v = memory.toMultiset := by
  rw [fedBy, h]

theorem fedBy_of_isFed {v : Vertex} (h : v.node.isFed = true) :
    fedBy val v = (v.parents.map val).sum := by
  obtain ⟨n, parents, receivers, arity⟩ := v
  cases n <;> first | rfl | cases h

theorem viewBy_of_source {v : Vertex} {side : Side} {I : IndexId}
    (h : v.node.source side = some I) : net.viewBy val v side = val (net.parentOf I) := by
  rw [viewBy, h]
  rfl

theorem parentOf_eq {I : IndexId} {a : Arrangement} (h : net.arrangements[I]? = some a) :
    net.parentOf I = a.parent := by
  rw [parentOf, h]
  rfl

theorem maskOf_eq {I : IndexId} {a : Arrangement} (h : net.arrangements[I]? = some a) :
    net.maskOf I = a.index.mask := by
  rw [maskOf, h]
  rfl

theorem receiversOf_eq {q : NodeId} {v : Vertex} (h : net.vertices[q]? = some v) :
    net.receiversOf q = v.receivers := by
  rw [receiversOf, h]
  rfl

/-- What the inputs have been given from outside. -/
def given (net : Network) (q : NodeId) : Multiset Tuple :=
  net.vertices[q]?.elim 0 fun v =>
    match v.node with
    | .input _ _ memory => memory.toMultiset
    | _ => 0

theorem given_of_isFed {q : NodeId} {v : Vertex} (hv : net.vertices[q]? = some v)
    (h : v.node.isFed = true) : net.given q = 0 := by
  obtain ⟨n, parents, receivers, arity⟩ := v
  rw [given, hv]
  cases n <;> first | rfl | cases h

theorem exists_slot_of_index (w : net.Wired) {I : IndexId} {a : Arrangement}
    (ha : net.arrangements[I]? = some a) :
    ∃ k : Nat, (net.receiversOf a.parent)[k]? = some (.index I) :=
  List.mem_iff_getElem?.1 ((w.mem_receiversOf_index ha).2 rfl)

/-- When nothing is on its way, the network is at rest. -/
theorem Flowing.atRest {s : Network} {base : NodeId → Multiset Tuple}
    {seen : NodeId → Nat → Multiset Tuple} {view : NodeId → Side → Multiset Tuple} (w : s.Wired)
    (h : Flowing s base net (fun _ _ => []) (fun _ _ => none) seen view) :
    ∃ val, net.AtRest val := by
  obtain ⟨val, hval⟩ : ∃ val : NodeId → Multiset Tuple, ∀ (q : NodeId) (v : Vertex),
      net.vertices[q]? = some v → val q = v.node.output s.maskOf (s.fedTo base seen q) (view q) :=
    ⟨fun q => net.vertices[q]?.elim 0 fun v =>
      v.node.output s.maskOf (s.fedTo base seen q) (view q), fun q v hv => by simp [hv]⟩
  have hmask : net.maskOf = s.maskOf := by rw [← h.bare, maskOf_bare]
  have hseen : ∀ (q : NodeId) (k : Nat) (R : Receiver), (s.receiversOf q)[k]? = some R →
      seen q k = val q := by
    intro q k R hr
    obtain ⟨u, hu, hk, -⟩ := h.vertex_of_slot hr
    rw [hval q u hu]
    exact (h.slot q u k hu hk).1
  have hindex : ∀ (I : IndexId) (a : Arrangement), net.arrangements[I]? = some a →
      a.index.content = val a.parent := by
    intro I a ha
    obtain ⟨k, hk⟩ := exists_slot_of_index w (h.arrangement ha)
    rw [(h.index I a ha).2, inflow, (slots_index w (h.arrangement ha) hk).2, Finset.sum_singleton]
    exact hseen _ _ _ hk
  have hfed : ∀ (q : NodeId) (v : Vertex), net.vertices[q]? = some v →
      v.node.isFed = true ∨ v.node.isInput = true → s.fedTo base seen q = fedBy val v := by
    rintro q v hv (hf | hi)
    · rw [fedBy_of_isFed hf, fedTo, h.inside q v hv hf, zero_add, inflow,
        Finset.sum_congr rfl fun x hx => hseen x.1 x.2 _ (s.mem_slots.1 hx)]
      exact s.sum_slots (fun p => w.parents p q _ (h.vertex hv) ((Node.isFed_bare _).trans hf)) val
    · have holds := h.holds q v hv
      obtain ⟨n, parents, receivers, arity⟩ := v
      cases n <;> first | exact (show _ = _ from holds).symm | cases hi
  have hview : ∀ (q : NodeId) (v : Vertex) (side : Side) (I : IndexId),
      net.vertices[q]? = some v → v.node.source side = some I →
      view q side = net.viewBy val v side := by
    intro q v side I hv hs
    obtain ⟨-, a, ha⟩ := exists_source w h hv hs
    rw [viewBy_of_source hs, parentOf_eq ha, ← hindex I a ha]
    exact (h.side q v side I a hv hs ha).1
  refine ⟨val, fun q v hv => ?_, fun q v hv => ?_, fun q v hv => ?_, fun q hq hf => ?_,
    fun I a ha => ⟨(h.index I a ha).1, hindex I a ha⟩⟩
  · rw [hval q v hv, hmask]
    exact Node.output_congr (hfed q v hv) fun side I => hview q v side I hv
  · rw [hmask, ← Node.holds_congr (hfed q v hv) fun side I => hview q v side I hv]
    exact h.holds q v hv
  · rw [hval q v hv]
    exact h.width q v hv
  · rw [hval q _ (Array.getElem?_eq_getElem hq)]
    rw [← flat_bare, h.bare] at hf
    exact h.flat q _ (Array.getElem?_eq_getElem hq) hf

/-- A network at rest is one with nothing on its way. -/
theorem AtRest.flowing (w : net.Wired) (h : net.AtRest val) :
    ∃ view, Flowing net.bare net.given net (fun _ _ => []) (fun _ _ => none) (fun q _ => val q)
      view := by
  replace w := w.bare
  obtain ⟨view, hview⟩ : ∃ view : NodeId → Side → Multiset Tuple, ∀ (q : NodeId) (v : Vertex),
      net.vertices[q]? = some v → view q = net.viewBy val v :=
    ⟨fun q => net.vertices[q]?.elim (fun _ => 0) (net.viewBy val), fun q v hv => by simp [hv]⟩
  have hfed : ∀ (q : NodeId) (v : Vertex), net.vertices[q]? = some v →
      v.node.isFed = true ∨ v.node.isInput = true →
      net.bare.fedTo net.given (fun q _ => val q) q = fedBy val v := by
    rintro q v hv (hf | hi)
    · rw [fedBy_of_isFed hf, fedTo, given_of_isFed hv hf, zero_add, inflow]
      exact net.bare.sum_slots
        (fun p => w.parents p q _ (vertex_bare hv) ((Node.isFed_bare _).trans hf)) val
    · have none : net.bare.slots (.node q) = ∅ := by
        refine Finset.eq_empty_of_forall_notMem fun x hx => ?_
        obtain ⟨v', hv', hf⟩ := w.fed x.1 q (List.mem_of_getElem? (net.bare.mem_slots.1 hx))
        cases (vertex_bare hv).symm.trans hv'
        rw [show v.bare.node = v.node.bare from rfl, Node.isFed_bare] at hf
        cases hn : v.node <;> simp_all [Node.isInput, Node.isFed]
      rw [fedTo, inflow, none, Finset.sum_empty, add_zero, given, hv]
      obtain ⟨n, parents, receivers, arity⟩ := v
      cases n <;> first | rfl | cases hi
  have hout : ∀ (q : NodeId) (v : Vertex), net.vertices[q]? = some v →
      v.node.output net.bare.maskOf (net.bare.fedTo net.given (fun q _ => val q) q) (view q) =
        val q := by
    intro q v hv
    rw [h.means q v hv, maskOf_bare, hview q v hv]
    exact Node.output_congr (hfed q v hv) fun _ _ _ => rfl
  refine ⟨view, ?_⟩
  constructor
  case bare => rfl
  case inside => exact fun q v hv hf => given_of_isFed hv hf
  case holds =>
    intro q v hv
    rw [maskOf_bare, hview q v hv, Node.holds_congr (hfed q v hv) fun _ _ _ => rfl]
    exact h.holds q v hv
  case width =>
    intro q v hv
    rw [hout q v hv]
    exact h.width q v hv
  case flat =>
    intro q v hv hf
    rw [hout q v hv]
    exact h.flat q (Array.getElem?_eq_some_iff.1 hv).1 ((net.flat_bare q).1 hf)
  case slot =>
    intro q v k hv hk
    rw [hout q v hv]
    exact ⟨Leads.refl _, fun hf =>
      h.flat q (Array.getElem?_eq_some_iff.1 hv).1 ((net.flat_bare q).1 hf)⟩
  case index =>
    intro I a ha
    refine ⟨(h.index I a ha).1, ?_⟩
    obtain ⟨k, hk⟩ := exists_slot_of_index w (arrangement_bare ha)
    rw [(h.index I a ha).2, inflow, (Flowing.slots_index w (arrangement_bare ha) hk).2,
      Finset.sum_singleton]
    rfl
  case side =>
    intro q v side I a hv hs ha
    have content := (h.index I a ha).2
    rw [hview q v hv, viewBy_of_source hs, parentOf_eq ha, ← content]
    refine ⟨rfl, fun hu => content ▸ ?_⟩
    have hf := w.unique I _ (arrangement_bare ha) hu
    have hp := exists_slot_of_index w (arrangement_bare ha)
    obtain ⟨k, hk⟩ := hp
    have hlt := net.bare.lt_size_of_receiversOf_ne_nil
      (List.ne_nil_of_mem (List.mem_of_getElem? hk))
    rw [size_vertices_bare] at hlt
    exact h.flat a.parent hlt ((net.flat_bare _).1 hf)

end

def contentOf (net : Network) (I : IndexId) : Multiset Tuple :=
  net.arrangements[I]?.elim 0 fun a => a.index.content

theorem contentOf_eq {net : Network} {I : IndexId} {a : Arrangement}
    (h : net.arrangements[I]? = some a) : net.contentOf I = a.index.content := by
  rw [contentOf, h]
  rfl

theorem contentOf_setIndex {net : Network} {I J : IndexId} {a : Arrangement} {ix : Index}
    (ha : net.arrangements[I]? = some a) :
    (net.setIndex I ix).contentOf J = if I = J then ix.content else net.contentOf J := by
  rw [contentOf, contentOf, arrangements_setIndex]
  by_cases hJ : I = J
  · subst hJ
    rw [if_pos rfl, if_pos rfl, ha]
    rfl
  · rw [if_neg hJ, if_neg hJ]

end Network
end Motif
