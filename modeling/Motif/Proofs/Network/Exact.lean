import Motif.Proofs.Network.Indexing

/-!
Networks built and updated call by call. As long as no cycle is closed and no index has two nodes
for listeners, every call succeeds, and after each the output of every node is what the relations
given to the inputs make it.
-/
set_option autoImplicit false
namespace Motif
namespace Network

inductive Call where
  | input (relation : Relation) (arity : Nat) (unique : Bool)
  | constant (rows : List Tuple) (arity : Nat)
  | trim (parent : NodeId) (mask : Mask)
  | constantFilter (parent : NodeId) (column : Nat) (value : Value)
  | equalityFilter (parent : NodeId) (groups : List (List Nat))
  | inequalityFilter (parent : NodeId) (left right : Nat)
  | expression (parent : NodeId) (evaluator : Evaluator) (inputs : List Nat) (mode : ExpressionMode)
  | index (parent : NodeId) (mask : Mask)
  | join (primary : NodeId) (primaryMask : Mask) (secondary : NodeId) (secondaryMask : Mask)
  | existence (primary : NodeId) (primaryMask : Mask) (secondary : NodeId) (secondaryMask : Mask)
    (negative : Bool)
  | outerJoin (primary : NodeId) (primaryMask : Mask) (secondary : NodeId) (secondaryMask : Mask)
    (defaults : Tuple)
  | grouping (parent : NodeId) (mask : Mask) (operator : Aggregator) (column : Option Nat)
  | closure (parent : NodeId)
  | uniqueness (parent : NodeId)
  | production (query : String) (arity : Nat)
  | connect (production parent : NodeId)
  | update (relation : Relation) (e : Event)

def perform (net : Network) : Call → Except Fault Network
  | .input r arity unique => .ok (net.addInput r arity unique).1
  | .constant rows arity => .ok (net.addConstant rows arity).1
  | .trim p mask => Prod.fst <$> net.addTrim p mask
  | .constantFilter p column value => Prod.fst <$> net.addConstantFilter p column value
  | .equalityFilter p groups => Prod.fst <$> net.addEqualityFilter p groups
  | .inequalityFilter p left right => Prod.fst <$> net.addInequalityFilter p left right
  | .expression p evaluator inputs mode => Prod.fst <$> net.addExpression p evaluator inputs mode
  | .index p mask => Prod.fst <$> net.indexFor p mask
  | .join p pm q sm => Prod.fst <$> net.addJoin p pm q sm
  | .existence p pm q sm negative => Prod.fst <$> net.addExistence p pm q sm negative
  | .outerJoin p pm q sm defaults => Prod.fst <$> net.addOuterJoin p pm q sm defaults
  | .grouping p mask operator column => Prod.fst <$> net.addGrouping p mask operator column
  | .closure p => Prod.fst <$> net.addClosure p
  | .uniqueness p => Prod.fst <$> net.addUniqueness p
  | .production query arity => .ok (net.addProduction query arity).1
  | .connect m p => net.connect m p
  | .update r e => Prod.fst <$> net.update r e

/-- The nodes are there, the widths fit, and no cycle is closed. -/
def Fitting (net : Network) : Call → Prop
  | .input .. | .production .. => True
  | .constant rows arity => ∀ t ∈ rows, t.length = arity
  | .trim p mask | .index p mask => p < net.vertices.size ∧ mask.width = net.widthOf p
  | .constantFilter p column _ => p < net.vertices.size ∧ column < net.widthOf p
  | .equalityFilter p groups => p < net.vertices.size ∧ ∀ g ∈ groups, ∀ c ∈ g, c < net.widthOf p
  | .inequalityFilter p left right =>
    p < net.vertices.size ∧ left < net.widthOf p ∧ right < net.widthOf p
  | .expression p _ inputs _ => p < net.vertices.size ∧ ∀ c ∈ inputs, c < net.widthOf p
  | .join p pm q sm | .existence p pm q sm _ =>
    (p < net.vertices.size ∧ pm.width = net.widthOf p) ∧
      q < net.vertices.size ∧ sm.width = net.widthOf q
  | .outerJoin p pm q sm defaults =>
    ((p < net.vertices.size ∧ pm.width = net.widthOf p) ∧
      q < net.vertices.size ∧ sm.width = net.widthOf q) ∧ sm.complement.arity = defaults.arity
  | .grouping p mask _ column =>
    (p < net.vertices.size ∧ mask.width = net.widthOf p) ∧ ∀ c, column = some c → c < mask.width
  | .closure p => p < net.vertices.size ∧ net.widthOf p = 2
  | .uniqueness p => p < net.vertices.size
  | .connect m p => (∃ v : Vertex, net.vertices[m]? = some v ∧ v.node.isProduction = true) ∧
      (p < net.vertices.size ∧ net.widthOf p = net.widthOf m) ∧ m ≠ p ∧ ¬net.Below m p
  | .update r e => ∀ id, net.inputs[r]? = some id → e.tuple.length = net.widthOf id

/-- All listeners of an index belong to one node. -/
def Exclusive (net : Network) : Prop :=
  ∀ I, ∀ l ∈ net.listenersOf I, ∀ l' ∈ net.listenersOf I, l.1 = l'.1

inductive Built : Network → Prop where
  | empty : Built {}
  | call {net net' : Network} {c : Call} : Built net → net.Fitting c →
      net.perform c = .ok net' → net'.Exclusive → Built net'

/-- What reading the nodes gives is what they mean, and productions count what their bodies hold. -/
structure Exact (net : Network) : Prop where
  meaning : ∃ val, net.Means val
  pull : ∀ val, net.Means val → ∀ q, q < net.vertices.size →
    ∃ rows, net.pull q = .ok rows ∧ (↑rows : Multiset Tuple) = val q
  memory : ∀ val, net.Means val → ∀ (q : NodeId) (v : Vertex) (query : String)
    (memory : Bag Tuple), net.vertices[q]? = some v → v.node = .production query memory →
      memory.toMultiset = (v.parents.map val).sum

def BlamesInputs (net : Network) (c : Call) (net' : Network) : Prop :=
  OnlyFailures net net' ∨ ∃ (r : Relation) (e : Event) (id : NodeId) (v : Vertex) (unique : Bool)
    (memory : Bag Tuple) (issue : Issue), c = .update r e ∧ net.vertices[id]? = some v ∧
      v.node = .input r unique memory ∧ changeMemory r unique memory e = .error issue ∧
      net'.issues = issue :: net.issues

section meaning
variable {net : Network} {val val' : NodeId → Multiset Tuple}

theorem Wired.feeds_of_mem_parents (w : net.Wired) {q p : NodeId} {v : Vertex}
    (hv : net.vertices[q]? = some v) (hf : v.node.isFed = true) (hp : p ∈ v.parents) :
    net.Feeds p q := .inl ((w.mem_receiversOf_node hv hf).2 hp)

theorem Wired.feeds_of_source (w : net.Wired) {q : NodeId} {v : Vertex} {side : Side} {I : IndexId}
    (hv : net.vertices[q]? = some v) (hs : v.node.source side = some I) :
    net.Feeds (net.parentOf I) q ∧ net.parentOf I < net.vertices.size := by
  obtain ⟨a, ha⟩ := w.exists_arrangement hv hs
  rw [parentOf_eq ha]
  exact ⟨.inr ⟨I, side, (w.mem_receiversOf_index ha).2 rfl, (w.listens q side I).2 ⟨v, hv, hs⟩⟩,
    w.lt_size_parent ha⟩

/-- A network without cycles has one meaning. -/
theorem Means.unique (w : net.Wired) (acyclic : net.Acyclic) (h : net.Means val)
    (h' : net.Means val') {q : NodeId} (hq : q < net.vertices.size) : val q = val' q := by
  classical
  obtain ⟨height, hheight⟩ : ∃ k, ((Finset.range net.vertices.size).filter fun m =>
    net.Below m q).card = k := ⟨_, rfl⟩
  induction height using Nat.strong_induction_on generalizing q with
  | _ height ih =>
    have above : ∀ p, p < net.vertices.size → net.Feeds p q → val p = val' p := by
      intro p hp hf
      refine ih _ ?_ hp rfl
      rw [← hheight]
      refine Finset.card_lt_card ((Finset.ssubset_iff_of_subset fun m hm => ?_).2 ⟨p, ?_, ?_⟩)
      · rw [Finset.mem_filter] at hm ⊢
        exact ⟨hm.1, .tail hm.2 hf⟩
      · exact Finset.mem_filter.2 ⟨Finset.mem_range.2 hp, .single hf⟩
      · exact fun hx => acyclic p (Finset.mem_filter.1 hx).2
    obtain ⟨v, hv⟩ : ∃ v, net.vertices[q]? = some v := ⟨_, Array.getElem?_eq_getElem hq⟩
    rw [h q v hv, h' q v hv]
    refine Node.output_congr (fedBy_congr rfl rfl fun hf p hp => ?_) fun side I hs => ?_
    · exact above p (w.lt_size_of_mem_parents hv hf hp) (w.feeds_of_mem_parents hv hf hp)
    · obtain ⟨hf, hlt⟩ := w.feeds_of_source hv hs
      rw [viewBy_of_source hs, viewBy_of_source hs]
      exact above _ hlt hf

theorem AtRest.exact_of_acyclic (w : net.Wired) (acyclic : net.Acyclic) (h : net.AtRest val) :
    net.Exact := by
  refine ⟨⟨val, h.means⟩, fun val' h' q hq => ?_, fun val' h' q v query memory hv hn => ?_⟩
  · obtain ⟨rows, hrows, hval⟩ := h.pull w hq
    exact ⟨rows, hrows, hval.trans (Means.unique w acyclic h.means h' hq)⟩
  · have hf : v.node.isFed = true := by rw [hn]; rfl
    have holds := h.holds q v hv
    rw [hn] at holds
    rw [show memory.toMultiset = _ from holds, fedBy_of_isFed hf]
    refine congrArg List.sum (List.map_congr_left fun p hp => ?_)
    exact Means.unique w acyclic h.means h' (w.lt_size_of_mem_parents hv hf hp)

end meaning

section built

theorem wired_empty : ({} : Network).Wired where
  fed q m h := by cases h
  parents q m v h := by cases h
  earlier m v h := by cases h
  indexed q I h := by cases h
  parent q I a h := by cases h
  fits q v h := by cases h
  width I a h := by cases h
  unique I a h := by cases h
  listens n side I := by
    constructor
    · intro h
      cases h
    · rintro ⟨_, h, _⟩
      cases h
  nodup I := List.nodup_nil
  order I := List.Pairwise.nil
  inputs r id := by
    constructor
    · intro h
      rw [show ({} : Network).inputs[r]? = none from Std.ExtTreeMap.getElem?_empty] at h
      cases h
    · rintro ⟨_, _, _, h, _⟩
      cases h
  arranged p m I h := by cases h

theorem atRest_empty : ({} : Network).AtRest fun _ => 0 where
  means q v h := by cases h
  holds q v h := by cases h
  width q v h := by cases h
  flat q h := by cases h
  index I a h := by cases h

theorem Exclusive.untangled {net : Network} (h : net.Exclusive) (a : net.Acyclic) :
    net.Untangled := fun I => List.pairwise_of_forall_mem_list fun l hl l' hl' hb => by
  rw [h I l hl l' hl'] at hb
  exact a _ hb

theorem Exclusive.hooked {net net' : Network} {p m : NodeId} (h : net.Exclusive)
    (x : Hooked net net' p m) : net'.Exclusive := fun I l hl l' hl' => by
  rw [x.listenersOf] at hl hl'
  exact h I l hl l' hl'

structure Kept (net : Network) : Prop where
  wired : net.Wired
  rest : ∃ val, net.AtRest val
  acyclic : net.Acyclic

theorem Grown.kept {net net' : Network} {ps : List NodeId} (g : Grown net net' ps)
    (a : net.Acyclic) : net'.Kept := ⟨g.wired, g.rest, g.acyclic a⟩

variable {net : Network}

theorem Yields.perform {r : Except Fault (Network × NodeId)} {ps : List NodeId}
    {make : Network → NodeId → Prop} (y : net.Yields r ps make) (a : net.Acyclic) (c : Call) :
    ∃ net', Prod.fst <$> r = .ok net' ∧ net.BlamesInputs c net' ∧ net'.Kept := by
  obtain ⟨net', id, rfl, g, -⟩ := y
  exact ⟨net', rfl, .inl g.failures, g.kept a⟩

theorem perform_connect (k : net.Kept) (ex : net.Exclusive) {m p : NodeId}
    (fits : net.Fitting (.connect m p)) : ∃ net', net.perform (.connect m p) = .ok net' ∧
      net.BlamesInputs (.connect m p) net' ∧ net'.Kept := by
  obtain ⟨⟨v, hv, hprod⟩, ⟨hp, hw⟩, hne, below⟩ := fits
  obtain ⟨net', hcall, g, -⟩ := connect_grown k.wired k.rest hv hprod hp hw hne below
    fun net₁ x w₁ => by
      have a₁ := x.acyclic hp hne below k.acyclic
      exact flushes w₁.bare ((acyclic_bare _).2 a₁)
        ((untangled_bare _).2 ((ex.hooked x).untangled a₁)) m
  exact ⟨net', hcall, .inl g.failures, g.kept k.acyclic⟩

theorem perform_update (k : net.Kept) (ex : net.Exclusive) {r : Relation} {e : Event}
    (fits : net.Fitting (.update r e)) : ∃ net', net.perform (.update r e) = .ok net' ∧
      net.BlamesInputs (.update r e) net' ∧ net'.Kept := by
  cases hr : net.inputs[r]? with
  | none =>
    refine ⟨net, ?_, .inl (.of_eq rfl), k⟩
    rw [perform, update_of_none e hr]
    rfl
  | some id =>
    obtain ⟨val, hval⟩ := k.rest
    obtain ⟨net', v, unique, memory, hv, hn, hcall, done⟩ := hval.update k.wired hr (fits id hr)
      (flushes k.wired.bare ((acyclic_bare _).2 k.acyclic)
        ((untangled_bare _).2 (ex.untangled k.acyclic)) id)
    have hperform : net.perform (.update r e) = .ok net' := by
      rw [perform, hcall]
      rfl
    refine ⟨net', hperform, ?_⟩
    cases done with
    | refused issue hm =>
      refine ⟨.inr ⟨r, e, id, v, unique, memory, issue, rfl, hv, hn, hm, rfl⟩, ?_⟩
      have hb : (net.report issue).bare = net.bare := rfl
      exact ⟨k.wired.of_bare_eq hb, ⟨val, hval.report issue⟩, k.acyclic⟩
    | taken memory' _ val' hm ho hb hat hg =>
      refine ⟨.inl ho, k.wired.of_bare_eq hb, ⟨val', hat⟩, ?_⟩
      rw [← acyclic_bare, hb, acyclic_bare]
      exact k.acyclic

theorem perform_kept (k : net.Kept) (ex : net.Exclusive) {c : Call} (fits : net.Fitting c) :
    ∃ net', net.perform c = .ok net' ∧ net.BlamesInputs c net' ∧ net'.Kept := by
  obtain ⟨w, h, a⟩ := k
  cases c with
  | input r arity unique =>
    cases hr : net.inputs[r]? with
    | none =>
      obtain ⟨g, -⟩ := addInput_grown w h hr arity unique
      exact ⟨_, rfl, .inl g.failures, g.kept a⟩
    | some id =>
      refine ⟨net, ?_, .inl (.of_eq rfl), w, h, a⟩
      rw [perform, addInput_of_some hr]
  | constant rows arity =>
    obtain ⟨g, -⟩ := addConstant_grown w h fits
    exact ⟨_, rfl, .inl g.failures, g.kept a⟩
  | production query arity =>
    obtain ⟨g, -⟩ := addProduction_grown w h query arity
    exact ⟨_, rfl, .inl g.failures, g.kept a⟩
  | trim p mask => exact (addTrim_yields w h fits.1 fits.2).perform a _
  | constantFilter p column value =>
    exact (addConstantFilter_yields w h fits.1 value fits.2).perform a _
  | equalityFilter p groups => exact (addEqualityFilter_yields w h fits.1 fits.2).perform a _
  | inequalityFilter p left right =>
    exact (addInequalityFilter_yields w h fits.1 fits.2.1 fits.2.2).perform a _
  | expression p evaluator inputs mode =>
    exact (addExpression_yields w h fits.1 evaluator mode fits.2).perform a _
  | index p mask =>
    obtain ⟨net', I, hcall, g, -⟩ := indexFor_grown w h fits.1 fits.2
    refine ⟨net', ?_, .inl g.failures, g.kept a⟩
    rw [perform, hcall]
    rfl
  | join p pm q sm =>
    obtain ⟨⟨hp, hpm⟩, hq, hsm⟩ := fits
    exact (addJoin_yields w h hp hq hpm hsm).perform a _
  | existence p pm q sm negative =>
    obtain ⟨⟨hp, hpm⟩, hq, hsm⟩ := fits
    exact (addExistence_yields w h hp hq hpm hsm negative).perform a _
  | outerJoin p pm q sm defaults =>
    obtain ⟨⟨⟨hp, hpm⟩, hq, hsm⟩, hd⟩ := fits
    exact (addOuterJoin_yields w h hp hq hpm hsm hd).perform a _
  | grouping p mask operator column =>
    obtain ⟨⟨hp, hm⟩, hc⟩ := fits
    exact (addGrouping_yields w h hp hm operator hc).perform a _
  | closure p => exact (addClosure_yields w h fits.1 fits.2).perform a _
  | uniqueness p => exact (addUniqueness_yields w h fits).perform a _
  | connect m p => exact perform_connect ⟨w, h, a⟩ ex fits
  | update r e => exact perform_update ⟨w, h, a⟩ ex fits

theorem exclusive_empty : ({} : Network).Exclusive := fun I l hl => by cases hl

theorem Built.kept (h : Built net) : net.Kept ∧ net.Exclusive := by
  induction h with
  | empty =>
    refine ⟨⟨wired_empty, ⟨_, atRest_empty⟩, fun n hn => ?_⟩, exclusive_empty⟩
    exact not_below_of_receiversOf_eq_nil rfl hn
  | call _ fits hcall ex ih =>
    obtain ⟨net', hcall', -, k⟩ := perform_kept ih.1 ih.2 fits
    cases hcall.symm.trans hcall'
    exact ⟨k, ex⟩

/-- However a network is built and updated, every node puts out what it means, every further call
succeeds, and only inputs find that a change cannot happen. -/
theorem Built.exact (h : Built net) : net.Exact ∧ ∀ c, net.Fitting c →
    ∃ net', net.perform c = .ok net' ∧ net.BlamesInputs c net' := by
  obtain ⟨k, ex⟩ := h.kept
  obtain ⟨val, hval⟩ := k.rest
  refine ⟨hval.exact_of_acyclic k.wired k.acyclic, fun c fits => ?_⟩
  obtain ⟨net', hcall, hb, -⟩ := perform_kept k ex fits
  exact ⟨net', hcall, hb⟩

end built

section example_network

def edge : Relation := .feature "edge"

def edges : Network := (({} : Network).addInput edge 2 true).1

def oneEdge : Network :=
  { edges.setNode 0 (.input edge true (Bag.add ∅ [.int 1, .int 2])) with propagated := 1 }

def forks : Network :=
  match oneEdge.perform (.join 0 (@Mask.ofFins 2 [0]) 0 (@Mask.ofFins 2 [0])) with
  | .ok net => net
  | .error _ => {}

theorem perform_edges :
    edges.perform (.update edge ⟨.insert, [.int 1, .int 2]⟩) = .ok oneEdge := by
  have settles : (edges.setNode 0 (.input edge true (Bag.add ∅ [.int 1, .int 2]))).settle
      [.propagate 0 ⟨.insert, [.int 1, .int 2]⟩] = .ok oneEdge :=
    (Settles.cons rfl (.nil _) (.nil _)).settle_eq
  have taken : changeMemory edge true ∅ ⟨.insert, [.int 1, .int 2]⟩ =
    .ok (Bag.add ∅ [.int 1, .int 2]) := rfl
  have hn : edges.node 0 = .ok (.input edge true ∅) := rfl
  have hi : edges.inputs[edge]? = some 0 := rfl
  rw [perform, update_eq, hi]
  simp only [bind, Except.bind, hn, taken, settles]
  rfl

theorem exclusive_forks : forks.Exclusive := by
  intro I l hl l' hl'
  match I with
  | 0 =>
    have h : forks.listenersOf 0 = [(1, .primary), (1, .secondary)] := rfl
    rw [h] at hl hl'
    simp only [List.mem_cons, List.not_mem_nil, or_false] at hl hl'
    rcases hl with rfl | rfl <;> rcases hl' with rfl | rfl <;> rfl
  | I + 1 => cases (show l ∈ [] from hl)

theorem built_forks : Built forks := by
  have h₁ : Built edges := Built.empty.call (c := .input edge 2 true) trivial rfl
    fun I l hl => by cases hl
  have fits : edges.Fitting (.update edge ⟨.insert, [.int 1, .int 2]⟩) := by
    intro id hid
    obtain rfl : 0 = id := Option.some.inj hid
    rfl
  have h₂ : Built oneEdge := h₁.call fits perform_edges fun I l hl => by cases hl
  exact h₂.call (c := .join 0 (@Mask.ofFins 2 [0]) 0 (@Mask.ofFins 2 [0]))
    ⟨by decide, by decide⟩ rfl exclusive_forks

theorem forks_exact : forks.Exact ∧ ∃ net',
    forks.perform (.update edge ⟨.insert, [.int 1, .int 3]⟩) = .ok net' := by
  obtain ⟨exact, calls⟩ := Built.exact built_forks
  have fits : forks.Fitting (.update edge ⟨.insert, [.int 1, .int 3]⟩) := by
    intro id hid
    obtain rfl : 0 = id := Option.some.inj hid
    rfl
  obtain ⟨net', h, -⟩ := calls _ fits
  exact ⟨exact, net', h⟩

end example_network

end Network
end Motif
