import Motif.Proofs.Network.Flatness
import Motif.Proofs.Table

/-!
The three ways in which the wiring of a network grows: by a node, which stands behind its parents and
listens to the indexes it reads, by an index, and by a further body of a production. The parts fit
together still.
-/
set_option autoImplicit false
namespace Motif

def Node.sidesOf (n : Node) (I : IndexId) : List Side :=
  [.primary, .secondary].filter fun side => n.source side = some I

theorem Node.mem_sidesOf {n : Node} {I : IndexId} {side : Side} :
    side ∈ n.sidesOf I ↔ n.source side = some I := by
  cases side <;> simp [sidesOf]

theorem Node.nodup_sidesOf (n : Node) (I : IndexId) : (n.sidesOf I).Nodup :=
  List.Nodup.filter _ (by decide)

theorem Node.primary_first (n : Node) (I : IndexId) :
    (n.sidesOf I).Pairwise fun side _ => side = .primary :=
  List.Pairwise.filter _ (by decide)

namespace Node
variable {n : Node} {masks masks' : IndexId → Mask}

theorem fits_congr {width arity : Nat}
    (h : ∀ side I, n.source side = some I → masks' I = masks I) :
    n.Fits masks' width arity ↔ n.Fits masks width arity := by
  cases n with
  | join p s _ => rw [Fits, Fits, h .primary p rfl, h .secondary s rfl]
  | existence p s _ => rw [Fits, Fits, h .primary p rfl]
  | outerJoin p s _ _ => rw [Fits, Fits, h .primary p rfl, h .secondary s rfl]
  | grouping g => rw [Fits, Fits, h .primary g.source rfl]
  | _ => rfl

theorem output_masks_congr {fed : Multiset Tuple} {view : Side → Multiset Tuple}
    (h : ∀ side I, n.source side = some I → masks' I = masks I) :
    n.output masks' fed view = n.output masks fed view := by
  cases n with
  | join p s _ | existence p s _ | outerJoin p s _ _ =>
    rw [output, output, h .primary p rfl, h .secondary s rfl]
  | grouping g => rw [output, output, h .primary g.source rfl]
  | _ => rfl

theorem holds_masks_congr {fed : Multiset Tuple} {view : Side → Multiset Tuple}
    (h : ∀ side I, n.source side = some I → masks' I = masks I) :
    n.Holds masks' fed view ↔ n.Holds masks fed view := by
  cases n with
  | grouping g => rw [Holds, Holds, h .primary g.source rfl]
  | _ => rfl

end Node

def Vertex.placesAt (v : Vertex) (id q : NodeId) : List Receiver :=
  if v.node.isFed then List.replicate (v.parents.count q) (.node id) else []

namespace Network

theorem Wired.lt_size_of_mem_parents {net : Network} (w : net.Wired) {q p : NodeId} {v : Vertex}
    (hv : net.vertices[q]? = some v) (hf : v.node.isFed = true) (hp : p ∈ v.parents) :
    p < net.vertices.size :=
  net.lt_size_of_receiversOf_ne_nil (List.ne_nil_of_mem ((w.mem_receiversOf_node hv hf).2 hp))

theorem Wired.lt_size_parent {net : Network} (w : net.Wired) {I : IndexId} {a : Arrangement}
    (ha : net.arrangements[I]? = some a) : a.parent < net.vertices.size :=
  net.lt_size_of_receiversOf_ne_nil (List.ne_nil_of_mem ((w.mem_receiversOf_index ha).2 rfl))

theorem receiversOf_of_size_le {net : Network} {q : NodeId} (h : net.vertices.size ≤ q) :
    net.receiversOf q = [] := by
  rw [receiversOf, Array.getElem?_eq_none h]
  rfl

theorem Keeps.widthOf {net net' : Network} (k : Keeps net net') {q : NodeId}
    (hq : q < net.vertices.size) : net'.widthOf q = net.widthOf q := by
  obtain ⟨v, hv⟩ : ∃ v, net.vertices[q]? = some v := ⟨_, Array.getElem?_eq_getElem hq⟩
  obtain ⟨v', hv', -, ha, -⟩ := k.vertex q v hv
  rw [Network.widthOf, Network.widthOf, hv, hv']
  exact ha

theorem Keeps.maskOf {net net' : Network} (k : Keeps net net') {I : IndexId} {a : Arrangement}
    (ha : net.arrangements[I]? = some a) : net'.maskOf I = net.maskOf I := by
  obtain ⟨a', ha', -, hi⟩ := k.arrangement I a ha
  rw [maskOf_eq ha, maskOf_eq ha', hi]

theorem Keeps.parentOf {net net' : Network} (k : Keeps net net') {I : IndexId} {a : Arrangement}
    (ha : net.arrangements[I]? = some a) : net'.parentOf I = net.parentOf I := by
  obtain ⟨a', ha', hp, -⟩ := k.arrangement I a ha
  rw [parentOf_eq ha, parentOf_eq ha', hp]

theorem Keeps.contentOf {net net' : Network} (k : Keeps net net') {I : IndexId} {a : Arrangement}
    (ha : net.arrangements[I]? = some a) : net'.contentOf I = net.contentOf I := by
  obtain ⟨a', ha', -, hi⟩ := k.arrangement I a ha
  rw [contentOf_eq ha, contentOf_eq ha', hi]

theorem Keeps.fits {net net' : Network} (k : Keeps net net') (w : net.Wired) {q : NodeId} {v : Vertex}
    (hv : net.vertices[q]? = some v) {width arity : Nat} :
    v.node.Fits net'.maskOf width arity ↔ v.node.Fits net.maskOf width arity :=
  Node.fits_congr fun _ _ hs =>
    let ⟨_, ha⟩ := w.exists_arrangement hv hs
    k.maskOf ha

theorem Keeps.fits_vertex {net net' : Network} (k : Keeps net net') (w : net.Wired) {q : NodeId}
    {v : Vertex} (hv : net.vertices[q]? = some v) : ∃ width, v.node.Fits net'.maskOf width v.arity ∧
      (v.node.isFed = true → ∀ p ∈ v.parents, net'.widthOf p = width) := by
  obtain ⟨width, fits, hw⟩ := w.fits q v hv
  refine ⟨width, (k.fits w hv).2 fits, fun hf p hp => ?_⟩
  rw [k.widthOf (w.lt_size_of_mem_parents hv hf hp)]
  exact hw hf p hp

/-- The second network has a further node, connected to its parents and listening to the indexes it
reads. -/
structure Pushed (net net' : Network) (v : Vertex) : Prop where
  fresh : net'.vertices[net.vertices.size]? = some v
  old : ∀ q, q ≠ net.vertices.size → net'.vertices[q]? = net.vertices[q]?.map fun u : Vertex =>
    { u with receivers := u.receivers ++ v.placesAt net.vertices.size q }
  arrangement : ∀ I, net'.arrangements[I]? = net.arrangements[I]?.map fun a : Arrangement =>
    { a with listeners := a.listeners ++ (v.node.sidesOf I).map (net.vertices.size, ·) }
  arranged : net'.arranged = net.arranged
  inputs : ∀ r id, net'.inputs[r]? = some id ↔
    net.inputs[r]? = some id ∨ id = net.vertices.size ∧ ∃ u memory, v.node = .input r u memory

namespace Pushed
variable {net net' : Network} {v : Vertex} (p : Pushed net net' v)
include p

theorem vertex {q : NodeId} {u : Vertex} (hu : net.vertices[q]? = some u) :
    net'.vertices[q]? =
      some { u with receivers := u.receivers ++ v.placesAt net.vertices.size q } := by
  rw [p.old q (Nat.ne_of_lt (Array.getElem?_eq_some_iff.1 hu).1), hu]
  rfl

theorem cases {q : NodeId} {u' : Vertex} (hu : net'.vertices[q]? = some u') :
    (q = net.vertices.size ∧ u' = v) ∨ ∃ u, q ≠ net.vertices.size ∧ net.vertices[q]? = some u ∧
      u'.node = u.node ∧ u'.parents = u.parents ∧ u'.arity = u.arity := by
  by_cases hq : q = net.vertices.size
  · subst hq
    rw [p.fresh] at hu
    exact .inl ⟨rfl, (Option.some.inj hu).symm⟩
  · rw [p.old q hq, Option.map_eq_some_iff] at hu
    obtain ⟨u, hu, rfl⟩ := hu
    exact .inr ⟨u, hq, hu, rfl, rfl, rfl⟩

theorem keeps : Keeps net net' := by
  refine ⟨fun q u hu => ⟨_, p.vertex hu, rfl, rfl, fun _ => rfl⟩, fun I a ha => ?_⟩
  refine ⟨{ a with listeners := a.listeners ++ (v.node.sidesOf I).map (net.vertices.size, ·) }, ?_,
    rfl, rfl⟩
  rw [p.arrangement, ha]
  rfl

theorem exists_node_iff (P : Node → Prop) {q : NodeId} :
    (∃ u', net'.vertices[q]? = some u' ∧ P u'.node) ↔
      (∃ u, net.vertices[q]? = some u ∧ P u.node) ∨ q = net.vertices.size ∧ P v.node := by
  by_cases hq : q = net.vertices.size
  · subst hq
    rw [p.fresh, Array.getElem?_eq_none (Nat.le_refl _)]
    simp
  · rw [p.old q hq]
    simp [hq]

theorem receiversOf (hr : v.receivers = []) (q : NodeId) :
    net'.receiversOf q = net.receiversOf q ++
      if q < net.vertices.size then v.placesAt net.vertices.size q else [] := by
  rcases Nat.lt_trichotomy q net.vertices.size with hq | rfl | hq
  · rw [Network.receiversOf, Network.receiversOf, p.old q (Nat.ne_of_lt hq),
      Array.getElem?_eq_getElem hq]
    simp [hq]
  · rw [Network.receiversOf, p.fresh, receiversOf_of_size_le (Nat.le_refl _)]
    simp [hr]
  · rw [Network.receiversOf, p.old q (Nat.ne_of_gt hq), Array.getElem?_eq_none (Nat.le_of_lt hq),
      receiversOf_of_size_le (Nat.le_of_lt hq)]
    simp [Nat.not_lt_of_lt hq]

theorem listenersOf (hs : ∀ side I, v.node.source side = some I → ∃ a, net.arrangements[I]? = some a)
    (I : IndexId) : net'.listenersOf I =
      net.listenersOf I ++ (v.node.sidesOf I).map (net.vertices.size, ·) := by
  rw [Network.listenersOf, Network.listenersOf, p.arrangement]
  cases ha : net.arrangements[I]? with
  | none =>
    have hn : v.node.sidesOf I = [] := by
      refine List.eq_nil_iff_forall_not_mem.2 fun side hm => ?_
      obtain ⟨a, ha'⟩ := hs side I (Node.mem_sidesOf.1 hm)
      rw [ha] at ha'
      cases ha'
    simp [hn]
  | some a => rfl

theorem mem_listenersOf
    (hs : ∀ side I, v.node.source side = some I → ∃ a, net.arrangements[I]? = some a) {n : NodeId}
    {side : Side} {I : IndexId} : (n, side) ∈ net'.listenersOf I ↔
      (n, side) ∈ net.listenersOf I ∨ n = net.vertices.size ∧ v.node.source side = some I := by
  rw [p.listenersOf hs, List.mem_append, List.mem_map, ← Node.mem_sidesOf]
  simp [and_comm, eq_comm]

theorem count_of_ne (hr : v.receivers = []) (q : NodeId) {R : Receiver}
    (hR : R ≠ .node net.vertices.size) :
    (net'.receiversOf q).count R = (net.receiversOf q).count R := by
  rw [p.receiversOf hr, List.count_append, Nat.add_eq_left, List.count_eq_zero, Vertex.placesAt]
  split
  · split
    · exact fun hm => hR (List.eq_of_mem_replicate hm)
    · exact List.not_mem_nil
  · exact List.not_mem_nil

theorem mem_receiversOf (hr : v.receivers = []) {q : NodeId} {R : Receiver} :
    R ∈ net'.receiversOf q ↔ R ∈ net.receiversOf q ∨ (q < net.vertices.size ∧
      v.node.isFed = true ∧ q ∈ v.parents ∧ R = .node net.vertices.size) := by
  rw [p.receiversOf hr, List.mem_append]
  refine or_congr_right ?_
  by_cases hq : q < net.vertices.size
  · rw [if_pos hq, Vertex.placesAt]
    cases hf : v.node.isFed with
    | false => simp
    | true =>
      rw [if_pos rfl, List.mem_replicate, ← Nat.pos_iff_ne_zero, List.count_pos_iff]
      simp [hq]
  · simp [hq]

end Pushed

structure Admits (net : Network) (v : Vertex) : Prop where
  receivers : v.receivers = []
  parents : v.node.isFed = true → ∀ p ∈ v.parents, p < net.vertices.size
  single : v.node.isFed = true → v.parents.length ≤ 1
  sources : ∀ side I, v.node.source side = some I → ∃ a, net.arrangements[I]? = some a
  fits : ∃ width, v.node.Fits net.maskOf width v.arity ∧
    (v.node.isFed = true → ∀ p ∈ v.parents, net.widthOf p = width)

theorem Admits.root {net : Network} {n : Node} {arity : Nat} (width : Nat)
    (hs : ∀ side, n.source side = none) (hf : n.Fits net.maskOf width arity) :
    net.Admits ⟨n, [], [], arity⟩ where
  receivers := rfl
  parents _ p hp := by cases hp
  single _ := Nat.zero_le 1
  sources side I h := by
    rw [show (⟨n, [], [], arity⟩ : Vertex).node.source side = none from hs side] at h
    cases h
  fits := ⟨width, hf, fun _ p hp => by cases hp⟩

theorem not_mem_receiversOf_size {net : Network} (w : net.Wired) {q : NodeId} :
    Receiver.node net.vertices.size ∉ net.receiversOf q := by
  intro hm
  obtain ⟨u, hu, -⟩ := w.fed q _ hm
  exact Nat.lt_irrefl _ (Array.getElem?_eq_some_iff.1 hu).1

theorem not_mem_listenersOf_size {net : Network} (w : net.Wired) {I : IndexId} {side : Side} :
    (net.vertices.size, side) ∉ net.listenersOf I := by
  intro hm
  obtain ⟨u, hu, -⟩ := (w.listens _ side I).1 hm
  exact Nat.lt_irrefl _ (Array.getElem?_eq_some_iff.1 hu).1

section pushed
variable {net net' : Network} {v : Vertex} (w : net.Wired) (h : net.Admits v)
include h

theorem Admits.exists_parent (hf : v.node.isFed = true) (connected : v.parents ≠ []) :
    ∃ q, v.parents = [q] ∧ q < net.vertices.size := by
  obtain ⟨q, hq⟩ := List.length_eq_one_iff.1
    (Nat.le_antisymm (h.single hf) (List.length_pos_iff.2 connected))
  exact ⟨q, hq, h.parents hf q (by simp [hq])⟩

theorem Admits.fits_of_keeps (k : Keeps net net') : ∃ width, v.node.Fits net'.maskOf width v.arity ∧
    (v.node.isFed = true → ∀ p ∈ v.parents, net'.widthOf p = width) := by
  obtain ⟨width, fits, hw⟩ := h.fits
  refine ⟨width, (Node.fits_congr fun side I hs => ?_).2 fits, fun hf q hq => ?_⟩
  · obtain ⟨a, ha⟩ := h.sources side I hs
    exact k.maskOf ha
  · rw [k.widthOf (h.parents hf q hq)]
    exact hw hf q hq

include w

/-- The new node receives the changes of each of its parents as often as it has it as a parent. -/
theorem Pushed.count_node (p : Pushed net net' v) (hf : v.node.isFed = true) (q : NodeId) :
    (net'.receiversOf q).count (.node net.vertices.size) = v.parents.count q := by
  rw [p.receiversOf h.receivers, List.count_append,
    List.count_eq_zero.2 (not_mem_receiversOf_size w), zero_add, Vertex.placesAt, if_pos hf]
  by_cases hq : q < net.vertices.size
  · rw [if_pos hq, List.count_replicate_self]
  · rw [if_neg hq, List.count_nil, eq_comm, List.count_eq_zero]
    exact fun hm => hq (h.parents hf q hm)

theorem Pushed.nodup_listenersOf (p : Pushed net net' v) (I : IndexId) : (net'.listenersOf I).Nodup := by
  rw [p.listenersOf h.sources, List.nodup_append']
  refine ⟨w.nodup I, (Node.nodup_sidesOf _ _).map fun a b e => (Prod.mk.inj e).2, ?_⟩
  intro l hl hl'
  obtain ⟨side, -, rfl⟩ := List.mem_map.1 hl'
  exact not_mem_listenersOf_size w hl

theorem Pushed.primary_first (p : Pushed net net' v) (I : IndexId) :
    (net'.listenersOf I).Pairwise fun l l' => l.1 = l'.1 → l.2 = .primary := by
  rw [p.listenersOf h.sources, List.pairwise_append]
  refine ⟨w.order I, ?_, fun l hl l' hl' e => ?_⟩
  · rw [List.pairwise_map]
    refine List.Pairwise.imp ?_ (Node.primary_first v.node I)
    exact fun hs _ => hs
  · obtain ⟨side, -, rfl⟩ := List.mem_map.1 hl'
    obtain ⟨n, side'⟩ := l
    cases e
    exact absurd hl (not_mem_listenersOf_size w)

theorem Wired.pushed (connected : v.node.isFed = true → v.node.isProduction = false → v.parents ≠ [])
    (p : Pushed net net' v) : net'.Wired := by
  have k := p.keeps
  constructor
  case fed =>
    intro q m hm
    rcases (p.mem_receiversOf h.receivers).1 hm with hm | ⟨-, hf, -, e⟩
    · obtain ⟨u, hu, hf⟩ := w.fed q m hm
      exact ⟨_, p.vertex hu, hf⟩
    · cases e
      exact ⟨v, p.fresh, hf⟩
  case parents =>
    intro q m u' hu' hf
    obtain ⟨rfl, rfl⟩ | ⟨u, hm, hu, hn, hp, -⟩ := p.cases hu'
    · exact p.count_node w h hf q
    · rw [p.count_of_ne h.receivers q (by simpa using hm), w.parents q m u hu (hn ▸ hf), hp]
  case earlier =>
    intro m u' hu' hf hprod
    obtain ⟨rfl, rfl⟩ | ⟨u, -, hu, hn, hp, -⟩ := p.cases hu'
    · exact h.exists_parent hf (connected hf hprod)
    · rw [hp]
      exact w.earlier m u hu (hn ▸ hf) (hn ▸ hprod)
  case indexed =>
    intro q I hI
    rcases (p.mem_receiversOf h.receivers).1 hI with hI | ⟨-, -, -, e⟩
    · obtain ⟨a, ha⟩ := w.indexed q I hI
      obtain ⟨a', ha', -⟩ := k.arrangement I a ha
      exact ⟨a', ha'⟩
    · cases e
  case parent =>
    intro q I a' ha'
    rw [p.arrangement, Option.map_eq_some_iff] at ha'
    obtain ⟨a, ha, rfl⟩ := ha'
    rw [p.count_of_ne h.receivers q (by simp), w.parent q I a ha]
  case fits =>
    intro q u' hu'
    obtain ⟨rfl, rfl⟩ | ⟨u, -, hu, hn, hp, ha⟩ := p.cases hu'
    · exact h.fits_of_keeps k
    · rw [hn, hp, ha]
      exact k.fits_vertex w hu
  case width =>
    intro I a' ha'
    rw [p.arrangement, Option.map_eq_some_iff] at ha'
    obtain ⟨a, ha, rfl⟩ := ha'
    rw [k.widthOf (w.lt_size_parent ha)]
    exact w.width I a ha
  case unique =>
    intro I a' ha' hu
    rw [p.arrangement, Option.map_eq_some_iff] at ha'
    obtain ⟨a, ha, rfl⟩ := ha'
    exact k.flat (w.unique I a ha hu)
  case listens =>
    intro n side I
    rw [p.mem_listenersOf h.sources, w.listens]
    exact (p.exists_node_iff (·.source side = some I)).symm
  case nodup => exact p.nodup_listenersOf w h
  case order => exact p.primary_first w h
  case inputs =>
    intro r id
    rw [p.inputs, w.inputs]
    simp only [exists_and_left]
    exact (p.exists_node_iff fun n => ∃ u memory, n = .input r u memory).symm
  case arranged =>
    intro q m I hI
    rw [p.arranged] at hI
    obtain ⟨a, ha, hp, hm⟩ := w.arranged q m I hI
    obtain ⟨a', ha', hp', hi⟩ := k.arrangement I a ha
    exact ⟨a', ha', hp'.trans hp, hi ▸ hm⟩

end pushed

structure Indexed (net net' : Network) (a : Arrangement) : Prop where
  vertex : ∀ q, net'.vertices[q]? = net.vertices[q]?.map fun u : Vertex =>
    { u with
      receivers := u.receivers ++ if q = a.parent then [Receiver.index net.arrangements.size] else [] }
  fresh : net'.arrangements[net.arrangements.size]? = some a
  old : ∀ I, I ≠ net.arrangements.size → net'.arrangements[I]? = net.arrangements[I]?
  arranged : net'.arranged = net.arranged.set (a.parent, a.index.mask) net.arrangements.size
  inputs : net'.inputs = net.inputs

namespace Indexed
variable {net net' : Network} {a : Arrangement} (x : Indexed net net' a)
include x

theorem cases {q : NodeId} {u' : Vertex} (hu : net'.vertices[q]? = some u') :
    ∃ u, net.vertices[q]? = some u ∧ u'.node = u.node ∧ u'.parents = u.parents ∧
      u'.arity = u.arity := by
  rw [x.vertex, Option.map_eq_some_iff] at hu
  obtain ⟨u, hu, rfl⟩ := hu
  exact ⟨u, hu, rfl, rfl, rfl⟩

theorem vertex_of {q : NodeId} {u : Vertex} (hu : net.vertices[q]? = some u) : ∃ u',
    net'.vertices[q]? = some u' ∧ u'.node = u.node ∧ u'.parents = u.parents ∧
      u'.arity = u.arity := by
  rw [x.vertex, hu]
  exact ⟨_, rfl, rfl, rfl, rfl⟩

theorem exists_node_iff (P : Node → Prop) {q : NodeId} :
    (∃ u', net'.vertices[q]? = some u' ∧ P u'.node) ↔
      ∃ u, net.vertices[q]? = some u ∧ P u.node := by
  rw [x.vertex]
  cases net.vertices[q]? <;> simp

theorem given : net'.given = net.given := by
  funext q
  rw [Network.given, Network.given, x.vertex]
  cases net.vertices[q]? <;> rfl

theorem widthOf (q : NodeId) : net'.widthOf q = net.widthOf q := by
  rw [Network.widthOf, Network.widthOf, x.vertex]
  cases net.vertices[q]? <;> rfl

theorem arrangement {I : IndexId} {b : Arrangement} (hb : net.arrangements[I]? = some b) :
    net'.arrangements[I]? = some b := by
  rw [x.old I (Nat.ne_of_lt (Array.getElem?_eq_some_iff.1 hb).1), hb]

theorem cases_arrangement {I : IndexId} {b : Arrangement} (hb : net'.arrangements[I]? = some b) :
    (I = net.arrangements.size ∧ b = a) ∨ net.arrangements[I]? = some b := by
  by_cases hI : I = net.arrangements.size
  · subst hI
    rw [x.fresh] at hb
    exact .inl ⟨rfl, (Option.some.inj hb).symm⟩
  · rw [x.old I hI] at hb
    exact .inr hb

theorem keeps : Keeps net net' := by
  refine ⟨fun q u hu => ?_, fun I b hb => ⟨b, x.arrangement hb, rfl, rfl⟩⟩
  obtain ⟨u', hu', hn, hpar, harity⟩ := x.vertex_of hu
  exact ⟨u', hu', hn, harity, fun _ => hpar⟩

theorem receiversOf (hp : a.parent < net.vertices.size) (q : NodeId) :
    net'.receiversOf q =
      net.receiversOf q ++ if q = a.parent then [.index net.arrangements.size] else [] := by
  rw [Network.receiversOf, Network.receiversOf, x.vertex]
  cases hu : net.vertices[q]? with
  | some u => rfl
  | none =>
    have hq : q ≠ a.parent := by
      rintro rfl
      exact absurd hp (Nat.not_lt.2 (Array.getElem?_eq_none_iff.1 hu))
    simp [hq]

theorem listenersOf (hl : a.listeners = []) (I : IndexId) :
    net'.listenersOf I = net.listenersOf I := by
  rw [Network.listenersOf, Network.listenersOf]
  by_cases hI : I = net.arrangements.size
  · subst hI
    rw [x.fresh, Array.getElem?_eq_none (Nat.le_refl _)]
    exact hl
  · rw [x.old I hI]

theorem mem_of_ne (hp : a.parent < net.vertices.size) {q : NodeId} {R : Receiver}
    (hR : R ≠ .index net.arrangements.size) : R ∈ net'.receiversOf q ↔ R ∈ net.receiversOf q := by
  rw [x.receiversOf hp, List.mem_append]
  split <;> simp [hR]

theorem count_of_ne (hp : a.parent < net.vertices.size) (q : NodeId) {R : Receiver}
    (hR : R ≠ .index net.arrangements.size) :
    (net'.receiversOf q).count R = (net.receiversOf q).count R := by
  rw [x.receiversOf hp, List.count_append]
  split <;> simp [hR.symm]

theorem count_index (w : net.Wired) (hp : a.parent < net.vertices.size) (q : NodeId) :
    (net'.receiversOf q).count (.index net.arrangements.size) = if q = a.parent then 1 else 0 := by
  have fresh : Receiver.index net.arrangements.size ∉ net.receiversOf q := by
    intro hm
    obtain ⟨b, hb⟩ := w.indexed q _ hm
    exact Nat.lt_irrefl _ (Array.getElem?_eq_some_iff.1 hb).1
  rw [x.receiversOf hp, List.count_append, List.count_eq_zero.2 fresh, zero_add]
  split <;> simp

theorem wired (w : net.Wired) (hp : a.parent < net.vertices.size) (hl : a.listeners = [])
    (hw : a.index.mask.width = net.widthOf a.parent)
    (hu : a.index.unique = true → net.Flat a.parent) : net'.Wired := by
  have k := x.keeps
  constructor
  case fed =>
    intro q m hm
    obtain ⟨u, hu, hf⟩ := w.fed q m ((x.mem_of_ne hp (by simp)).1 hm)
    obtain ⟨u', hu', hn, -⟩ := k.vertex m u hu
    exact ⟨u', hu', hn ▸ hf⟩
  case parents =>
    intro q m u' hu' hf
    obtain ⟨u, hu, hn, hpar, -⟩ := x.cases hu'
    rw [x.count_of_ne hp q (by simp), hpar]
    exact w.parents q m u hu (hn ▸ hf)
  case earlier =>
    intro m u' hu' hf hprod
    obtain ⟨u, hu, hn, hpar, -⟩ := x.cases hu'
    rw [hpar]
    exact w.earlier m u hu (hn ▸ hf) (hn ▸ hprod)
  case indexed =>
    intro q I hI
    by_cases h : I = net.arrangements.size
    · subst h
      exact ⟨a, x.fresh⟩
    · obtain ⟨b, hb⟩ := w.indexed q I ((x.mem_of_ne hp (by simpa using h)).1 hI)
      exact ⟨b, x.arrangement hb⟩
  case parent =>
    intro q I b hb
    obtain ⟨rfl, rfl⟩ | hb := x.cases_arrangement hb
    · exact x.count_index w hp q
    · have h : I ≠ net.arrangements.size := Nat.ne_of_lt (Array.getElem?_eq_some_iff.1 hb).1
      rw [x.count_of_ne hp q (by simpa using h), w.parent q I b hb]
  case fits =>
    intro q u' hu'
    obtain ⟨u, hu, hn, hpar, ha⟩ := x.cases hu'
    rw [hn, hpar, ha]
    exact k.fits_vertex w hu
  case width =>
    intro I b hb
    obtain ⟨rfl, rfl⟩ | hb := x.cases_arrangement hb
    · rw [k.widthOf hp]
      exact hw
    · rw [k.widthOf (w.lt_size_parent hb)]
      exact w.width I b hb
  case unique =>
    intro I b hb hunique
    obtain ⟨rfl, rfl⟩ | hb := x.cases_arrangement hb
    · exact k.flat (hu hunique)
    · exact k.flat (w.unique I b hb hunique)
  case listens =>
    intro n side I
    rw [x.listenersOf hl, w.listens]
    exact (x.exists_node_iff (·.source side = some I)).symm
  case nodup =>
    intro I
    rw [x.listenersOf hl]
    exact w.nodup I
  case order =>
    intro I
    rw [x.listenersOf hl]
    exact w.order I
  case inputs =>
    intro r id
    rw [x.inputs, w.inputs]
    simp only [exists_and_left]
    exact (x.exists_node_iff fun n => ∃ u memory, n = .input r u memory).symm
  case arranged =>
    intro p m I hI
    rw [x.arranged, Table.get?_set] at hI
    split at hI
    · next e =>
      cases hI
      exact ⟨a, x.fresh, congrArg Prod.fst e, congrArg Prod.snd e⟩
    · obtain ⟨b, hb, h⟩ := w.arranged p m I hI
      exact ⟨b, x.arrangement hb, h⟩

end Indexed

structure Hooked (net net' : Network) (p m : NodeId) : Prop where
  vertex : ∀ q, net'.vertices[q]? = net.vertices[q]?.map fun u : Vertex =>
    { u with
      parents := u.parents ++ if q = m then [p] else []
      receivers := u.receivers ++ if q = p then [Receiver.node m] else [] }
  arrangements : net'.arrangements = net.arrangements
  arranged : net'.arranged = net.arranged
  inputs : net'.inputs = net.inputs

namespace Hooked
variable {net net' : Network} {p m : NodeId} (x : Hooked net net' p m)
include x

theorem cases {q : NodeId} {u' : Vertex} (hu : net'.vertices[q]? = some u') :
    ∃ u, net.vertices[q]? = some u ∧ u'.node = u.node ∧
      u'.parents = u.parents ++ (if q = m then [p] else []) ∧ u'.arity = u.arity := by
  rw [x.vertex, Option.map_eq_some_iff] at hu
  obtain ⟨u, hu, rfl⟩ := hu
  exact ⟨u, hu, rfl, rfl, rfl⟩

theorem vertex_of {q : NodeId} {u : Vertex} (hu : net.vertices[q]? = some u) : ∃ u',
    net'.vertices[q]? = some u' ∧ u'.node = u.node ∧
      u'.parents = u.parents ++ (if q = m then [p] else []) ∧ u'.arity = u.arity := by
  have hu' := x.vertex q
  rw [hu] at hu'
  exact ⟨_, hu', rfl, rfl, rfl⟩

theorem exists_node_iff (P : Node → Prop) {q : NodeId} :
    (∃ u', net'.vertices[q]? = some u' ∧ P u'.node) ↔
      ∃ u, net.vertices[q]? = some u ∧ P u.node := by
  rw [x.vertex]
  cases net.vertices[q]? <;> simp

theorem given : net'.given = net.given := by
  funext q
  rw [Network.given, Network.given, x.vertex]
  cases net.vertices[q]? <;> rfl

theorem receiversOf (hp : p < net.vertices.size) (q : NodeId) :
    net'.receiversOf q = net.receiversOf q ++ if q = p then [.node m] else [] := by
  rw [Network.receiversOf, Network.receiversOf, x.vertex]
  cases hu : net.vertices[q]? with
  | some u => rfl
  | none =>
    have hq : q ≠ p := by
      rintro rfl
      exact absurd hp (Nat.not_lt.2 (Array.getElem?_eq_none_iff.1 hu))
    simp [hq]

theorem listenersOf (I : IndexId) : net'.listenersOf I = net.listenersOf I := by
  rw [Network.listenersOf, Network.listenersOf, x.arrangements]

theorem maskOf : net'.maskOf = net.maskOf := by
  funext I
  rw [Network.maskOf, Network.maskOf, x.arrangements]

theorem widthOf (q : NodeId) : net'.widthOf q = net.widthOf q := by
  rw [Network.widthOf, Network.widthOf, x.vertex]
  cases net.vertices[q]? <;> rfl

theorem size : net'.vertices.size = net.vertices.size := by
  refine Nat.le_antisymm ?_ ?_
  · rw [← Array.getElem?_eq_none_iff, x.vertex, Array.getElem?_eq_none (Nat.le_refl _)]
    rfl
  · rw [← Array.getElem?_eq_none_iff, ← Option.map_eq_none_iff, ← x.vertex,
      Array.getElem?_eq_none (Nat.le_refl _)]

theorem keeps {v : Vertex} (hm : net.vertices[m]? = some v) (hv : v.node.isProduction = true) :
    Keeps net net' := by
  refine ⟨fun q u hu => ?_, fun I b hb => ⟨b, x.arrangements ▸ hb, rfl, rfl⟩⟩
  obtain ⟨u', hu', hn, hpar, ha⟩ := x.vertex_of hu
  refine ⟨u', hu', hn, ha, fun hprod => ?_⟩
  rw [hpar, if_neg, List.append_nil]
  rintro rfl
  cases hm.symm.trans hu
  rw [hv] at hprod
  cases hprod

theorem count_node (hp : p < net.vertices.size) (q n : NodeId) :
    (net'.receiversOf q).count (.node n) =
      (net.receiversOf q).count (.node n) + (if n = m then [p] else []).count q := by
  rw [x.receiversOf hp, List.count_append]
  refine congrArg _ ?_
  by_cases hq : q = p
  · subst hq
    by_cases hnm : n = m
    · simp [hnm]
    · simp [hnm, Ne.symm hnm]
  · by_cases hnm : n = m
    · simp [hnm, hq, Ne.symm hq]
    · simp [hnm, hq]

theorem count_index (hp : p < net.vertices.size) (q : NodeId) (I : IndexId) :
    (net'.receiversOf q).count (.index I) = (net.receiversOf q).count (.index I) := by
  rw [x.receiversOf hp, List.count_append]
  split <;> simp

theorem fits {v : Vertex} (w : net.Wired) (hm : net.vertices[m]? = some v)
    (hv : v.node.isProduction = true) (hw : net.widthOf p = net.widthOf m) {q : NodeId} {u : Vertex}
    (hu : net.vertices[q]? = some u) : ∃ width, u.node.Fits net'.maskOf width u.arity ∧
      (u.node.isFed = true → ∀ r ∈ u.parents ++ (if q = m then [p] else []),
        net'.widthOf r = width) := by
  obtain ⟨width, fits, hwidth⟩ := w.fits q u hu
  rw [x.maskOf]
  refine ⟨width, fits, fun hf r hr => ?_⟩
  rw [x.widthOf]
  rcases List.mem_append.1 hr with old | new
  · exact hwidth hf r old
  · split at new
    · next e =>
      subst e
      cases hm.symm.trans hu
      obtain rfl := List.mem_singleton.1 new
      have arity : net.widthOf q = v.arity := by
        rw [Network.widthOf, hm]
        rfl
      rw [hw, arity]
      cases hk : v.node <;> rw [hk] at hv fits <;> first | exact fits | cases hv
    · cases new

theorem wired (w : net.Wired) {v : Vertex} (hm : net.vertices[m]? = some v)
    (hv : v.node.isProduction = true) (hp : p < net.vertices.size)
    (hw : net.widthOf p = net.widthOf m) : net'.Wired := by
  have k := x.keeps hm hv
  have hfed : v.node.isFed = true := by
    cases hn : v.node <;> rw [hn] at hv <;> first | rfl | cases hv
  constructor
  case fed =>
    intro q n hn
    refine (x.exists_node_iff (·.isFed = true)).2 ?_
    rw [x.receiversOf hp, List.mem_append] at hn
    rcases hn with hn | hn
    · exact w.fed q n hn
    · split at hn
      · cases List.mem_singleton.1 hn
        exact ⟨v, hm, hfed⟩
      · cases hn
  case parents =>
    intro q n u' hu' hf
    obtain ⟨u, hu, hn, hpar, -⟩ := x.cases hu'
    rw [x.count_node hp, hpar, List.count_append, w.parents q n u hu (hn ▸ hf)]
  case earlier =>
    intro n u' hu' hf hprod
    obtain ⟨u, hu, hn, hpar, -⟩ := x.cases hu'
    rw [hpar, if_neg, List.append_nil]
    · exact w.earlier n u hu (hn ▸ hf) (hn ▸ hprod)
    · rintro rfl
      cases hm.symm.trans hu
      rw [hn, hv] at hprod
      cases hprod
  case indexed =>
    intro q I hI
    rw [x.arrangements]
    rw [← List.count_pos_iff, x.count_index hp, List.count_pos_iff] at hI
    exact w.indexed q I hI
  case parent =>
    intro q I a ha
    rw [x.arrangements] at ha
    rw [x.count_index hp, w.parent q I a ha]
  case fits =>
    intro q u' hu'
    obtain ⟨u, hu, hn, hpar, ha⟩ := x.cases hu'
    rw [hn, hpar, ha]
    exact x.fits w hm hv hw hu
  case width =>
    intro I a ha
    rw [x.arrangements] at ha
    rw [x.widthOf]
    exact w.width I a ha
  case unique =>
    intro I a ha hunique
    rw [x.arrangements] at ha
    exact k.flat (w.unique I a ha hunique)
  case listens =>
    intro n side I
    rw [x.listenersOf, w.listens]
    exact (x.exists_node_iff (·.source side = some I)).symm
  case nodup =>
    intro I
    rw [x.listenersOf]
    exact w.nodup I
  case order =>
    intro I
    rw [x.listenersOf]
    exact w.order I
  case inputs =>
    intro r id
    rw [x.inputs, w.inputs]
    simp only [exists_and_left]
    exact (x.exists_node_iff fun n => ∃ u memory, n = .input r u memory).symm
  case arranged =>
    intro q c I hI
    rw [x.arranged] at hI
    rw [x.arrangements]
    exact w.arranged q c I hI

end Hooked
end Network
end Motif
