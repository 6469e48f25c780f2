import Mathlib.Order.Bounds.Basic
import Motif.Proofs.Network.Requests

/-!
Networks of nodes that put out more when they are given more. Such a network may have cycles. What it
is to hold is the least family of sets that is closed under what the nodes make of each other's sets.

In the middle of a propagation of insertions nodes may feed themselves, and what has come to a receiver
once may come again, so that only which tuples have come matters. Whatever a node has put out has come
to each of its receivers, unless a task is still to bring it there, and every pair of tuples that a
join finds in its indexes has been put out, unless the join is still to be told of one of them.
-/
set_option autoImplicit false
namespace Motif
namespace Node

def isPositive : Node → Bool
  | existence .. | outerJoin .. | grouping _ => false
  | expression x => x.mode == .check
  | _ => true

@[simp] theorem isPositive_bare (n : Node) : n.bare.isPositive = n.isPositive := by cases n <;> rfl

variable {masks : IndexId → Mask} {n : Node} {fed fed' : Multiset Tuple}
  {view view' : Side → Multiset Tuple} {t : Tuple}

theorem output_mono (hn : n.isPositive = true) (hf : ∀ u ∈ fed, u ∈ fed')
    (hv : ∀ side, ∀ u ∈ view side, u ∈ view' side) (ht : t ∈ n.output masks fed view) :
    t ∈ n.output masks fed' view' := by
  cases n with
  | input _ _ _ => exact hf t ht
  | constant rows => exact ht
  | trim mask =>
    obtain ⟨u, hu, rfl⟩ := Multiset.mem_map.1 ht
    exact Multiset.mem_map_of_mem _ (hf u hu)
  | constantFilter _ _ | equalityFilter _ | inequalityFilter _ _ =>
    obtain ⟨hm, hp⟩ := Multiset.mem_filter.1 ht
    exact Multiset.mem_filter.2 ⟨hf t hm, hp⟩
  | expression x =>
    obtain ⟨u, hu, hr⟩ := (Multiset.mem_filterMap _ _).1 ht
    exact (Multiset.mem_filterMap _ _).2 ⟨u, hf u hu, hr⟩
  | join p s c =>
    obtain ⟨a, ha, b, hb, hs, rfl⟩ := mem_naturalJoin.1 ht
    exact mem_naturalJoin.2 ⟨a, hv _ a ha, b, hv _ b hb, hs, rfl⟩
  | closure state =>
    obtain ⟨a, b, rfl, hl⟩ := mem_linkedPairs.1 ht
    exact mem_linkedPairs.2 ⟨a, b, rfl, hl.mono hf⟩
  | uniqueness _ | production _ _ => exact Multiset.mem_dedup.2 (hf t (Multiset.mem_dedup.1 ht))
  | _ => cases hn

theorem eq_join_of_source (hn : n.isPositive = true) {side : Side} {I : IndexId}
    (hs : n.source side = some I) : ∃ p s c, n = join p s c := by
  cases n with
  | join p s c => exact ⟨p, s, c, rfl⟩
  | existence _ _ _ | outerJoin _ _ _ _ | grouping _ => cases hn
  | _ => cases side <;> cases hs

theorem holds_congr_view (hn : n.isPositive = true) (h : n.Holds masks fed view) :
    n.Holds masks fed view' := by
  cases n with
  | existence _ _ _ | outerJoin _ _ _ _ | grouping _ => cases hn
  | _ => exact h

theorem output_of_source_eq_none (hn : n.isPositive = true) (hs : n.source .primary = none) :
    n.output masks fed view = n.output masks fed view' := by
  cases n with
  | join p s c => cases hs
  | existence _ _ _ | outerJoin _ _ _ _ | grouping _ => cases hn
  | _ => rfl

end Node

namespace Network

structure Positive (s : Network) : Prop where
  nodes : ∀ (q : NodeId) (v : Vertex), s.vertices[q]? = some v → v.node.isPositive = true
  forward : ∀ I, ∀ l ∈ s.listenersOf I, s.parentOf I < l.1

def fedFrom (base val : NodeId → Multiset Tuple) (q : NodeId) (v : Vertex) : Multiset Tuple :=
  if v.node.isFed then (v.parents.map val).sum else base q

def Closed (s : Network) (base : NodeId → Multiset Tuple) (M : NodeId → Set Tuple) : Prop :=
  ∀ (q : NodeId) (v : Vertex), s.vertices[q]? = some v → ∀ val : NodeId → Multiset Tuple,
    (∀ p, ∀ t ∈ val p, t ∈ M p) →
      ∀ t ∈ v.node.output s.maskOf (fedFrom base val q v) (s.viewBy val v), t ∈ M q

def supports (out : NodeId → Multiset Tuple) (q : NodeId) : Set Tuple := {t | t ∈ out q}

/-- The nodes put out the least closed family. -/
def Least (s : Network) (base out : NodeId → Multiset Tuple) : Prop :=
  IsLeast {M | s.Closed base M} (supports out)

variable {s : Network} {base val val' : NodeId → Multiset Tuple}

theorem mem_fedFrom {q : NodeId} {v : Vertex} (hf : v.node.isFed = true) {t : Tuple} :
    t ∈ fedFrom base val q v ↔ ∃ p ∈ v.parents, t ∈ val p := by
  rw [fedFrom, if_pos hf, mem_sum_map]

theorem fedFrom_mono {q : NodeId} {v : Vertex} (h : ∀ p, ∀ t ∈ val p, t ∈ val' p) :
    ∀ t ∈ fedFrom base val q v, t ∈ fedFrom base val' q v := by
  intro t ht
  cases hf : v.node.isFed with
  | true =>
    obtain ⟨p, hp, hm⟩ := (mem_fedFrom hf).1 ht
    exact (mem_fedFrom hf).2 ⟨p, hp, h p t hm⟩
  | false =>
    rw [fedFrom, hf] at ht ⊢
    exact ht

theorem viewBy_mono {v : Vertex} (h : ∀ p, ∀ t ∈ val p, t ∈ val' p) (side : Side) :
    ∀ t ∈ s.viewBy val v side, t ∈ s.viewBy val' v side := by
  intro t ht
  cases hs : v.node.source side with
  | none => simp [viewBy, hs] at ht
  | some I =>
    rw [viewBy_of_source hs] at ht ⊢
    exact h _ t ht

theorem fedFrom_mono_base {base' : NodeId → Multiset Tuple} {q : NodeId} {v : Vertex}
    (h : ∀ t ∈ base q, t ∈ base' q) : ∀ t ∈ fedFrom base val q v, t ∈ fedFrom base' val q v := by
  intro t ht
  rw [fedFrom] at ht ⊢
  by_cases hf : v.node.isFed = true
  · rwa [if_pos hf] at ht ⊢
  · rw [if_neg hf] at ht ⊢
    exact h t ht

theorem Closed.of_le (pos : s.Positive) {base' : NodeId → Multiset Tuple} {M : NodeId → Set Tuple}
    (hM : s.Closed base' M) (h : ∀ q, ∀ t ∈ base q, t ∈ base' q) : s.Closed base M :=
  fun q v hv val hval t ht => hM q v hv val hval t
    (Node.output_mono (pos.nodes q v hv) (fedFrom_mono_base (h q)) (fun _ _ hu => hu) ht)

theorem closed_supports_iff (pos : s.Positive) : s.Closed base (supports val) ↔
    ∀ (q : NodeId) (v : Vertex), s.vertices[q]? = some v →
      ∀ t ∈ v.node.output s.maskOf (fedFrom base val q v) (s.viewBy val v), t ∈ val q := by
  refine ⟨fun h q v hv => h q v hv val fun _ _ ht => ht, fun h q v hv val' le t ht => h q v hv t ?_⟩
  exact Node.output_mono (pos.nodes q v hv) (fedFrom_mono le) (viewBy_mono le) ht

end Network

namespace Network

def reading (net : Network) (v : Vertex) (side : Side) : Multiset Tuple :=
  (v.node.source side).elim 0 net.contentOf

def got (net : Network) (fed : NodeId → Multiset Tuple) : Receiver → Multiset Tuple
  | .node m => fed m
  | .index I => net.contentOf I

/-- A node is still to be told of one of two tuples. If it reads one index on both sides, the pair of
a tuple with itself is up to the secondary side. -/
def Awaits (s : Network) (agenda : Agenda) (q : NodeId) (p i : IndexId) (a b : Tuple) : Prop :=
  ∃ c : IndexChange, c.signature = (s.maskOf p).signature a ∧
    ((.notify q .primary ⟨.insert, a⟩ c ∈ agenda ∧ (p = i → a ≠ b)) ∨
      .notify q .secondary ⟨.insert, b⟩ c ∈ agenda)

def Due (s net : Network) (out : NodeId → Multiset Tuple) : Task → Prop
  | .propagate q e => e.direction = .insert ∧ e.tuple ∈ out q
  | .deliver R e => e.direction = .insert ∧ ∃ q, R ∈ s.receiversOf q ∧ e.tuple ∈ out q
  | .notify m side e c => e.direction = .insert ∧ ∃ I, (m, side) ∈ s.listenersOf I ∧
      e.tuple ∈ net.contentOf I ∧ c.signature = (s.maskOf I).signature e.tuple

/-- The network `net`, wired like `s`, with the tasks of `agenda` still to be done. The nodes have been
fed the tuples of `fed` and have put out those of `out`, and no more than a closed family has. -/
structure Spreading (s : Network) (base : NodeId → Multiset Tuple) (net : Network)
    (agenda : Agenda) (fed out : NodeId → Multiset Tuple) : Prop where
  bare : net.bare = s
  holds : ∀ (q : NodeId) (v : Vertex), net.vertices[q]? = some v →
    v.node.Holds s.maskOf (fed q) fun _ => 0
  given : ∀ (q : NodeId) (v : Vertex), net.vertices[q]? = some v → v.node.isFed = false →
    fed q = base q
  taken : ∀ (q : NodeId) (v : Vertex), net.vertices[q]? = some v → v.node.isFed = true →
    ∀ t ∈ fed q, ∃ p ∈ v.parents, t ∈ out p
  index : ∀ (I : IndexId) (a : Arrangement), net.arrangements[I]? = some a →
    a.index.Sound ∧ ∀ t ∈ a.index.content, t ∈ out a.parent
  width : ∀ (q : NodeId) (v : Vertex), net.vertices[q]? = some v → ∀ t ∈ out q, t.length = v.arity
  least : ∀ M, s.Closed base M → ∀ q, ∀ t ∈ out q, t ∈ M q
  made : ∀ (q : NodeId) (v : Vertex), net.vertices[q]? = some v →
    ∀ t ∈ out q, t ∈ v.node.output s.maskOf (fed q) (net.reading v)
  makes : ∀ (q : NodeId) (v : Vertex), net.vertices[q]? = some v → v.node.source .primary = none →
    ∀ t ∈ v.node.output s.maskOf (fed q) (net.reading v), t ∈ out q
  joins : ∀ (q : NodeId) (v : Vertex) (p i : IndexId) (c : Mask), net.vertices[q]? = some v →
    v.node = .join p i c → ∀ a ∈ net.contentOf p, ∀ b ∈ net.contentOf i,
      (s.maskOf i).signature b = (s.maskOf p).signature a →
        a ++ c.signature b ∈ out q ∨ s.Awaits agenda q p i a b
  reached : ∀ q R, R ∈ s.receiversOf q → ∀ t ∈ out q, t ∈ net.got fed R ∨
    .propagate q ⟨.insert, t⟩ ∈ agenda ∨ .deliver R ⟨.insert, t⟩ ∈ agenda
  due : ∀ task ∈ agenda, s.Due net out task

theorem reading_of_source {net : Network} {v : Vertex} {side : Side} {I : IndexId}
    (h : v.node.source side = some I) : net.reading v side = net.contentOf I := by
  rw [reading, h]
  rfl

namespace Spreading
variable {s net : Network} {base fed out : NodeId → Multiset Tuple} {agenda : Agenda}

section basics
variable (h : Spreading s base net agenda fed out)
include h

theorem vertex {q : NodeId} {v : Vertex} (hv : net.vertices[q]? = some v) :
    s.vertices[q]? = some v.bare := by
  rw [← h.bare]
  exact vertex_bare hv

theorem exists_vertex {q : NodeId} {w : Vertex} (hw : s.vertices[q]? = some w) :
    ∃ v, net.vertices[q]? = some v ∧ v.bare = w := by
  rw [← h.bare] at hw
  exact vertices_bare_eq_some.1 hw

theorem arrangement {I : IndexId} {a : Arrangement} (ha : net.arrangements[I]? = some a) :
    s.arrangements[I]? = some a.bare := by
  rw [← h.bare]
  exact arrangement_bare ha

theorem exists_arrangement {I : IndexId} {b : Arrangement} (hb : s.arrangements[I]? = some b) :
    ∃ a, net.arrangements[I]? = some a ∧ a.bare = b := by
  rw [← h.bare] at hb
  exact arrangements_bare_eq_some.1 hb

theorem mask {I : IndexId} {a : Arrangement} (ha : net.arrangements[I]? = some a) :
    s.maskOf I = a.index.mask := by
  rw [← h.bare, maskOf_bare, maskOf_eq ha]

theorem receivers {q : NodeId} {v : Vertex} (hv : net.vertices[q]? = some v) :
    s.receiversOf q = v.receivers := by
  rw [← h.bare, receiversOf_bare, receiversOf_eq hv]

theorem positive (pos : s.Positive) {q : NodeId} {v : Vertex} (hv : net.vertices[q]? = some v) :
    v.node.isPositive = true :=
  (Node.isPositive_bare _).symm.trans (pos.nodes q _ (h.vertex hv))

theorem vertex_of_mem {q : NodeId} {t : Tuple} (ht : t ∈ out q) :
    ∃ v, net.vertices[q]? = some v := by
  have closed : s.Closed base fun q => {_t | ∃ v, s.vertices[q]? = some v} :=
    fun q v hv _ _ _ _ => ⟨v, hv⟩
  obtain ⟨w, hw⟩ := h.least _ closed q t ht
  obtain ⟨v, hv, -⟩ := h.exists_vertex hw
  exact ⟨v, hv⟩

theorem mem_content {I : IndexId} {t : Tuple} (ht : t ∈ net.contentOf I) :
    ∃ a, net.arrangements[I]? = some a ∧ t ∈ a.index.content ∧ t ∈ out (s.parentOf I) := by
  cases ha : net.arrangements[I]? with
  | none => simp [contentOf, ha] at ht
  | some a =>
    rw [contentOf_eq ha] at ht
    refine ⟨a, rfl, ht, ?_⟩
    rw [parentOf_eq (h.arrangement ha)]
    exact (h.index I a ha).2 t ht

theorem reading_le (v : Vertex) (side : Side) :
    ∀ t ∈ net.reading v side, t ∈ s.viewBy out v side := by
  intro t ht
  cases hs : v.node.source side with
  | none => simp [reading, hs] at ht
  | some I =>
    rw [reading_of_source hs] at ht
    rw [viewBy_of_source hs]
    obtain ⟨-, -, -, hm⟩ := h.mem_content ht
    exact hm

/-- What a node makes of what has been put out is in every closed family. -/
theorem mem_of_closed (pos : s.Positive) {base' : NodeId → Multiset Tuple} {M : NodeId → Set Tuple}
    (hM : s.Closed base' M) (le : ∀ p, ∀ t ∈ out p, t ∈ M p) {q : NodeId} {v : Vertex}
    (hv : net.vertices[q]? = some v) {fed' : Multiset Tuple} {view : Side → Multiset Tuple}
    (hf : ∀ t ∈ fed', t ∈ fedFrom base' out q v) (hr : ∀ side, ∀ t ∈ view side, t ∈ s.viewBy out v side)
    {t : Tuple} (ht : t ∈ v.node.output s.maskOf fed' view) : t ∈ M q := by
  have hfed : fedFrom base' out q v.bare = fedFrom base' out q v := by
    rw [fedFrom, fedFrom, show v.bare.node.isFed = v.node.isFed from Node.isFed_bare _]
    rfl
  have hview : s.viewBy out v.bare = s.viewBy out v := by
    funext side
    rw [viewBy, viewBy, show v.bare.node.source side = v.node.source side from Node.source_bare _ _]
  refine hM q v.bare (h.vertex hv) out le t ?_
  rw [hfed, hview, show v.bare.node.output s.maskOf _ _ = _ from Node.output_bare _ _ _]
  exact Node.output_mono (h.positive pos hv) hf hr ht

end basics

/-- Only what nodes keep and indexes hold matters. -/
theorem congr {net' : Network} (h : Spreading s base net agenda fed out)
    (hb : net'.bare = net.bare) (hv : net'.vertices = net.vertices)
    (hc : net'.contentOf = net.contentOf)
    (hi : ∀ (I : IndexId) (a : Arrangement), net'.arrangements[I]? = some a → a.index.Sound) :
    Spreading s base net' agenda fed out := by
  have reading : net'.reading = net.reading := by
    funext v side
    rw [Network.reading, Network.reading, hc]
  have got : net'.got fed = net.got fed := by
    funext R
    cases R with
    | node m => rfl
    | index I => exact congrFun hc I
  have due : s.Due net' out = s.Due net out := by
    funext task
    cases task <;> simp only [Due, hc]
  have index : ∀ (I : IndexId) (a : Arrangement), net'.arrangements[I]? = some a →
      a.index.Sound ∧ ∀ t ∈ a.index.content, t ∈ out a.parent := by
    refine fun I a ha => ⟨hi I a ha, fun t ht => ?_⟩
    have hm : t ∈ net.contentOf I := by
      rw [← hc, contentOf_eq ha]
      exact ht
    have hp : s.parentOf I = a.parent := by
      rw [← h.bare, ← hb, parentOf_eq (arrangement_bare ha)]
      rfl
    obtain ⟨-, -, -, hout⟩ := h.mem_content hm
    exact hp ▸ hout
  exact ⟨hb.trans h.bare, hv ▸ h.holds, hv ▸ h.given, hv ▸ h.taken, index, hv ▸ h.width, h.least,
    reading ▸ hv ▸ h.made, reading ▸ hv ▸ h.makes, hc ▸ hv ▸ h.joins, got ▸ h.reached,
    due ▸ h.due⟩

theorem of_eq {net' : Network} (h : Spreading s base net agenda fed out)
    (hb : net'.bare = net.bare) (hv : net'.vertices = net.vertices)
    (ha : net'.arrangements = net.arrangements) : Spreading s base net' agenda fed out :=
  h.congr hb hv (by funext I; rw [contentOf, contentOf, ha]) fun I a hI =>
    (h.index I a (ha ▸ hI)).1

end Spreading
end Network
end Motif
