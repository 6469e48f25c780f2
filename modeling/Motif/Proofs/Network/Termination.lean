import Mathlib.Data.Set.Card
import Mathlib.Order.CompletePartialOrder
import Motif.Proofs.Network.ActiveDomain
import Motif.Proofs.Network.Ending

/-!
Propagations through loops. In a tame network no loop computes new values, and no loop leads through
an input by which a node turns what comes into what goes. So a change that runs around a loop keeps
its direction and brings no values but those that are there; each production on the loop passes any
one tuple on once, and the nodes between productions are passed in ascending order.
-/
set_option autoImplicit false
namespace Motif

open Std (ExtTreeMap)

namespace Node
variable {n : Node} {masks : IndexId → Mask} {fed fed' out : Set Tuple}
  {held held' : IndexId → Set Tuple} {D : Set Value}

theorem Confined.exists_finite (h : n.Confined fed out) : ∃ S : Set Tuple, S.Finite ∧
    ∀ fed' out' : Set Tuple, fed ∩ S ⊆ fed' → out ∩ S ⊆ out' → n.Confined fed' out' := by
  cases n with
  | input _ _ memory | uniqueness memory | production _ memory =>
    exact ⟨{t | t ∈ memory.toMultiset}, memory.toMultiset.finite_toSet,
      fun _ _ _ ho t ht => ho ⟨h t ht, ht⟩⟩
  | constant rows =>
    exact ⟨{t | t ∈ rows}, rows.finite_toSet, fun _ _ _ ho t ht => ho ⟨h t ht, ht⟩⟩
  | expression x =>
    refine ⟨{r | ∃ t u n, x.cache[t]? = some (u, n) ∧ r ∈ u}, ?_,
      fun _ _ _ ho t u n ht r hr => ho ⟨h t u n ht r hr, t, u, n, ht, hr⟩⟩
    refine (x.cache.toList.flatMap fun e => e.2.1.toList).finite_toSet.subset ?_
    rintro r ⟨t, u, n, ht, hr⟩
    exact List.mem_flatMap.2
      ⟨(t, u, n), ExtTreeMap.mem_toList_iff_getElem?_eq_some.2 ht, Option.mem_toList.2 hr⟩
  | grouping g =>
    refine ⟨{r | ∃ s v, g.groups[s]? = some v ∧ s ++ [v] = r}, ?_,
      fun _ _ _ ho s v hs => ho ⟨h s v hs, s, v, hs, rfl⟩⟩
    refine (g.groups.toList.map fun e => e.1 ++ [e.2]).finite_toSet.subset ?_
    rintro r ⟨s, v, hs, rfl⟩
    exact List.mem_map.2 ⟨(s, v), ExtTreeMap.mem_toList_iff_getElem?_eq_some.2 hs, rfl⟩
  | closure state =>
    obtain ⟨edges, hr, he⟩ := h
    exact ⟨{t | t ∈ edges}, edges.finite_toSet,
      fun _ _ hf _ => ⟨edges, hr, fun t ht => hf ⟨he t ht, ht⟩⟩⟩
  | _ => exact ⟨∅, Set.finite_empty, fun _ _ _ _ => trivial⟩

def defaults : Node → Tuple
  | outerJoin _ _ _ defaults => defaults
  | _ => []

def matched : Node → Finset Tuple
  | production _ memory => memory.toMultiset.toFinset
  | _ => ∅

theorem steady_bare (n : Node) (side : Side) : n.bare.steady side = n.steady side := by
  cases n <;> rfl

theorem matched_of_not_production (h : n.isProduction = false) : n.matched = ∅ := by
  cases n <;> first | rfl | cases h

theorem Carries.anti (h : n.Carries masks fed held out) (hf : fed' ⊆ fed)
    (hh : ∀ I, held' I ⊆ held I) : n.Carries masks fed' held' out := by
  cases n with
  | input _ _ _ | constant _ => trivial
  | constantFilter _ _ | equalityFilter _ | inequalityFilter _ _ | uniqueness _ | production _ _ =>
    exact hf.trans h
  | trim mask | expression x => exact fun t ht => h t (hf ht)
  | join p s c => exact fun a ha b hb => h a (hh p ha) b (hh s hb)
  | existence p _ _ => exact (hh p).trans h
  | outerJoin p s c d =>
    exact fun a ha => ⟨(h a (hh p ha)).1, fun b hb => (h a (hh p ha)).2 b (hh s hb)⟩
  | grouping g => exact fun t ht => h t (hh g.source ht)
  | closure _ => exact fun a b c d hab hcd => h a b c d (hf hab) (hf hcd)

theorem Carries.over (h : n.Carries masks fed held out)
    (hx : ∀ x, n = expression x → x.mode ≠ .bind) (hg : ∀ g, n ≠ grouping g)
    (hd : n.defaults.Over D) (hf : n.isFed = true → ∀ t ∈ fed, t.Over D)
    (hh : ∀ (side : Side) (I : IndexId), n.source side = some I → ∀ t ∈ held I, t.Over D) :
    n.Carries masks fed held {t ∈ out | t.Over D} := by
  have signature : ∀ {m : Mask} {t : Tuple}, t.Over D → Tuple.Over D (m.signature t) :=
    fun ht x hx => ht x (Mask.mem_of_mem_signature hx)
  have append : ∀ {t u : Tuple}, t.Over D → u.Over D → Tuple.Over D (t ++ u) :=
    fun ht hu x hx => (List.mem_append.1 hx).elim (ht x) (hu x)
  cases n with
  | input _ _ _ | constant _ => trivial
  | trim mask => exact fun t ht => ⟨h t ht, signature (hf rfl t ht)⟩
  | constantFilter _ _ | equalityFilter _ | inequalityFilter _ _ | uniqueness _ | production _ _ =>
    exact fun t ht => ⟨h ht, hf rfl t ht⟩
  | expression x =>
    refine fun t ht u hu => ⟨h t ht u hu, ?_⟩
    obtain ⟨-, rfl⟩ | ⟨hm, -⟩ := eq_of_mem_result hu
    · exact hf rfl _ ht
    · exact absurd hm (hx x rfl)
  | join p s c =>
    exact fun a ha b hb => ⟨h a ha b hb, append (hh .primary p rfl a ha)
      (signature (hh .secondary s rfl b hb))⟩
  | existence p _ _ => exact fun t ht => ⟨h ht, hh .primary p rfl t ht⟩
  | outerJoin p s c d =>
    refine fun a ha => ⟨⟨(h a ha).1, append (hh .primary p rfl a ha) hd⟩, fun b hb => ?_⟩
    exact ⟨(h a ha).2 b hb, append (hh .primary p rfl a ha) (signature (hh .secondary s rfl b hb))⟩
  | grouping g => exact absurd rfl (hg g)
  | closure _ =>
    refine fun a b c d hab hcd => ⟨h a b c d hab hcd, fun x hx => ?_⟩
    rcases List.mem_pair.1 hx with rfl | rfl
    · exact hf rfl _ hab _ (by simp)
    · exact hf rfl _ hcd _ (by simp)

end Node

namespace Network
variable {s net net' : Network} {n m q : NodeId} {D : Set Value} {d : Direction}

abbrev Reaches (s : Network) : NodeId → NodeId → Prop := Relation.ReflTransGen s.Feeds

/-- No loop computes values, and none leads through an input that turns directions around. -/
structure Tame (s : Network) : Prop where
  binds : ∀ (q : NodeId) (v : Vertex) (x : Expression), s.vertices[q]? = some v →
    v.node = .expression x → x.mode = .bind → ¬s.Below q q
  sides : ∀ (q : NodeId) (v : Vertex) (side : Side) (I : IndexId), s.vertices[q]? = some v →
    v.node.source side = some I → s.Reaches q (s.parentOf I) → v.node.steady side = true

theorem Wired.lt_size_of_feeds (w : s.Wired) (h : s.Feeds q m) : m < s.vertices.size := by
  obtain hr | ⟨I, side, -, hl⟩ := h
  · obtain ⟨v, hv, -⟩ := w.fed q m hr
    exact (Array.getElem?_eq_some_iff.1 hv).1
  · obtain ⟨v, hv, -⟩ := (w.listens m side I).1 hl
    exact (Array.getElem?_eq_some_iff.1 hv).1

theorem Wired.lt_size_of_reach (w : s.Wired) (hq : q < s.vertices.size)
    (h : s.Reaches q m) : m < s.vertices.size := by
  obtain rfl | ⟨p, -, hf⟩ := h.cases_tail
  · exact hq
  · exact w.lt_size_of_feeds hf

theorem Within.mono {dom dom' : NodeId → Set Tuple} (h : Within s dom net)
    (hd : ∀ q, dom q ⊆ dom' q) : Within s dom' net where
  bare := h.bare
  nodes q v hv := (h.nodes q v hv).mono
    (fun _ _ ⟨p, hp, ht⟩ => ⟨p, hp, hd p ht⟩) (hd q)
  indexes I a ha := ⟨(h.indexes I a ha).1, fun t ht => hd _ ((h.indexes I a ha).2 t ht)⟩

def room (s : Network) (D : Set Value) (n q : NodeId) : Set Tuple :=
  {t | t.length = s.widthOf q ∧ (s.Reaches q n → t.Over D)}

theorem room_subset_widths : s.room D n q ⊆ s.widths q := fun _ ht => ht.1

theorem room_of_reaches (h : s.Reaches q n) : s.room D n q = {t ∈ s.widths q | t.Over D} :=
  Set.ext fun _ => and_congr_right fun _ => forall_prop_of_true h

theorem room_of_not_reaches (h : ¬s.Reaches q n) : s.room D n q = s.widths q :=
  Set.ext fun _ => and_iff_left fun hx => absurd hx h

theorem Regular.bounds_room (h : s.Regular) (tame : s.Tame)
    (hd : ∀ (q : NodeId) (v : Vertex), s.vertices[q]? = some v → v.node.defaults.Over D)
    (hm : s.Reaches n m) : s.Bounds (s.room D n) {q | s.Reaches m q} where
  wired := h.wired
  width _ _ ht := ht.1
  apart := h.apart
  sends q hq k hf := by
    refine ⟨.tail hq hf, fun v hv => ?_⟩
    have wide : v.node.Carries s.maskOf (fedIn (s.room D n) v) (s.heldIn (s.room D n))
        (s.widths k) := ((h.bounds.sends q trivial k hf).2 v hv).anti
      (fun t ⟨p, hp, ht⟩ => ⟨p, hp, room_subset_widths ht⟩) fun I => room_subset_widths
    by_cases hk : s.Reaches k n
    · -- The node is on a loop, on which nothing is computed.
      have loop : s.Reaches k q := hk.trans (hm.trans hq)
      rw [room_of_reaches hk]
      refine wide.over (fun x hx hb => ?_) (fun g hg => ?_) (hd k v hv) (fun hfed t ht => ?_)
        fun side I hs t ht => ?_
      · exact tame.binds k v x hv hx hb (.tail' loop hf)
      · obtain hr | ⟨I, side, hr, hl⟩ := hf
        · obtain ⟨u, hu, hfed⟩ := h.wired.fed q k hr
          cases hv.symm.trans hu
          rw [hg] at hfed
          cases hfed
        · obtain ⟨u, hu, hs⟩ := (h.wired.listens k side I).1 hl
          cases hv.symm.trans hu
          obtain ⟨a, ha⟩ := h.wired.exists_arrangement hv hs
          obtain rfl := (h.wired.mem_receiversOf_index ha).1 hr
          have := tame.sides k v side I hv hs (by rw [parentOf_eq ha]; exact loop)
          rw [hg] at this
          cases this
      · obtain ⟨p, hp, ht⟩ := ht
        exact ht.2 (.head (.inl ((h.wired.mem_receiversOf_node hv hfed).2 hp)) hk)
      · obtain ⟨a, ha⟩ := h.wired.exists_arrangement hv hs
        refine ht.2 (.head (.inr ⟨I, side, ?_, (h.wired.listens k side I).2 ⟨v, hv, hs⟩⟩) hk)
        exact (h.wired.mem_receiversOf_index ha).2 (parentOf_eq ha)
    · rw [room_of_not_reaches hk]
      exact wide

theorem finite_values {S : Set Tuple} (h : S.Finite) : {x : Value | ∃ t ∈ S, x ∈ t}.Finite := by
  refine (h.biUnion fun t _ => t.finite_toSet).subset fun x ⟨t, ht, hx⟩ => ?_
  exact Set.mem_biUnion ht hx

/-- Finitely many values are in what a network keeps. -/
theorem Within.exists_room (h : Within s s.widths net) (t : Tuple) : ∃ D : Set Value, D.Finite ∧
    t.Over D ∧ (∀ (q : NodeId) (v : Vertex), s.vertices[q]? = some v → v.node.defaults.Over D) ∧
    ∀ n, Within s (s.room D n) net := by
  have nodes : ∀ q, ∃ S : Set Tuple, S.Finite ∧ ∀ v, net.vertices[q]? = some v →
      ∀ fed' out' : Set Tuple, fedIn s.widths v ∩ S ⊆ fed' → s.widths q ∩ S ⊆ out' →
        v.node.Confined fed' out' := by
    intro q
    cases hv : net.vertices[q]? with
    | none => exact ⟨∅, Set.finite_empty, nofun⟩
    | some v =>
      obtain ⟨S, hS, hc⟩ := (h.nodes q v hv).exists_finite
      exact ⟨S, hS, by rintro _ ⟨⟩; exact hc⟩
  choose kept finite confined using nodes
  obtain ⟨S, hS⟩ : ∃ S : Set Tuple, S = ({t} ∪ ⋃ q ∈ {q | q < net.vertices.size}, kept q) ∪
      ((⋃ I ∈ {I | I < net.arrangements.size}, {u | u ∈ net.contentOf I}) ∪
        ⋃ q ∈ {q | q < s.vertices.size}, {s.vertices[q]?.elim [] fun v => v.node.defaults}) :=
    ⟨_, rfl⟩
  have finS : S.Finite := by
    rw [hS]
    exact ((Set.finite_singleton t).union ((Set.finite_lt_nat _).biUnion fun q _ => finite q)).union
      (((Set.finite_lt_nat _).biUnion fun I _ => Multiset.finite_toSet _).union
        ((Set.finite_lt_nat _).biUnion fun q _ => Set.finite_singleton _))
  have covered : ∀ u ∈ S, u.Over {x | ∃ t ∈ S, x ∈ t} := fun u hu x hx => ⟨u, hu, hx⟩
  refine ⟨_, finite_values finS, covered t ?_, fun q v hv => covered _ ?_, fun n => ⟨h.bare,
    fun q v hv => ?_, fun I a ha => ⟨(h.indexes I a ha).1, fun u hu => ⟨(h.indexes I a ha).2 u hu,
      fun _ => covered u ?_⟩⟩⟩⟩
  · rw [hS]
    exact .inl (.inl rfl)
  · rw [hS]
    refine .inr (.inr (Set.mem_biUnion (Array.getElem?_eq_some_iff.1 hv).1 ?_))
    rw [hv]
    rfl
  · have inS : kept q ⊆ S := fun u hu => by
      rw [hS]
      exact .inl (.inr (Set.mem_biUnion (Array.getElem?_eq_some_iff.1 hv).1 hu))
    refine confined q v hv _ _ ?_ fun u hu => ⟨hu.1, fun _ => covered u (inS hu.2)⟩
    rintro u ⟨⟨p, hp, hw⟩, hu⟩
    exact ⟨p, hp, hw, fun _ => covered u (inS hu)⟩
  · rw [hS]
    refine .inr (.inl (Set.mem_biUnion (Array.getElem?_eq_some_iff.1 ha).1 ?_))
    rw [Set.mem_ofPred_eq, contentOf, ha]
    exact hu

def matchedAt (net : Network) (q : NodeId) : Finset Tuple :=
  net.vertices[q]?.elim ∅ fun v => v.node.matched

/-- What productions that lead to `n` may still pass on in one direction. -/
def pending (s net : Network) (D : Set Value) (n : NodeId) (d : Direction) : Set (NodeId × Tuple) :=
  {x | (x.1 < s.vertices.size ∧ s.Reaches x.1 n) ∧ x.2 ∈ s.room D n x.1 ∧
    (d = .insert ↔ x.2 ∉ net.matchedAt x.1)}

theorem finite_pending (hD : D.Finite) : (s.pending net D n d).Finite := by
  refine ((Set.finite_lt_nat s.vertices.size).biUnion fun q _ =>
    (finite_over hD (s.widthOf q)).image (Prod.mk q)).subset ?_
  rintro ⟨q, t⟩ ⟨⟨hq, hr⟩, ⟨hw, ho⟩, -⟩
  exact Set.mem_biUnion hq ⟨t, ⟨hw, ho hr⟩, rfl⟩

theorem pending_eq (h : ∀ q, s.Reaches q n → net'.matchedAt q = net.matchedAt q) :
    s.pending net' D n d = s.pending net D n d := by
  ext ⟨q, t⟩
  refine and_congr_right fun hq => and_congr_right fun _ => ?_
  rw [h q hq.2]

/-- A production passes on nothing, or one thing less is left that it may pass on. -/
theorem pending_of_counts {memory memory' : Bag Tuple} {e : Event} {out : List Event}
    (hc : Node.Counts memory memory' e out) (hm : m < s.vertices.size) (hr : s.Reaches m n)
    (room : ∀ o ∈ out, o.tuple ∈ s.room D n m)
    (before : net.matchedAt m = memory.toMultiset.toFinset)
    (after : net'.matchedAt m = memory'.toMultiset.toFinset)
    (others : ∀ q, q ≠ m → net'.matchedAt q = net.matchedAt q) :
    (out = [] ∧ s.pending net' D n e.direction = s.pending net D n e.direction) ∨
      s.pending net' D n e.direction ⊂ s.pending net D n e.direction := by
  have smaller : e.tuple ∈ s.room D n m →
      (∀ t, (e.direction = .insert ↔ t ∉ net'.matchedAt m) →
        (e.direction = .insert ↔ t ∉ net.matchedAt m)) →
      (e.direction = .insert ↔ e.tuple ∉ net.matchedAt m) →
      ¬(e.direction = .insert ↔ e.tuple ∉ net'.matchedAt m) →
      s.pending net' D n e.direction ⊂ s.pending net D n e.direction := by
    intro hroom hsub hold hnew
    have mem : (m, e.tuple) ∈ s.pending net D n e.direction := ⟨⟨hm, hr⟩, hroom, hold⟩
    refine ⟨fun x ⟨hx, hx', hp⟩ => ⟨hx, hx', ?_⟩, fun hs => hnew (hs mem).2.2⟩
    by_cases h : x.1 = m
    · rw [h] at hp ⊢
      exact hsub _ hp
    · rwa [← others _ h]
  cases hc with
  | still h =>
    refine .inl ⟨rfl, pending_eq fun q _ => ?_⟩
    by_cases hq : q = m
    · rw [hq, after, before, h]
    · exact others q hq
  | comes hd ht h =>
    have absent : e.tuple ∉ net.matchedAt m := by rwa [before, Multiset.mem_toFinset]
    rw [← before, ← after] at h
    exact .inr (smaller (room _ (by simp)) (fun t => by simp [h, hd]) (by simp [hd, absent])
      (by simp [h, hd]))
  | goes hd ht h =>
    have present : e.tuple ∈ net.matchedAt m := by rwa [before, Multiset.mem_toFinset]
    rw [← before, ← after] at h
    exact .inr (smaller (room _ (by simp)) (fun t => by simp [h, hd]) (by simp [hd, present])
      (by simp [h, hd]))

theorem Within.matchedAt_of_not_production {dom : NodeId → Set Tuple} (h : Within s dom net)
    {v : Vertex} (hv : s.vertices[m]? = some v) (hp : v.node.isProduction = false) :
    net.matchedAt m = ∅ := by
  obtain ⟨u, hu, hb⟩ := exists_vertex_of_bare_eq h.bare.symm hv
  rw [matchedAt, hu]
  refine Node.matched_of_not_production (Eq.trans ?_ hp)
  exact (Node.isProduction_of_bare_eq (Vertex.eq_of_bare_eq hb).1).symm

theorem pending_of_spares {dom : NodeId → Set Tuple} (hW : Within s dom net) (hW' : Within s dom net')
    {v : Vertex} (hv : s.vertices[m]? = some v) (hp : v.node.isProduction = false)
    (spares : Spares net net' {m} ∅) : s.pending net' D n d = s.pending net D n d := by
  refine pending_eq fun q _ => ?_
  by_cases hq : q = m
  · rw [hq, hW.matchedAt_of_not_production hv hp, hW'.matchedAt_of_not_production hv hp]
  · rw [matchedAt, spares.vertices q hq, matchedAt]

/-- The answer of a production to a change is nothing, or uses up one thing that it may pass on. -/
theorem pending_of_production {v : Vertex} {e : Event} {reply : Reply}
    (hv : net.vertices[m]? = some v) (hp : v.node.isProduction = true)
    (hreply : v.node.receive e = .ok reply) (hm : m < s.vertices.size) (hr : s.Reaches m n)
    (room : ∀ o ∈ reply.out, o.tuple ∈ s.room D n m)
    (spares : Spares net (net.answered m v.node.isProduction reply) {m} ∅) :
    (reply.out = [] ∧ s.pending (net.answered m v.node.isProduction reply) D n e.direction =
      s.pending net D n e.direction) ∨
      s.pending (net.answered m v.node.isProduction reply) D n e.direction ⊂
        s.pending net D n e.direction := by
  obtain ⟨query, memory, hn⟩ : ∃ query memory, v.node = .production query memory := by
    cases hn : v.node <;> rw [hn] at hp <;> first | exact ⟨_, _, rfl⟩ | cases hp
  rw [hn] at hreply
  obtain ⟨memory', out, issue, hcounted, counts, -⟩ := Node.receiveCounted_counts
    (.production query) ("production " ++ query) memory e
  obtain rfl := Except.ok.inj (hreply.symm.trans (congrArg Except.ok hcounted))
  refine pending_of_counts counts hm hr room ?_ ?_ fun q hq => ?_
  · rw [matchedAt, hv]
    exact congrArg Node.matched hn
  · rw [matchedAt, vertices_answered, vertex_setNode hv]
    rfl
  · rw [matchedAt, spares.vertices q hq, matchedAt]

def Left (s : Network) (D : Set Value) (n : NodeId) (d : Direction) (k : Nat) (net : Network) : Prop :=
  Within s (s.room D n) net ∧ (s.pending net D n d).ncard ≤ k

/-- Whatever the nodes fed by `m` pass on in answer to a change comes to an end, productions apart. On a
loop they pass on no other direction. -/
def Passes (s : Network) (D : Set Value) (n m : NodeId) (e : Event) (k : Nat) : Prop :=
  ∀ (m' : NodeId) (v : Vertex) (o : Event), s.Feeds m m' → s.vertices[m']? = some v →
    v.node.isProduction = false → o.tuple ∈ s.room D n m' →
    (s.Reaches m' n → o.direction = e.direction) →
    Finishes (s.Left D n e.direction k) (.propagate m' o)

section loop
variable {e : Event} {k : Nat} (h : s.Regular) (tame : s.Tame) (hD : D.Finite)
  (hd : ∀ (q : NodeId) (v : Vertex), s.vertices[q]? = some v → v.node.defaults.Over D)
  (hn : n < s.vertices.size)
  (outside : ∀ m, s.Reaches n m → ¬s.Reaches m n → s.Ends m)
include h tame hD hd hn outside

omit hD hn in
theorem finishes_outside (hm : s.Reaches n m) (hlt : m < s.vertices.size) (hr : ¬s.Reaches m n)
    (he : e.tuple ∈ s.room D n m) : Finishes (s.Left D n d k) (.propagate m e) := by
  rintro net ⟨hW, hk⟩
  obtain ⟨net', hs, -⟩ := outside m hm hr e he.1 net (hW.mono fun _ => room_subset_widths)
  have concerned : ∀ t ∈ [Task.propagate m e], s.Concerns (s.room D n) {q | s.Reaches m q} t := by
    simpa using ⟨Relation.ReflTransGen.refl, hlt, he⟩
  obtain ⟨hW', spares⟩ := (hW.settle (h.bounds_room tame hd hm) concerned).of_ok hs.settle_eq
  refine ⟨net', hs, hW', ?_⟩
  rw [pending_eq fun q hq => ?_]
  · exact hk
  · rw [matchedAt, spares.vertices q, matchedAt]
    rintro ⟨p, hp, hf⟩
    exact hr ((hp.tail hf).trans hq)

section inside
variable {m' : NodeId} (hm : s.Reaches n m) (he : e.tuple ∈ s.room D n m)
include hm he

omit hD hn outside in
theorem finishes_node (hR : .node m' ∈ s.receiversOf m) {u : Vertex}
    (hu : s.vertices[m']? = some u) (hp : u.node.isProduction = false) (passes : s.Passes D n m e k) :
    Finishes (s.Left D n e.direction k) (.deliver (.node m') e) := by
  refine .of_step fun net ⟨hW, hk⟩ => ?_
  obtain ⟨v, reply, hv, -, -, ha, hstep, hW', spares⟩ :=
    hW.deliver_node (h.bounds_room tame hd .refl) hm hR he
  refine ⟨_, _, s.Left D n e.direction k, hstep, ⟨hW', ?_⟩, fun t ht => ?_, fun _ h => h⟩
  · rwa [pending_of_spares hW hW' hu hp spares]
  · obtain ⟨o, ho, rfl⟩ := List.mem_map.1 ht
    exact passes m' u o (.inl hR) hu hp (ha.out o ho).2 fun _ => (ha.out o ho).1

omit hn in
theorem finishes_production (hR : .node m' ∈ s.receiversOf m) {u : Vertex}
    (hu : s.vertices[m']? = some u) (hp : u.node.isProduction = true)
    (fewer : ∀ j < k, ∀ o : Event, s.Reaches m' n → o.tuple ∈ s.room D n m' →
      Finishes (s.Left D n o.direction j) (.propagate m' o)) :
    Finishes (s.Left D n e.direction k) (.deliver (.node m') e) := by
  have hf : s.Feeds m m' := .inl hR
  have hlt := h.wired.lt_size_of_feeds hf
  refine .of_step fun net ⟨hW, hk⟩ => ?_
  obtain ⟨v, reply, hv, -, hreply, ha, hstep, hW', spares⟩ :=
    hW.deliver_node (h.bounds_room tame hd .refl) hm hR he
  obtain ⟨u', hu', hbare⟩ := exists_vertex_of_bare_eq hW.bare hv
  cases hu.symm.trans hu'
  have hp' : v.node.isProduction = true :=
    (Node.isProduction_of_bare_eq (Vertex.eq_of_bare_eq hbare).1).trans hp
  by_cases hr' : s.Reaches m' n
  · obtain ⟨hnil, unchanged⟩ | less := pending_of_production hv hp' hreply hlt hr'
      (fun o ho => (ha.out o ho).2) spares
    · exact ⟨_, _, _, hstep, ⟨hW', unchanged.symm ▸ hk⟩, by simp [hnil], fun _ h => h⟩
    · have hj := (Set.ncard_lt_ncard less (finite_pending hD)).trans_le hk
      refine ⟨_, _, s.Left D n e.direction _, hstep, ⟨hW', le_rfl⟩, fun t ht => ?_,
        fun _ h => ⟨h.1, h.2.trans hj.le⟩⟩
      obtain ⟨o, ho, rfl⟩ := List.mem_map.1 ht
      obtain ⟨hdir, hroom⟩ := ha.out o ho
      exact hdir ▸ fewer _ hj o hr' hroom
  · refine ⟨_, _, s.Left D n e.direction k, hstep, ⟨hW', ?_⟩, fun t ht => ?_, fun _ h => h⟩
    · rw [pending_eq fun q hq => ?_]
      · exact hk
      · rw [matchedAt, spares.vertices q, matchedAt]
        rintro rfl
        exact hr' hq
    · obtain ⟨o, ho, rfl⟩ := List.mem_map.1 ht
      exact finishes_outside h tame hd outside (hm.tail hf) hlt hr' (ha.out o ho).2

omit hD hn outside in
theorem finishes_index {I : IndexId} (hR : .index I ∈ s.receiversOf m)
    (passes : s.Passes D n m e k) :
    Finishes (s.Left D n e.direction k) (.deliver (.index I) e) := by
  have hB := h.bounds_room (D := D) tame hd (.refl : s.Reaches n n)
  refine .of_step fun net ⟨hW, hk⟩ => ?_
  obtain ⟨net₁, more, hstep, hW', vertices, -, hmore⟩ := hW.deliver_index hB hR he
  have unchanged : s.pending net₁ D n e.direction = s.pending net D n e.direction :=
    pending_eq fun q _ => by rw [matchedAt, vertices, matchedAt]
  refine ⟨net₁, more, _, hstep, ⟨hW', unchanged ▸ hk⟩, fun t ht => ?_, fun _ h => h⟩
  obtain rfl | ⟨c, hc, rfl⟩ := hmore
  · cases ht
  obtain ⟨⟨m', side⟩, hl, rfl⟩ := List.mem_map.1 ht
  obtain ⟨u, hu, hs⟩ := (h.wired.listens m' side I).1 hl
  obtain ⟨a, ha⟩ := h.wired.exists_arrangement hu hs
  have parent : s.parentOf I = m := by
    rw [parentOf_eq ha]
    exact ((h.wired.mem_receiversOf_index ha).1 hR).symm
  have hp : u.node.isProduction = false := by
    cases hu' : u.node <;> rw [hu'] at hs <;> first | rfl | cases hs
  refine .of_step fun net ⟨hW, hk⟩ => ?_
  obtain ⟨v, net₂, out, hv, hs', hstep, hW', spares, hout, hsteady⟩ :=
    hW.notify hB hm hR hl he hc
  refine ⟨net₂, _, s.Left D n e.direction k, hstep, ⟨hW', ?_⟩, fun t ht => ?_, fun _ h => h⟩
  · rwa [pending_of_spares hW hW' hu hp spares]
  obtain ⟨o, ho, rfl⟩ := List.mem_map.1 ht
  refine passes m' u o (.inr ⟨I, side, hR, hl⟩) hu hp (hout o ho) fun hr' => hsteady ?_ o ho
  -- On a loop the input does not turn directions around.
  obtain ⟨w, hw, hb⟩ := exists_vertex_of_bare_eq hW.bare hv
  cases hu.symm.trans hw
  rw [← Node.steady_bare, (Vertex.eq_of_bare_eq hb).1, Node.steady_bare]
  exact tame.sides m' u side I hu hs (by rw [parent]; exact hr'.trans hm)

end inside

theorem finishes_inside (k : Nat) {m : NodeId} (hm : s.Reaches n m) (hr : s.Reaches m n) {e : Event}
    (he : e.tuple ∈ s.room D n m) : Finishes (s.Left D n e.direction k) (.propagate m e) := by
  -- First by what productions may still pass on, then by how far the next production is.
  induction k using Nat.strong_induction_on generalizing m e with
  | _ k fewer =>
  obtain ⟨j, hj⟩ : ∃ j, s.vertices.size - m = j := ⟨_, rfl⟩
  induction j using Nat.strong_induction_on generalizing m e with
  | _ j nearer =>
  have hlt := h.wired.lt_size_of_reach hn hm
  have passes : s.Passes D n m e k := by
    intro m' v o hf hv hp ho hdir
    by_cases hr' : s.Reaches m' n
    · have closer : s.vertices.size - m' < j :=
        hj ▸ Nat.sub_lt_sub_left hlt (h.ordered m m' v hf hv hp)
      exact hdir hr' ▸ nearer _ closer (hm.tail hf) hr' ho rfl
    · exact finishes_outside h tame hd outside (hm.tail hf) (h.wired.lt_size_of_feeds hf) hr' ho
  refine .of_step fun net ⟨hW, hk⟩ => ?_
  obtain ⟨v, hv⟩ : ∃ v, net.vertices[m]? = some v :=
    ⟨_, Array.getElem?_eq_getElem (size_of_bare_eq hW.bare ▸ hlt)⟩
  refine ⟨{ net with propagated := net.propagated + 1 }, v.receivers.map (Task.deliver · e), _, ?_,
    ⟨hW.of_eq rfl rfl rfl, hk⟩, fun t ht => ?_, fun _ h => h⟩
  · rw [step, vertex, hv]
    rfl
  obtain ⟨R, hR, rfl⟩ := List.mem_map.1 ht
  rw [← receiversOf_eq hv, receiversOf_of_bare_eq hW.bare] at hR
  cases R with
  | node m' =>
    obtain ⟨u, hu, -⟩ := h.wired.fed m m' hR
    cases hp : u.node.isProduction with
    | false => exact finishes_node h tame hd hm he hR hu hp passes
    | true =>
      exact finishes_production h tame hD hd outside hm he hR hu hp fun j hj o hr' ho =>
        fewer j hj (hm.tail (.inl hR)) hr' ho
  | index I => exact finishes_index h tame hd hm he hR passes

end loop

theorem Regular.ends (h : s.Regular) (tame : s.Tame) (hn : n < s.vertices.size) : s.Ends n := by
  -- By how many nodes it leads to.
  obtain ⟨k, hk⟩ : ∃ k, {q | s.Reaches n q}.ncard = k := ⟨_, rfl⟩
  induction k using Nat.strong_induction_on generalizing n with
  | _ k ih =>
  have outside : ∀ m, s.Reaches n m → ¬s.Reaches m n → s.Ends m := by
    intro m hm hr
    refine ih _ (hk ▸ Set.ncard_lt_ncard ?_ ?_) (h.wired.lt_size_of_reach hn hm) rfl
    · exact ⟨fun q hq => hm.trans hq, fun hs => hr (hs .refl)⟩
    · exact (Set.finite_lt_nat s.vertices.size).subset fun q hq => h.wired.lt_size_of_reach hn hq
  intro e he net hW
  obtain ⟨D, hD, covered, hd, within⟩ := hW.exists_room e.tuple
  obtain ⟨net', hs, hW', -⟩ := finishes_inside h tame hD hd hn outside
    (s.pending net D n e.direction).ncard .refl .refl ⟨he, fun _ => covered⟩ net ⟨within n, le_rfl⟩
  exact ⟨net', hs, hW'.mono fun _ => room_subset_widths⟩

end Network
end Motif
