import Motif.Proofs.Algebra.WellFormed
import Motif.Proofs.Network.Renders
import Motif.Proofs.Network.Termination
import Motif.Proofs.Stratification

/-!
Loops in the network of some queries. Every loop leads through productions, and what lies on it
between two of them shows parts of a body. So a loop is a path of calls from a query back to itself:
no call on it is one where it matters what is missing, and nothing is computed on it if no body of a
recursive query computes anything.
-/
set_option autoImplicit false
namespace Motif

open Std (ExtTreeMap)
open Reach (Steps)

def Body.scope (c : Catalog) (b : Body) : Scope where
  calls name arity := b.Calls name ∧ (Scope.registered c).calls name arity
  guarded name arity := (∃ k ∈ b.constraints, k.calledQuery? = some name ∧ k.isClosedWorld = true) ∧
    (Scope.registered c).calls name arity
  evaluator := (Scope.registered c).evaluator
  operator := (Scope.registered c).operator
  binds := ∃ k ∈ b.constraints, k.isBinding = true

/-- No body of a recursive query computes a value. -/
def Catalog.Calm (c : Catalog) : Prop :=
  ∀ (name : String) (q : Query), c.queries[name]? = some q → c.isRecursive name = true →
    ∀ b ∈ q.bodies, ∀ k ∈ b.constraints, k.isBinding = false

def Algebra.KeepsTo (e : Algebra) (s : Scope) : Prop := e.WellFormed s ∨ e.WellFormed s.closed

namespace Algebra

def operands : Algebra → List Algebra
  | constant .. | input _ | production .. => []
  | trim e _ | constantFilter e _ _ | equalityFilter e _ | inequalityFilter e _ _
  | expression e _ _ _ | grouping e _ _ _ | closure e => [e]
  | join a _ b _ | existence a _ b _ _ | outerJoin a _ b _ _ => [a, b]

variable {e e' : Algebra} {s : Scope}

theorem WellFormed.keepsTo_operand (h : e.WellFormed s) (he : e' ∈ e.operands) : e'.KeepsTo s := by
  cases e with
  | constant _ _ | input _ | production _ _ => cases he
  | trim _ _ | constantFilter _ _ _ | equalityFilter _ _ | inequalityFilter _ _ _
  | expression _ _ _ _ | closure _ => exact .inl (List.mem_singleton.1 he ▸ h.1)
  | grouping _ _ _ _ => exact .inr (List.mem_singleton.1 he ▸ h.1)
  | join _ _ _ _ =>
    obtain rfl | he := List.mem_cons.1 he
    · exact .inl h.1
    · exact .inl (List.mem_singleton.1 he ▸ h.2.1)
  | existence _ _ _ _ _ | outerJoin _ _ _ _ _ =>
    obtain rfl | he := List.mem_cons.1 he
    · exact .inl h.1
    · exact .inr (List.mem_singleton.1 he ▸ h.2.1)

theorem KeepsTo.operand (h : e.KeepsTo s) (he : e' ∈ e.operands) : e'.KeepsTo s :=
  h.elim (·.keepsTo_operand he) fun h => .inr ((h.keepsTo_operand he).elim id id)

end Algebra

namespace Network
variable {net : Network} {m p q : NodeId} {n : Node} {ps : List NodeId} {arity : Nat}

theorem Wired.mem_parents_of_feeds (w : net.Wired) {v : Vertex} (hv : net.vertices[m]? = some v)
    (fed : v.node.isFed = true) (hf : net.Feeds q m) : q ∈ v.parents := by
  obtain hr | ⟨I, side, -, hl⟩ := hf
  · exact (w.mem_receiversOf_node hv fed).1 hr
  · obtain ⟨u, hu, hs⟩ := (w.listens m side I).1 hl
    cases hv.symm.trans hu
    rw [Node.source_of_isFed fed] at hs
    cases hs

theorem HasNode.eq_parent (h : net.HasNode m n [p] arity) (w : net.Wired) (hn : n.isFed = true)
    (hf : net.Feeds q m) : q = p := by
  obtain ⟨v, hv, hb, hp, -⟩ := h
  simpa [hp] using w.mem_parents_of_feeds hv ((Node.isFed_of_bare_eq hb).trans hn) hf

theorem HasNode.exists_source (h : net.HasNode m n ps arity) (w : net.Wired) (hn : n.isFed = false)
    (hf : net.Feeds q m) : ∃ side I, n.source side = some I ∧ net.parentOf I = q := by
  obtain ⟨v, hv, hb, -, -⟩ := h
  obtain hr | ⟨I, side, hr, hl⟩ := hf
  · obtain ⟨u, hu, hfed⟩ := w.fed q m hr
    cases hv.symm.trans hu
    rw [Node.isFed_of_bare_eq hb, hn] at hfed
    cases hfed
  · obtain ⟨u, hu, hs⟩ := (w.listens m side I).1 hl
    cases hv.symm.trans hu
    obtain ⟨a, ha⟩ := w.indexed q I hr
    refine ⟨side, I, ?_, ?_⟩
    · rw [← Node.source_bare, ← hb, Node.source_bare, hs]
    · rw [parentOf_eq ha]
      exact ((w.mem_receiversOf_index ha).1 hr).symm

theorem HasIndex.parentOf {I : IndexId} {mask : Mask} (h : net.HasIndex I p mask) :
    net.parentOf I = p := by
  obtain ⟨a, ha, hp, -⟩ := h
  rw [parentOf_eq ha, hp]

section shows
variable {evaluators : String → Evaluator → Prop} {operators : String → Aggregator → Prop}
  {productions : ExtTreeMap String NodeId} {s : Scope} {e : Algebra}

/-- What feeds a node that shows an expression, and is not shown as a call itself, shows an operand of
the expression. -/
theorem Shows.exists_operand (w : net.Wired) (h : net.Shows evaluators operators productions e m)
    (hf : net.Feeds q m) : (∃ name arity, e = .production name arity) ∨
      ∃ e' ∈ e.operands, net.Shows evaluators operators productions e' q := by
  cases e with
  | constant _ _ =>
    obtain ⟨side, I, hs, -⟩ := HasNode.exists_source h w rfl hf
    cases side <;> cases hs
  | input r =>
    obtain ⟨unique, ps, hn⟩ := h
    obtain ⟨side, I, hs, -⟩ := hn.exists_source w rfl hf
    cases side <;> cases hs
  | production name arity => exact .inl ⟨name, arity, rfl⟩
  | trim e _ | constantFilter e _ _ | equalityFilter e _ | inequalityFilter e _ _ | closure e =>
    obtain ⟨p, hp, hn⟩ := h
    obtain rfl := hn.eq_parent w rfl hf
    exact .inr ⟨e, List.mem_singleton_self e, hp⟩
  | expression e _ _ _ =>
    obtain ⟨p, x, -, hp, hn⟩ := h
    obtain rfl := hn.eq_parent w rfl hf
    exact .inr ⟨e, List.mem_singleton_self e, hp⟩
  | join a _ b _ | existence a _ b _ _ | outerJoin a _ b _ _ =>
    obtain ⟨p, p', ha, hb, I, J, hn, hI, hJ⟩ := h
    obtain ⟨side, K, hs, rfl⟩ := hn.exists_source w rfl hf
    cases side with
    | primary =>
      cases hs
      exact .inr ⟨a, List.mem_cons_self, hI.parentOf ▸ ha⟩
    | secondary =>
      cases hs
      exact .inr ⟨b, List.mem_cons_of_mem a (List.mem_singleton_self b), hJ.parentOf ▸ hb⟩
  | grouping e _ _ _ =>
    obtain ⟨p, op, -, hp, I, hn, hI⟩ := h
    obtain ⟨side, K, hs, rfl⟩ := hn.exists_source w rfl hf
    cases side with
    | primary =>
      cases hs
      exact .inr ⟨e, List.mem_singleton_self e, hI.parentOf ▸ hp⟩
    | secondary => cases hs

theorem Shows.exists_part (w : net.Wired) (h : net.Shows evaluators operators productions e m)
    (he : e.WellFormed s) (hf : net.Feeds q m) :
    (∃ name arity, e = .production name arity) ∨
      ∃ e', net.Shows evaluators operators productions e' q ∧ e'.KeepsTo s :=
  (h.exists_operand w hf).imp_right fun part =>
    part.imp fun _ shown => ⟨shown.2, he.keepsTo_operand shown.1⟩

/-- What is read by an input that turns directions around shows a part for which it matters what is
missing. -/
theorem Shows.exists_guarded (h : net.Shows evaluators operators productions e m)
    (he : e.WellFormed s) {v : Vertex} (hv : net.vertices[m]? = some v) {side : Side} {I : IndexId}
    (hs : v.node.source side = some I) (ht : v.node.steady side = false) :
    ∃ e', net.Shows evaluators operators productions e' (net.parentOf I) ∧
      e'.WellFormed s.closed := by
  have source : ∀ {n : Node} {ps : List NodeId} {arity : Nat}, net.HasNode m n ps arity →
      n.source side = some I ∧ n.steady side = false := by
    rintro n ps arity ⟨u, hu, hb, -, -⟩
    cases hv.symm.trans hu
    rw [← Node.source_bare, ← Node.steady_bare, ← hb, Node.source_bare, Node.steady_bare]
    exact ⟨hs, ht⟩
  cases e with
  | constant _ _ =>
    obtain ⟨hs, -⟩ := source h
    cases side <;> cases hs
  | input r =>
    obtain ⟨unique, ps, hn⟩ := h
    obtain ⟨hs, -⟩ := source hn
    cases side <;> cases hs
  | production name arity =>
    obtain ⟨-, ps, hn⟩ := h
    obtain ⟨hs, -⟩ := source hn
    cases side <;> cases hs
  | trim e _ | constantFilter e _ _ | equalityFilter e _ | inequalityFilter e _ _ | closure e =>
    obtain ⟨p, hp, hn⟩ := h
    obtain ⟨hs, -⟩ := source hn
    cases side <;> cases hs
  | expression e _ _ _ =>
    obtain ⟨p, x, -, hp, hn⟩ := h
    obtain ⟨hs, -⟩ := source hn
    cases side <;> cases hs
  | join a _ b _ =>
    obtain ⟨p, p', -, -, I, J, hn, -, -⟩ := h
    cases (source hn).2
  | existence a _ b _ _ | outerJoin a _ b _ _ =>
    obtain ⟨p, p', -, hb, I, J, hn, -, hJ⟩ := h
    obtain ⟨hs, ht⟩ := source hn
    cases side with
    | primary => cases ht
    | secondary =>
      cases hs
      exact ⟨b, hJ.parentOf ▸ hb, he.2.1⟩
  | grouping e _ _ _ =>
    obtain ⟨p, op, -, hp, I, hn, hI⟩ := h
    obtain ⟨hs, -⟩ := source hn
    cases side with
    | primary =>
      cases hs
      exact ⟨e, hI.parentOf ▸ hp, he.1⟩
    | secondary => cases hs

end shows

/-- The network is that of some queries of the catalog: every production is one of theirs, fed by
nodes that show the expressions of bodies. -/
structure Composes (net : Network) (c : Catalog) (productions : ExtTreeMap String NodeId) : Prop where
  owner : ∀ (id : NodeId) (v : Vertex), net.vertices[id]? = some v → v.node.isProduction = true →
    ∃ name : String, productions[name]? = some id
  node : ∀ (name : String) (id : NodeId), productions[name]? = some id →
    ∃ ps arity, net.HasNode id (.production name ∅) ps arity
  fed : ∀ (name : String) (id p : NodeId) (v : Vertex), productions[name]? = some id →
    net.vertices[id]? = some v → p ∈ v.parents → ∃ q, c.queries[name]? = some q ∧ ∃ b ∈ q.bodies,
      ∃ e, e.WellFormed (b.scope c) ∧ net.Shows (fun _ _ => True) (fun _ _ => True) productions e p
  stratified : ∀ (name : String) (id : NodeId), productions[name]? = some id → c.Stratified name

abbrev Walks (net : Network) : NodeId → NodeId → Prop :=
  Relation.ReflTransGen fun q m => net.Feeds q m ∧
    ∃ v : Vertex, net.vertices[m]? = some v ∧ v.node.isProduction = false

section paths
variable (h : net.Regular) {x y : NodeId}
include h

theorem Regular.le_of_walks (hw : net.Walks x y) : x ≤ y := by
  induction hw with
  | refl => exact Nat.le_refl x
  | tail _ step ih =>
    obtain ⟨hf, v, hv, hp⟩ := step
    exact Nat.le_trans ih (Nat.le_of_lt (h.ordered _ _ v hf hv hp))

theorem Regular.walks_or (hr : net.Reaches x y) : net.Walks x y ∨
    ∃ p P v, net.Walks x p ∧ net.Feeds p P ∧ net.vertices[P]? = some v ∧
      v.node.isProduction = true ∧ net.Reaches P y := by
  induction hr using Relation.ReflTransGen.head_induction_on with
  | refl => exact .inl .refl
  | @head x z hf hr ih =>
    have hz := h.wired.lt_size_of_feeds hf
    have hv : net.vertices[z]? = some net.vertices[z] := Array.getElem?_eq_getElem hz
    cases hp : net.vertices[z].node.isProduction with
    | true => exact .inr ⟨x, z, _, .refl, hf, hv, hp, hr⟩
    | false =>
      rcases ih with hw | ⟨p, P, v, hw, rest⟩
      · exact .inl (.head ⟨hf, _, hv, hp⟩ hw)
      · exact .inr ⟨p, P, v, .head ⟨hf, _, hv, hp⟩ hw, rest⟩

theorem Regular.exists_production_of_below (hb : net.Below x x) :
    ∃ p P v, net.Walks x p ∧ net.Feeds p P ∧ net.vertices[P]? = some v ∧
      v.node.isProduction = true ∧ net.Reaches P x := by
  obtain ⟨z, hf, hr⟩ := Relation.TransGen.head'_iff.1 hb
  have hz := h.wired.lt_size_of_feeds hf
  have hv : net.vertices[z]? = some net.vertices[z] := Array.getElem?_eq_getElem hz
  cases hp : net.vertices[z].node.isProduction with
  | true => exact ⟨x, z, _, .refl, hf, hv, hp, hr⟩
  | false =>
    rcases h.walks_or hr with hw | ⟨p, P, v, hw, rest⟩
    · exact absurd (h.le_of_walks hw) (Nat.not_le.2 (h.ordered x z _ hf hv hp))
    · exact ⟨p, P, v, .head ⟨hf, _, hv, hp⟩ hw, rest⟩

end paths

namespace Composes
variable {c : Catalog} {productions : ExtTreeMap String NodeId} (k : net.Composes c productions)
  (h : net.Regular) {P x : NodeId} {e : Algebra} {s : Scope}
include k h

/-- The body of a query that a production feeds calls one that leads to the production's. -/
theorem exists_callee {target : String} (hP : productions[target]? = some P)
    (hr : net.Reaches P x)
    (hs : net.Shows (fun _ _ => True) (fun _ _ => True) productions e x) (he : e.WellFormed s)
    (inner : ∀ name arity, s.guarded name arity → s.calls name arity) :
    ∃ callee arity, s.calls callee arity ∧ c.Leads callee target := by
  induction hr generalizing e s with
  | refl =>
    obtain ⟨_, _, v, hv, hb, -⟩ := k.node target P hP
    obtain ⟨name, arity, rfl⟩ := hs.eq_production hv (by
      rw [← Node.isProduction_bare, hb]
      rfl)
    obtain ⟨-, ps, u, hu, hb', -⟩ := hs
    cases hv.symm.trans hu
    cases hb.symm.trans hb'
    exact ⟨target, arity, he, .refl⟩
  | @tail q x hr hf ih =>
    obtain ⟨name, arity, rfl⟩ | ⟨e', hs', he'⟩ := hs.exists_part h.wired he hf
    · obtain ⟨hid, ps, v, hv, hb, -⟩ := hs
      have hp := h.wired.mem_parents_of_feeds hv (Node.isFed_of_bare_eq hb) hf
      obtain ⟨query, hq, b, hb, e', he', hs'⟩ := k.fed name x q v hid hv hp
      obtain ⟨callee, arity', ⟨hcalls, -⟩, leads⟩ := ih hs' he' fun _ _ hg => by
        obtain ⟨⟨k, hk, hc, -⟩, reg⟩ := hg
        exact ⟨⟨k, hk, hc⟩, reg⟩
      exact ⟨name, arity, he, .head (Catalog.mem_callees.2 ⟨query, hq, b, hb, hcalls⟩) leads⟩
    · rcases he' with he' | he'
      · exact ih hs' he' inner
      · obtain ⟨callee, arity, hg, leads⟩ := ih hs' he' fun _ _ hg => hg
        exact ⟨callee, arity, inner callee arity hg, leads⟩

theorem exists_body {v : Vertex} (hw : net.Walks x p) (hf : net.Feeds p P)
    (hP : net.vertices[P]? = some v) (hprod : v.node.isProduction = true) :
    ∃ (name : String) (q : Query) (b : Body) (e : Algebra), productions[name]? = some P ∧ c.queries[name]? = some q ∧ b ∈ q.bodies ∧
      net.Shows (fun _ _ => True) (fun _ _ => True) productions e x ∧ e.KeepsTo (b.scope c) := by
  obtain ⟨name, hid⟩ := k.owner P v hP hprod
  have fed : v.node.isFed = true := by
    cases hn : v.node <;> rw [hn] at hprod <;> first | rfl | cases hprod
  have hp := h.wired.mem_parents_of_feeds hP fed hf
  obtain ⟨q, hq, b, hb, e, he, hs⟩ := k.fed name P p v hid hP hp
  suffices part : ∀ e : Algebra, net.Shows (fun _ _ => True) (fun _ _ => True) productions e p →
      e.KeepsTo (b.scope c) → ∃ e : Algebra,
        net.Shows (fun _ _ => True) (fun _ _ => True) productions e x ∧ e.KeepsTo (b.scope c) by
    obtain ⟨e', hs', he'⟩ := part e hs (.inl he)
    exact ⟨name, q, b, e', hid, hq, hb, hs', he'⟩
  clear hf hp hs he
  induction hw with
  | refl => exact fun e hs he => ⟨e, hs, he⟩
  | @tail y z _ step ih =>
    intro e hs he
    obtain ⟨hf, u, hu, hnot⟩ := step
    obtain ⟨name, arity, rfl⟩ | ⟨e', mem, hs'⟩ := hs.exists_operand h.wired hf
    · obtain ⟨-, ps, u', hu', hb, -⟩ := hs
      cases hu.symm.trans hu'
      rw [Node.isProduction_of_bare_eq hb] at hnot
      cases hnot
    · exact ih e' hs' (he.operand mem)

theorem exists_callee_of_keepsTo {target : String} {b : Body} (hP : productions[target]? = some P)
    (hr : net.Reaches P x)
    (hs : net.Shows (fun _ _ => True) (fun _ _ => True) productions e x) (he : e.KeepsTo (b.scope c)) :
    ∃ callee, b.Calls callee ∧ c.Leads callee target := by
  have calls : ∀ name arity, (b.scope c).guarded name arity → (b.scope c).calls name arity := by
    rintro name arity ⟨⟨k, hk, hc, -⟩, reg⟩
    exact ⟨⟨k, hk, hc⟩, reg⟩
  rcases he with he | he
  · obtain ⟨callee, arity, ⟨hc, -⟩, leads⟩ := k.exists_callee h hP hr hs he calls
    exact ⟨callee, hc, leads⟩
  · obtain ⟨callee, arity, hg, leads⟩ := k.exists_callee h hP hr hs he fun _ _ hg => hg
    exact ⟨callee, (calls callee arity hg).1, leads⟩

theorem exists_recursive (hb : net.Below x x) :
    ∃ (name : String) (P : NodeId) (q : Query) (b : Body) (e : Algebra), productions[name]? = some P ∧
      c.isRecursive name = true ∧ c.queries[name]? = some q ∧ b ∈ q.bodies ∧
      net.Shows (fun _ _ => True) (fun _ _ => True) productions e x ∧ e.KeepsTo (b.scope c) := by
  obtain ⟨p, P, u, hw, hf, hu, hprod, hr⟩ := h.exists_production_of_below hb
  obtain ⟨name, q, b, e, hP, hq, hb, hs, he⟩ := k.exists_body h hw hf hu hprod
  obtain ⟨callee, hcalls, leads⟩ := k.exists_callee_of_keepsTo h hP hr hs he
  exact ⟨name, P, q, b, e, hP, Catalog.isRecursive_iff_leads.2
    ⟨callee, Catalog.mem_callees.2 ⟨q, hq, b, hb, hcalls⟩, leads⟩, hq, hb, hs, he⟩

theorem acyclic (straight : ∀ (name : String) (id : NodeId), productions[name]? = some id →
    c.isRecursive name = false) : net.Acyclic := by
  intro n hb
  obtain ⟨name, P, -, -, -, hP, recursive, -⟩ := k.exists_recursive h hb
  rw [straight name P hP] at recursive
  cases recursive

theorem tame (calm : c.Calm) : net.Tame where
  binds x v ex hv hx hm hb := by
    obtain ⟨name, P, q, b, e, -, recursive, hq, hb, hs, he⟩ := k.exists_recursive h hb
    obtain ⟨e', evaluator, inputs, rfl⟩ := hs.eq_bind hv hx hm
    obtain ⟨k, hk, hbinds⟩ : (b.scope c).binds := he.elim (·.2.2.2 rfl) (·.2.2.2 rfl)
    rw [calm name q hq recursive b hb k hk] at hbinds
    cases hbinds
  sides x v side I hv hsrc hr := by
    by_contra turns
    rw [Bool.not_eq_true] at turns
    have hnot : v.node.isProduction = false := by
      cases hn : v.node <;> rw [hn] at hsrc <;> first | rfl | cases hsrc
    obtain ⟨a, ha⟩ := h.wired.exists_arrangement hv hsrc
    have hf : net.Feeds (net.parentOf I) x := .inr ⟨I, side,
      (h.wired.mem_receiversOf_index ha).2 (parentOf_eq ha), (h.wired.listens x side I).2 ⟨v, hv, hsrc⟩⟩
    rcases h.walks_or hr with hw | ⟨p, P, u, hw, hfP, hu, hprod, hr⟩
    · exact absurd (h.le_of_walks hw) (Nat.not_le.2 (h.ordered _ x v hf hv hnot))
    obtain ⟨name, q, b, e, hP, hq, hb, hs, he⟩ := k.exists_body h hw hfP hu hprod
    obtain ⟨e', hs', he'⟩ : ∃ e', net.Shows (fun _ _ => True) (fun _ _ => True) productions e'
        (net.parentOf I) ∧ e'.WellFormed (b.scope c).closed := by
      rcases he with he | he
      · exact hs.exists_guarded he hv hsrc turns
      · exact hs.exists_guarded he hv hsrc turns
    obtain ⟨callee, arity, ⟨⟨k', hk', hc, hclosed⟩, -⟩, leads⟩ :=
      k.exists_callee h hP hr hs' he' fun _ _ hg => hg
    refine k.stratified name P hP q hq k' ?_ hclosed callee hc leads
    exact List.mem_flatMap.2 ⟨b, hb, hk'⟩

end Composes
end Network
end Motif
