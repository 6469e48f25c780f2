import Mathlib.Algebra.BigOperators.Group.Finset.Basic
import Motif.Network.Construct
import Motif.Proofs.Receive
import Motif.Proofs.Respond

set_option autoImplicit false
namespace Motif

open Std (ExtTreeSet)

def Vertex.bare (v : Vertex) : Vertex := { v with node := v.node.bare }

def Arrangement.bare (a : Arrangement) : Arrangement := { a with index := a.index.bare }

namespace Network

/-- The network without what its nodes and indexes hold and without its history. -/
def bare (net : Network) : Network :=
  { net with
    vertices := net.vertices.map Vertex.bare
    arrangements := net.arrangements.map Arrangement.bare
    issues := []
    events := []
    propagated := 0 }

variable (net : Network)

def receiversOf (q : NodeId) : List Receiver := net.vertices[q]?.elim [] Vertex.receivers

def widthOf (q : NodeId) : Nat := net.vertices[q]?.elim 0 Vertex.arity

def listenersOf (I : IndexId) : List (NodeId × Side) :=
  net.arrangements[I]?.elim [] Arrangement.listeners

def maskOf (I : IndexId) : Mask :=
  net.arrangements[I]?.elim (Mask.identity 0) fun a => a.index.mask

def uniqueOf (I : IndexId) : Bool := net.arrangements[I]?.elim false fun a => a.index.unique

def Feeds (q n : NodeId) : Prop :=
  .node n ∈ net.receiversOf q ∨
    ∃ I side, .index I ∈ net.receiversOf q ∧ (n, side) ∈ net.listenersOf I

def Below : NodeId → NodeId → Prop := Relation.TransGen net.Feeds

def Acyclic : Prop := ∀ n, ¬net.Below n n

/-- No index notifies a node before another that lies below it. -/
def Untangled : Prop :=
  ∀ I, (net.listenersOf I).Pairwise fun l l' => ¬net.Below l.1 l'.1

/-- The network knows that a node puts out no tuple twice. -/
def Flat (q : NodeId) : Prop := ∃ depth, net.producesSetWithin depth q = .ok true

structure Wired : Prop where
  fed : ∀ q m, .node m ∈ net.receiversOf q →
    ∃ v : Vertex, net.vertices[m]? = some v ∧ v.node.isFed = true
  parents : ∀ (q m : NodeId) (v : Vertex), net.vertices[m]? = some v → v.node.isFed = true →
    (net.receiversOf q).count (.node m) = v.parents.count q
  earlier : ∀ (m : NodeId) (v : Vertex), net.vertices[m]? = some v → v.node.isFed = true →
    v.node.isProduction = false → ∃ p, v.parents = [p] ∧ p < m
  indexed : ∀ q I, .index I ∈ net.receiversOf q → ∃ a : Arrangement, net.arrangements[I]? = some a
  parent : ∀ (q : NodeId) (I : IndexId) (a : Arrangement), net.arrangements[I]? = some a →
    (net.receiversOf q).count (.index I) = if q = a.parent then 1 else 0
  fits : ∀ (q : NodeId) (v : Vertex), net.vertices[q]? = some v →
    ∃ width, v.node.Fits net.maskOf width v.arity ∧
      (v.node.isFed = true → ∀ p ∈ v.parents, net.widthOf p = width)
  width : ∀ (I : IndexId) (a : Arrangement), net.arrangements[I]? = some a →
    a.index.mask.width = net.widthOf a.parent
  unique : ∀ (I : IndexId) (a : Arrangement), net.arrangements[I]? = some a →
    a.index.unique = true → net.Flat a.parent
  listens : ∀ n side I, (n, side) ∈ net.listenersOf I ↔
    ∃ v : Vertex, net.vertices[n]? = some v ∧ v.node.source side = some I
  nodup : ∀ I, (net.listenersOf I).Nodup
  order : ∀ I, (net.listenersOf I).Pairwise fun l l' => l.1 = l'.1 → l.2 = .primary
  inputs : ∀ r id, net.inputs[r]? = some id ↔
    ∃ (v : Vertex) (unique : Bool) (memory : Bag Tuple),
      net.vertices[id]? = some v ∧ v.node = .input r unique memory
  arranged : ∀ p m I, net.arranged.get? (p, m) = some I →
    ∃ a : Arrangement, net.arrangements[I]? = some a ∧ a.parent = p ∧ a.index.mask = m

theorem Wired.mem_receiversOf_node {net : Network} (w : net.Wired) {q m : NodeId} {v : Vertex}
    (hv : net.vertices[m]? = some v) (hf : v.node.isFed = true) :
    .node m ∈ net.receiversOf q ↔ q ∈ v.parents := by
  rw [← List.count_pos_iff, w.parents q m v hv hf, List.count_pos_iff]

theorem Wired.mem_receiversOf_index {net : Network} (w : net.Wired) {q : NodeId} {I : IndexId}
    {a : Arrangement} (ha : net.arrangements[I]? = some a) :
    .index I ∈ net.receiversOf q ↔ q = a.parent := by
  rw [← List.count_pos_iff, w.parent q I a ha]
  split <;> simp_all

theorem Wired.eq_of_inputs {net : Network} (w : net.Wired) {r r' : Relation} {id : NodeId}
    (hr : net.inputs[r]? = some id) (hr' : net.inputs[r']? = some id) : r' = r := by
  obtain ⟨v, u, memory, hv, hn⟩ := (w.inputs r id).1 hr
  obtain ⟨v', u', memory', hv', hn'⟩ := (w.inputs r' id).1 hr'
  cases hv.symm.trans hv'
  cases hn.symm.trans hn'
  rfl

section bare

theorem vertices_bare (q : NodeId) :
    net.bare.vertices[q]? = net.vertices[q]?.map Vertex.bare := Array.getElem?_map

theorem arrangements_bare (I : IndexId) :
    net.bare.arrangements[I]? = net.arrangements[I]?.map Arrangement.bare := Array.getElem?_map

@[simp] theorem receiversOf_bare (q : NodeId) : net.bare.receiversOf q = net.receiversOf q := by
  rw [receiversOf, receiversOf, vertices_bare]
  cases net.vertices[q]? <;> rfl

@[simp] theorem widthOf_bare (q : NodeId) : net.bare.widthOf q = net.widthOf q := by
  rw [widthOf, widthOf, vertices_bare]
  cases net.vertices[q]? <;> rfl

@[simp] theorem listenersOf_bare (I : IndexId) : net.bare.listenersOf I = net.listenersOf I := by
  rw [listenersOf, listenersOf, arrangements_bare]
  cases net.arrangements[I]? <;> rfl

@[simp] theorem maskOf_bare : net.bare.maskOf = net.maskOf := by
  funext I
  rw [maskOf, maskOf, arrangements_bare]
  cases net.arrangements[I]? <;> rfl

theorem feeds_bare : net.bare.Feeds = net.Feeds := by
  funext q n
  simp only [Feeds, receiversOf_bare, listenersOf_bare]

theorem below_bare : net.bare.Below = net.Below := by
  rw [Below, Below, feeds_bare]

theorem acyclic_bare : net.bare.Acyclic ↔ net.Acyclic := by
  rw [Acyclic, Acyclic, below_bare]

theorem untangled_bare : net.bare.Untangled ↔ net.Untangled := by
  simp only [Untangled, below_bare, listenersOf_bare]

end bare

section slots

def slots (R : Receiver) : Finset (NodeId × Nat) :=
  ((Finset.range net.vertices.size).biUnion fun q =>
    (Finset.range (net.receiversOf q).length).image fun k => (q, k)).filter fun x =>
      (net.receiversOf x.1)[x.2]? = some R

theorem lt_size_of_receiversOf_ne_nil {q : NodeId} (h : net.receiversOf q ≠ []) :
    q < net.vertices.size := by
  by_contra hn
  exact h (by rw [receiversOf, Array.getElem?_eq_none (Nat.le_of_not_lt hn)]; rfl)

theorem mem_slots {R : Receiver} {q : NodeId} {k : Nat} :
    (q, k) ∈ net.slots R ↔ (net.receiversOf q)[k]? = some R := by
  rw [slots, Finset.mem_filter, and_iff_right_of_imp]
  intro h
  obtain ⟨hk, -⟩ := List.getElem?_eq_some_iff.1 h
  refine Finset.mem_biUnion.2 ⟨q, Finset.mem_range.2 (net.lt_size_of_receiversOf_ne_nil ?_),
    Finset.mem_image.2 ⟨k, Finset.mem_range.2 hk, rfl⟩⟩
  exact List.ne_nil_of_length_pos (Nat.zero_lt_of_lt hk)

theorem card_filter_getElem? {α : Type} [DecidableEq α] (l : List α) (a : α) :
    ((Finset.range l.length).filter fun k => l[k]? = some a).card = l.count a := by
  induction l using List.reverseRecOn with
  | nil => rfl
  | append_singleton l b ih =>
    have old : (Finset.range l.length).filter (fun k => (l ++ [b])[k]? = some a) =
        (Finset.range l.length).filter fun k => l[k]? = some a :=
      Finset.filter_congr fun k hk => by rw [List.getElem?_append_left (Finset.mem_range.1 hk)]
    rw [List.length_append, List.length_singleton, Finset.range_add_one, Finset.filter_insert, old,
      List.count_append, ← ih, List.getElem?_append_right (Nat.le_refl _), Nat.sub_self]
    by_cases h : b = a
    · simp [h]
    · simp [h]

theorem card_slots (R : Receiver) (q : NodeId) :
    ((net.slots R).filter fun x => x.1 = q).card = (net.receiversOf q).count R := by
  rw [← card_filter_getElem?]
  refine Finset.card_bij' (fun x _ => x.2) (fun k _ => (q, k)) ?_ ?_ ?_ ?_
  · rintro ⟨q', k⟩ h
    obtain ⟨hs, rfl⟩ := Finset.mem_filter.1 h
    have hk := net.mem_slots.1 hs
    exact Finset.mem_filter.2 ⟨Finset.mem_range.2 (List.getElem?_eq_some_iff.1 hk).1, hk⟩
  · intro k h
    exact Finset.mem_filter.2 ⟨net.mem_slots.2 (Finset.mem_filter.1 h).2, rfl⟩
  · rintro ⟨q', k⟩ h
    obtain ⟨-, rfl⟩ := Finset.mem_filter.1 h
    rfl
  · intro k h
    rfl

/-- A sum over the places of a receiver is one over the nodes that have it. -/
theorem sum_slots {R : Receiver} {l : List NodeId}
    (h : ∀ q, (net.receiversOf q).count R = l.count q) (f : NodeId → Multiset Tuple) :
    ∑ x ∈ net.slots R, f x.1 = (l.map f).sum := by
  rw [Finset.sum_comp f Prod.fst, Finset.sum_list_map_count]
  refine Finset.sum_congr (Finset.ext fun q => ?_) fun q _ => by rw [net.card_slots, h]
  rw [List.mem_toFinset, ← List.count_pos_iff, ← h, ← net.card_slots, Finset.card_pos]
  constructor
  · intro hq
    obtain ⟨x, hx, rfl⟩ := Finset.mem_image.1 hq
    exact ⟨x, Finset.mem_filter.2 ⟨hx, rfl⟩⟩
  · rintro ⟨x, hx⟩
    obtain ⟨hs, rfl⟩ := Finset.mem_filter.1 hx
    exact Finset.mem_image_of_mem _ hs

def inflow (seen : NodeId → Nat → Multiset Tuple) (R : Receiver) : Multiset Tuple :=
  ∑ x ∈ net.slots R, seen x.1 x.2

def atSlot {α : Type} (q : NodeId) (k : Nat) (x : α) (f : NodeId → Nat → α) : NodeId → Nat → α :=
  fun q' k' => if q' = q ∧ k' = k then x else f q' k'

variable {seen : NodeId → Nat → Multiset Tuple} {q : NodeId} {k : Nat} {R : Receiver}

theorem inflow_eq_add (h : (q, k) ∈ net.slots R) :
    net.inflow seen R = seen q k + ∑ x ∈ (net.slots R).erase (q, k), seen x.1 x.2 :=
  (Finset.add_sum_erase _ (fun x : NodeId × Nat => seen x.1 x.2) h).symm

theorem mem_inflow (h : (q, k) ∈ net.slots R) {t : Tuple} (ht : t ∈ seen q k) :
    t ∈ net.inflow seen R := by
  rw [net.inflow_eq_add h]
  exact Multiset.mem_add.2 (.inl ht)

theorem inflow_atSlot_of_notMem (h : (q, k) ∉ net.slots R) (m : Multiset Tuple) :
    net.inflow (atSlot q k m seen) R = net.inflow seen R := by
  refine Finset.sum_congr rfl fun x hx => if_neg ?_
  rintro ⟨rfl, rfl⟩
  exact h hx

theorem inflow_atSlot (h : (q, k) ∈ net.slots R) {e : Event} {w : Nat} {flat : Prop}
    (hs : e.Suits w flat (seen q k)) :
    net.inflow (atSlot q k (e.apply (seen q k)) seen) R = e.apply (net.inflow seen R) := by
  have others : ∑ x ∈ (net.slots R).erase (q, k), atSlot q k (e.apply (seen q k)) seen x.1 x.2 =
      ∑ x ∈ (net.slots R).erase (q, k), seen x.1 x.2 := by
    refine Finset.sum_congr rfl fun x hx => if_neg ?_
    rintro ⟨rfl, rfl⟩
    exact Finset.notMem_erase _ _ hx
  rw [net.inflow_eq_add h, net.inflow_eq_add h, others, atSlot, if_pos ⟨rfl, rfl⟩]
  obtain ⟨d, t⟩ := e
  cases d with
  | insert => exact Multiset.cons_add _ _ _
  | revoke => exact (Multiset.erase_add_left_pos _ (hs.revoke rfl)).symm

end slots

section flat
variable {net}

theorem size_ofList_eq_length_iff {l : List Tuple} :
    (ExtTreeSet.ofList l).size = l.length ↔ l.Nodup := by
  have perm : (ExtTreeSet.ofList l).toList.Perm l.dedup :=
    (List.perm_ext_iff_of_nodup (nodup_toList _) l.nodup_dedup).2 fun t => by simp
  rw [← ExtTreeSet.length_toList, perm.length_eq]
  exact ⟨fun h => List.dedup_eq_self.1 (l.dedup_sublist.eq_of_length h),
    fun h => by rw [List.dedup_eq_self.2 h]⟩

theorem index_eq {I : IndexId} {a : Arrangement} (h : net.arrangements[I]? = some a) :
    net.index I = .ok a.index := by
  rw [index, arrangement, h]
  rfl

theorem exists_of_index {I : IndexId} {ix : Index} (h : net.index I = .ok ix) :
    ∃ a, net.arrangements[I]? = some a ∧ a.index = ix := by
  rw [index, arrangement] at h
  cases ha : net.arrangements[I]? with
  | none =>
    rw [ha] at h
    cases h
  | some a =>
    rw [ha] at h
    exact ⟨a, rfl, Except.ok.inj h⟩

theorem unique_of_index {I : IndexId} {b : Bool} (h : Index.unique <$> net.index I = .ok b) :
    net.uniqueOf I = b := by
  obtain ⟨ix, hix, h⟩ := bind_ok h
  obtain ⟨a, ha, rfl⟩ := exists_of_index hix
  rw [uniqueOf, ha]
  exact Except.ok.inj h

theorem unique_of_both {p s : IndexId} (h : (do
    if (← net.index p).unique then return (← net.index s).unique else return false) =
      (.ok true : Except Fault Bool)) : net.uniqueOf p = true ∧ net.uniqueOf s = true := by
  obtain ⟨ix, hp, h⟩ := bind_ok h
  split at h
  · next hu => exact ⟨unique_of_index (by rw [hp]; exact congrArg Except.ok hu), unique_of_index h⟩
  · cases h

theorem Wired.exists_arrangement (w : net.Wired) {q : NodeId} {v : Vertex}
    (hv : net.vertices[q]? = some v) {side : Side} {I : IndexId}
    (hs : v.node.source side = some I) : ∃ a, net.arrangements[I]? = some a := by
  have hl := (w.listens q side I).2 ⟨v, hv, hs⟩
  rw [listenersOf] at hl
  cases ha : net.arrangements[I]? with
  | none =>
    rw [ha] at hl
    cases hl
  | some a => exact ⟨a, rfl⟩

theorem flat_of_firstHas {parents : List NodeId} {depth : Nat}
    (h : firstHas (net.producesSetWithin depth) parents = .ok true) :
    ∃ p rest, parents = p :: rest ∧ net.Flat p := by
  cases parents with
  | nil => cases h
  | cons p rest => exact ⟨p, rest, rfl, depth, h⟩

/-- Why a node puts out no tuple twice. -/
theorem Flat.node {q : NodeId} {v : Vertex} (h : net.Flat q) (hv : net.vertices[q]? = some v) :
    v.node.Flat net.uniqueOf (∃ p rest, v.parents = p :: rest ∧ net.Flat p) := by
  obtain ⟨depth, h⟩ := h
  obtain ⟨n, parents, receivers, arity⟩ := v
  cases depth with
  | zero => cases h
  | succ depth =>
    rw [producesSetWithin, vertex, hv] at h
    cases n with
    | input r u memory => exact Except.ok.inj h
    | constant rows => exact size_ofList_eq_length_iff.1 (beq_iff_eq.1 (Except.ok.inj h))
    | trim mask =>
      by_cases hm : mask.isIdentity = true
      · have h' : (if mask.isIdentity = true then firstHas (net.producesSetWithin depth) parents
            else .ok false) = .ok true := h
        rw [if_pos hm] at h'
        exact ⟨hm, flat_of_firstHas h'⟩
      · have h' : (if mask.isIdentity = true then firstHas (net.producesSetWithin depth) parents
            else .ok false) = .ok true := h
        rw [if_neg hm] at h'
        cases h'
    | constantFilter _ _ | equalityFilter _ | inequalityFilter _ _ | expression _ =>
      exact flat_of_firstHas h
    | join p s _ | outerJoin p s _ _ => exact unique_of_both h
    | existence p _ _ => exact unique_of_index h
    | _ => trivial

end flat

end Network
end Motif
