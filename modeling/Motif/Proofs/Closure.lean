import Mathlib.Data.List.Nodup
import Motif.Closure
import Motif.Proofs.Reach
import Motif.Proofs.Relational

/-!
The maintained closure is that of its edges: it holds the pairs that a search over the edges finds,
and a change answers with the pairs that come or go. So it does after any sequence of edges coming and
going.
-/
set_option autoImplicit false
namespace Motif

open Std (ExtTreeMap ExtTreeSet)

section Linked
variable {E : Multiset Tuple} {a b x y : Value}

def EdgePath (E : Multiset Tuple) : Value → Value → Prop := Relation.TransGen fun x y => [x, y] ∈ E

theorem linked_self : Linked E a a ↔ [a, a] ∈ E := by rw [Linked, if_pos rfl]

theorem linked_of_ne (h : a ≠ b) : Linked E a b ↔ EdgePath E a b := by rw [Linked, if_neg h]; rfl

theorem linked_of_mem (h : [a, b] ∈ E) : Linked E a b := by
  by_cases e : a = b
  · subst e
    exact linked_self.2 h
  · exact (linked_of_ne e).2 (.single h)

theorem edgePath_of_linked (h : Linked E a b) : EdgePath E a b := by
  by_cases e : a = b
  · subst e
    exact .single (linked_self.1 h)
  · exact (linked_of_ne e).1 h

theorem not_linked_zero : ¬Linked 0 a b := fun h => by
  obtain ⟨x, hx, -⟩ := Relation.TransGen.head'_iff.1 (edgePath_of_linked h)
  exact Multiset.notMem_zero _ hx

theorem eq_or_linked_iff : x = y ∨ Linked E x y ↔ x = y ∨ EdgePath E x y := by
  constructor
  · exact Or.imp_right edgePath_of_linked
  · by_cases e : x = y
    · exact fun _ => .inl e
    · exact Or.imp_right (linked_of_ne e).2

theorem EdgePath.mono {E' : Multiset Tuple} (hs : ∀ t ∈ E, t ∈ E') (h : EdgePath E x y) :
    EdgePath E' x y :=
  Relation.TransGen.mono (fun _ _ => hs _) _ _ h

theorem Linked.mono {E' : Multiset Tuple} (hs : ∀ t ∈ E, t ∈ E') (h : Linked E x y) :
    Linked E' x y := by
  by_cases e : x = y
  · subst e
    exact linked_self.2 (hs _ (linked_self.1 h))
  · exact (linked_of_ne e).2 (((linked_of_ne e).1 h).mono hs)

theorem EdgePath.append (h : x = y ∨ EdgePath E x y) {z : Value} (h' : EdgePath E y z) :
    EdgePath E x z := by
  rcases h with rfl | h
  · exact h'
  · exact Relation.TransGen.trans h h'

/-- A path that uses a further edge leads to its source and on from its target. -/
theorem edgePath_cons_iff : EdgePath ([a, b] ::ₘ E) x y ↔
    EdgePath E x y ∨ ((x = a ∨ EdgePath E x a) ∧ (y = b ∨ EdgePath E b y)) := by
  constructor
  · intro h
    induction h with
    | single h =>
      rcases Multiset.mem_cons.1 h with h | h
      · cases h
        exact .inr ⟨.inl rfl, .inl rfl⟩
      · exact .inl (Relation.TransGen.single h)
    | tail _ step ih =>
      rcases Multiset.mem_cons.1 step with h | h
      · cases h
        rcases ih with ih | ih
        · exact .inr ⟨.inr ih, .inl rfl⟩
        · exact .inr ⟨ih.1, .inl rfl⟩
      · rcases ih with ih | ⟨ih, rfl | ih'⟩
        · exact .inl (ih.tail h)
        · exact .inr ⟨ih, .inr (.single h)⟩
        · exact .inr ⟨ih, .inr (ih'.tail h)⟩
  · have mono : ∀ {u v : Value}, EdgePath E u v → EdgePath ([a, b] ::ₘ E) u v :=
      fun h => h.mono fun t => Multiset.mem_cons_of_mem
    rintro (h | ⟨h, h'⟩)
    · exact mono h
    · have edge : EdgePath ([a, b] ::ₘ E) a b := .single (Multiset.mem_cons_self _ _)
      have front : EdgePath ([a, b] ::ₘ E) x b := EdgePath.append (h.imp_right mono) edge
      rcases h' with rfl | h'
      · exact front
      · exact Relation.TransGen.trans front (mono h')

theorem linked_cons_of_linked (h : Linked E a b) : Linked ([a, b] ::ₘ E) x y ↔ Linked E x y := by
  refine ⟨fun h' => ?_, Linked.mono fun t => Multiset.mem_cons_of_mem⟩
  by_cases e : x = y
  · subst e
    rw [linked_self] at h' ⊢
    rcases Multiset.mem_cons.1 h' with h' | h'
    · cases h'
      exact linked_self.1 h
    · exact h'
  · rw [linked_of_ne e] at h' ⊢
    rcases edgePath_cons_iff.1 h' with path | ⟨front, rfl | back⟩
    · exact path
    · exact EdgePath.append front (edgePath_of_linked h)
    · exact EdgePath.append front (Relation.TransGen.trans (edgePath_of_linked h) back)

theorem linked_cons_iff : Linked ([a, b] ::ₘ E) x y ↔
    Linked E x y ∨ ((x = a ∨ Linked E x a) ∧ (y = b ∨ Linked E b y) ∧
      (y ≠ x ∨ [x, x] ∈ [a, b] ::ₘ E)) := by
  rw [eq_or_linked_iff, eq_comm (a := y) (b := b), eq_or_linked_iff]
  by_cases e : x = y
  · subst e
    simp only [linked_self, ne_eq, not_true_eq_false, false_or, Multiset.mem_cons]
    constructor
    · rintro (h | h)
      · cases h
        exact .inr ⟨.inl rfl, .inl rfl, .inl rfl⟩
      · exact .inl h
    · rintro (h | ⟨-, -, h⟩)
      · exact .inr h
      · exact h
  · rw [linked_of_ne e, linked_of_ne e, edgePath_cons_iff, eq_comm (a := b)]
    simp only [ne_eq, eq_comm (a := y), e, not_false_eq_true, true_or, and_true]

end Linked

namespace Closure

structure Based (c : Closure) (E : Multiset Tuple) : Prop where
  edges : ∀ a b, c.edges.count (a, b) = E.count [a, b]
  successors : ∀ a b, b ∈ c.targets a ↔ [a, b] ∈ E

structure Paired (c : Closure) (E : Multiset Tuple) : Prop where
  reach : ∀ a b, b ∈ c.reach a ↔ Linked E a b
  sources : ∀ a b, a ∈ c.sourcesOf b ↔ Linked E a b

structure Represents (c : Closure) (E : Multiset Tuple) : Prop extends c.Based E, c.Paired E

variable {c : Closure} {E : Multiset Tuple} {a b : Value}

theorem represents_empty : Represents {} 0 := by
  refine ⟨⟨fun a b => by simp, fun a b => by simp [targets]⟩, fun a b => ?_, fun a b => ?_⟩
  · simp [reach, not_linked_zero]
  · simp [sourcesOf, not_linked_zero]

theorem Based.hasEdge_iff (h : c.Based E) : c.hasEdge a b = true ↔ [a, b] ∈ E := by
  rw [hasEdge, Bag.contains_iff, h.edges, Multiset.count_pos]

theorem contains_iff (h : c.Represents E) : c.contains a b = true ↔ Linked E a b := by
  rw [contains, ← h.reach, ExtTreeSet.mem_iff_contains]

theorem Based.mem_search (h : c.Based E) : b ∈ c.search a ↔ Linked E a b := by
  have nodes : ∀ v, (c.targets v).toList ≠ [] → v ∈ c.successors.keys := by
    intro v hv
    rw [ExtTreeMap.mem_keys]
    by_contra hn
    rw [targets, ExtTreeMap.getD_eq_fallback hn] at hv
    simp at hv
  have next : ∀ v u, u ∈ (c.targets v).toList ↔ [v, u] ∈ E := fun v u => by
    rw [ExtTreeSet.mem_toList, h.successors]
  have met := fun x => Reach.mem_closure nodes
    (le_of_eq ExtTreeMap.length_keys) (c.targets a).toList x
  have path : ∀ x, (∃ s ∈ (c.targets a).toList,
      Relation.ReflTransGen (Reach.Steps fun v => (c.targets v).toList) s x) ↔ EdgePath E a x := by
    intro x
    have e : Reach.Steps (fun v => (c.targets v).toList) = fun x y => [x, y] ∈ E := by
      funext u v
      exact propext (next u v)
    rw [e, EdgePath, Relation.TransGen.head'_iff]
    simp only [next]
  rw [search]
  by_cases hs : c.hasEdge a a = true
  · rw [if_pos hs, met, path]
    by_cases e : a = b
    · subst e
      have he := h.hasEdge_iff.1 hs
      exact iff_of_true (.single he) (linked_self.2 he)
    · rw [linked_of_ne e]
  · rw [if_neg hs, ExtTreeSet.mem_erase, met, path]
    by_cases e : a = b
    · subst e
      simpa [linked_self] using fun he => hs (h.hasEdge_iff.2 he)
    · simp [linked_of_ne e, e]

section maps
variable {t : ExtTreeMap Value (ExtTreeSet Value)} {x y : Value}

theorem mem_linkIn : y ∈ (linkIn t a b).getD x ∅ ↔ (a, b) = (x, y) ∨ y ∈ t.getD x ∅ := by
  rw [linkIn, ExtTreeMap.getD_insert, Prod.mk.injEq]
  simp only [Std.LawfulEqCmp.compare_eq_iff_eq]
  by_cases e : a = x
  · subst e
    simp
  · simp [e]

theorem mem_unlinkIn : y ∈ (unlinkIn t a b).getD x ∅ ↔ (a, b) ≠ (x, y) ∧ y ∈ t.getD x ∅ := by
  rw [unlinkIn, ne_eq, Prod.mk.injEq]
  by_cases e : a = x
  · subst e
    have erased : y ∈ (t.getD a ∅).erase b ↔ ¬b = y ∧ y ∈ t.getD a ∅ := by
      simp
    split
    · next h =>
      rw [ExtTreeSet.isEmpty_iff] at h
      simp only [h, ExtTreeSet.not_mem_empty, false_iff] at erased
      simp [erased]
    · simp [erased]
  · split <;> simp [ExtTreeMap.getD_erase, ExtTreeMap.getD_insert, e]

end maps

variable {x y : Value} (l : List Edge)

theorem foldl_addPair (c : Closure) : (l.foldl addPair c).edges = c.edges ∧
    (l.foldl addPair c).successors = c.successors ∧
    (y ∈ (l.foldl addPair c).reach x ↔ (x, y) ∈ l ∨ y ∈ c.reach x) ∧
    (x ∈ (l.foldl addPair c).sourcesOf y ↔ (x, y) ∈ l ∨ x ∈ c.sourcesOf y) := by
  induction l generalizing c with
  | nil => simp
  | cons p rest ih =>
    obtain ⟨a, b⟩ := p
    have reach : y ∈ (c.addPair (a, b)).reach x ↔ (a, b) = (x, y) ∨ y ∈ c.reach x := mem_linkIn
    have sources : x ∈ (c.addPair (a, b)).sourcesOf y ↔ (b, a) = (y, x) ∨ x ∈ c.sourcesOf y :=
      mem_linkIn
    obtain ⟨he, ht, hr, hs⟩ := ih (c.addPair (a, b))
    refine ⟨he, ht, ?_, ?_⟩
    · rw [List.foldl_cons, hr, reach, List.mem_cons, or_left_comm, ← or_assoc, eq_comm]
    · rw [List.foldl_cons, hs, sources, List.mem_cons, or_left_comm, ← or_assoc]
      simp only [Prod.mk.injEq, and_comm, eq_comm]

theorem foldl_removePair (c : Closure) : (l.foldl removePair c).edges = c.edges ∧
    (l.foldl removePair c).successors = c.successors ∧
    (y ∈ (l.foldl removePair c).reach x ↔ (x, y) ∉ l ∧ y ∈ c.reach x) ∧
    (x ∈ (l.foldl removePair c).sourcesOf y ↔ (x, y) ∉ l ∧ x ∈ c.sourcesOf y) := by
  induction l generalizing c with
  | nil => simp
  | cons p rest ih =>
    obtain ⟨a, b⟩ := p
    have reach : y ∈ (c.removePair (a, b)).reach x ↔ (a, b) ≠ (x, y) ∧ y ∈ c.reach x :=
      mem_unlinkIn
    have sources : x ∈ (c.removePair (a, b)).sourcesOf y ↔ (b, a) ≠ (y, x) ∧ x ∈ c.sourcesOf y :=
      mem_unlinkIn
    obtain ⟨he, ht, hr, hs⟩ := ih (c.removePair (a, b))
    refine ⟨he, ht, ?_, ?_⟩
    · rw [List.foldl_cons, hr, reach, List.mem_cons]
      grind
    · rw [List.foldl_cons, hs, sources, List.mem_cons]
      grind

theorem Based.add (h : c.Based E) (a b : Value) {successors : ExtTreeMap Value (ExtTreeSet Value)}
    (first : ∀ x y, y ∈ successors.getD x ∅ ↔ (a, b) = (x, y) ∨ [x, y] ∈ E) :
    { c with edges := c.edges.add (a, b), successors }.Based ([a, b] ::ₘ E) where
  edges x y := by
    rw [Bag.count_add, h.edges, Multiset.count_cons]
    simp [eq_comm]
  successors x y := by
    rw [Multiset.mem_cons]
    refine (first x y).trans (or_congr_left ?_)
    simp [eq_comm]

theorem Based.remove (h : c.Based ([a, b] ::ₘ E)) {successors : ExtTreeMap Value (ExtTreeSet Value)}
    (left : ∀ x y, y ∈ successors.getD x ∅ ↔ [x, y] ∈ E) :
    { c with edges := c.edges.remove (a, b), successors }.Based E where
  edges x y := by
    rw [Bag.count_remove, h.edges, Multiset.count_cons]
    simp [eq_comm]
  successors := left

theorem nodup_flatMap_pairs {α : Type} {ss : List α} (key : α → Value) {ts : α → List Value}
    (hs : (ss.map key).Nodup) (ht : ∀ s, (ts s).Nodup) :
    (ss.flatMap fun s => (ts s).map fun t => (key s, t)).Nodup := by
  refine List.nodup_flatMap.2 ⟨fun s _ => (ht s).map fun t t' e => (Prod.mk.inj e).2, ?_⟩
  refine (List.pairwise_map.1 hs).imp fun {s s'} hne => ?_
  rw [Function.onFun, List.disjoint_left]
  intro p hp hp'
  obtain ⟨t, -, rfl⟩ := List.mem_map.1 hp
  obtain ⟨t', -, e⟩ := List.mem_map.1 hp'
  exact hne (Prod.mk.inj e).1.symm

def rows (l : List Edge) : List Tuple := l.map fun p => [p.1, p.2]

theorem mem_rows {l : List Edge} {a b : Value} : [a, b] ∈ rows l ↔ (a, b) ∈ l := by
  simp [rows]

theorem nodup_rows {l : List Edge} (h : l.Nodup) : (rows l).Nodup :=
  h.map fun p q e => by simpa [Prod.ext_iff] using e

theorem linkedPairs_eq_add {E E' : Multiset Tuple} {l : List Edge} (hl : l.Nodup)
    (h : ∀ x y, Linked E' x y ↔ (x, y) ∈ l ∨ Linked E x y) (hd : ∀ x y, (x, y) ∈ l → ¬Linked E x y) :
    linkedPairs E' = linkedPairs E + ↑(rows l) := by
  have disjoint : Disjoint (linkedPairs E) (↑(rows l) : Multiset Tuple) := by
    rw [Multiset.disjoint_left]
    intro t ht hm
    obtain ⟨x, y, rfl, hxy⟩ := mem_linkedPairs.1 ht
    exact hd x y (mem_rows.1 (Multiset.mem_coe.1 hm)) hxy
  have nodup : (linkedPairs E + ↑(rows l)).Nodup :=
    Multiset.nodup_add.2 ⟨nodup_linkedPairs _, Multiset.coe_nodup.2 (nodup_rows hl), disjoint⟩
  refine (Multiset.Nodup.ext (nodup_linkedPairs _) nodup).2 fun t => ?_
  rw [Multiset.mem_add, mem_linkedPairs, mem_linkedPairs, Multiset.mem_coe]
  constructor
  · rintro ⟨x, y, rfl, hxy⟩
    rcases (h x y).1 hxy with hm | hxy
    · exact .inr (mem_rows.2 hm)
    · exact .inl ⟨x, y, rfl, hxy⟩
  · rintro (⟨x, y, rfl, hxy⟩ | hm)
    · exact ⟨x, y, rfl, (h x y).2 (.inr hxy)⟩
    · obtain ⟨⟨x, y⟩, hp, rfl⟩ := List.mem_map.1 hm
      exact ⟨x, y, rfl, (h x y).2 (.inl hp)⟩

theorem Paired.congr {F : Multiset Tuple} (h : c.Paired E)
    (same : ∀ x y, Linked F x y ↔ Linked E x y) : c.Paired F where
  reach x y := (h.reach x y).trans (same x y).symm
  sources x y := (h.sources x y).trans (same x y).symm

theorem linkedPairs_of_same {F : Multiset Tuple} (same : ∀ x y, Linked F x y ↔ Linked E x y) :
    linkedPairs F = linkedPairs E + ↑(rows []) :=
  linkedPairs_eq_add .nil (fun x y => by simpa using same x y) (by simp)

theorem mem_fresh (based : c.Based ([a, b] ::ₘ E)) (h : c.Paired E) :
    (x, y) ∈ c.fresh a b ↔ ¬Linked E x y ∧ (x = a ∨ Linked E x a) ∧ (y = b ∨ Linked E b y) ∧
      (y ≠ x ∨ [x, x] ∈ [a, b] ::ₘ E) := by
  simp only [fresh, List.mem_flatMap, List.mem_map, List.mem_filter, ExtTreeSet.mem_toList,
    ExtTreeSet.mem_insert, Std.LawfulEqCmp.compare_eq_iff_eq, h.reach, h.sources, Prod.mk.injEq,
    Bool.and_eq_true, Bool.or_eq_true, decide_eq_true_eq, based.hasEdge_iff]
  constructor
  · rintro ⟨s, hs, t, ⟨ht, hn, hl⟩, rfl, rfl⟩
    exact ⟨hn, hs.imp_left Eq.symm, ht.imp_left Eq.symm, hl⟩
  · rintro ⟨hn, hs, ht, hl⟩
    exact ⟨x, hs.imp_left Eq.symm, y, ⟨ht.imp_left Eq.symm, hn, hl⟩, rfl, rfl⟩

theorem addFresh (based : c.Based ([a, b] ::ₘ E)) (h : c.Paired E) :
    ((c.fresh a b).foldl addPair c).Represents ([a, b] ::ₘ E) ∧
      linkedPairs ([a, b] ::ₘ E) = linkedPairs E + ↑(rows (c.fresh a b)) := by
  have linked : ∀ x y, Linked ([a, b] ::ₘ E) x y ↔ (x, y) ∈ c.fresh a b ∨ Linked E x y := by
    intro x y
    rw [linked_cons_iff, mem_fresh based h]
    tauto
  have added := fun x y => foldl_addPair (x := x) (y := y) (c.fresh a b) c
  have nodup : (c.fresh a b).Nodup :=
    nodup_flatMap_pairs id ((List.map_id _).symm ▸ nodup_toList _) fun s =>
      (nodup_toList _).filter _
  refine ⟨⟨⟨fun x y => ?_, fun x y => ?_⟩, fun x y => ?_, fun x y => ?_⟩,
    linkedPairs_eq_add nodup linked fun x y hm => ((mem_fresh based h).1 hm).1⟩
  · rw [(added x y).1, based.edges]
  · rw [targets, (added x y).2.1]
    exact based.successors x y
  · rw [(added x y).2.2.1, linked, h.reach]
  · rw [(added x y).2.2.2, linked, h.sources]

theorem Represents.insert (h : c.Represents E) (a b : Value) :
    (c.insert a b).1.Represents ([a, b] ::ₘ E) ∧
      linkedPairs ([a, b] ::ₘ E) = linkedPairs E + ↑(rows (c.insert a b).2) := by
  have further : 1 < (c.edges.add (a, b)).count (a, b) ↔ [a, b] ∈ E := by
    rw [Bag.count_add, if_pos rfl, h.edges, ← Multiset.count_pos]
    omega
  rw [Closure.insert]
  dsimp only
  by_cases he : [a, b] ∈ E
  · rw [if_pos (further.2 he)]
    have same : ∀ x y, Linked ([a, b] ::ₘ E) x y ↔ Linked E x y := fun x y =>
      linked_cons_of_linked (linked_of_mem he)
    have based := h.add a b fun x y => by
      refine (h.successors x y).trans (or_iff_right_of_imp fun e => ?_).symm
      rwa [← (Prod.mk.inj e).1, ← (Prod.mk.inj e).2]
    obtain ⟨reach, sources⟩ := h.congr same
    exact ⟨⟨based, reach, sources⟩, linkedPairs_of_same same⟩
  · rw [if_neg (mt further.1 he)]
    exact addFresh (h.add a b fun x y => mem_linkIn.trans (or_congr_right (h.successors x y)))
      ⟨h.reach, h.sources⟩

theorem mem_stale (based : c.Based E) (h : c.Paired ([a, b] ::ₘ E)) :
    (x, y) ∈ c.stale a ↔ Linked ([a, b] ::ₘ E) x y ∧ ¬Linked E x y := by
  -- a pair that goes had a path over the edge, so that its source is one of those searched anew
  have affected : Linked ([a, b] ::ₘ E) x y → ¬Linked E x y →
      x = a ∨ Linked ([a, b] ::ₘ E) x a := by
    intro hl hn
    exact ((linked_cons_iff.1 hl).resolve_left hn).1.imp_right
      (Linked.mono fun t => Multiset.mem_cons_of_mem)
  simp only [stale, List.mem_flatMap, List.mem_map, List.mem_filter, ExtTreeSet.mem_toList,
    ExtTreeSet.mem_insert, Std.LawfulEqCmp.compare_eq_iff_eq, h.reach, h.sources, Prod.mk.injEq,
    decide_eq_true_eq, based.mem_search]
  constructor
  · rintro ⟨s, -, t, ht, rfl, rfl⟩
    exact ht
  · rintro ⟨hl, hn⟩
    exact ⟨x, (affected hl hn).imp_left Eq.symm, y, ⟨hl, hn⟩, rfl, rfl⟩

/-- Without the last edge the stale pairs are no longer linked, and all others are. -/
theorem dropStale (based : c.Based E) (h : c.Paired ([a, b] ::ₘ E)) :
    ((c.stale a).foldl removePair c).Represents E ∧
      linkedPairs ([a, b] ::ₘ E) = linkedPairs E + ↑(rows (c.stale a)) := by
  have less : ∀ x y, Linked E x y → Linked ([a, b] ::ₘ E) x y := fun x y =>
    Linked.mono fun t => Multiset.mem_cons_of_mem
  have left : ∀ x y, Linked E x y ↔ (x, y) ∉ c.stale a ∧ Linked ([a, b] ::ₘ E) x y := by
    intro x y
    have := less x y
    rw [mem_stale based h]
    tauto
  have linked : ∀ x y, Linked ([a, b] ::ₘ E) x y ↔ (x, y) ∈ c.stale a ∨ Linked E x y := by
    intro x y
    have := less x y
    rw [mem_stale based h]
    tauto
  have removed := fun x y => foldl_removePair (x := x) (y := y) (c.stale a) c
  have nodup : (c.stale a).Nodup :=
    nodup_flatMap_pairs id ((List.map_id _).symm ▸ nodup_toList _) fun s =>
      (nodup_toList _).filter _
  refine ⟨⟨⟨fun x y => ?_, fun x y => ?_⟩, fun x y => ?_, fun x y => ?_⟩,
    linkedPairs_eq_add nodup linked fun x y hm => ((mem_stale based h).1 hm).2⟩
  · rw [(removed x y).1, based.edges]
  · rw [targets, (removed x y).2.1]
    exact based.successors x y
  · rw [(removed x y).2.2.1, left, h.reach]
  · rw [(removed x y).2.2.2, left, h.sources]

theorem Represents.remove? (h : c.Represents E) (he : [a, b] ∈ E) :
    ∃ c' stale, c.remove? a b = some (c', stale) ∧ c'.Represents (E.erase [a, b]) ∧
      linkedPairs E = linkedPairs (E.erase [a, b]) + ↑(rows stale) := by
  obtain ⟨E, rfl⟩ := Multiset.exists_cons_of_mem he
  rw [Multiset.erase_cons_head]
  have held : c.edges.count (a, b) = E.count [a, b] + 1 := by
    rw [h.edges, Multiset.count_cons_self]
  rw [Closure.remove?]
  dsimp only
  rw [held, if_neg (Nat.succ_ne_zero _)]
  by_cases hm : [a, b] ∈ E
  · rw [if_pos (Nat.succ_lt_succ (Multiset.count_pos.2 hm))]
    have same : ∀ x y, Linked ([a, b] ::ₘ E) x y ↔ Linked E x y := fun x y =>
      linked_cons_of_linked (linked_of_mem hm)
    have based := h.remove fun x y => by
      refine (h.successors x y).trans (Multiset.mem_cons.trans (or_iff_right_of_imp ?_))
      rintro ⟨⟩
      exact hm
    obtain ⟨reach, sources⟩ := h.congr fun x y => (same x y).symm
    exact ⟨_, _, rfl, ⟨based, reach, sources⟩, linkedPairs_of_same same⟩
  · rw [if_neg (by rw [Multiset.count_eq_zero.2 hm]; omega)]
    have based : Closure.Based
        { c with edges := c.edges.remove (a, b), successors := unlinkIn c.successors a b } E := by
      refine h.remove fun x y => mem_unlinkIn.trans ?_
      have targets : y ∈ c.successors.getD x ∅ ↔ [x, y] ∈ [a, b] ::ₘ E := h.successors x y
      rw [targets, Multiset.mem_cons]
      constructor
      · rintro ⟨hne, e | hm⟩
        · cases e
          exact absurd rfl hne
        · exact hm
      · intro h
        refine ⟨?_, .inr h⟩
        rintro ⟨⟩
        exact hm h
    exact ⟨_, _, rfl, dropStale based ⟨h.reach, h.sources⟩⟩

theorem remove?_eq_none (h : c.Based E) (hn : [a, b] ∉ E) : c.remove? a b = none := by
  rw [remove?, h.edges, Multiset.count_eq_zero.2 hn]
  rfl

theorem Represents.pairs (h : c.Represents E) : (↑(rows c.pairs) : Multiset Tuple) = linkedPairs E := by
  have mem : ∀ x y, (x, y) ∈ c.pairs ↔ Linked E x y := by
    intro x y
    rw [← h.reach, Closure.pairs, Closure.reach, ExtTreeMap.getD_eq_getD_getElem?]
    simp only [List.mem_flatMap, List.mem_map, Prod.exists, Prod.mk.injEq,
      ExtTreeMap.mem_toList_iff_getElem?_eq_some, ExtTreeSet.mem_toList]
    constructor
    · rintro ⟨s, ts, hs, t, ht, rfl, rfl⟩
      rwa [hs]
    · intro hy
      cases hx : c.reachable[x]? with
      | none => simp [hx] at hy
      | some ts => exact ⟨x, ts, hx, y, by simpa [hx] using hy, rfl, rfl⟩
  have keys : (c.reachable.toList.map Prod.fst).Nodup := by
    rw [ExtTreeMap.map_fst_toList_eq_keys]
    exact ExtTreeMap.nodup_keys
  have nodup : c.pairs.Nodup := nodup_flatMap_pairs Prod.fst keys fun _ => nodup_toList _
  refine (Multiset.Nodup.ext (Multiset.coe_nodup.2 (nodup_rows nodup)) (nodup_linkedPairs _)).2
    fun t => ?_
  rw [Multiset.mem_coe, mem_linkedPairs, rows, List.mem_map]
  constructor
  · rintro ⟨⟨x, y⟩, hp, rfl⟩
    exact ⟨x, y, rfl, (mem x y).1 hp⟩
  · rintro ⟨x, y, rfl, hl⟩
    exact ⟨(x, y), (mem x y).2 hl, rfl⟩

end Closure

inductive EdgeChange where
  | insert (a b : Value)
  | remove (a b : Value)
  deriving DecidableEq, Repr

namespace EdgeChange

def apply (E : Multiset Edge) : EdgeChange → Multiset Edge
  | insert a b => (a, b) ::ₘ E
  | remove a b => E.erase (a, b)

def edges (changes : List EdgeChange) : Multiset Edge := changes.foldl apply 0

end EdgeChange

/-- A path of edges leads from the first value to another one, or the pair is itself an edge from a
value to itself. -/
def Derivable (E : Multiset Edge) (p : Edge) : Prop :=
  (p.1 ≠ p.2 ∧ Relation.TransGen (fun x y => (x, y) ∈ E) p.1 p.2) ∨ (p.1 = p.2 ∧ p ∈ E)

def edgeRows (E : Multiset Edge) : Multiset Tuple := E.map fun p => [p.1, p.2]

theorem edgeRow_injective : Function.Injective fun p : Edge => ([p.1, p.2] : Tuple) :=
  fun p q e => by simpa [Prod.ext_iff] using e

theorem mem_edgeRows {E : Multiset Edge} {a b : Value} : [a, b] ∈ edgeRows E ↔ (a, b) ∈ E :=
  Multiset.mem_map_of_injective edgeRow_injective (a := (a, b))

theorem edgeRows_erase (E : Multiset Edge) (a b : Value) :
    edgeRows (E.erase (a, b)) = (edgeRows E).erase [a, b] :=
  Multiset.map_erase _ edgeRow_injective (a, b) E

theorem linked_edgeRows {E : Multiset Edge} {a b : Value} :
    Linked (edgeRows E) a b ↔ Derivable E (a, b) := by
  by_cases e : a = b
  · subst e
    simp [linked_self, mem_edgeRows, Derivable]
  · simp [linked_of_ne e, EdgePath, mem_edgeRows, Derivable, e]

namespace Closure

def change (c : Closure) : EdgeChange → Closure × Option (List Edge)
  | .insert a b => ((c.insert a b).1, some (c.insert a b).2)
  | .remove a b =>
    match c.remove? a b with
    | some (left, stale) => (left, some stale)
    | none => (c, none)

def run (changes : List EdgeChange) : Closure := changes.foldl (fun c x => (c.change x).1) {}

/-- The closure holds what the edges derive, each pair once and found from both its ends, and its
answers to changes are the pairs that become or stop being derivable. -/
structure Exact (c : Closure) (E : Multiset Edge) : Prop where
  pairs : c.pairs.Nodup ∧ ∀ p, p ∈ c.pairs ↔ Derivable E p
  converse : ∀ a b, a ∈ c.sourcesOf b ↔ b ∈ c.reach a
  reach : ∀ a b, b ∈ c.reach a ↔ Derivable E (a, b)
  insert : ∀ a b, ∃ fresh, (c.change (.insert a b)).2 = some fresh ∧ fresh.Nodup ∧
    ∀ p, p ∈ fresh ↔ Derivable ((a, b) ::ₘ E) p ∧ ¬Derivable E p
  remove : ∀ a b, (a, b) ∈ E → ∃ stale, (c.change (.remove a b)).2 = some stale ∧ stale.Nodup ∧
    ∀ p, p ∈ stale ↔ Derivable E p ∧ ¬Derivable (E.erase (a, b)) p
  absent : ∀ a b, (a, b) ∉ E → c.change (.remove a b) = (c, none)

variable {c : Closure} {E : Multiset Edge}

/-- Pairs that are added to the linked ones are those that become linked, each once. -/
theorem mem_of_linkedPairs_eq_add {F G : Multiset Tuple} {l : List Edge}
    (h : linkedPairs G = linkedPairs F + ↑(rows l)) :
    l.Nodup ∧ ∀ a b, (a, b) ∈ l ↔ Linked G a b ∧ ¬Linked F a b := by
  have nodup := nodup_linkedPairs G
  rw [h, Multiset.nodup_add] at nodup
  obtain ⟨-, once, apart⟩ := nodup
  refine ⟨List.Nodup.of_map _ (Multiset.coe_nodup.1 once), fun a b => ?_⟩
  have linked : ∀ D : Multiset Tuple, [a, b] ∈ linkedPairs D ↔ Linked D a b := by
    intro D
    rw [mem_linkedPairs]
    constructor
    · rintro ⟨x, y, e, hl⟩
      cases e
      exact hl
    · exact fun hl => ⟨a, b, rfl, hl⟩
  have both : Linked G a b ↔ Linked F a b ∨ (a, b) ∈ l := by
    rw [← linked, ← linked, h, Multiset.mem_add, Multiset.mem_coe, mem_rows]
  have notBoth : (a, b) ∈ l → ¬Linked F a b := fun hm hl =>
    Multiset.disjoint_left.1 apart ((linked F).2 hl) (Multiset.mem_coe.2 (mem_rows.2 hm))
  rw [both]
  constructor
  · exact fun hm => ⟨.inr hm, notBoth hm⟩
  · rintro ⟨hl | hm, hn⟩
    · exact absurd hl hn
    · exact hm

theorem Represents.change (h : c.Represents (edgeRows E)) (x : EdgeChange) :
    (c.change x).1.Represents (edgeRows (x.apply E)) := by
  cases x with
  | insert a b =>
    rw [EdgeChange.apply, edgeRows, Multiset.map_cons]
    exact (h.insert a b).1
  | remove a b =>
    rw [EdgeChange.apply, edgeRows_erase, Closure.change]
    by_cases hm : (a, b) ∈ E
    · obtain ⟨left, stale, he, hr, -⟩ := h.remove? (mem_edgeRows.2 hm)
      rw [he]
      exact hr
    · have absent : [a, b] ∉ edgeRows E := fun hx => hm (mem_edgeRows.1 hx)
      rw [remove?_eq_none h.toBased absent, Multiset.erase_of_notMem absent]
      exact h

theorem represents_run (changes : List EdgeChange) :
    (run changes).Represents (edgeRows (EdgeChange.edges changes)) := by
  induction changes using List.reverseRecOn with
  | nil => exact represents_empty
  | append_singleton changes x ih =>
    rw [run, EdgeChange.edges, List.foldl_append, List.foldl_append]
    exact ih.change x

theorem Represents.toExact (h : c.Represents (edgeRows E)) : c.Exact E where
  pairs := by
    have e : linkedPairs (edgeRows E) = linkedPairs 0 + ↑(rows c.pairs) := by
      have none : linkedPairs 0 = 0 := Multiset.eq_zero_of_forall_notMem fun t ht => by
        obtain ⟨a, b, -, hl⟩ := mem_linkedPairs.1 ht
        exact not_linked_zero hl
      rw [none, zero_add, h.pairs]
    obtain ⟨nodup, mem⟩ := mem_of_linkedPairs_eq_add e
    refine ⟨nodup, fun ⟨a, b⟩ => ?_⟩
    rw [mem, linked_edgeRows, and_iff_left not_linked_zero]
  converse a b := (h.sources a b).trans (h.reach a b).symm
  reach a b := (h.reach a b).trans linked_edgeRows
  insert a b := by
    obtain ⟨nodup, mem⟩ := mem_of_linkedPairs_eq_add (h.insert a b).2
    refine ⟨_, rfl, nodup, fun ⟨x, y⟩ => ?_⟩
    rw [mem, linked_edgeRows, ← linked_edgeRows (E := (a, b) ::ₘ E), edgeRows, edgeRows,
      Multiset.map_cons]
  remove a b hm := by
    obtain ⟨left, stale, he, -, hs⟩ := h.remove? (mem_edgeRows.2 hm)
    obtain ⟨nodup, mem⟩ := mem_of_linkedPairs_eq_add hs
    refine ⟨stale, by rw [Closure.change, he], nodup, fun ⟨x, y⟩ => ?_⟩
    rw [mem, linked_edgeRows, ← edgeRows_erase, linked_edgeRows]
  absent a b hn := by
    rw [Closure.change, remove?_eq_none h.toBased fun hx => hn (mem_edgeRows.1 hx)]

/-- After any changes the closure holds exactly what the edges left derive. -/
theorem exact_run (changes : List EdgeChange) : (run changes).Exact (EdgeChange.edges changes) :=
  (represents_run changes).toExact

example : ((run [.insert (.int 1) (.int 2), .insert (.int 2) (.int 1), .insert (.int 1) (.int 1)]).change
    (.remove (.int 2) (.int 1))).2 = some [(.int 2, .int 1)] := by decide +kernel

end Closure
end Motif
