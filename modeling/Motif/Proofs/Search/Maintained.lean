import Motif.Proofs.Closure
import Motif.Proofs.Search.Paths

/-!
The search for a path and the maintained closure agree. The search asks for the edges of one node after
another, and meets no others than those that lead on from where it starts; when there are only finitely
many of these it ends, and tells what a closure that was given them would.
-/
set_option autoImplicit false
namespace Motif

namespace EdgeChange
variable {l : List Edge} {p : Edge}

theorem mem_foldl_insert {E : Multiset Edge} :
    p ∈ (l.map fun e => insert e.1 e.2).foldl apply E ↔ p ∈ l ∨ p ∈ E := by
  induction l generalizing E with
  | nil => simp
  | cons e rest ih =>
    rw [List.map_cons, List.foldl_cons, ih, apply, Multiset.mem_cons, List.mem_cons]
    tauto

theorem mem_edges_insert : p ∈ edges (l.map fun e => insert e.1 e.2) ↔ p ∈ l := by
  rw [edges, mem_foldl_insert, or_iff_left (Multiset.notMem_zero p)]

end EdgeChange

theorem linked_congr {E E' : Multiset Tuple} (h : ∀ t, t ∈ E ↔ t ∈ E') {a b : Value} :
    Linked E a b ↔ Linked E' a b :=
  ⟨Linked.mono fun t => (h t).1, Linked.mono fun t => (h t).2⟩

namespace Searcher
variable {σ ε : Type} {s : Searcher σ ε} {callee : Reference} {leads : Value → Value → Prop}
  {start : Value} {edges : List Edge}

def rowSet (edges : List Edge) : Finset Tuple := (edges.map fun p => [p.1, p.2]).toFinset

theorem mem_rowSet {t : Tuple} : t ∈ rowSet edges ↔ ∃ p ∈ edges, [p.1, p.2] = t := by
  rw [rowSet, List.mem_toFinset, List.mem_map]

theorem pair_mem_rowSet {a b : Value} : [a, b] ∈ rowSet edges ↔ (a, b) ∈ edges := by
  rw [rowSet, List.mem_toFinset, List.mem_map_of_injective edgeRow_injective (a := (a, b))]

theorem leads_of_edgePath
    (listed : ∀ x y, (x, y) ∈ edges ↔ Relation.ReflTransGen leads start x ∧ leads x y) {x : Value}
    (h : EdgePath (rowSet edges).val start x) : Relation.ReflTransGen leads start x := by
  induction h with
  | single hx => exact .single ((listed _ _).1 (pair_mem_rowSet.1 hx)).2
  | tail _ hx ih => exact ih.tail ((listed _ _).1 (pair_mem_rowSet.1 hx)).2

theorem contains_run_iff {goal : Value} :
    (Closure.run (edges.map fun e => .insert e.1 e.2)).contains start goal = true ↔
      Linked (rowSet edges).val start goal := by
  rw [Closure.contains_iff (Closure.represents_run _)]
  refine linked_congr fun t => ?_
  rw [edgeRows, Multiset.mem_map]
  simp only [EdgeChange.mem_edges_insert]
  exact mem_rowSet.symm

/-- If the edges that lead on from the start are those listed, and whoever is asked for the edges of a
node that is reached tells them, then the search for a path ends, and finds one to the goal exactly if
the closure that has been given the listed edges holds the pair. -/
theorem reaches_iff_contains
    (told : ∀ x, Relation.ReflTransGen leads start x → (s.ask callee [some x, none]).Returns fun ts =>
      ∀ t, t ∈ ts ↔ ∃ y, leads x y ∧ t = [x, y])
    (listed : ∀ x y, (x, y) ∈ edges ↔ Relation.ReflTransGen leads start x ∧ leads x y) (goal : Value) :
    (s.reaches callee start goal).Returns fun yes =>
      yes = true ↔ (Closure.run (edges.map fun e => .insert e.1 e.2)).contains start goal = true := by
  rw [contains_run_iff]
  refine reaches_of_shows goal fun x met => ?_
  have reached : Relation.ReflTransGen leads start x := by
    obtain rfl | path := met
    · exact .refl
    · exact leads_of_edgePath listed path
  refine (told x reached).mono fun ts hts => ⟨fun t ht => ?_, fun y => ?_⟩
  · obtain ⟨y, -, rfl⟩ := (hts t).1 ht
    exact ⟨y, rfl⟩
  · rw [hts, pair_mem_rowSet, listed, and_iff_right reached]
    constructor
    · rintro ⟨z, hz, e⟩
      cases e
      exact hz
    · exact fun hy => ⟨y, hy, rfl⟩

section circle

def circle : List Edge :=
  [(.int 1, .int 2), (.int 2, .int 1), (.int 2, .int 3), (.int 3, .int 3), (.int 7, .int 1)]

def ahead : List Edge := [(.int 3, .int 3), (.int 2, .int 1), (.int 1, .int 2), (.int 2, .int 3)]

def circleSearcher : Searcher Unit Failure where
  graph := ({} : Model).graph
  ask _ b := return (circle.map fun p => [p.1, p.2]).filter b.agrees
  report _ := return ()

abbrev onCircle (x y : Value) : Prop := (x, y) ∈ circle

theorem circle_reaches :
    (circleSearcher.reaches ⟨"edge", ∅⟩ (.int 1) (.int 1)).Returns fun yes => yes = true ↔
      (Closure.run (ahead.map fun e => .insert e.1 e.2)).contains (.int 1) (.int 1) = true := by
  have first : Relation.ReflTransGen onCircle (.int 1) (.int 2) := .single (by decide)
  have second : Relation.ReflTransGen onCircle (.int 1) (.int 3) := first.tail (by decide)
  have reached : ∀ x, Relation.ReflTransGen onCircle (.int 1) x ↔
      x ∈ ([.int 1, .int 2, .int 3] : List Value) := by
    refine fun x => ⟨fun hx => ?_, fun hx => ?_⟩
    · induction hx with
      | refl => decide
      | @tail y z _ hz ih =>
        have onward : ∀ p ∈ circle, p.1 ∈ ([.int 1, .int 2, .int 3] : List Value) →
            p.2 ∈ ([.int 1, .int 2, .int 3] : List Value) := by decide
        exact onward (y, z) hz ih
    · simp only [List.mem_cons, List.not_mem_nil, or_false] at hx
      obtain rfl | rfl | rfl := hx
      · exact .refl
      · exact first
      · exact second
  refine reaches_iff_contains (fun x (_ : Relation.ReflTransGen onCircle (.int 1) x) =>
    Search.returns_pure fun t => ?_) (fun x y => ?_) _
  · rw [List.mem_filter, List.mem_map]
    constructor
    · rintro ⟨⟨p, hp, rfl⟩, agrees⟩
      have source := Binding.agrees_iff.1 agrees 0 x rfl
      obtain rfl : p.1 = x := Option.some.inj source
      exact ⟨p.2, hp, rfl⟩
    · rintro ⟨y, hy, rfl⟩
      exact ⟨⟨(x, y), hy, rfl⟩, by simp [Binding.agrees]⟩
  · have same : ∀ p ∈ circle ++ ahead, p ∈ ahead ↔
        p.1 ∈ ([.int 1, .int 2, .int 3] : List Value) ∧ p ∈ circle := by decide
    rw [reached]
    constructor
    · exact fun h => (same (x, y) (List.mem_append_right _ h)).1 h
    · exact fun h => (same (x, y) (List.mem_append_left _ h.2)).2 h

example : (Closure.run (ahead.map fun e => .insert e.1 e.2)).contains (.int 1) (.int 1) = false := by
  decide +kernel

end circle

end Searcher
end Motif
