import Mathlib.Data.String.Basic
import Mathlib.Logic.Function.Iterate
import Motif.Proofs.Reach
import Motif.Schema

/-!
The classes above one. However classes stand above each other, the search for them comes to an end,
and it finds those that direct supertypes lead to. It takes a turn for the class itself and one for
each direct supertype of a class that it finds.
-/
set_option autoImplicit false
namespace Motif

open Std (ExtTreeMap ExtTreeSet)
open Reach (Steps)

namespace Schema
variable {s : Schema} {a : Ascent} {start cls c : String} {met : ExtTreeSet String}
  {rest : List String}

def Ascent.Faces (a : Ascent) (c : String) : Prop := c ∈ a.met ∨ c ∈ a.stack

theorem faces_of_notMem (h : cls ∉ met) :
    (s.ascend ⟨met, cls :: rest⟩).Faces c ↔ Ascent.Faces ⟨met, cls :: rest⟩ c ∨ c ∈ s.supertypes cls := by
  rw [ascend_of_notMem h]
  simp only [Ascent.Faces, ExtTreeSet.mem_insert, Std.LawfulEqCmp.compare_eq_iff_eq, List.mem_append,
    List.mem_reverse, List.mem_cons]
  tauto

theorem faces_of_mem (h : cls ∈ met) :
    (s.ascend ⟨met, cls :: rest⟩).Faces c ↔ Ascent.Faces ⟨met, cls :: rest⟩ c := by
  rw [ascend_of_mem h]
  simp only [Ascent.Faces, List.mem_cons]
  constructor
  · exact Or.imp_right .inr
  · rintro (hc | rfl | hc)
    · exact .inl hc
    · exact .inl h
    · exact .inr hc

theorem Ascent.Faces.ascend (h : a.Faces c) : (s.ascend a).Faces c := by
  obtain ⟨met, _ | ⟨cls, rest⟩⟩ := a
  · exact h
  by_cases hc : cls ∈ met
  · exact (faces_of_mem hc).2 h
  · exact (faces_of_notMem hc).2 (.inl h)

theorem climb_keeps {P : Ascent → Prop} (turn : ∀ a, P a → P (s.ascend a)) (h : P a) :
    P ⟨s.climb a, []⟩ := by
  induction a using climb.induct s with
  | case1 a done =>
    rw [climb_of_nil done, ← done]
    exact h
  | case2 a left ih =>
    rw [← climb_ascend left]
    exact ih (turn a h)

theorem Ascent.Faces.mem_climb (h : a.Faces c) : c ∈ s.climb a :=
  (climb_keeps (P := fun a => a.Faces c) (fun _ h => h.ascend) h).resolve_right List.not_mem_nil

/-- A search from a class has faced only what is above it, and all that is directly above a class it
has met. -/
structure Searches (s : Schema) (start : String) (a : Ascent) : Prop where
  started : a.Faces start
  sound : ∀ c, a.Faces c → Relation.ReflTransGen (Steps s.supertypes) start c
  behind : ∀ c ∈ a.met, ∀ d ∈ s.supertypes c, a.Faces d

theorem searches_start (s : Schema) (start : String) : s.Searches start { stack := [start] } where
  started := .inr List.mem_cons_self
  sound c hc := by
    obtain rfl : c = start := List.mem_singleton.1 (hc.resolve_left ExtTreeSet.not_mem_empty)
    exact .refl
  behind _ hc := absurd hc ExtTreeSet.not_mem_empty

theorem Searches.ascend (h : s.Searches start a) : s.Searches start (s.ascend a) := by
  obtain ⟨met, _ | ⟨cls, rest⟩⟩ := a
  · exact h
  by_cases hm : cls ∈ met
  · refine ⟨h.started.ascend, fun c hc => h.sound c ((faces_of_mem hm).1 hc), fun c hc d hd => ?_⟩
    rw [ascend_of_mem hm] at hc
    exact (h.behind c hc d hd).ascend
  · refine ⟨h.started.ascend, fun c hc => ?_, fun c hc d hd => ?_⟩
    · rcases (faces_of_notMem hm).1 hc with hc | above
      · exact h.sound c hc
      · exact (h.sound cls (.inr List.mem_cons_self)).tail above
    · rw [ascend_of_notMem hm, ExtTreeSet.mem_insert, Std.LawfulEqCmp.compare_eq_iff_eq] at hc
      rcases hc with rfl | hc
      · exact (faces_of_notMem hm).2 (.inr hd)
      · exact (h.behind c hc d hd).ascend

theorem Searches.mem_climb_iff (h : s.Searches start a) :
    c ∈ s.climb a ↔ Relation.ReflTransGen (Steps s.supertypes) start c := by
  have last : s.Searches start ⟨s.climb a, []⟩ := climb_keeps (fun _ => Searches.ascend) h
  have met : ∀ c, Ascent.Faces ⟨s.climb a, []⟩ c → c ∈ s.climb a := fun c hc =>
    hc.resolve_right List.not_mem_nil
  have started : ∀ b ∈ [start], b ∈ s.climb a := by simpa using met start last.started
  have sound : ∀ c ∈ s.climb a, ∃ b ∈ [start], Relation.ReflTransGen (Steps s.supertypes) b c := by
    simpa using fun c hc => last.sound c (.inl hc)
  rw [Reach.mem_iff_of_closed started sound fun c hc d hd => met d (last.behind c hc d hd)]
  simp

/-- The search ends after as many turns as there are classes on the stack and supertypes of the
classes that it is still to meet. -/
theorem exists_turns (s : Schema) (a : Ascent) : ∃ turns, turns = s.ahead (s.climb a).toList a ∧
    s.ascend^[turns] a = ⟨s.climb a, []⟩ ∧ ∀ k < turns, (s.ascend^[k] a).stack ≠ [] := by
  induction a using climb.induct s with
  | case1 a done =>
    refine ⟨0, ?_, ?_, fun k hk => absurd hk (Nat.not_lt_zero k)⟩
    · rw [climb_of_nil done, ahead, done, due, List.filter_eq_nil_iff.2]
      · rfl
      · simp
    · rw [climb_of_nil done, ← done]
      rfl
  | case2 a left ih =>
    obtain ⟨turns, count, ends, lasts⟩ := ih
    rw [climb_ascend left] at count ends
    refine ⟨turns + 1, ?_, ?_, fun k hk => ?_⟩
    · -- what is on the stack is met in the end, so that a class that is not has no supertypes due
      rw [count]
      refine ahead_ascend (nodup_toList _) (fun c hc absent => absurd ?_ absent) left
      exact ExtTreeSet.mem_toList.2 (Ascent.Faces.mem_climb (.inr hc))
    · rw [Function.iterate_succ_apply, ends]
    · cases k with
      | zero => exact left
      | succ k => exact lasts k (Nat.lt_of_succ_lt_succ hk)

abbrev Declaration := String × List String

def ofDeclarations (features : ExtTreeMap String Feature) (ds : List Declaration) : Schema :=
  ds.foldl (fun s d => s.withClass d.1 d.2) { features }

def declared (ds : List Declaration) (cls : String) : List String :=
  (ds.reverse.lookup cls).getD []

theorem getD_foldl_declare (classes : ExtTreeMap String (List String)) (l : List String) (c : String) :
    (l.foldl declare classes).getD c [] = classes.getD c [] := by
  induction l generalizing classes with
  | nil => rfl
  | cons cls rest ih =>
    rw [List.foldl_cons, ih, declare, ExtTreeMap.getD_insertIfNew]
    split
    · rename_i new
      rw [← Std.LawfulEqCmp.eq_of_compare new.1, ExtTreeMap.getD_eq_fallback new.2]
    · rfl

theorem supertypes_withClass (s : Schema) (cls : String) (l : List String) (c : String) :
    (s.withClass cls l).supertypes c = if cls = c then l else s.supertypes c := by
  rw [supertypes, withClass, ExtTreeMap.getD_insert, getD_foldl_declare]
  simp only [Std.LawfulEqCmp.compare_eq_iff_eq]
  rfl

theorem supertypes_ofDeclarations (features : ExtTreeMap String Feature) (ds : List Declaration) :
    (ofDeclarations features ds).supertypes = declared ds := by
  induction ds using List.reverseRecOn with
  | nil => exact funext fun c => ExtTreeMap.getD_empty
  | append_singleton ds d ih =>
    funext c
    rw [ofDeclarations, List.foldl_append, List.foldl_cons, List.foldl_nil, supertypes_withClass,
      ← ofDeclarations, ih, declared, declared, List.reverse_append, List.reverse_singleton,
      List.singleton_append, List.lookup_cons]
    by_cases hc : d.1 = c
    · rw [if_pos hc, beq_iff_eq.2 hc.symm]
      rfl
    · rw [if_neg hc, beq_eq_false_iff_ne.2 (Ne.symm hc)]

/-- From every class the search ends, in as many turns as there are direct supertypes of what it finds,
and one more. It finds in ascending order, and once each, the class and all classes that the last
declarations lead to. -/
theorem supertypesOf_exact (features : ExtTreeMap String Feature) (ds : List Declaration)
    (cls : String) :
    let s := ofDeclarations features ds
    let found := s.supertypesOf cls
    let turns := (found.flatMap (declared ds)).length + 1
    (∃ met, s.ascend^[turns] { stack := [cls] } = ⟨met, []⟩ ∧ met.toList = found) ∧
    (∀ k < turns, (s.ascend^[k] { stack := [cls] }).stack ≠ []) ∧
    found.Pairwise (· < ·) ∧ found.Nodup ∧
    ∀ c, c ∈ found ↔ Relation.ReflTransGen (fun a b => b ∈ declared ds a) cls c := by
  intro s found turns
  have direct : s.supertypes = declared ds := supertypes_ofDeclarations features ds
  obtain ⟨n, count, ends, lasts⟩ := s.exists_turns { stack := [cls] }
  have all : s.due found ∅ = found.flatMap (declared ds) := by
    rw [due, direct, List.filter_eq_self.2]
    simp
  obtain rfl : n = turns := by
    rw [count, ahead, show (s.climb { stack := [cls] }).toList = found from rfl, all,
      List.length_singleton, Nat.add_comm]
  refine ⟨⟨_, ends, rfl⟩, lasts, ?_, nodup_toList _, fun c => ?_⟩
  · exact ExtTreeSet.ordered_toList.imp compare_lt_iff_lt.1
  · have reached : c ∈ s.climb { stack := [cls] } ↔ _ := (s.searches_start cls).mem_climb_iff
    rw [direct] at reached
    exact ExtTreeSet.mem_toList.trans reached

/-- "A" and "B" stand above each other, by the second declaration of "B", and "D" stands above both. -/
example : (ofDeclarations ∅ [("A", ["B", "C"]), ("B", ["E"]), ("C", ["D"]), ("B", ["D", "A"])]).supertypesOf
    "A" = ["A", "B", "C", "D"] := by
  decide +kernel

end Schema
end Motif
