import Motif.Value.Order
import Std.Data.ExtTreeMap
import Std.Data.ExtTreeSet

/-!
Class hierarchies and feature declarations, and the base relations they give: the extent of a class
and the holder-value pairs of a feature.

The classes above one are searched for with a stack. Nothing keeps classes from standing above each
other in a circle, but only a class that is met for the first time leads on to its supertypes, so that
the search takes no more turns than the stack is high and there are supertypes of classes not met.
-/
set_option autoImplicit false
namespace Motif

open Std (ExtTreeMap ExtTreeSet LawfulEqCmp LawfulEqOrd OrientedCmp TransCmp TransOrd)

inductive Relation where
  /-- the instances of a class -/
  | extent (cls : String)
  /-- the pairs of a holder and a value it has in a feature -/
  | feature (name : String)
  deriving DecidableEq, Repr

namespace Relation

def name : Relation → String
  | extent cls => cls
  | feature name => name

def arity : Relation → Nat
  | extent _ => 1
  | feature _ => 2

def text : Relation → String
  | extent cls => "class:" ++ cls
  | feature name => "feature:" ++ name

def cmp : Relation → Relation → Ordering
  | extent a, extent b => compare a b
  | extent _, feature _ => .lt
  | feature _, extent _ => .gt
  | feature a, feature b => compare a b

instance : Ord Relation := ⟨cmp⟩

theorem cmp_eq_swap {a b : Relation} : cmp a b = (cmp b a).swap := by
  cases a <;> cases b <;> simp only [cmp] <;> first | exact OrientedCmp.eq_swap | rfl

theorem isLE_cmp_trans {a b c : Relation} (hab : (cmp a b).isLE) (hbc : (cmp b c).isLE) :
    (cmp a c).isLE := by
  cases a <;> cases b <;> cases c <;> simp only [cmp] at * <;>
    first | exact TransCmp.isLE_trans hab hbc | contradiction | rfl

theorem eq_of_cmp {a b : Relation} (h : cmp a b = .eq) : a = b := by
  cases a <;> cases b <;> simp only [cmp] at h <;>
    first | exact congrArg _ (LawfulEqCmp.eq_of_compare h) | contradiction

instance : TransOrd Relation where
  eq_swap := cmp_eq_swap
  isLE_trans := isLE_cmp_trans

instance : LawfulEqOrd Relation where
  eq_of_compare := eq_of_cmp

end Relation

/-- `source` is the class whose instances hold the feature, `target` the kind of its values. A
holder has a value of a `unique` feature only once. -/
structure Feature where
  name : String
  source : Option String := none
  target : Option Kind := none
  unique : Bool := true
  deriving DecidableEq, Repr

/-- `classes` gives the direct supertypes of each class. -/
structure Schema where
  classes : ExtTreeMap String (List String) := ∅
  features : ExtTreeMap String Feature := ∅

namespace Schema

def declare (classes : ExtTreeMap String (List String)) (cls : String) :
    ExtTreeMap String (List String) :=
  classes.insertIfNew cls []

/-- Declares a class, and its supertypes if they are new. A class declared before gets new
supertypes. -/
def withClass (s : Schema) (cls : String) (supertypes : List String) : Schema :=
  { s with classes := (supertypes.foldl declare s.classes).insert cls supertypes }

def withFeature (s : Schema) (f : Feature) : Schema :=
  { s with features := s.features.insert f.name f }

def feature? (s : Schema) (name : String) : Option Feature := s.features[name]?

def hasClass (s : Schema) (cls : String) : Bool := s.classes.contains cls

def supertypes (s : Schema) (cls : String) : List String := s.classes.getD cls []

structure Ascent where
  /-- the classes met so far -/
  met : ExtTreeSet String := ∅
  /-- the classes to go on with, the next one first; one may be there several times -/
  stack : List String

def ascend (s : Schema) (a : Ascent) : Ascent :=
  match a.stack with
  | [] => a
  | cls :: rest =>
    if cls ∈ a.met then { a with stack := rest }
    else { met := a.met.insert cls, stack := (s.supertypes cls).reverse ++ rest }

section ascend
variable {s : Schema} {met : ExtTreeSet String} {cls : String} {rest : List String}

theorem ascend_of_mem (h : cls ∈ met) : s.ascend ⟨met, cls :: rest⟩ = ⟨met, rest⟩ := if_pos h

theorem ascend_of_notMem (h : cls ∉ met) :
    s.ascend ⟨met, cls :: rest⟩ = ⟨met.insert cls, (s.supertypes cls).reverse ++ rest⟩ := if_neg h

end ascend

def due (s : Schema) (classes : List String) (met : ExtTreeSet String) : List String :=
  (classes.filter fun c => c ∉ met).flatMap s.supertypes

/-- The turns that are left to a search which meets no class with supertypes but some `classes`. -/
def ahead (s : Schema) (classes : List String) (a : Ascent) : Nat :=
  a.stack.length + (s.due classes a.met).length

section ahead
variable {s : Schema} {classes : List String} {met : ExtTreeSet String} {cls c : String} {a : Ascent}

theorem notMem_insert : c ∉ met.insert cls ↔ c ≠ cls ∧ c ∉ met := by
  rw [ExtTreeSet.mem_insert, LawfulEqCmp.compare_eq_iff_eq, not_or, ne_comm]

theorem due_insert_of_notMem (h : cls ∉ classes) :
    s.due classes (met.insert cls) = s.due classes met := by
  have same : classes.filter (fun c => c ∉ met.insert cls) = classes.filter fun c => c ∉ met := by
    refine List.filter_congr fun c hc => decide_eq_decide.2 ?_
    exact notMem_insert.trans (and_iff_right fun e => h (e ▸ hc))
  rw [due, due, same]

theorem due_perm_of_mem (hd : classes.Nodup) (h : cls ∈ classes) (new : cls ∉ met) :
    (s.due classes met).Perm (s.supertypes cls ++ s.due classes (met.insert cls)) := by
  have there : cls ∈ classes.filter fun c => c ∉ met :=
    List.mem_filter.2 ⟨h, decide_eq_true new⟩
  have others : (classes.filter fun c => c ∉ met).erase cls =
      classes.filter fun c => c ∉ met.insert cls := by
    rw [List.Nodup.erase_eq_filter (hd.filter _), List.filter_filter]
    refine List.filter_congr fun c _ => ?_
    rw [Bool.eq_iff_iff, decide_eq_true_iff, notMem_insert]
    simp
  have parts := (List.perm_cons_erase there).flatMap_right s.supertypes
  rwa [others, List.flatMap_cons] at parts

theorem ahead_ascend (hd : classes.Nodup)
    (h : ∀ c ∈ a.stack, c ∉ classes → s.supertypes c = []) (left : a.stack ≠ []) :
    s.ahead classes (s.ascend a) + 1 = s.ahead classes a := by
  obtain ⟨met, _ | ⟨cls, rest⟩⟩ := a
  · exact absurd rfl left
  by_cases hm : cls ∈ met
  · rw [ascend_of_mem hm]
    simp only [ahead, List.length_cons]
    omega
  · have fewer : (s.supertypes cls).length + (s.due classes (met.insert cls)).length =
        (s.due classes met).length := by
      by_cases hc : cls ∈ classes
      · rw [(due_perm_of_mem hd hc hm).length_eq, List.length_append]
      · rw [due_insert_of_notMem hc, h cls List.mem_cons_self hc, List.length_nil, Nat.zero_add]
    rw [ascend_of_notMem hm]
    simp only [ahead, List.length_append, List.length_reverse, List.length_cons]
    omega

theorem supertypes_of_notMem_keys (h : cls ∉ s.classes.keys) : s.supertypes cls = [] :=
  ExtTreeMap.getD_eq_fallback (mt ExtTreeMap.mem_keys.2 h)

end ahead

def climb (s : Schema) (a : Ascent) : ExtTreeSet String :=
  if a.stack = [] then a.met else s.climb (s.ascend a)
termination_by s.ahead s.classes.keys a
decreasing_by
  rename_i left
  have one : s.ahead s.classes.keys (s.ascend a) + 1 = s.ahead s.classes.keys a :=
    ahead_ascend ExtTreeMap.nodup_keys (fun _ _ => supertypes_of_notMem_keys) left
  omega

theorem climb_of_nil {s : Schema} {a : Ascent} (h : a.stack = []) : s.climb a = a.met := by
  rw [climb, if_pos h]

theorem climb_ascend {s : Schema} {a : Ascent} (h : a.stack ≠ []) :
    s.climb (s.ascend a) = s.climb a := by
  rw [climb.eq_1 s a, if_neg h]

def supertypesOf (s : Schema) (cls : String) : List String := (s.climb { stack := [cls] }).toList

def sourceClass? (s : Schema) (feature : String) : Option String :=
  (s.feature? feature).bind Feature.source

def isUniqueFeature (s : Schema) (feature : String) : Bool :=
  (s.feature? feature).all Feature.unique

def isUnique (s : Schema) : Relation → Bool
  | .extent _ => true
  | .feature name => s.isUniqueFeature name

end Schema
end Motif
