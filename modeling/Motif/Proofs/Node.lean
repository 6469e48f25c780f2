import Motif.Proofs.Closure
import Motif.Proofs.Operators

set_option autoImplicit false
namespace Motif

open Std (ExtTreeMap)

def onSide {α : Type} (side : Side) (x : α) (f : Side → α) : Side → α :=
  fun t => if t = side then x else f t

section onSide
variable {α : Type} {x : α} {f : Side → α}

@[simp] theorem onSide_self (side : Side) : onSide side x f side = x := if_pos rfl

@[simp] theorem onSide_primary_secondary : onSide .primary x f .secondary = f .secondary := rfl

@[simp] theorem onSide_secondary_primary : onSide .secondary x f .primary = f .primary := rfl

@[simp] theorem onSide_eta (side : Side) : onSide side (f side) f = f := by
  funext t
  by_cases h : t = side
  · subst h
    exact onSide_self _
  · exact if_neg h

theorem onSide_of_ne {side t : Side} (h : t ≠ side) : onSide side x f t = f t := if_neg h

end onSide

namespace Node

def bare : Node → Node
  | input relation unique _ => input relation unique ∅
  | expression x => expression { x with cache := ∅ }
  | grouping g => grouping { g with groups := ∅ }
  | closure _ => closure {}
  | uniqueness _ => uniqueness ∅
  | production query _ => production query ∅
  | n => n

def isInput : Node → Bool
  | input .. => true
  | _ => false

def source : Node → Side → Option IndexId
  | join p _ _, .primary | existence p _ _, .primary | outerJoin p _ _ _, .primary => some p
  | join _ s _, .secondary | existence _ s _, .secondary | outerJoin _ s _ _, .secondary => some s
  | grouping g, .primary => some g.source
  | _, _ => none

/-- What a node keeps when it has been fed `fed`, or when the indexes it reads hold `view`. -/
def Holds (masks : IndexId → Mask) (fed : Multiset Tuple) (view : Side → Multiset Tuple) :
    Node → Prop
  | expression x => ∀ t : Tuple, x.cache[t]? =
      if t ∈ fed then some (x.evaluator.result x.inputs x.mode t, fed.count t) else none
  | grouping g => ∀ s : Tuple, g.groups[s]? =
      g.operator.groupValue g.column (group (masks g.source) (view .primary) s)
  | closure state => state.Represents fed
  | input _ _ memory | uniqueness memory | production _ memory => memory.toMultiset = fed
  | _ => True

/-- The columns a node works with are there if it is fed tuples of width `width`, and those it puts
out have width `arity`. -/
def Fits (masks : IndexId → Mask) (width arity : Nat) : Node → Prop
  | input .. => arity = width
  | constant rows => ∀ t ∈ rows, t.length = arity
  | trim mask => mask.width = width ∧ arity = mask.arity
  | constantFilter column _ => column < width ∧ arity = width
  | equalityFilter groups => (∀ g ∈ groups, ∀ c ∈ g, c < width) ∧ arity = width
  | inequalityFilter left right => left < width ∧ right < width ∧ arity = width
  | expression x => (∀ i ∈ x.inputs, i < width) ∧
      arity = match x.mode with | .check => width | .bind => width + 1
  | join p s complement => complement = (masks s).complement ∧
      arity = (masks p).width + complement.arity
  | existence p _ _ => arity = (masks p).width
  | outerJoin p s complement defaults => complement = (masks s).complement ∧
      defaults.length = complement.arity ∧ arity = (masks p).width + complement.arity
  | grouping g => (∀ c, g.column = some c → c < (masks g.source).width) ∧
      arity = (masks g.source).arity + 1
  | closure _ => width = 2 ∧ arity = 2
  | uniqueness _ | production .. => arity = width

def Flat (unique : IndexId → Bool) (flat : Prop) : Node → Prop
  | input _ u _ => u = true
  | constant rows => rows.Nodup
  | trim mask => mask.isIdentity = true ∧ flat
  | constantFilter .. | equalityFilter _ | inequalityFilter .. | expression _ => flat
  | join p s _ | outerJoin p s _ _ => unique p = true ∧ unique s = true
  | existence p _ _ => unique p = true
  | grouping _ | closure _ | uniqueness _ | production .. => True

variable {masks : IndexId → Mask} {n n' : Node}

@[simp] theorem bare_bare (n : Node) : n.bare.bare = n.bare := by cases n <;> rfl

theorem output_bare (n : Node) (fed : Multiset Tuple) (view : Side → Multiset Tuple) :
    n.bare.output masks fed view = n.output masks fed view := by cases n <;> rfl

theorem fits_bare (n : Node) {width arity : Nat} :
    n.bare.Fits masks width arity ↔ n.Fits masks width arity := by cases n <;> rfl

theorem flat_bare (n : Node) {unique : IndexId → Bool} {flat : Prop} :
    n.bare.Flat unique flat ↔ n.Flat unique flat := by cases n <;> rfl

theorem source_bare (n : Node) (side : Side) : n.bare.source side = n.source side := by
  cases n <;> cases side <;> rfl

theorem output_of_bare_eq (h : n'.bare = n.bare) (fed : Multiset Tuple)
    (view : Side → Multiset Tuple) : n'.output masks fed view = n.output masks fed view := by
  rw [← output_bare n', h, output_bare]

theorem source_of_bare_eq (h : n'.bare = n.bare) (side : Side) :
    n'.source side = n.source side := by
  rw [← source_bare n', h, source_bare]

def Widths (masks : IndexId → Mask) (view : Side → Multiset Tuple) (n : Node) : Prop :=
  ∀ side I, n.source side = some I → ∀ t ∈ view side, t.length = (masks I).width

def isFed : Node → Bool
  | trim _ | constantFilter .. | equalityFilter _ | inequalityFilter .. | expression _ | closure _
  | uniqueness _ | production .. => true
  | _ => false

theorem output_congr {masks : IndexId → Mask} {n : Node} {fed fed' : Multiset Tuple}
    {view view' : Side → Multiset Tuple} (hf : n.isFed = true ∨ n.isInput = true → fed = fed')
    (hv : ∀ side I, n.source side = some I → view side = view' side) :
    n.output masks fed view = n.output masks fed' view' := by
  cases n with
  | join p s _ | existence p s _ | outerJoin p s _ _ =>
    rw [output, output, hv .primary p rfl, hv .secondary s rfl]
  | grouping g => rw [output, output, hv .primary g.source rfl]
  | constant rows => rfl
  | _ => rw [hf (by simp [isFed, isInput])]; rfl

theorem holds_congr {masks : IndexId → Mask} {n : Node} {fed fed' : Multiset Tuple}
    {view view' : Side → Multiset Tuple} (hf : n.isFed = true ∨ n.isInput = true → fed = fed')
    (hv : ∀ side I, n.source side = some I → view side = view' side) :
    n.Holds masks fed view ↔ n.Holds masks fed' view' := by
  cases n with
  | grouping g => rw [Holds, Holds, hv .primary g.source rfl]
  | constant _ | join _ _ _ | existence _ _ _ | outerJoin _ _ _ _ => rfl
  | _ => rw [hf (by simp [isFed, isInput])]; rfl

theorem eq_of_mem_result {e : Evaluator} {inputs : List Nat} {mode : ExpressionMode} {t u : Tuple}
    (h : u ∈ e.result inputs mode t) :
    (mode = .check ∧ u = t) ∨ (mode = .bind ∧ ∃ v, u = t ++ [v]) := by
  simp only [Evaluator.result, Option.mem_def] at h
  split at h
  · cases mode with
    | check =>
      simp only [Option.ite_none_right_eq_some, Option.some.injEq] at h
      exact .inl ⟨rfl, h.2.symm⟩
    | bind =>
      cases h
      exact .inr ⟨rfl, _, rfl⟩
  · cases h

theorem length_of_mem_result {e : Evaluator} {inputs : List Nat} {mode : ExpressionMode}
    {t u : Tuple} : u ∈ e.result inputs mode t →
      u.length = match mode with | .check => t.length | .bind => t.length + 1 := by
  intro h
  obtain ⟨rfl, rfl⟩ | ⟨rfl, v, rfl⟩ := eq_of_mem_result h
  · rfl
  · simp

theorem result_injective {e : Evaluator} {inputs : List Nat} {mode : ExpressionMode}
    {t t' u : Tuple} (h : u ∈ e.result inputs mode t) (h' : u ∈ e.result inputs mode t') :
    t = t' := by
  obtain ⟨rfl, rfl⟩ | ⟨rfl, v, rfl⟩ := eq_of_mem_result h
  · obtain ⟨-, rfl⟩ | ⟨hm, -⟩ := eq_of_mem_result h'
    · rfl
    · cases hm
  · obtain ⟨hm, -⟩ | ⟨-, v', e⟩ := eq_of_mem_result h'
    · cases hm
    · exact (List.append_inj' e rfl).1

variable {width arity : Nat} {fed : Multiset Tuple} {view : Side → Multiset Tuple}

/-- A node puts out tuples of its own width. -/
theorem length_of_mem_output (hf : n.Fits masks width arity)
    (hw : n.isFed = true ∨ n.isInput = true → ∀ t ∈ fed, t.length = width)
    (hv : n.Widths masks view) : ∀ t ∈ n.output masks fed view, t.length = arity := by
  intro t ht
  cases n with
  | input _ _ _ => exact (hw (.inr rfl) t ht).trans hf.symm
  | constant rows => exact hf t ht
  | trim mask =>
    obtain ⟨u, hu, rfl⟩ := Multiset.mem_map.1 ht
    rw [Mask.length_signature ((hw (.inl rfl) u hu).trans hf.1.symm), hf.2]
  | constantFilter _ _ | equalityFilter _ =>
    exact (hw (.inl rfl) t (Multiset.mem_of_mem_filter ht)).trans hf.2.symm
  | inequalityFilter _ _ => exact (hw (.inl rfl) t (Multiset.mem_of_mem_filter ht)).trans hf.2.2.symm
  | expression x =>
    obtain ⟨u, hu, hr⟩ := (Multiset.mem_filterMap _ _).1 ht
    rw [length_of_mem_result hr, hf.2, hw (.inl rfl) u hu]
  | join p s c =>
    obtain ⟨rfl, rfl⟩ := hf
    exact length_of_mem_naturalJoin (hv .primary p rfl) (hv .secondary s rfl) ht
  | existence p s negative =>
    exact (hv .primary p rfl t (Multiset.mem_of_mem_filter ht)).trans hf.symm
  | outerJoin p s c d =>
    obtain ⟨rfl, hd, rfl⟩ := hf
    exact length_of_mem_leftJoin (hv .primary p rfl) (hv .secondary s rfl) hd ht
  | grouping g =>
    obtain ⟨-, rfl⟩ := hf
    exact length_of_mem_groupRows (hv .primary g.source rfl) ht
  | closure state =>
    obtain ⟨a, b, rfl, -⟩ := mem_linkedPairs.1 ht
    exact hf.2.symm
  | uniqueness _ | production _ _ => exact (hw (.inl rfl) t (Multiset.mem_dedup.1 ht)).trans hf.symm

/-- A node that is to put out no tuple twice does not. -/
theorem nodup_output {unique : IndexId → Bool} {flat : Prop} (hi : n.isInput = false)
    (hf : n.Fits masks width arity) (hw : n.isFed = true → ∀ t ∈ fed, t.length = width)
    (hv : n.Widths masks view) (hd : n.isFed = true → flat → fed.Nodup)
    (hu : ∀ side I, n.source side = some I → unique I = true → (view side).Nodup)
    (h : n.Flat unique flat) : (n.output masks fed view).Nodup := by
  cases n with
  | input _ _ _ => cases hi
  | constant rows => exact h
  | trim mask =>
    have e : fed.map mask.signature = fed := by
      refine (Multiset.map_congr rfl fun t ht => ?_).trans (Multiset.map_id' fed)
      exact Mask.signature_of_isIdentity h.1 ((hw rfl t ht).trans hf.1.symm)
    rw [output, e]
    exact hd rfl h.2
  | constantFilter _ _ | equalityFilter _ | inequalityFilter _ _ => exact (hd rfl h).filter _
  | expression x => exact (hd rfl h).filterMap _ fun t t' u ht ht' => result_injective ht ht'
  | join p s c =>
    obtain ⟨rfl, rfl⟩ := hf
    exact nodup_naturalJoin (hu .primary p rfl h.1) (hu .secondary s rfl h.2)
      (hv .primary p rfl) (hv .secondary s rfl)
  | existence p s negative => exact (hu .primary p rfl h).filter _
  | outerJoin p s c d =>
    obtain ⟨rfl, -, rfl⟩ := hf
    exact nodup_leftJoin (hu .primary p rfl h.1) (hu .secondary s rfl h.2)
      (hv .primary p rfl) (hv .secondary s rfl)
  | grouping g => exact nodup_groupRows _
  | closure state => exact nodup_linkedPairs _
  | uniqueness _ | production _ _ => exact Multiset.nodup_dedup _

theorem source_of_isFed (h : n.isFed = true) (side : Side) : n.source side = none := by
  cases n <;> cases side <;> first | rfl | cases h

theorem isInput_of_isFed (h : n.isFed = true) : n.isInput = false := by
  cases n <;> first | rfl | cases h

theorem holds_zero (hf : n.isFed = true) (hb : n.bare = n) : n.Holds masks 0 view := by
  cases n with
  | expression x =>
    intro t
    rw [show x = { x with cache := ∅ } from (Node.expression.inj hb).symm]
    simp
  | closure state =>
    rw [show state = {} from (Node.closure.inj hb).symm]
    exact Closure.represents_empty
  | uniqueness memory =>
    rw [show memory = ∅ from (Node.uniqueness.inj hb).symm]
    exact Bag.toMultiset_empty
  | production query memory =>
    rw [show memory = ∅ from (Node.production.inj hb).2.symm]
    exact Bag.toMultiset_empty
  | trim _ | constantFilter _ _ | equalityFilter _ | inequalityFilter _ _ => trivial
  | _ => cases hf

theorem output_zero (hf : n.isFed = true) : n.output masks 0 view = 0 := by
  cases n with
  | closure state =>
    refine Multiset.eq_zero_of_forall_notMem fun t ht => ?_
    obtain ⟨a, b, -, h⟩ := mem_linkedPairs.1 (show t ∈ linkedPairs 0 from ht)
    obtain ⟨c, hc, -⟩ := Relation.TransGen.head'_iff.1 (edgePath_of_linked h)
    exact Multiset.notMem_zero _ hc
  | trim _ | constantFilter _ _ | equalityFilter _ | inequalityFilter _ _
  | expression _ | uniqueness _ | production _ _ => rfl
  | _ => cases hf

theorem holds_of_isStateful_eq_false (h : n.isStateful = false) : n.Holds masks fed view := by
  cases n <;> trivial

theorem isProduction_of_isStateful_eq_false (h : n.isStateful = false) : n.isProduction = false := by
  cases n <;> first | rfl | cases h

end Node
end Motif
