import Motif.Proofs.Search.Paths
import Motif.Search.Plan

set_option autoImplicit false
namespace Motif

open Std (ExtTreeSet)

theorem liftPlan_ok {α : Type} {x : Except PlanError α} {a : α}
    (h : (liftM x : Except Failure α) = .ok a) : x = .ok a := by
  cases x with
  | error e => cases h
  | ok b =>
    cases h
    rfl

theorem liftPlan_of_ok {α : Type} {x : Except PlanError α} {a : α} (h : x = .ok a) :
    (liftM x : Except Failure α) = .ok a := by
  rw [h]
  rfl

namespace Operation
variable {c : Catalog} {schema : Schema} {slots : Slots} {bound : ExtTreeSet Nat} {check : Bool}
  {k : Constraint} {op : Operation}

inductive Chosen (c : Catalog) (schema : Schema) (slots : Slots) (bound : ExtTreeSet Nat)
    (check : Bool) : Constraint → Operation → Prop
  | extent {cls : String} {xs : List Variable} {x : Variable} {i : Nat} (hx : xs[0]? = some x)
      (hi : slots.slot? x = some i) : Chosen c schema slots bound check (.holds (.extent cls) xs)
        (if check then checkInstance cls i else iterateInstances cls i)
  | feature {feature : String} {xs : List Variable} {x y : Variable} {i j : Nat} {op : Operation}
      (hx : xs[0]? = some x) (hy : xs[1]? = some y) (hi : slots.slot? x = some i)
      (hj : slots.slot? y = some j)
      (made : ofFeature schema (.holds (.feature feature) xs) feature bound i j = .ok op) :
      Chosen c schema slots bound check (.holds (.feature feature) xs) op
  | unequal {x y : Variable} {i j : Nat} (hc : check = true) (hi : slots.slot? x = some i)
      (hj : slots.slot? y = some j) :
      Chosen c schema slots bound check (.unequal x y) (checkUnequal i j)
  | equal {x y : Variable} {i j : Nat} {op : Operation} (hi : slots.slot? x = some i)
      (hj : slots.slot? y = some j) (made : ofEqual (.equal x y) bound i j = .ok op) :
      Chosen c schema slots bound check (.equal x y) op
  | constant {x : Variable} {v : Value} {i : Nat} (hi : slots.slot? x = some i) :
      Chosen c schema slots bound check (.constant x v)
        (if check then checkConstant i v else extendConstant i v)
  | find {query : String} {xs : List Variable} {is : List Nat} (hc : check = true)
      (his : slots.Of xs is) : Chosen c schema slots bound check (.find query xs)
        (checkCall ⟨query, (CallFrame.of is bound).bound⟩ (.of is bound))
  | lacks {query : String} {xs : List Variable} {is : List Nat} (his : slots.Of xs is) :
      Chosen c schema slots bound check (.lacks query xs)
        (checkNoCall ⟨query, (CallFrame.of is bound).bound⟩ (.of is bound))
  | count {query : String} {xs : List Variable} {is : List Nat} {result : Variable} {i : Nat}
      (his : slots.Of xs is) (hi : slots.slot? result = some i) :
      Chosen c schema slots bound check (.count query xs result)
        (count ⟨query, (CallFrame.of is bound).bound⟩ (.of is bound) i (i ∉ bound))
  | aggregate {operator query : String} {xs : List Variable} {is : List Nat}
      {aggregated result : Variable} {fold : Aggregator} {column i : Nat}
      (hfold : c.aggregators[operator]? = some fold)
      (hcolumn : xs.findIdx? (· = aggregated) = some column) (his : slots.Of xs is)
      (hi : slots.slot? result = some i) :
      Chosen c schema slots bound check (.aggregate operator query xs aggregated result)
        (aggregate ⟨query, (CallFrame.of is bound).bound⟩ (.of is bound) fold column i (i ∉ bound))
  | check {evaluator : String} {inputs : List Variable} {e : Evaluator} {is : List Nat}
      (he : c.evaluators[evaluator]? = some e) (his : slots.Of inputs is) :
      Chosen c schema slots bound check (.check evaluator inputs) (.check e is)
  | eval {evaluator : String} {inputs : List Variable} {output : Variable} {e : Evaluator}
      {is : List Nat} {i : Nat} (he : c.evaluators[evaluator]? = some e)
      (his : slots.Of inputs is) (hi : slots.slot? output = some i) :
      Chosen c schema slots bound check (.eval evaluator inputs output) (.eval e is i (i ∉ bound))
  | closure {query : String} {x y : Variable} {i j : Nat} (hc : check = true)
      (hi : slots.slot? x = some i) (hj : slots.slot? y = some j) :
      Chosen c schema slots bound check (.closure query x y)
        (checkClosure ⟨query, .ofList [0]⟩ i j)

theorem liftSlot_iff {x : Variable} {i : Nat} :
    (liftM (slots.slot x) : Except Failure Nat) = .ok i ↔ slots.slot? x = some i := by
  refine ⟨fun h => Slots.slot?_of_ok (liftPlan_ok h), fun h => liftPlan_of_ok ?_⟩
  rw [Slots.slot, h]

theorem liftSlots_iff {xs : List Variable} {is : List Nat} :
    (liftM (xs.mapM slots.slot) : Except Failure (List Nat)) = .ok is ↔ slots.Of xs is :=
  ⟨fun h => Slots.of_mapM (liftPlan_ok h), fun h => liftPlan_of_ok h.mapM_slot⟩

theorem callOf_iff {query : String} {xs : List Variable} {call : Reference × CallFrame} :
    (liftM (callOf slots bound query xs) : Except Failure _) = .ok call ↔ ∃ is, slots.Of xs is ∧
      call = (⟨query, (CallFrame.of is bound).bound⟩, CallFrame.of is bound) := by
  constructor
  · intro h
    obtain ⟨is, his, h⟩ := bind_ok (liftPlan_ok h)
    cases h
    exact ⟨is, Slots.of_mapM his, rfl⟩
  · rintro ⟨is, his, rfl⟩
    exact liftPlan_of_ok (bind_of_ok his.mapM_slot)

theorem variableAt_iff {xs : List Variable} {n : Nat} {x : Variable} :
    variableAt xs n = .ok x ↔ xs[n]? = some x := by
  rw [variableAt]
  split <;> simp [*]

theorem chosen_of_ofConstraint (h : ofConstraint c schema slots bound check k = .ok op) :
    Chosen c schema slots bound check k op := by
  cases k with
  | holds r xs =>
    cases r with
    | extent cls =>
      obtain ⟨x, hx, h⟩ := bind_ok h
      obtain ⟨i, hi, h⟩ := bind_ok h
      cases h
      exact .extent (variableAt_iff.1 hx) (liftSlot_iff.1 hi)
    | feature feature =>
      obtain ⟨x, hx, h⟩ := bind_ok h
      obtain ⟨i, hi, h⟩ := bind_ok h
      obtain ⟨y, hy, h⟩ := bind_ok h
      obtain ⟨j, hj, h⟩ := bind_ok h
      exact .feature (variableAt_iff.1 hx) (variableAt_iff.1 hy) (liftSlot_iff.1 hi) (liftSlot_iff.1 hj)
        (liftPlan_ok h)
  | unequal x y =>
    cases check with
    | false => cases h
    | true =>
      obtain ⟨i, hi, h⟩ := bind_ok h
      obtain ⟨j, hj, h⟩ := bind_ok h
      cases h
      exact .unequal rfl (liftSlot_iff.1 hi) (liftSlot_iff.1 hj)
  | equal x y =>
    obtain ⟨i, hi, h⟩ := bind_ok h
    obtain ⟨j, hj, h⟩ := bind_ok h
    exact .equal (liftSlot_iff.1 hi) (liftSlot_iff.1 hj) (liftPlan_ok h)
  | constant x v =>
    obtain ⟨i, hi, h⟩ := bind_ok h
    cases h
    exact .constant (liftSlot_iff.1 hi)
  | find query xs =>
    cases check with
    | false => cases h
    | true =>
      obtain ⟨call, hcall, h⟩ := bind_ok h
      obtain ⟨is, his, rfl⟩ := callOf_iff.1 hcall
      cases h
      exact .find rfl his
  | lacks query xs =>
    obtain ⟨call, hcall, h⟩ := bind_ok h
    obtain ⟨is, his, rfl⟩ := callOf_iff.1 hcall
    cases h
    exact .lacks his
  | count query xs result =>
    obtain ⟨call, hcall, h⟩ := bind_ok h
    obtain ⟨i, hi, h⟩ := bind_ok h
    obtain ⟨is, his, rfl⟩ := callOf_iff.1 hcall
    cases h
    exact .count his (liftSlot_iff.1 hi)
  | aggregate operator query xs aggregated result =>
    obtain ⟨fold, hfold, h⟩ := bind_ok h
    dsimp only at h
    split at h
    · cases h
    · obtain ⟨call, hcall, h⟩ := bind_ok h
      obtain ⟨i, hi, h⟩ := bind_ok h
      obtain ⟨is, his, rfl⟩ := callOf_iff.1 hcall
      cases h
      exact .aggregate (Catalog.aggregator_ok (liftPlan_ok hfold)) ‹_› his (liftSlot_iff.1 hi)
  | check evaluator inputs =>
    obtain ⟨e, he, h⟩ := bind_ok h
    obtain ⟨is, his, h⟩ := bind_ok h
    cases h
    exact .check (Catalog.evaluator_ok (liftPlan_ok he)) (liftSlots_iff.1 his)
  | eval evaluator inputs output =>
    obtain ⟨e, he, h⟩ := bind_ok h
    obtain ⟨is, his, h⟩ := bind_ok h
    obtain ⟨i, hi, h⟩ := bind_ok h
    cases h
    exact .eval (Catalog.evaluator_ok (liftPlan_ok he)) (liftSlots_iff.1 his)
      (liftSlot_iff.1 hi)
  | closure query x y =>
    cases check with
    | false => cases h
    | true =>
      obtain ⟨i, hi, h⟩ := bind_ok h
      obtain ⟨j, hj, h⟩ := bind_ok h
      cases h
      exact .closure rfl (liftSlot_iff.1 hi) (liftSlot_iff.1 hj)

theorem ofConstraint_feature {feature : String} {xs : List Variable} {x y : Variable} {i j : Nat}
    (hx : xs[0]? = some x) (hy : xs[1]? = some y) (hi : slots.slot? x = some i)
    (hj : slots.slot? y = some j) :
    ofConstraint c schema slots bound check (.holds (.feature feature) xs) =
      liftPlan (ofFeature schema (.holds (.feature feature) xs) feature bound i j) :=
  (bind_of_ok (variableAt_iff.2 hx)).trans ((bind_of_ok (liftSlot_iff.2 hi)).trans
    ((bind_of_ok (variableAt_iff.2 hy)).trans (bind_of_ok (liftSlot_iff.2 hj))))

theorem Chosen.ofConstraint_eq (h : Chosen c schema slots bound check k op) :
    ofConstraint c schema slots bound check k = .ok op := by
  cases h with
  | extent hx hi => exact (bind_of_ok (variableAt_iff.2 hx)).trans (bind_of_ok (liftSlot_iff.2 hi))
  | feature hx hy hi hj made =>
    rw [ofConstraint_feature hx hy hi hj]
    exact liftPlan_of_ok made
  | unequal hc hi hj =>
    subst hc
    exact (bind_of_ok (liftSlot_iff.2 hi)).trans (bind_of_ok (liftSlot_iff.2 hj))
  | equal hi hj made =>
    exact (bind_of_ok (liftSlot_iff.2 hi)).trans
      ((bind_of_ok (liftSlot_iff.2 hj)).trans (liftPlan_of_ok made))
  | constant hi => exact bind_of_ok (liftSlot_iff.2 hi)
  | find hc his =>
    subst hc
    exact bind_of_ok (callOf_iff.2 ⟨_, his, rfl⟩)
  | lacks his => exact bind_of_ok (callOf_iff.2 ⟨_, his, rfl⟩)
  | count his hi =>
    exact (bind_of_ok (callOf_iff.2 ⟨_, his, rfl⟩)).trans (bind_of_ok (liftSlot_iff.2 hi))
  | aggregate hfold hcolumn his hi =>
    refine (bind_of_ok (liftPlan_of_ok (Catalog.aggregator_of hfold))).trans ?_
    rw [hcolumn]
    exact (bind_of_ok (callOf_iff.2 ⟨_, his, rfl⟩)).trans (bind_of_ok (liftSlot_iff.2 hi))
  | check he his =>
    exact (bind_of_ok (liftPlan_of_ok (Catalog.evaluator_of he))).trans
      (bind_of_ok (liftSlots_iff.2 his))
  | eval he his hi =>
    exact (bind_of_ok (liftPlan_of_ok (Catalog.evaluator_of he))).trans
      ((bind_of_ok (liftSlots_iff.2 his)).trans (bind_of_ok (liftSlot_iff.2 hi)))
  | closure hc hi hj =>
    subst hc
    exact (bind_of_ok (liftSlot_iff.2 hi)).trans (bind_of_ok (liftSlot_iff.2 hj))

end Operation

/-- Where a constraint is applied: the frame binds what is known to be bound, this is visible
outside the constraint, and the constraint finds in it what it must. -/
structure Ready (b : Body) (slots : Slots) (index : Nat) (k : Constraint)
    (before : ExtTreeSet Variable) (f : Frame) : Prop where
  length : f.length = slots.size
  binds : ∀ x ∈ before, f.Binds slots x
  visible : ∀ x ∈ before, b.isLocal x index = false
  deferred : ∀ x ∈ b.deferred index k, x ∈ before

namespace Searcher
variable {σ ε : Type} {s : Searcher σ ε} {c : Catalog} {m : Model} {called : String → Prop}
  {found : String → Finset Tuple}
  {widths : ∀ name q, c.queries[name]? = some q → ∀ t ∈ found name, t.length = q.arity}
  {b : Body} {slots : Slots} {index : Nat} {k : Constraint} {before : ExtTreeSet Variable}
  {f : Frame} {op : Operation}

def Meets (m : Model) (found : String → Finset Tuple)
    (widths : ∀ name q, c.queries[name]? = some q → ∀ t ∈ found name, t.length = q.arity)
    (b : Body) (slots : Slots) (index : Nat) (k : Constraint) (f : Frame) (next : List Frame) :
    Prop :=
  f.Continues slots (fun x => x ∈ b.affected index k)
    (fun σ => b.Satisfies (m.facts found widths) index σ k) next

def isCheck (b : Body) (slots : Slots) (index : Nat) (k : Constraint)
    (before : ExtTreeSet Variable) : Bool :=
  (slots.slotsOf (b.affected index k)).toList.all fun i => i ∈ slots.slotsOf before

theorem mem_before_of_isCheck (h : isCheck b slots index k before = true) {x : Variable} {i : Nat}
    (hx : slots.slot? x = some i) (ha : x ∈ b.affected index k) : x ∈ before := by
  rw [isCheck, List.all_eq_true] at h
  have := h i (ExtTreeSet.mem_toList.2 ((Slots.mem_slotsOf_slot hx).2 ha))
  exact (Slots.mem_slotsOf_slot hx).1 (of_decide_eq_true this)

theorem mem_affected_of_open (hk : k.isClosedWorld = false) {x : Variable} :
    x ∈ b.affected index k ↔ x ∈ k.vars := by
  rw [Rows.mem_affected, hk]
  simp

section relations
variable {xs : List Variable} {x : Variable} {i : Nat}

theorem extent_continues {cls : String} (hs : s.Answers m called found)
    (ready : Ready b slots index (.holds (.extent cls) xs) before f) (width : xs.length = 1)
    (h0 : xs[0]? = some x) (hx : slots.slot? x = some i) :
    (s.frames f (if isCheck b slots index (.holds (.extent cls) xs) before then .checkInstance cls i
      else .iterateInstances cls i)).Returns
      (Meets m found widths b slots index (.holds (.extent cls) xs) f) := by
  obtain ⟨x, rfl⟩ := List.length_eq_one_iff.1 width
  cases h0
  have vars : ∀ y, y ∈ b.affected index (.holds (.extent cls) [x]) ↔ y = x := by
    intro y
    rw [mem_affected_of_open rfl, Constraint.vars, List.mem_singleton]
  split
  · rename_i check
    have bound := ready.binds x (mem_before_of_isCheck check hx ((vars x).2 rfl))
    refine Search.returns_pure (.of_keep ready.length (fun y hy => (vars y).1 hy ▸ bound) ?_)
    intro σ hσ
    rw [hσ.value? hx bound, hs.graph]
    exact decide_eq_true_iff.trans Model.singleton_mem_extent.symm
  · refine Search.returns_pure (.of_put hx ready.length (fun y hy => .inl ((vars y).1 hy)) ?_)
    intro σ _
    rw [hs.graph]
    exact ExtTreeSet.mem_toList.trans Model.singleton_mem_extent.symm

theorem feature_continues {feature : String} (hs : s.Answers m called found) (hm : m.Converse)
    (typed : m.Typed) (ready : Ready b slots index (.holds (.feature feature) xs) before f)
    (width : xs.length = 2) {y : Variable} {j : Nat} (h0 : xs[0]? = some x) (h1 : xs[1]? = some y)
    (hx : slots.slot? x = some i) (hy : slots.slot? y = some j)
    (hop : Operation.ofFeature m.schema (.holds (.feature feature) xs) feature (slots.slotsOf before)
      i j = .ok op) :
    (s.frames f op).Returns
      (Meets m found widths b slots index (.holds (.feature feature) xs) f) := by
  obtain ⟨x, y, rfl⟩ := List.length_eq_two.1 width
  cases h0
  cases h1
  have vars : ∀ z, z ∈ b.affected index (.holds (.feature feature) [x, y]) ↔ z = x ∨ z = y := by
    intro z
    rw [mem_affected_of_open rfl, Constraint.vars, List.mem_cons, List.mem_singleton]
  have holds : ∀ σ : Assignment, σ y ∈ m.valuesOf (σ x) feature ↔
      b.Satisfies (m.facts found widths) index σ (.holds (.feature feature) [x, y]) :=
    fun σ => Model.pair_mem_featureTuples.symm
  simp only [Operation.ofFeature, Slots.mem_slotsOf_slot hx, Slots.mem_slotsOf_slot hy] at hop
  split at hop
  · rename_i hx'
    have boundx := ready.binds x hx'
    obtain ⟨v, hv, only⟩ := boundx.exists_value hx
    split at hop
    · rename_i hy'
      have boundy := ready.binds y hy'
      obtain ⟨w, hw, only'⟩ := boundy.exists_value hy
      cases hop
      rw [frames, hv, hw]
      refine Search.returns_pure (.of_keep ready.length ?_ fun σ hσ => ?_)
      · intro z hz
        rcases (vars z).1 hz with rfl | rfl
        · exact boundx
        · exact boundy
      · rw [← holds, hs.graph, only σ hσ, only' σ hσ]
        exact List.contains_iff_mem
    · cases hop
      rw [frames, hv]
      refine Search.returns_pure (.of_put hy ready.length ?_ fun σ hσ => ?_)
      · intro z hz
        rcases (vars z).1 hz with rfl | rfl
        · exact .inr boundx
        · exact .inl rfl
      · rw [← holds, hs.graph, only σ hσ]
        exact Iff.rfl
  · split at hop
    · rename_i hy'
      have boundy := ready.binds y hy'
      obtain ⟨w, hw, only⟩ := boundy.exists_value hy
      cases hop
      rw [frames, hw]
      refine Search.returns_pure (.of_put hx ready.length ?_ fun σ hσ => ?_)
      · intro z hz
        rcases (vars z).1 hz with rfl | rfl
        · exact .inl rfl
        · exact .inr boundy
      · rw [← holds, hs.graph, only σ hσ]
        exact hm.mem_holdersOf
    · split at hop
      · rename_i cls hcls
        cases hop
        refine Search.returns_pure (.of_put_pairs hx hy ready.length ?_ fun σ _ => ?_)
        · intro z hz
          exact ((vars z).1 hz).imp_right .inl
        · rw [← holds, hs.graph]
          refine and_iff_right_of_imp fun hv => ?_
          exact ExtTreeSet.mem_toList.2 (typed feature cls hcls _ (List.ne_nil_of_mem hv))
      · cases hop

end relations

section comparisons
variable {x y : Variable} {i j : Nat} (hx : slots.slot? x = some i) (hy : slots.slot? y = some j)
include hx

include hy in
theorem unequal_continues (ready : Ready b slots index (.unequal x y) before f) :
    (s.frames f (.checkUnequal i j)).Returns
      (Meets m found widths b slots index (.unequal x y) f) := by
  have bound : ∀ z, z ∈ b.affected index (.unequal x y) → f.Binds slots z := by
    intro z hz
    refine ready.binds z (ready.deferred z ?_)
    rw [mem_affected_of_open rfl] at hz
    simpa [Body.deferred, Constraint.vars] using hz
  have boundx := bound x ((mem_affected_of_open rfl).2 (by simp [Constraint.vars]))
  have boundy := bound y ((mem_affected_of_open rfl).2 (by simp [Constraint.vars]))
  refine Search.returns_pure (.of_keep ready.length bound fun σ hσ => ?_)
  rw [hσ.value? hx boundx, hσ.value? hy boundy, decide_eq_true_iff, Ne, Option.some_inj]
  rfl

include hy in
theorem equal_continues (ready : Ready b slots index (.equal x y) before f)
    (hop : Operation.ofEqual (.equal x y) (slots.slotsOf before) i j = .ok op) :
    (s.frames f op).Returns (Meets m found widths b slots index (.equal x y) f) := by
  have vars : ∀ z, z ∈ b.affected index (.equal x y) ↔ z = x ∨ z = y := by
    intro z
    rw [mem_affected_of_open rfl, Constraint.vars, List.mem_cons, List.mem_singleton]
  simp only [Operation.ofEqual, Slots.mem_slotsOf_slot hx, Slots.mem_slotsOf_slot hy] at hop
  split at hop
  · rename_i hx'
    have boundx := ready.binds x hx'
    split at hop
    · rename_i hy'
      have boundy := ready.binds y hy'
      cases hop
      refine Search.returns_pure (.of_keep ready.length ?_ fun σ hσ => ?_)
      · intro z hz
        rcases (vars z).1 hz with rfl | rfl
        · exact boundx
        · exact boundy
      · rw [hσ.value? hx boundx, hσ.value? hy boundy]
        simp [Body.Satisfies]
    · cases hop
      refine Search.returns_pure (.of_put_option hy ready.length ?_ fun σ hσ => ?_)
      · intro z hz
        rcases (vars z).1 hz with rfl | rfl
        · exact .inr boundx
        · exact .inl rfl
      · rw [hσ.value? hx boundx, Option.some_inj]
        rfl
  · split at hop
    · rename_i hy'
      have boundy := ready.binds y hy'
      cases hop
      refine Search.returns_pure (.of_put_option hx ready.length ?_ fun σ hσ => ?_)
      · intro z hz
        rcases (vars z).1 hz with rfl | rfl
        · exact .inl rfl
        · exact .inr boundy
      · rw [hσ.value? hy boundy, Option.some_inj]
        exact eq_comm
    · cases hop

theorem constant_continues {v : Value} (ready : Ready b slots index (.constant x v) before f) :
    (s.frames f (if isCheck b slots index (.constant x v) before then .checkConstant i v
      else .extendConstant i v)).Returns (Meets m found widths b slots index (.constant x v) f) := by
  have vars : ∀ y, y ∈ b.affected index (.constant x v) ↔ y = x := by
    intro y
    rw [mem_affected_of_open rfl, Constraint.vars, List.mem_singleton]
  split
  · rename_i check
    have bound := ready.binds x (mem_before_of_isCheck check hx ((vars x).2 rfl))
    refine Search.returns_pure (.of_keep ready.length (fun y hy => (vars y).1 hy ▸ bound) ?_)
    intro σ hσ
    rw [hσ.value? hx bound, decide_eq_true_iff, Option.some_inj]
    rfl
  · refine Search.returns_pure
      (.of_put_option (o := some v) hx ready.length (fun y hy => .inl ((vars y).1 hy)) ?_)
    intro σ _
    rw [Option.some_inj]
    exact eq_comm

end comparisons

section calls
variable {query : String} {xs : List Variable} {is : List Nat}

/-- The matches a call is told agree with its arguments, if what is known to be bound are the
arguments visible outside. -/
theorem mem_agreeing (known : ∀ x ∈ xs, x ∈ before ↔ b.isLocal x index = false)
    {found : Finset Tuple} {σ : Assignment} {t : Tuple} :
    t ∈ b.agreeing index xs found σ ↔
      t ∈ found ∧ ∃ τ : Assignment, (∀ x ∈ xs, x ∈ before → τ x = σ x) ∧ xs.map τ = t := by
  classical
  rw [Body.agreeing, Finset.mem_filter]
  refine and_congr_right fun _ => exists_congr fun τ => and_congr_left fun _ => ?_
  refine forall₂_congr fun x hx => ?_
  rw [known x hx]

theorem find_continues (hs : s.Answers m called found) (hq : called query)
    (hcall : c.checkCall (.find query xs) = .ok ())
    (widths : ∀ name q, c.queries[name]? = some q → ∀ t ∈ found name, t.length = q.arity)
    (ready : Ready b slots index (.find query xs) before f)
    (check : isCheck b slots index (.find query xs) before = true) (his : slots.Of xs is)
    (bound : ExtTreeSet Nat) :
    (s.frames f (.checkCall ⟨query, bound⟩ (.of is (slots.slotsOf before)))).Returns
      (Meets m found widths b slots index (.find query xs) f) := by
  have width := Rows.length_of_call (f := m.facts found widths) hcall rfl
  have vars : ∀ x, x ∈ b.affected index (.find query xs) ↔ x ∈ xs :=
    fun x => mem_affected_of_open rfl
  have known : ∀ x ∈ xs, x ∈ before := by
    intro x hx
    obtain ⟨n, hn⟩ := List.mem_iff_getElem?.1 hx
    obtain ⟨i, -, hi⟩ := his.exists_slot hn
    exact mem_before_of_isCheck check hi ((vars x).2 hx)
  refine (call_returns (r := ⟨query, bound⟩) hs his ready.binds hq width).bind
    fun l ⟨_, hl⟩ => Search.returns_pure ?_
  refine .of_keep ready.length ?_ fun σ hσ => ?_
  · exact fun x hx => ready.binds x (known x ((vars x).1 hx))
  · have one : ∀ t, t ∈ l ↔ t ∈ found query ∧ xs.map σ = t := by
      intro t
      rw [hl σ hσ]
      refine and_congr_right fun _ => ⟨?_, fun h => ⟨σ, fun _ _ _ => rfl, h⟩⟩
      rintro ⟨τ, same, rfl⟩
      exact List.map_congr_left fun x hx => (same x hx (known x hx)).symm
    rw [Bool.not_eq_true', List.isEmpty_eq_false_iff_exists_mem]
    simp only [one]
    constructor
    · rintro ⟨t, ht, rfl⟩
      exact ht
    · exact fun h => ⟨_, h, rfl⟩

theorem mem_affected_of_closed (hk : k.isClosedWorld = true) {x : Variable} :
    x ∈ b.affected index k ↔ x ∈ k.vars ∧ b.isLocal x index = false := by
  rw [Rows.mem_affected, hk]
  simp

theorem agreeing_returns (hs : s.Answers m called found) (hq : called query)
    (hcall : c.checkCall k = .ok ()) (hquery : k.calledQuery? = some query)
    (hwidth : k.callWidth = xs.length)
    (widths : ∀ name q, c.queries[name]? = some q → ∀ t ∈ found name, t.length = q.arity)
    (ready : Ready b slots index k before f)
    (hdeferred : ∀ x ∈ xs, b.isLocal x index = false → x ∈ b.deferred index k)
    (his : slots.Of xs is) (bound : ExtTreeSet Nat) :
    (s.call ⟨query, bound⟩ (.of is (slots.slotsOf before)) f).Returns fun l => l.Nodup ∧
      ∀ σ, f.Suits slots σ → ∀ t, t ∈ l ↔ t ∈ b.agreeing index xs (found query) σ := by
  have width := Rows.length_of_call (f := m.facts found widths) hcall hquery
  rw [hwidth] at width
  have known : ∀ x ∈ xs, x ∈ before ↔ b.isLocal x index = false := fun x hx =>
    ⟨ready.visible x, fun hl => ready.deferred x (hdeferred x hx hl)⟩
  refine (call_returns (r := ⟨query, bound⟩) hs his ready.binds hq width).mono ?_
  rintro l ⟨hd, hl⟩
  exact ⟨hd, fun σ hσ t => (hl σ hσ t).trans (mem_agreeing known).symm⟩

theorem lacks_continues (hs : s.Answers m called found) (hq : called query)
    (hcall : c.checkCall (.lacks query xs) = .ok ())
    (widths : ∀ name q, c.queries[name]? = some q → ∀ t ∈ found name, t.length = q.arity)
    (ready : Ready b slots index (.lacks query xs) before f) (his : slots.Of xs is)
    (bound : ExtTreeSet Nat) :
    (s.frames f (.checkNoCall ⟨query, bound⟩ (.of is (slots.slotsOf before)))).Returns
      (Meets m found widths b slots index (.lacks query xs) f) := by
  have outer : ∀ x ∈ xs, b.isLocal x index = false → x ∈ b.deferred index (.lacks query xs) :=
    fun x hx hl => by simp [Body.deferred, hx, hl]
  refine (agreeing_returns hs hq hcall rfl rfl widths ready outer his bound).bind ?_
  rintro l ⟨-, hl⟩
  refine Search.returns_pure (.of_keep ready.length (fun x hx => ?_) fun σ hσ => ?_)
  · obtain ⟨hx, hlocal⟩ := (mem_affected_of_closed rfl).1 hx
    exact ready.binds x (ready.deferred x (outer x hx hlocal))
  · rw [List.isEmpty_iff, List.eq_nil_iff_forall_not_mem]
    simp only [hl σ hσ]
    exact Finset.eq_empty_iff_forall_notMem.symm

theorem count_continues {result : Variable} (hs : s.Answers m called found)
    (hq : called query)
    (hcall : c.checkCall (.count query xs result) = .ok ())
    (widths : ∀ name q, c.queries[name]? = some q → ∀ t ∈ found name, t.length = q.arity)
    (ready : Ready b slots index (.count query xs result) before f) (his : slots.Of xs is)
    {i : Nat} (hresult : slots.slot? result = some i) (bound : ExtTreeSet Nat) (bind : Bool) :
    (s.frames f (.count ⟨query, bound⟩ (.of is (slots.slotsOf before)) i bind)).Returns
      (Meets m found widths b slots index (.count query xs result) f) := by
  have outer : ∀ x ∈ xs, b.isLocal x index = false →
      x ∈ b.deferred index (.count query xs result) :=
    fun x hx hl => by simp [Body.deferred, hx, hl]
  refine (agreeing_returns hs hq hcall rfl rfl widths ready outer his bound).bind ?_
  rintro l ⟨hd, hl⟩
  refine Search.returns_pure
    (.of_put_option (o := some (.ofNat l.length)) hresult ready.length (fun x hx => ?_)
      fun σ hσ => ?_)
  · obtain ⟨hx, hlocal⟩ := (mem_affected_of_closed rfl).1 hx
    rcases List.mem_append.1 hx with hx | hx
    · exact .inr (ready.binds x (ready.deferred x (outer x hx hlocal)))
    · exact .inl (List.mem_singleton.1 hx)
  · have card : (b.agreeing index xs (found query) σ).card = l.length := by
      rw [← List.toFinset_card_of_nodup hd]
      exact congrArg Finset.card (Finset.ext fun t => by rw [List.mem_toFinset, hl σ hσ])
    rw [Option.some_inj, ← card]
    exact eq_comm

theorem outcome_coe {op : Aggregator} (free : op.OrderFree) {column : Nat} {l : List Tuple}
    (wide : ∀ t ∈ l, column < t.length) : op.outcome column ↑l =
      if l.isEmpty then op.neutral else op.fold (l.filterMap fun t => t[column]?) := by
  have values : l.filterMap (fun t => t[column]?) = l.map (foldedValue (some column)) := by
    rw [← List.filterMap_eq_map]
    refine List.filterMap_congr fun t ht => ?_
    rw [Function.comp_apply, foldedValue, List.getD_eq_getElem?_getD,
      List.getElem?_eq_getElem (wide t ht), Option.getD_some]
  rw [Aggregator.outcome, values]
  cases l with
  | nil => rfl
  | cons t rest =>
    rw [if_neg (by simp), if_neg (by simp)]
    refine free _ _ (Multiset.coe_eq_coe.1 ?_)
    rw [coe_ascending, Multiset.map_coe]

theorem aggregate_continues {operator : String} {aggregated result : Variable}
    (hs : s.Answers m called found) (hq : called query)
    (hcall : c.checkCall (.aggregate operator query xs aggregated result) = .ok ())
    {fold : Aggregator} (hfold : c.aggregators[operator]? = some fold) (free : fold.OrderFree)
    (widths : ∀ name q, c.queries[name]? = some q → ∀ t ∈ found name, t.length = q.arity)
    (ready : Ready b slots index (.aggregate operator query xs aggregated result) before f)
    {column i : Nat} (hcolumn : xs.findIdx? (· = aggregated) = some column) (his : slots.Of xs is)
    (hresult : slots.slot? result = some i) (bound : ExtTreeSet Nat) (bind : Bool) :
    (s.frames f
      (.aggregate ⟨query, bound⟩ (.of is (slots.slotsOf before)) fold column i bind)).Returns
      (Meets m found widths b slots index (.aggregate operator query xs aggregated result) f) := by
  have outer : ∀ x ∈ xs, b.isLocal x index = false →
      x ∈ b.deferred index (.aggregate operator query xs aggregated result) :=
    fun x hx hl => by simp [Body.deferred, hx, hl]
  refine (agreeing_returns hs hq hcall rfl rfl widths ready outer his bound).bind ?_
  rintro l ⟨hd, hl⟩
  refine Search.returns_pure
    (.of_put_option hresult ready.length (fun x hx => ?_) fun σ hσ => ?_)
  · obtain ⟨hx, hlocal⟩ := (mem_affected_of_closed rfl).1 hx
    rcases List.mem_append.1 hx with hx | hx
    · exact .inr (ready.binds x (ready.deferred x (outer x hx hlocal)))
    · exact .inl (List.mem_singleton.1 hx)
  · have group : (b.agreeing index xs (found query) σ).val = ↑l :=
      (Multiset.Nodup.ext (Finset.nodup _) (Multiset.coe_nodup.2 hd)).2 fun t => by
        rw [Finset.mem_val, ← hl σ hσ, Multiset.mem_coe]
    have width := Rows.length_of_call (f := m.facts found widths) hcall rfl
    obtain ⟨hlt, hcol⟩ := List.findIdx?_eq_some_iff_findIdx_eq.1 hcolumn
    have column_eq : xs.idxOf aggregated = column := by
      rw [← hcol, List.idxOf]
      rfl
    have wide : ∀ t ∈ l, column < t.length := by
      intro t ht
      rw [hl σ hσ] at ht
      exact (width t (Body.mem_found_of_agreeing ht)).symm ▸ hlt
    simp only [Body.Satisfies, hfold, Option.some_inj, exists_eq_left', Model.facts_found, group,
      column_eq]
    rw [outcome_coe free wide]

end calls

section expressions
variable {evaluator : String} {inputs : List Variable} {output : Variable} {e : Evaluator}
  {is : List Nat}

/-- An evaluator is given the values of its inputs; when it fails, this is reported. -/
theorem evaluate_returns (hs : s.Answers m called found) (his : slots.Of inputs is)
    (bound : ∀ x ∈ inputs, f.Binds slots x) (e : Evaluator) :
    (s.evaluate e is f).Returns fun o =>
      ∀ σ, f.Suits slots σ → o = (e.evaluate (inputs.map σ)).toOption := by
  obtain ⟨τ, hτ⟩ := f.exists_suits slots
  have args := his.mapM_value? hτ bound
  have same : ∀ σ, f.Suits slots σ → inputs.map σ = inputs.map τ := fun σ hσ =>
    Option.some_inj.1 ((his.mapM_value? hσ bound).symm.trans args)
  rw [evaluate, args]
  dsimp only
  split
  · rename_i v hv
    exact Search.returns_pure fun σ hσ => by rw [same σ hσ, hv]; rfl
  · rename_i message hv
    exact (hs.report _).bind fun _ _ => Search.returns_pure fun σ hσ => by rw [same σ hσ, hv]; rfl

theorem toOption_eq_some {ε' α : Type} {x : Except ε' α} {a : α} :
    x.toOption = some a ↔ x = .ok a := by
  cases x <;> simp [Except.toOption]

theorem check_continues (hs : s.Answers m called found)
    (ready : Ready b slots index (.check evaluator inputs) before f)
    (he : c.evaluators[evaluator]? = some e) (his : slots.Of inputs is) :
    (s.frames f (.check e is)).Returns
      (Meets m found widths b slots index (.check evaluator inputs) f) := by
  have bound : ∀ x ∈ inputs, f.Binds slots x := fun x hx =>
    ready.binds x (ready.deferred x (by simpa [Body.deferred] using hx))
  refine (evaluate_returns hs his bound e).bind fun o ho => Search.returns_pure ?_
  refine .of_keep ready.length ?_ fun σ hσ => ?_
  · exact fun x hx => bound x ((mem_affected_of_open rfl).1 hx)
  · rw [ho σ hσ]
    simp only [Option.any_eq_true, toOption_eq_some, Body.Satisfies, he, Option.some_inj,
      exists_and_left, exists_eq_left']

theorem eval_continues (hs : s.Answers m called found)
    (ready : Ready b slots index (.eval evaluator inputs output) before f)
    (he : c.evaluators[evaluator]? = some e) (his : slots.Of inputs is) {i : Nat}
    (houtput : slots.slot? output = some i) (bind : Bool) :
    (s.frames f (.eval e is i bind)).Returns
      (Meets m found widths b slots index (.eval evaluator inputs output) f) := by
  have bound : ∀ x ∈ inputs, f.Binds slots x := fun x hx =>
    ready.binds x (ready.deferred x (by simpa [Body.deferred] using hx))
  refine (evaluate_returns hs his bound e).bind fun o ho => Search.returns_pure ?_
  refine .of_put_option houtput ready.length (fun x hx => ?_) fun σ hσ => ?_
  · have hx : x ∈ inputs ++ [output] := (mem_affected_of_open rfl).1 hx
    rcases List.mem_append.1 hx with hx | hx
    · exact .inr (bound x hx)
    · exact .inl (List.mem_singleton.1 hx)
  · rw [ho σ hσ, toOption_eq_some]
    simp only [Body.Satisfies, he, Option.some_inj, exists_eq_left']

end expressions

theorem closure_continues {query : String} {x y : Variable} (hs : s.Answers m called found)
    (hq : called query)
    (hcall : c.checkCall (.closure query x y) = .ok ())
    (widths : ∀ name q, c.queries[name]? = some q → ∀ t ∈ found name, t.length = q.arity)
    (ready : Ready b slots index (.closure query x y) before f)
    (check : isCheck b slots index (.closure query x y) before = true) {i j : Nat}
    (hx : slots.slot? x = some i) (hy : slots.slot? y = some j) :
    (s.frames f (.checkClosure ⟨query, .ofList [0]⟩ i j)).Returns
      (Meets m found widths b slots index (.closure query x y) f) := by
  have width := Rows.length_of_call (f := m.facts found widths) hcall rfl
  have vars : ∀ z, z ∈ b.affected index (.closure query x y) ↔ z = x ∨ z = y := by
    intro z
    rw [mem_affected_of_open rfl, Constraint.vars, List.mem_cons, List.mem_singleton]
  have boundx := ready.binds x (mem_before_of_isCheck check hx ((vars x).2 (.inl rfl)))
  have boundy := ready.binds y (mem_before_of_isCheck check hy ((vars y).2 (.inr rfl)))
  obtain ⟨v, hv, only⟩ := boundx.exists_value hx
  obtain ⟨w, hw, only'⟩ := boundy.exists_value hy
  rw [frames, hv, hw]
  have path : (s.reaches ⟨query, .ofList [0]⟩ v w).Returns fun yes =>
      yes = true ↔ Linked (found query).val v w := by
    refine reaches_returns hs hq ?_ v w
    exact width
  refine path.bind fun yes hyes => Search.returns_pure ?_
  refine .of_keep ready.length (fun z hz => ?_) fun σ hσ => ?_
  · rcases (vars z).1 hz with rfl | rfl
    · exact boundx
    · exact boundy
  · rw [hyes, ← only σ hσ, ← only' σ hσ]
    rfl

/-- The operation chosen for a constraint continues a frame with the values that satisfy it. -/
theorem frames_continue (hs : s.Answers m called found) (hm : m.Converse) (typed : m.Typed)
    (widths : ∀ name q, c.queries[name]? = some q → ∀ t ∈ found name, t.length = q.arity)
    (hvalid : Query.validateConstraint k = .ok ())
    (hq : ∀ query, k.calledQuery? = some query → called query) (hcall : c.checkCall k = .ok ())
    (free : ∀ operator query xs aggregated result,
      k = .aggregate operator query xs aggregated result →
        ∀ op, c.aggregators[operator]? = some op → op.OrderFree)
    (ready : Ready b slots index k before f)
    (hop : Operation.ofConstraint c m.schema slots (slots.slotsOf before)
      (isCheck b slots index k before) k = .ok op) :
    (s.frames f op).Returns (Meets m found widths b slots index k f) := by
  cases Operation.chosen_of_ofConstraint hop with
  | extent h0 hx =>
    exact extent_continues hs ready (Query.length_of_validateConstraint hvalid) h0 hx
  | feature h0 h1 hx hy made =>
    exact feature_continues hs hm typed ready (Query.length_of_validateConstraint hvalid) h0 h1 hx hy
      made
  | unequal _ hx hy => exact unequal_continues hx hy ready
  | equal hx hy made => exact equal_continues hx hy ready made
  | constant hx => exact constant_continues hx ready
  | find check his => exact find_continues hs (hq _ rfl) hcall widths ready check his _
  | lacks his => exact lacks_continues hs (hq _ rfl) hcall widths ready his _
  | count his hi => exact count_continues hs (hq _ rfl) hcall widths ready his hi _ _
  | aggregate hfold hcolumn his hi =>
    exact aggregate_continues hs (hq _ rfl) hcall hfold (free _ _ _ _ _ rfl _ hfold) widths ready
      hcolumn his hi _ _
  | check he his => exact check_continues hs ready he his
  | eval he his hi => exact eval_continues hs ready he his hi _
  | closure check hx hy => exact closure_continues hs (hq _ rfl) hcall widths ready check hx hy

end Searcher
end Motif
