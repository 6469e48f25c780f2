import Motif.Proofs.Greedy
import Motif.Proofs.Search.Exact

/-!
Which orders local search accepts. A constraint that the greedy order takes to be executable has an
operation, but for a feature with neither end bound the schema must name the class of its holders, which
the order does not look at. This alone makes the acceptance of a body depend on how its constraints are
written: of two such features the one written first comes first.
-/
set_option autoImplicit false
namespace Motif

open Std (ExtTreeSet)

theorem Slots.exists_slot? {b : Body} {x : Variable} (h : x ∈ b.vars) :
    ∃ i, (Slots.of b).slot? x = some i := by
  rw [Body.vars, ExtTreeSet.mem_ofList, List.contains_iff_mem] at h
  rw [← Option.isSome_iff_exists, slot?, List.findIdx?_isSome, List.any_eq_true]
  exact ⟨x, mem_firsts.2 h, decide_eq_true rfl⟩

namespace Operation
variable {schema : Schema} {k : Constraint} {bound : ExtTreeSet Nat} {i j : Nat}

/-- The failure of a constraint for a feature whose holders the schema names no class of. -/
def Sourceless (schema : Schema) (k : Constraint) (e : Failure) : Prop :=
  ∃ feature xs, k = .holds (.feature feature) xs ∧ schema.sourceClass? feature = none ∧
    e = .plan (.unsupported k.text .noSourceClass)

theorem ofFeature_ok_or (schema : Schema) (k : Constraint) (feature : String)
    (bound : ExtTreeSet Nat) (i j : Nat) : (∃ op, ofFeature schema k feature bound i j = .ok op) ∨
      schema.sourceClass? feature = none ∧
        ofFeature schema k feature bound i j = .error (.unsupported k.text .noSourceClass) := by
  rw [ofFeature]
  split
  · split <;> exact .inl ⟨_, rfl⟩
  · split
    · exact .inl ⟨_, rfl⟩
    · split
      · exact .inl ⟨_, rfl⟩
      · exact .inr ⟨‹_›, rfl⟩

theorem exists_ofEqual_iff : (∃ op, ofEqual k bound i j = .ok op) ↔ i ∈ bound ∨ j ∈ bound := by
  rw [ofEqual]
  split
  · rename_i hi
    refine iff_of_true ?_ (.inl hi)
    split <;> exact ⟨_, rfl⟩
  · rename_i hi
    rw [or_iff_right hi]
    split
    · rename_i hj
      exact iff_of_true ⟨_, rfl⟩ hj
    · rename_i hj
      refine iff_of_false ?_ hj
      rintro ⟨op, h⟩
      cases h

end Operation

namespace Searcher
open Operation

variable {c : Catalog} {schema : Schema} {b : Body} {slots : Slots} {index : Nat} {k : Constraint}
  {before : ExtTreeSet Variable} {bound : ExtTreeSet Nat} {check : Bool} {op : Operation}

theorem isCheck_of_affected (slots : Slots) (h : ∀ x ∈ b.affected index k, x ∈ before) :
    isCheck b slots index k before = true := by
  rw [isCheck, List.all_eq_true]
  intro i hi
  obtain ⟨x, hx, slot⟩ := Slots.mem_slotsOf.1 (ExtTreeSet.mem_toList.1 hi)
  exact decide_eq_true (Slots.mem_slotsOf.2 ⟨x, h x hx, slot⟩)

theorem canExtend_of_ofConstraint (there : ∀ x ∈ k.vars, ∃ i, slots.slot? x = some i)
    (deferred : ∀ x ∈ b.deferred index k, x ∈ before)
    (h : ofConstraint c schema slots (slots.slotsOf before) (isCheck b slots index k before) k =
      .ok op) :
    (∀ x ∈ b.affected index k, x ∈ before) ∨ Greedy.CanExtend .localSearch before k := by
  have checked : isCheck b slots index k before = true → ∀ x ∈ b.affected index k, x ∈ before := by
    intro check x hx
    obtain ⟨i, slot⟩ := there x (Rows.mem_affected.1 hx).1
    exact mem_before_of_isCheck check slot hx
  cases chosen_of_ofConstraint h with
  | extent | feature | constant | count | aggregate | check | eval => exact .inr trivial
  | @lacks query xs =>
    refine .inl fun x hx => deferred x ?_
    obtain ⟨hx, visible⟩ := (mem_affected_of_closed rfl).1 hx
    have hx : x ∈ xs := hx
    simpa [Body.deferred, visible] using hx
  | unequal =>
    refine .inl fun x hx => deferred x ?_
    have hx := (mem_affected_of_open rfl).1 hx
    simpa [Body.deferred, Constraint.vars] using hx
  | equal hi hj made =>
    exact .inr ((exists_ofEqual_iff.1 ⟨op, made⟩).imp (Slots.mem_slotsOf_slot hi).1
      (Slots.mem_slotsOf_slot hj).1)
  | find check | closure check => exact .inl (checked check)

/-- If an operation is chosen for a constraint somewhere, then one is chosen wherever the greedy order
can apply it, but for a feature that may lack the class of its holders. -/
theorem ofConstraint_again (h : ofConstraint c schema slots bound check k = .ok op)
    (ready : (∀ x ∈ b.affected index k, x ∈ before) ∨ Greedy.CanExtend .localSearch before k) :
    (∃ op, ofConstraint c schema slots (slots.slotsOf before) (isCheck b slots index k before) k =
      .ok op) ∨ ∃ e, Sourceless schema k e ∧
        ofConstraint c schema slots (slots.slotsOf before) (isCheck b slots index k before) k =
          .error e := by
  cases chosen_of_ofConstraint h with
  | extent hx hi => exact .inl ⟨_, Chosen.ofConstraint_eq (.extent hx hi)⟩
  | @feature feature xs x y i j op hx hy hi hj =>
    rw [ofConstraint_feature hx hy hi hj]
    rcases ofFeature_ok_or schema (.holds (.feature feature) xs) feature (slots.slotsOf before) i j
      with ⟨op, hop⟩ | ⟨none, hop⟩
    · exact .inl ⟨op, liftPlan_of_ok hop⟩
    · exact .inr ⟨_, ⟨feature, xs, rfl, none, rfl⟩, by rw [hop]; rfl⟩
  | unequal _ hi hj =>
    have check := isCheck_of_affected slots (ready.resolve_right id)
    exact .inl ⟨_, Chosen.ofConstraint_eq (.unequal check hi hj)⟩
  | @equal x y i j op hi hj =>
    have side : i ∈ slots.slotsOf before ∨ j ∈ slots.slotsOf before := by
      rw [Slots.mem_slotsOf_slot hi, Slots.mem_slotsOf_slot hj]
      exact ready.elim (fun all => .inl (all x ((mem_affected_of_open rfl).2 List.mem_cons_self))) id
    obtain ⟨op, hop⟩ := exists_ofEqual_iff (k := .equal x y).2 side
    exact .inl ⟨_, Chosen.ofConstraint_eq (.equal hi hj hop)⟩
  | constant hi => exact .inl ⟨_, Chosen.ofConstraint_eq (.constant hi)⟩
  | find _ his =>
    have check := isCheck_of_affected slots (ready.resolve_right nofun)
    exact .inl ⟨_, Chosen.ofConstraint_eq (.find check his)⟩
  | lacks his => exact .inl ⟨_, Chosen.ofConstraint_eq (.lacks his)⟩
  | count his hi => exact .inl ⟨_, Chosen.ofConstraint_eq (.count his hi)⟩
  | aggregate hfold hcolumn his hi =>
    exact .inl ⟨_, Chosen.ofConstraint_eq (.aggregate hfold hcolumn his hi)⟩
  | check he his => exact .inl ⟨_, Chosen.ofConstraint_eq (.check he his)⟩
  | eval he his hi => exact .inl ⟨_, Chosen.ofConstraint_eq (.eval he his hi)⟩
  | closure _ hi hj =>
    have check := isCheck_of_affected slots (ready.resolve_right nofun)
    exact .inl ⟨_, Chosen.ofConstraint_eq (.closure check hi hj)⟩

end Searcher

namespace SearchPlan
variable {c : Catalog} {schema : Schema} {name : String} {b : Body} {bound : ExtTreeSet Variable}
  {order : List Nat} {sp : SearchPlan}

theorem exists_of_mem_turns (compiled : ofPlan c schema name b (.sequence b bound order) = .ok sp) :
    ∀ state ∈ Plan.turns b bound order, ∃ k op, b.constraints[state.1]? = some k ∧
      Operation.ofConstraint c schema (Slots.of b) ((Slots.of b).slotsOf state.2)
        (Searcher.isCheck b (Slots.of b) state.1 k state.2) k = .ok op := by
  obtain ⟨⟨⟩, -, rest⟩ := bind_ok compiled
  obtain ⟨is, -, rest⟩ := bind_ok rest
  obtain ⟨ops, hops, -⟩ := bind_ok rest
  rw [Plan.states_sequence] at hops
  intro state hs
  obtain ⟨op, -, hop⟩ := (exists_of_mapM hops).1 state hs
  rw [operationAt] at hop
  split at hop
  · cases hop
  · exact ⟨_, op, ‹_›, hop⟩

theorem mem_turns (b : Body) (bound : ExtTreeSet Variable) {i : Nat} (hi : i ∈ order) :
    ∃ state ∈ Plan.turns b bound order, state.1 = i := by
  rw [← Plan.states_sequence, ← List.mem_map, Plan.map_fst_states]
  exact (Plan.applied_foldl (.start bound) order).symm ▸ hi

theorem orders_ofPlan (compiled : ofPlan c schema name b (.sequence b bound order) = .ok sp) :
    Greedy.Orders .localSearch b bound order := by
  have plan := (ofPlan_ok compiled).1
  have applied : (Plan.sequence b bound order).applied = order :=
    Plan.applied_foldl (.start bound) order
  refine ⟨?_, Plan.executable_iff_turns.2 fun state hs => ?_⟩
  · refine (List.perm_ext_iff_of_nodup (applied ▸ plan.once) List.nodup_range).2 fun i => ?_
    rw [List.mem_range]
    constructor
    · intro hi
      obtain ⟨state, hs, rfl⟩ := mem_turns b bound hi
      obtain ⟨k, -, hk, -⟩ := exists_of_mem_turns compiled state hs
      exact (List.getElem?_eq_some_iff.1 hk).1
    · exact fun hi => applied ▸ plan.all i _ (List.getElem?_eq_getElem hi)
  · obtain ⟨k, op, hk, hop⟩ := exists_of_mem_turns compiled state hs
    have there : ∀ x ∈ k.vars, ∃ i, (Slots.of b).slot? x = some i := fun x hx =>
      Slots.exists_slot? (Body.mem_vars.2 (.inr ⟨k, List.mem_of_getElem? hk, hx⟩))
    have deferred := plan.deferred state (Plan.states_sequence ▸ hs) k hk
    refine ⟨⟨state.1, k, b.deferred state.1 k, b.affected state.1 k⟩,
      Greedy.mem_candidates.2 ⟨hk, rfl, rfl⟩, rfl, ?_⟩
    exact Greedy.isSome_cost?_iff.2 ⟨deferred, Searcher.canExtend_of_ofConstraint there deferred hop⟩

theorem validate_again (compiled : ofPlan c schema name b (.sequence b bound order) = .ok sp)
    {result : List Nat} (h : Greedy.Orders .localSearch b bound result) :
    (Plan.sequence b bound result).validate b = .ok () := by
  obtain ⟨⟨⟩, valid, -⟩ := bind_ok compiled
  have entry : (Plan.sequence b bound order).entry = bound := Plan.entry_foldl (.start bound) order
  rcases Plan.validate_sequence h with ok | ⟨x, hx, unknown, -⟩ | ⟨x, hx, free, nowhere, -⟩
  · exact ok
  · refine absurd (Plan.entry_of_validate (liftPlan_ok valid) x ?_) unknown
    rwa [entry]
  · have plan := (ofPlan_ok compiled).1
    rcases plan.parameters (fun _ hx => hx) hx with hx | ⟨i, -, hx⟩
    · rw [entry] at hx
      exact absurd hx free
    · exact absurd hx (nowhere i)

/-- If a search plan is made along some order of the constraints, then a greedy order is found, and a
search plan is made along it as well, unless it comes to a feature with neither end bound that the
schema names no class of holders for. -/
theorem ofPlan_greedy (compiled : ofPlan c schema name b (.sequence b bound order) = .ok sp) :
    ∃ p, Plan.greedy .localSearch b bound = .ok p ∧ ((∃ sp, ofPlan c schema name b p = .ok sp) ∨
      ∃ e, (∃ k ∈ b.constraints, Operation.Sourceless schema k e) ∧
        ofPlan c schema name b p = .error e) := by
  have orders := orders_ofPlan compiled
  obtain ⟨result, hr⟩ := Greedy.exists_order orders
  have greedy := Greedy.order_ok hr
  refine ⟨.sequence b bound result, by rw [Plan.greedy, hr]; rfl, ?_⟩
  have steps : ∀ state ∈ (Plan.sequence b bound result).states b,
      (∃ op, operationAt c schema b (Slots.of b) state = .ok op) ∨
        ∃ e, (∃ k ∈ b.constraints, Operation.Sourceless schema k e) ∧
          operationAt c schema b (Slots.of b) state = .error e := by
    intro state hs
    rw [Plan.states_sequence] at hs
    obtain ⟨candidate, hc, same, cost⟩ := Plan.executable_iff_turns.1 greedy.executable state hs
    obtain ⟨hk, -, affected⟩ := Greedy.mem_candidates.1 hc
    rw [same] at hk affected
    have turn : state.1 ∈ order := by
      rw [orders.all.mem_iff, List.mem_range]
      exact (List.getElem?_eq_some_iff.1 hk).1
    -- the constraint had its turn in the other order as well, with other variables bound
    obtain ⟨before, hb, hbefore⟩ := mem_turns b bound turn
    obtain ⟨k, op, hk', hop⟩ := exists_of_mem_turns compiled before hb
    rw [hbefore] at hk' hop
    obtain rfl := Option.some.inj (hk'.symm.trans hk)
    rw [operationAt, hk]
    have ready := (Greedy.isSome_cost?_iff.1 cost).2
    rw [affected] at ready
    refine (Searcher.ofConstraint_again hop ready).imp_right ?_
    rintro ⟨e, he, hf⟩
    exact ⟨e, ⟨_, List.mem_of_getElem? hk, he⟩, hf⟩
  obtain ⟨⟨⟩, -, rest⟩ := bind_ok compiled
  obtain ⟨is, his, -⟩ := bind_ok rest
  have valid : (liftM ((Plan.sequence b bound result).validate b) : Except Failure Unit) = .ok () := by
    rw [validate_again compiled greedy]
    rfl
  rcases mapM_ok_or steps with ⟨ops, h⟩ | ⟨e, he, h⟩
  · exact .inl ⟨_, (bind_of_ok valid).trans ((bind_of_ok his).trans (bind_of_ok h))⟩
  · refine .inr ⟨e, he, (bind_of_ok valid).trans ((bind_of_ok his).trans ?_)⟩
    rw [h]
    rfl

section tie

def usesThenHas : Body :=
  ⟨["x", "y", "z"], [.holds (.feature "uses") ["x", "y"], .holds (.feature "has") ["y", "z"]]⟩

def hasSchema : Schema :=
  (Schema.withClass {} "A" []).withFeature { name := "has", source := some "A" }

-- The greedy order begins with the feature written first, along which no search plan is made.
example : (Plan.greedy .localSearch usesThenHas {}).toOption = some (.sequence usesThenHas {} [0, 1]) ∧
    (ofPlan {} hasSchema "q" usesThenHas (.sequence usesThenHas {} [0, 1])).toOption.isSome = false ∧
    (ofPlan {} hasSchema "q" usesThenHas (.sequence usesThenHas {} [1, 0])).toOption.isSome = true := by
  decide

end tie

end SearchPlan
end Motif
