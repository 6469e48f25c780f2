import Motif.Proofs.Search.Alike
import Motif.Proofs.Search.Exact

set_option autoImplicit false
namespace Motif

open Std (ExtTreeSet)

namespace Operation

def slots : Operation → List Nat
  | iterateInstances _ slot | checkInstance _ slot | checkConstant slot _ | extendConstant slot _ =>
    [slot]
  | extendForward _ i j | extendBackward _ i j | iterateFeature _ _ i j | checkFeature _ i j
  | checkUnequal i j | checkEqual i j | extendEqual i j | checkClosure _ i j => [i, j]
  | checkCall _ frame | checkNoCall _ frame => frame.positions.map Prod.fst
  | count _ frame result _ | aggregate _ frame _ _ result _ => result :: frame.positions.map Prod.fst
  | check _ inputs => inputs
  | eval _ inputs output _ => output :: inputs

end Operation

namespace Slots
variable {s : Slots}

theorem Of.lt {xs : List Variable} {is : List Nat} (h : s.Of xs is) : ∀ i ∈ is, i < s.size := by
  intro i hi
  obtain ⟨x, -, hx⟩ := (exists_of_forall₂ h).2 i hi
  exact lt_of_slot? hx

end Slots

structure SearchPlan.Fits (p : SearchPlan) : Prop where
  parameters : ∀ i ∈ p.parameterSlots, i < p.slots.size
  operations : ∀ op ∈ p.operations, ∀ i ∈ op.slots, i < p.slots.size

def Planned {α : Type} (r : Except Failure α) : Prop := ∀ f, r = .error f → ∃ c, f = .plan c

section planned
variable {α β : Type}

theorem planned_ok (a : α) : Planned (.ok a) := nofun

theorem planned_plan (c : PlanError) : Planned (.error (.plan c) : Except Failure α) :=
  fun _ h => ⟨c, (Except.error.inj h).symm⟩

theorem planned_liftPlan (r : Except PlanError α) : Planned (liftPlan r) := by
  cases r with
  | ok a => exact planned_ok a
  | error c => exact planned_plan c

theorem Planned.bind {x : Except Failure α} {g : α → Except Failure β} (hx : Planned x)
    (hg : ∀ a, x = .ok a → Planned (g a)) : Planned (x >>= g) := by
  cases x with
  | ok a => exact hg a rfl
  | error f => exact fun f' h => hx f' (congrArg Except.error (Except.error.inj h))

theorem planned_mapM {g : α → Except Failure β} {l : List α} (h : ∀ a ∈ l, Planned (g a)) :
    Planned (l.mapM g) := by
  induction l with
  | nil => exact planned_ok []
  | cons a rest ih =>
    rw [List.mapM_cons]
    refine (h a List.mem_cons_self).bind fun b _ => ?_
    exact (ih fun a' ha' => h a' (List.mem_cons_of_mem a ha')).bind fun bs _ => planned_ok _

end planned

namespace Operation
variable {c : Catalog} {schema : Schema} {slots : Slots} {bound : ExtTreeSet Nat} {check : Bool}
  {k : Constraint} {op : Operation}

structure Fits (op : Operation) (slots : Slots) (k : Constraint) : Prop where
  slots : ∀ i ∈ op.slots, i < slots.size
  asks : ∀ r, op.callee? = some r → k.calledQuery? = some r.query

theorem fits_of_silent (silent : op.callee? = none) (h : ∀ i ∈ op.slots, i < slots.size) :
    op.Fits slots k := by
  refine ⟨h, fun r hr => ?_⟩
  rw [silent] at hr
  cases hr

theorem slots_ofFeature {feature : String} {i j : Nat}
    (h : ofFeature schema k feature bound i j = .ok op) :
    op.slots = [i, j] ∧ op.callee? = none := by
  rw [ofFeature] at h
  split at h
  · split at h <;> cases h <;> exact ⟨rfl, rfl⟩
  · split at h
    · cases h
      exact ⟨rfl, rfl⟩
    · split at h
      · cases h
        exact ⟨rfl, rfl⟩
      · cases h

theorem slots_ofEqual {i j : Nat} (h : ofEqual k bound i j = .ok op) :
    (op.slots = [i, j] ∨ op.slots = [j, i]) ∧ op.callee? = none := by
  rw [ofEqual] at h
  split at h
  · split at h <;> cases h <;> exact ⟨.inl rfl, rfl⟩
  · split at h
    · cases h
      exact ⟨.inr rfl, rfl⟩
    · cases h

theorem lt_of_positions {xs : List Variable} {is : List Nat} (his : slots.Of xs is) :
    ∀ i ∈ (CallFrame.of is bound).positions.map Prod.fst, i < slots.size := by
  intro i hi
  simp only [CallFrame.of, List.map_map, Function.comp_def, List.map_id'] at hi
  exact his.lt i hi

theorem fits_ofConstraint (h : ofConstraint c schema slots bound check k = .ok op) :
    op.Fits slots k := by
  cases chosen_of_ofConstraint h with
  | extent _ hi | constant hi => split <;> exact fits_of_silent rfl (Slots.of_one hi).lt
  | feature _ _ hi hj made =>
    obtain ⟨named, silent⟩ := slots_ofFeature made
    exact fits_of_silent silent (named ▸ (Slots.of_two hi hj).lt)
  | unequal _ hi hj => exact fits_of_silent rfl (Slots.of_two hi hj).lt
  | equal hi hj made =>
    obtain ⟨named | named, silent⟩ := slots_ofEqual made
    · exact fits_of_silent silent (named ▸ (Slots.of_two hi hj).lt)
    · exact fits_of_silent silent (named ▸ (Slots.of_two hj hi).lt)
  | find _ his | lacks his => exact ⟨lt_of_positions his, fun r hr => by cases hr; rfl⟩
  | count his hi | aggregate _ _ his hi =>
    exact ⟨List.forall_mem_cons.2 ⟨Slots.lt_of_slot? hi, lt_of_positions his⟩,
      fun r hr => by cases hr; rfl⟩
  | check _ his => exact fits_of_silent rfl his.lt
  | eval _ his hi =>
    exact fits_of_silent rfl (List.forall_mem_cons.2 ⟨Slots.lt_of_slot? hi, his.lt⟩)
  | closure _ hi hj => exact ⟨(Slots.of_two hi hj).lt, fun r hr => by cases hr; rfl⟩

/-- A valid constraint has the variables that its operation asks for. -/
theorem planned_ofConstraint (valid : Query.validateConstraint k = .ok ()) :
    Planned (ofConstraint c schema slots bound check k) := by
  cases k with
  | holds r xs =>
    have width := Query.length_of_validateConstraint valid
    cases r with
    | extent cls =>
      obtain ⟨x, rfl⟩ := List.length_eq_one_iff.1 width
      exact (planned_liftPlan _).bind fun i _ => planned_ok _
    | feature feature =>
      obtain ⟨x, y, rfl⟩ := List.length_eq_two.1 width
      exact (planned_liftPlan _).bind fun i _ => (planned_liftPlan _).bind fun j _ =>
        planned_liftPlan _
  | unequal left right =>
    simp only [ofConstraint]
    split
    · exact planned_plan _
    · exact (planned_liftPlan _).bind fun i _ => (planned_liftPlan _).bind fun j _ => planned_ok _
  | equal left right =>
    exact (planned_liftPlan _).bind fun i _ => (planned_liftPlan _).bind fun j _ =>
      planned_liftPlan _
  | constant x v => exact (planned_liftPlan _).bind fun i _ => planned_ok _
  | find query xs =>
    simp only [ofConstraint]
    split
    · exact planned_plan _
    · exact (planned_liftPlan _).bind fun call _ => planned_ok _
  | lacks query xs => exact (planned_liftPlan _).bind fun call _ => planned_ok _
  | count query xs result =>
    exact (planned_liftPlan _).bind fun call _ => (planned_liftPlan _).bind fun i _ => planned_ok _
  | aggregate operator query xs aggregated result =>
    refine (planned_liftPlan _).bind fun v _ => ?_
    split
    · exact planned_plan _
    · exact (planned_liftPlan _).bind fun call _ => (planned_liftPlan _).bind fun i _ =>
        planned_ok _
  | check evaluator inputs =>
    exact (planned_liftPlan _).bind fun v _ => (planned_liftPlan _).bind fun is _ => planned_ok _
  | eval evaluator inputs output =>
    exact (planned_liftPlan _).bind fun v _ => (planned_liftPlan _).bind fun is _ =>
      (planned_liftPlan _).bind fun i _ => planned_ok _
  | closure query source target =>
    simp only [ofConstraint]
    split
    · exact planned_plan _
    · exact (planned_liftPlan _).bind fun i _ => (planned_liftPlan _).bind fun j _ => planned_ok _

end Operation

theorem Plan.exists_of_checkOnce {b : Body} {seen indices : List Nat}
    (h : Plan.checkOnce b seen indices = .ok ()) : ∀ i ∈ indices, ∃ k, b.constraints[i]? = some k := by
  induction indices generalizing seen with
  | nil => nofun
  | cons i rest ih =>
    rw [checkOnce] at h
    split at h
    · cases h
    · rename_i k hk
      split at h
      · cases h
      · exact List.forall_mem_cons.2 ⟨⟨k, hk⟩, ih h⟩

namespace SearchPlan
variable {c : Catalog} {schema : Schema} {name : String} {b : Body} {p : Plan} {sp : SearchPlan}

theorem exists_of_mem_operations (h : SearchPlan.ofPlan c schema name b p = .ok sp) {op : Operation}
    (hop : op ∈ sp.operations) : ∃ k ∈ b.constraints, op.Fits sp.slots k := by
  obtain ⟨-, -, hslots, -, hops⟩ := ofPlan_ok h
  obtain ⟨n, hn, rfl⟩ := List.getElem_of_mem hop
  obtain ⟨len, all⟩ := List.forall₂_iff_get.1 hops
  have made := all n (len ▸ hn) hn
  rw [operationAt] at made
  split at made
  · cases made
  · rename_i k hk
    exact ⟨k, List.mem_of_getElem? hk, hslots ▸ Operation.fits_ofConstraint made⟩

theorem fits_ofPlan (h : SearchPlan.ofPlan c schema name b p = .ok sp) : sp.Fits := by
  obtain ⟨-, his, hslots, -⟩ := ofPlan_ok h
  refine ⟨fun i hi => ?_, fun op hop => ?_⟩
  · rw [hslots]
    obtain ⟨n, hn⟩ := List.getElem?_of_mem hi
    obtain ⟨x, -, hx⟩ := his.getElem?_eq hn
    exact Slots.lt_of_slot? hx
  · obtain ⟨k, -, fits⟩ := exists_of_mem_operations h hop
    exact fits.slots

theorem calls_of_ofPlan (h : SearchPlan.ofPlan c schema name b p = .ok sp) {op : Operation}
    (hop : op ∈ sp.operations) {r : Reference} (hr : op.callee? = some r) : b.Calls r.query := by
  obtain ⟨k, hk, fits⟩ := exists_of_mem_operations h hop
  exact ⟨k, hk, fits.asks r hr⟩

theorem planned_ofPlan (valid : ∀ k ∈ b.constraints, Query.validateConstraint k = .ok ()) :
    Planned (SearchPlan.ofPlan c schema name b p) := by
  refine (planned_liftPlan _).bind fun _ hvalid => (planned_liftPlan _).bind fun is _ => ?_
  refine (planned_mapM fun state hstate => ?_).bind fun ops _ => planned_ok _
  obtain ⟨⟨⟩, -, rest⟩ := bind_ok (liftPlan_ok hvalid)
  obtain ⟨⟨⟩, -, rest⟩ := bind_ok rest
  obtain ⟨⟨⟩, once, -⟩ := bind_ok rest
  obtain ⟨k, hk⟩ := Plan.exists_of_checkOnce once state.1
    (Plan.map_fst_states (p := p) (b := b) ▸ List.mem_map_of_mem hstate)
  rw [operationAt, hk]
  exact Operation.planned_ofConstraint (valid k (List.mem_of_getElem? hk))

end SearchPlan
namespace Searcher
variable {σ ε : Type} {s : Searcher σ ε}

theorem length_of_enter {p : SearchPlan} {b : Binding} {f : Frame} (h : enter p b = some f) :
    f.length = p.slots.size := by
  rw [SearchPlan.enter_eq] at h
  have step : ∀ (l : List (Option Value × Nat)) (f g : Frame),
      l.foldlM (enterAt p.parameterSlots p.bound) f = some g → g.length = f.length := by
    intro l
    induction l with
    | nil => exact fun f g h => Option.some.inj h ▸ rfl
    | cons x rest ih =>
      intro f g h
      rw [List.foldlM_cons] at h
      obtain ⟨f₁, h₁, h⟩ := Option.bind_eq_some_iff.1 h
      rw [ih f₁ g h]
      rw [enterAt] at h₁
      split at h₁
      · split at h₁
        · exact (Frame.extends_of_put? h₁).length
        · exact Option.some.inj h₁ ▸ rfl
      · exact Option.some.inj h₁ ▸ rfl
  exact (step _ _ _ h).trans (Frame.length_blank p.slots)

theorem alike_self (s : Searcher σ ε) :
    s.Alike s (fun _ => True) (fun _ => True) (fun _ => True) where
  graph := rfl
  ask _ _ _ := Search.Stays.alike fun _ _ _ _ _ => ⟨trivial, fun _ _ => trivial, fun _ _ => trivial⟩
  report _ _ _ := Search.Stays.alike fun _ _ _ _ _ =>
    ⟨trivial, fun _ _ => trivial, fun _ _ => trivial⟩

section checked
variable {σ : Type} (s : Searcher σ Failure)

/-- A search that makes sure of every slot before it reads or binds it. -/
def runChecked (parameters : List Nat) : List Operation → Frame → Search σ Failure (List Tuple)
  | [], f =>
    if parameters.all (· < f.length) then
      return [parameters.map fun slot => (f.value? slot).getD .null]
    else throw (.fault .outOfRange)
  | op :: rest, f =>
    if op.slots.all (· < f.length) then do
      let next ← s.frames f op
      return (← next.mapM (runChecked parameters rest)).flatten
    else throw (.fault .outOfRange)

def executeChecked (p : SearchPlan) (b : Binding) : Search σ Failure (List Tuple) := do
  if p.parameterSlots.all (· < p.slots.size) then
    match enter p b with
    | none => return []
    | some f =>
      let found ← s.runChecked p.parameterSlots p.operations f
      return (firsts found).filter b.agrees
  else throw (.fault .outOfRange)

/-- As long as every frame has the places, nothing is found amiss. -/
theorem runChecked_alike {parameters : List Nat} {ops : List Operation} {f : Frame}
    (hp : ∀ i ∈ parameters, i < f.length) (ho : ∀ op ∈ ops, ∀ i ∈ op.slots, i < f.length) :
    Search.Alike (fun _ => True) (fun _ => True) (fun _ => True) (s.runChecked parameters ops f)
      (s.run parameters ops f) := by
  induction ops generalizing f with
  | nil =>
    rw [runChecked, if_pos (by simpa using hp)]
    exact Search.alike_pure trivial
  | cons op rest ih =>
    rw [runChecked, if_pos (by simpa using ho op List.mem_cons_self), Searcher.run]
    refine (s.alike_self.frames f fun _ _ => trivial).bind fun next hnext => ?_
    refine (Search.alike_mapM fun g hg => ih ?_ fun op' hop => ?_).bind
      fun _ _ => Search.alike_pure trivial
    · rw [(hnext g hg).length]
      exact hp
    · rw [(hnext g hg).length]
      exact ho op' (List.mem_cons_of_mem op hop)

theorem executeChecked_eq {p : SearchPlan} (fits : p.Fits) (b : Binding) :
    s.executeChecked p b = s.execute p b := by
  rw [executeChecked, if_pos (by simpa using fits.parameters), execute]
  cases he : enter p b with
  | none => rfl
  | some f =>
    have len := length_of_enter he
    dsimp only
    rw [(s.runChecked_alike (len ▸ fits.parameters) (len ▸ fits.operations)).congr]

end checked

end Searcher
end Motif
