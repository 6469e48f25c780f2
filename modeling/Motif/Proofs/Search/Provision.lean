import Motif.Proofs.Search.Slots

/-!
Searches bind before they read. The operation chosen for a constraint reads slots of variables that are
bound before it, and binds the others that the constraint affects. So along a valid plan every slot
that is read is that of a parameter bound on entry or is bound by an operation before, and no run comes
to an empty slot where a value is needed.
-/
set_option autoImplicit false
namespace Motif

open Std (ExtTreeSet)

namespace CallFrame

/-- The slots that are passed as bound. -/
def reads (f : CallFrame) : List Nat := (f.positions.filter fun p => p.2).map Prod.fst

def opens (f : CallFrame) : List Nat := (f.positions.filter fun p => !p.2).map Prod.fst

theorem mem_positions (f : CallFrame) {i : Nat} :
    i ∈ f.positions.map Prod.fst ↔ i ∈ f.reads ∨ i ∈ f.opens := by
  simp only [reads, opens, List.mem_map, List.mem_filter]
  grind

theorem mem_reads_of {is : List Nat} {bound : ExtTreeSet Nat} {i : Nat} :
    i ∈ (CallFrame.of is bound).reads ↔ i ∈ is ∧ i ∈ bound := by
  simp [reads, CallFrame.of, and_comm]

end CallFrame

namespace Operation

/-- The slots the operation needs values in. A result that is not bound by the operation is compared,
and so is read as well. -/
def reads : Operation → List Nat
  | iterateInstances .. | iterateFeature .. | extendConstant .. => []
  | checkInstance _ slot | checkConstant slot _ => [slot]
  | extendForward _ holder _ => [holder]
  | extendBackward _ _ value => [value]
  | extendEqual source _ => [source]
  | checkFeature _ i j | checkUnequal i j | checkEqual i j | checkClosure _ i j => [i, j]
  | checkCall _ frame | checkNoCall _ frame => frame.reads
  | count _ frame result bind | aggregate _ frame _ _ result bind =>
    if bind then frame.reads else result :: frame.reads
  | check _ inputs => inputs
  | eval _ inputs output bind => if bind then inputs else output :: inputs

def opens : Operation → List Nat
  | checkCall _ frame | checkNoCall _ frame | count _ frame _ _ | aggregate _ frame _ _ _ _ =>
    frame.opens
  | _ => []

theorem mem_slots {op : Operation} {i : Nat} :
    i ∈ op.slots ↔ i ∈ op.reads ∨ i ∈ op.produced ∨ i ∈ op.opens := by
  cases op with
  | checkCall _ frame | checkNoCall _ frame =>
    rw [slots, frame.mem_positions]
    simp [reads, produced, opens]
  | count _ frame _ bind | aggregate _ frame _ _ _ bind =>
    rw [slots, List.mem_cons, frame.mem_positions]
    cases bind <;> grind [reads, produced, opens]
  | _ => grind [slots, reads, produced, opens]

def InOrder : (Nat → Prop) → List Operation → Prop
  | _, [] => True
  | bound, op :: rest => (∀ i ∈ op.reads, bound i) ∧ InOrder (fun i => bound i ∨ i ∈ op.produced) rest

def Gains (ops : List Operation) (i : Nat) : Prop := ∃ op ∈ ops, i ∈ op.produced

variable {bound : Nat → Prop} {op : Operation} {ops : List Operation} {i : Nat}

theorem gains_cons : Gains (op :: ops) i ↔ i ∈ op.produced ∨ Gains ops i := by
  simp [Gains]

theorem InOrder.getElem? (h : InOrder bound ops) {n : Nat} (hn : ops[n]? = some op) :
    ∀ i ∈ op.reads, bound i ∨ Gains (ops.take n) i := by
  induction ops generalizing bound n with
  | nil => cases hn
  | cons first rest ih =>
    cases n with
    | zero =>
      cases hn
      exact fun i hi => .inl (h.1 i hi)
    | succ n =>
      intro i hi
      rw [List.take_succ_cons, gains_cons, ← or_assoc]
      exact ih h.2 hn i hi

section constraint
variable {b : Body} {slots : Slots} {index : Nat} {k : Constraint} {before : ExtTreeSet Variable}

structure Provides (b : Body) (slots : Slots) (index : Nat) (k : Constraint)
    (before : ExtTreeSet Variable) (op : Operation) : Prop where
  reads : ∀ i ∈ op.reads, i ∈ slots.slotsOf before
  binds : ∀ x ∈ b.affected index k, x ∈ before ∨ ∃ i ∈ op.produced, slots.slot? x = some i

open Searcher (mem_affected_of_open mem_affected_of_closed)

variable {c : Catalog} {schema : Schema} {is : List Nat} {xs : List Variable}

theorem mem_slotsOf_of_slots (his : slots.Of xs is) (hxs : ∀ x ∈ xs, x ∈ before) :
    ∀ i ∈ is, i ∈ slots.slotsOf before := by
  intro i hi
  obtain ⟨n, hn⟩ := List.getElem?_of_mem hi
  obtain ⟨x, hx, slot⟩ := his.getElem?_eq hn
  exact (Slots.mem_slotsOf_slot slot).2 (hxs x (List.mem_of_getElem? hx))

theorem mem_slotsOf_of_isCheck (h : Searcher.isCheck b slots index k before = true)
    (his : slots.Of xs is) (hxs : ∀ x ∈ xs, x ∈ b.affected index k) :
    ∀ i ∈ is, i ∈ slots.slotsOf before := by
  rw [Searcher.isCheck, List.all_eq_true] at h
  exact fun i hi => of_decide_eq_true (h i (ExtTreeSet.mem_toList.2 (mem_slotsOf_of_slots his hxs i hi)))

theorem provides_of_slots (his : slots.Of xs is)
    (affected : ∀ x ∈ b.affected index k, x ∈ before ∨ x ∈ xs)
    (reads : ∀ i ∈ op.reads, i ∈ slots.slotsOf before)
    (binds : ∀ i ∈ is, i ∈ slots.slotsOf before ∨ i ∈ op.produced) :
    Provides b slots index k before op := by
  refine ⟨reads, fun x hx => (affected x hx).elim .inl fun hx => ?_⟩
  obtain ⟨n, hn⟩ := List.getElem?_of_mem hx
  obtain ⟨i, hi, slot⟩ := his.exists_slot hn
  exact (binds i (List.mem_of_getElem? hi)).imp (Slots.mem_slotsOf_slot slot).1 fun hi => ⟨i, hi, slot⟩

theorem provides_of_open (hk : k.isClosedWorld = false) (his : slots.Of k.vars is)
    (reads : ∀ i ∈ op.reads, i ∈ slots.slotsOf before)
    (binds : ∀ i ∈ is, i ∈ slots.slotsOf before ∨ i ∈ op.produced) :
    Provides b slots index k before op :=
  provides_of_slots his (fun _ hx => .inr ((mem_affected_of_open hk).1 hx)) reads binds

theorem provides_of_isCheck (hk : k.isClosedWorld = false)
    (check : Searcher.isCheck b slots index k before = true) (his : slots.Of k.vars is)
    (reads : ∀ i ∈ op.reads, i ∈ is) : Provides b slots index k before op := by
  have bound := mem_slotsOf_of_isCheck check his fun x => (mem_affected_of_open hk).2
  exact provides_of_open hk his (fun i hi => bound i (reads i hi)) fun i hi => .inl (bound i hi)

theorem provides_of_result {result : Variable} (slot : slots.Of [result] [i])
    (affected : ∀ x ∈ b.affected index k, x ∈ before ∨ x ∈ [result])
    (his : ∀ j ∈ is, j ∈ slots.slotsOf before)
    (reads : op.reads = if decide (i ∉ slots.slotsOf before) then is else i :: is)
    (produced : op.produced = if decide (i ∉ slots.slotsOf before) then [i] else []) :
    Provides b slots index k before op := by
  by_cases hi : i ∈ slots.slotsOf before
  · rw [decide_eq_false (not_not.2 hi)] at reads
    refine provides_of_slots slot affected (reads ▸ List.forall_mem_cons.2 ⟨hi, his⟩) fun j hj => ?_
    exact .inl (List.mem_singleton.1 hj ▸ hi)
  · rw [decide_eq_true hi] at reads produced
    exact provides_of_slots slot affected (reads ▸ his) fun j hj => .inr (produced ▸ hj)

theorem affected_of_closed {result : List Variable} (hk : k.isClosedWorld = true)
    (vars : k.vars = xs ++ result) (args : ∀ x ∈ xs, b.isLocal x index = false → x ∈ before) :
    ∀ x ∈ b.affected index k, x ∈ before ∨ x ∈ result := by
  intro x hx
  obtain ⟨hx, visible⟩ := (mem_affected_of_closed hk).1 hx
  rw [vars, List.mem_append] at hx
  exact hx.imp_left fun hx => args x hx visible

theorem reads_ofFeature {feature : String} {bound : ExtTreeSet Nat} {j : Nat}
    (h : ofFeature schema k feature bound i j = .ok op) :
    (∀ n ∈ op.reads, n ∈ bound) ∧ ∀ n ∈ [i, j], n ∈ bound ∨ n ∈ op.produced := by
  rw [ofFeature] at h
  split at h
  · split at h <;> cases h <;> simp [reads, produced, *]
  · split at h
    · cases h
      simp [reads, produced, *]
    · split at h
      · cases h
        simp [reads, produced]
      · cases h

theorem reads_ofEqual {bound : ExtTreeSet Nat} {j : Nat} (h : ofEqual k bound i j = .ok op) :
    (∀ n ∈ op.reads, n ∈ bound) ∧ ∀ n ∈ [i, j], n ∈ bound ∨ n ∈ op.produced := by
  rw [ofEqual] at h
  split at h
  · split at h <;> cases h <;> simp [reads, produced, *]
  · split at h
    · cases h
      simp [reads, produced, *]
    · cases h

theorem provides_of_one {x : Variable} {puts checks : Operation} (hk : k.isClosedWorld = false)
    (vars : k.vars = [x]) (hi : slots.slot? x = some i) (checked : checks.reads = [i])
    (free : puts.reads = []) (put : puts.produced = [i]) :
    Provides b slots index k before
      (if Searcher.isCheck b slots index k before then checks else puts) := by
  have his : slots.Of k.vars [i] := vars ▸ Slots.of_one hi
  split
  · exact provides_of_isCheck hk ‹_› his fun j hj => checked ▸ hj
  · refine provides_of_open hk his ?_ fun j hj => .inr (put ▸ hj)
    rw [free]
    exact List.forall_mem_nil _

/-- The operation chosen for a valid constraint, applied where what it cannot bind is bound. -/
theorem provides_ofConstraint (valid : Query.validateConstraint k = .ok ())
    (deferred : ∀ x ∈ b.deferred index k, x ∈ before)
    (h : ofConstraint c schema slots (slots.slotsOf before)
      (Searcher.isCheck b slots index k before) k = .ok op) : Provides b slots index k before op := by
  have marked : ∀ {is : List Nat}, ∀ i ∈ (CallFrame.of is (slots.slotsOf before)).reads,
      i ∈ slots.slotsOf before := fun i hi => (CallFrame.mem_reads_of.1 hi).2
  cases chosen_of_ofConstraint h with
  | extent hx hi =>
    obtain ⟨x, rfl⟩ := List.length_eq_one_iff.1 (Query.length_of_validateConstraint valid)
    cases hx
    exact provides_of_one rfl rfl hi rfl rfl rfl
  | feature hx hy hi hj made =>
    obtain ⟨x, y, rfl⟩ := List.length_eq_two.1 (Query.length_of_validateConstraint valid)
    cases hx
    cases hy
    obtain ⟨reads, binds⟩ := reads_ofFeature made
    exact provides_of_open rfl (Slots.of_two hi hj) reads binds
  | unequal check hi hj => exact provides_of_isCheck rfl check (Slots.of_two hi hj) fun n hn => hn
  | equal hi hj made =>
    obtain ⟨reads, binds⟩ := reads_ofEqual made
    exact provides_of_open rfl (Slots.of_two hi hj) reads binds
  | constant hi => exact provides_of_one rfl rfl hi rfl rfl rfl
  | find check his =>
    exact provides_of_isCheck rfl check his fun i hi => (CallFrame.mem_reads_of.1 hi).1
  | @lacks query xs =>
    refine provides_of_slots .nil (affected_of_closed rfl (List.append_nil xs).symm ?_) marked
      (List.forall_mem_nil _)
    exact fun x hx visible => deferred x (by simp [Body.deferred, hx, visible])
  | count _ hi =>
    refine provides_of_result (Slots.of_one hi)
      (affected_of_closed rfl rfl fun x hx visible => ?_) marked rfl rfl
    exact deferred x (by simp [Body.deferred, hx, visible])
  | aggregate _ _ _ hi =>
    refine provides_of_result (Slots.of_one hi)
      (affected_of_closed rfl rfl fun x hx visible => ?_) marked rfl rfl
    exact deferred x (by simp [Body.deferred, hx, visible])
  | check _ his =>
    have bound := mem_slotsOf_of_slots his fun x hx => deferred x (by simpa [Body.deferred] using hx)
    exact provides_of_open rfl his bound fun i hi => .inl (bound i hi)
  | @eval _ inputs _ _ _ _ _ his hi =>
    have inputs : ∀ x ∈ inputs, x ∈ before := fun x hx => deferred x (by simpa [Body.deferred] using hx)
    refine provides_of_result (Slots.of_one hi) (fun x hx => ?_) (mem_slotsOf_of_slots his inputs)
      rfl rfl
    exact (List.mem_append.1 ((mem_affected_of_open rfl).1 hx)).imp_left (inputs x)
  | closure check hi hj => exact provides_of_isCheck rfl check (Slots.of_two hi hj) fun n hn => hn

end constraint
end Operation

namespace SearchPlan
variable {c : Catalog} {schema : Schema} {name : String} {b : Body} {slots : Slots}

/-- The operations chosen along grounded states read what is bound by then, if the slots of the entry
are. In the end the slots are bound of all that was bound on entry or by a constraint. -/
theorem inOrder_operations {entry : Variable → Prop} {states : List (Nat × ExtTreeSet Variable)}
    {operations : List Operation}
    (hops : List.Forall₂ (fun state op => operationAt c schema b slots state = .ok op) states operations)
    (valid : ∀ k ∈ b.constraints, Query.validateConstraint k = .ok ())
    (grounded : Plan.Grounded b entry states)
    (deferred : ∀ state ∈ states, ∀ k, b.constraints[state.1]? = some k →
      ∀ x ∈ b.deferred state.1 k, x ∈ state.2)
    {bound : Nat → Prop} (entered : ∀ x, entry x → ∀ i, slots.slot? x = some i → bound i) :
    Operation.InOrder bound operations ∧
      ∀ x, entry x ∨ Plan.Gains b (states.map Prod.fst) x → ∀ i, slots.slot? x = some i →
        bound i ∨ Operation.Gains operations i := by
  induction hops generalizing entry bound with
  | nil =>
    refine ⟨trivial, fun x hx i hi => ?_⟩
    rcases hx with hx | ⟨j, hj, -⟩
    · exact .inl (entered x hx i hi)
    · cases hj
  | @cons state op states operations hop _ ih =>
    rw [operationAt] at hop
    split at hop
    · cases hop
    rename_i k hk
    have provides := Operation.provides_ofConstraint (valid k (List.mem_of_getElem? hk))
      (deferred state List.mem_cons_self k hk) hop
    have affected : ∀ x, x ∈ b.affectedAt state.1 ↔ x ∈ b.affected state.1 k := by
      intro x
      rw [Body.mem_affectedAt, hk]
      simp
    -- what counts as entered grows by what the constraint affects, and `bound` keeps up with it
    have next : ∀ x, entry x ∨ x ∈ b.affectedAt state.1 → ∀ i, slots.slot? x = some i →
        bound i ∨ i ∈ op.produced := by
      rintro x (hx | hx) i hi
      · exact .inl (entered x hx i hi)
      · rcases provides.binds x ((affected x).1 hx) with hx | ⟨j, hj, hx⟩
        · exact .inl (entered x (grounded.1 x hx) i hi)
        · exact .inr (Option.some_inj.1 (hi.symm.trans hx) ▸ hj)
    obtain ⟨rest, last⟩ := ih grounded.2 (fun later hl => deferred later (List.mem_cons_of_mem _ hl)) next
    refine ⟨⟨fun i hi => ?_, rest⟩, fun x hx i hi => ?_⟩
    · obtain ⟨x, hx, slot⟩ := Slots.mem_slotsOf.1 (provides.reads i hi)
      exact entered x (grounded.1 x hx) i slot
    · rw [Operation.gains_cons, ← or_assoc]
      refine last x ?_ i hi
      rcases hx with hx | ⟨j, hj, hx⟩
      · exact .inl (.inl hx)
      · rcases List.mem_cons.1 hj with rfl | hj
        · exact .inl (.inr hx)
        · exact .inr ⟨j, hj, hx⟩

def Enters (p : SearchPlan) (i : Nat) : Prop := ∃ j ∈ p.bound, p.parameterSlots[j]? = some i

def Binds (p : SearchPlan) (n i : Nat) : Prop := p.Enters i ∨ Operation.Gains (p.operations.take n) i

variable {p : Plan} {sp : SearchPlan}

theorem inOrder_ofPlan (valid : ∀ k ∈ b.constraints, Query.validateConstraint k = .ok ())
    (entry : ∀ x ∈ p.entry, x ∈ b.parameters) (compiled : ofPlan c schema name b p = .ok sp) :
    Operation.InOrder sp.Enters sp.operations ∧
      ∀ i ∈ sp.parameterSlots, sp.Enters i ∨ Operation.Gains sp.operations i := by
  obtain ⟨plan, his, -, hbound, hops⟩ := ofPlan_ok compiled
  have entered : ∀ x ∈ p.entry, ∀ i, (Slots.of b).slot? x = some i → sp.Enters i := by
    intro x hx i hi
    obtain ⟨j, hj⟩ := List.getElem?_of_mem (entry x hx)
    obtain ⟨i', hi', slot⟩ := his.exists_slot hj
    exact ⟨j, (hbound j).2 ⟨x, hx, hj⟩, Option.some_inj.1 (slot.symm.trans hi) ▸ hi'⟩
  obtain ⟨order, last⟩ := inOrder_operations hops valid (Plan.states_grounded fun _ hx => hx)
    plan.deferred entered
  refine ⟨order, fun i hi => ?_⟩
  obtain ⟨j, hj⟩ := List.getElem?_of_mem hi
  obtain ⟨x, hx, slot⟩ := his.getElem?_eq hj
  refine last x ?_ i slot
  rw [Plan.map_fst_states]
  exact plan.parameters (fun _ hx => hx) (List.mem_of_getElem? hx)

theorem isSome_value?_of_enter (compiled : ofPlan c schema name b p = .ok sp) {bnd : Binding}
    (fixed : ∀ x ∈ p.entry, bnd.Fixes b x) {f : Frame} (he : Searcher.enter sp bnd = some f) {i : Nat}
    (hi : sp.Enters i) : (f.value? i).isSome = true := by
  obtain ⟨-, his, hslots, hbound, -⟩ := ofPlan_ok compiled
  have entered := Searcher.foldlM_continues sp.bound his (Frame.length_blank _) bnd.zipIdx
  rw [enter_eq, hslots] at he
  rw [he] at entered
  obtain ⟨j, hj, hi⟩ := hi
  obtain ⟨x, hx, slot⟩ := his.getElem?_eq hi
  obtain ⟨y, hy, same⟩ := (hbound j).1 hj
  obtain rfl := Option.some_inj.1 (same.symm.trans hx)
  obtain ⟨n, v, hn, hv⟩ := fixed y hy
  rw [← Frame.valueOf_of_slot slot]
  refine entered.binds f (by simp) y ⟨(some v, n), ?_, rfl, hn, (hbound n).2 ⟨y, hy, hn⟩⟩
  exact List.mem_zipIdx_iff_getElem?.2 hv

end SearchPlan

namespace Searcher
variable {σ ε : Type} (s : Searcher σ ε) (alarm : Search σ ε (List Tuple))

/-- A search that raises the alarm where an operation, or a tuple in the end, needs a value of a slot
that is empty. -/
def runWatched (parameters : List Nat) : List Operation → Frame → Search σ ε (List Tuple)
  | [], f =>
    if parameters.all fun i => (f.value? i).isSome then
      return [parameters.map fun slot => (f.value? slot).getD .null]
    else alarm
  | op :: rest, f =>
    if op.reads.all fun i => (f.value? i).isSome then do
      let next ← s.frames f op
      return (← next.mapM (runWatched parameters rest)).flatten
    else alarm

def executeWatched (p : SearchPlan) (b : Binding) : Search σ ε (List Tuple) := do
  match enter p b with
  | none => return []
  | some f =>
    let found ← s.runWatched alarm p.parameterSlots p.operations f
    return (firsts found).filter b.agrees

/-- Along operations that read only what is bound, no alarm is raised. -/
theorem runWatched_alike {parameters : List Nat} {ops : List Operation} {f : Frame}
    {bound : Nat → Prop} (order : Operation.InOrder bound ops)
    (last : ∀ i ∈ parameters, bound i ∨ Operation.Gains ops i)
    (places : ∀ op ∈ ops, ∀ i ∈ op.slots, i < f.length)
    (holds : ∀ i, bound i → (f.value? i).isSome = true) :
    Search.Alike (fun _ => True) (fun _ => True) (fun _ => True)
      (s.runWatched alarm parameters ops f) (s.run parameters ops f) := by
  induction ops generalizing f bound with
  | nil =>
    have held : ∀ i ∈ parameters, (f.value? i).isSome = true := by
      intro i hi
      rcases last i hi with hi | ⟨op, hop, -⟩
      · exact holds i hi
      · cases hop
    rw [runWatched, if_pos (List.all_eq_true.2 held)]
    exact Search.alike_pure trivial
  | cons op rest ih =>
    rw [runWatched, if_pos (List.all_eq_true.2 fun i hi => holds i (order.1 i hi)), Searcher.run]
    -- the frames gone on with hold what this one holds and what the operation binds
    refine (s.alike_self.frames f fun _ _ => trivial).bind fun next hnext => ?_
    refine (Search.alike_mapM fun g hg => ih order.2 (fun i hi => ?_) (fun op' hop => ?_) fun i hi => ?_).bind
      fun _ _ => Search.alike_pure trivial
    · rw [or_assoc, ← Operation.gains_cons]
      exact last i hi
    · rw [(hnext g hg).length]
      exact places op' (List.mem_cons_of_mem op hop)
    · rcases hi with hi | hi
      · obtain ⟨v, hv⟩ := Option.isSome_iff_exists.1 (holds i hi)
        rw [(hnext g hg).kept i v hv]
        rfl
      · exact (hnext g hg).binds i hi (places op List.mem_cons_self i (Operation.mem_slots.2 (.inr (.inl hi))))

end Searcher

namespace SearchPlan
variable {c : Catalog} {schema : Schema} {name : String} {q : Query} {b : Body} {p : Plan}
  {sp : SearchPlan}

/-- Every slot that an operation of a compiled plan reads is that of a parameter bound on entry, or an
operation before binds it, and so are the slots of all parameters in the end. So no search that is given
values for the parameters bound on entry comes to an empty slot where an operation or the tuple in the
end needs a value. -/
theorem binds_before_reads (valid : q.validateBody b = .ok ())
    (entry : ∀ x ∈ p.entry, x ∈ b.parameters) (compiled : ofPlan c schema name b p = .ok sp) :
    (∀ n op, sp.operations[n]? = some op → ∀ i ∈ op.reads, sp.Binds n i) ∧
      (∀ i ∈ sp.parameterSlots, sp.Binds sp.operations.length i) ∧
      ∀ {σ ε : Type} (s : Searcher σ ε) (bnd : Binding), (∀ x ∈ p.entry, bnd.Fixes b x) →
        ∀ alarm, s.executeWatched alarm sp bnd = s.execute sp bnd := by
  obtain ⟨order, last⟩ := inOrder_ofPlan (Query.validateBody_ok valid).2 entry compiled
  refine ⟨fun n op hn => order.getElem? hn, fun i hi => ?_, fun s bnd fixed alarm => ?_⟩
  · rw [Binds, List.take_length]
    exact last i hi
  · rw [Searcher.executeWatched, Searcher.execute]
    cases he : Searcher.enter sp bnd with
    | none => rfl
    | some f =>
      have fits := fits_ofPlan compiled
      have length := Searcher.length_of_enter he
      dsimp only
      rw [(s.runWatched_alike alarm order last (length ▸ fits.operations) fun i hi => ?_).congr]
      exact isSome_value?_of_enter compiled fixed he hi

theorem degrees_bind_before_reads : (degreeQuery.validateBody degreeBody = .ok () ∧
      ∀ x ∈ degreePlan.entry, x ∈ degreeBody.parameters) ∧
    ∃ sp, ofPlan edgeCatalog nodeSchema "degree" degreeBody degreePlan = .ok sp ∧
      (∀ n op, sp.operations[n]? = some op → ∀ i ∈ op.reads, sp.Binds n i) ∧
      (∀ i ∈ sp.parameterSlots, sp.Binds sp.operations.length i) ∧
      (∀ x ∈ degreePlan.entry, Binding.Fixes [some (.int 1), none] degreeBody x) ∧
      ∀ alarm, edgeSearcher.executeWatched alarm sp [some (.int 1), none] =
        edgeSearcher.execute sp [some (.int 1), none] := by
  have valid : degreeQuery.validateBody degreeBody = .ok () := rfl
  have parameters : ∀ x ∈ degreePlan.entry, x ∈ degreeBody.parameters := fun x hx =>
    eq_of_mem_entry_degreePlan x hx ▸ List.mem_cons_self
  have fixed : ∀ x ∈ degreePlan.entry, Binding.Fixes [some (.int 1), none] degreeBody x :=
    fun x hx => ⟨0, .int 1, by rw [eq_of_mem_entry_degreePlan x hx]; rfl, rfl⟩
  obtain ⟨sp, compiled⟩ := exists_ofPlan_degrees
  obtain ⟨reads, last, watched⟩ := binds_before_reads valid parameters compiled
  exact ⟨⟨valid, parameters⟩, sp, compiled, reads, last, fixed, watched edgeSearcher _ fixed⟩

end SearchPlan
end Motif
