import Motif.Plan.Greedy
import Motif.Proofs.Search.Grounding

/-!
The greedy order. What can be applied stays so when more is bound, so that a choice made early takes no
later one away: the greedy order goes on to the end whenever some order does. Its plan is valid unless
a parameter is bound nowhere or the entry names a variable that the body has not.
-/
set_option autoImplicit false
namespace Motif

open Std (ExtTreeSet)

namespace Greedy
variable {backend : Backend} {b : Body} {bound bound' entry : ExtTreeSet Variable} {k k' : Candidate}
  {ks : List Candidate} {order : List Nat} {i : Nat}

theorem mem_candidates : k ∈ candidates b ↔ b.constraints[k.index]? = some k.constraint ∧
    k.deferred = b.deferred k.index k.constraint ∧ k.affected = b.affected k.index k.constraint := by
  obtain ⟨index, c, deferred, affected⟩ := k
  simp only [candidates, List.mem_map, List.mem_zipIdx_iff_getElem?, Candidate.mk.injEq, Prod.exists]
  constructor
  · rintro ⟨c, i, hc, rfl, rfl, rfl, rfl⟩
    exact ⟨hc, rfl, rfl⟩
  · rintro ⟨hc, rfl, rfl⟩
    exact ⟨c, index, hc, rfl, rfl, rfl, rfl⟩

theorem index_candidates (b : Body) :
    (candidates b).map Candidate.index = List.range b.constraints.length := by
  rw [candidates, List.map_map]
  exact List.zipIdx_map_snd 0 b.constraints |>.trans List.range_eq_range'.symm

theorem eq_of_index (hk : k ∈ candidates b) (hk' : k' ∈ candidates b) (h : k.index = k'.index) :
    k = k' := by
  obtain ⟨index, c, deferred, affected⟩ := k
  obtain ⟨index', c', deferred', affected'⟩ := k'
  rw [mem_candidates] at hk hk'
  dsimp only at hk hk' h
  obtain ⟨hc, rfl, rfl⟩ := hk
  obtain ⟨hc', rfl, rfl⟩ := hk'
  subst h
  cases hc.symm.trans hc'
  rfl

theorem affectedAt_index (hk : k ∈ candidates b) : b.affectedAt k.index = k.affected := by
  obtain ⟨hc, -, ha⟩ := mem_candidates.1 hk
  rw [Body.affectedAt, hc, ha]

def CanExtend (backend : Backend) (bound : ExtTreeSet Variable) : Constraint → Prop
  | .lacks .. | .unequal .. => False
  | .closure .. | .find .. => backend = .rete
  | .equal l r => l ∈ bound ∨ r ∈ bound
  | .holds .. | .constant .. | .count .. | .aggregate .. | .check .. | .eval .. => True

/-- A constraint can be applied where it finds bound what it cannot bind, and then either has nothing
to bind or can bind the rest. -/
theorem isSome_cost?_iff : (cost? backend bound k).isSome = true ↔ (∀ x ∈ k.deferred, x ∈ bound) ∧
    ((∀ x ∈ k.affected, x ∈ bound) ∨ CanExtend backend bound k.constraint) := by
  have deferred : (k.deferred.toList.any fun x => x ∉ bound) = true ↔ ¬∀ x ∈ k.deferred, x ∈ bound := by
    simp
  have affected : (k.affected.toList.all fun x => x ∈ bound) = true ↔ ∀ x ∈ k.affected, x ∈ bound := by
    simp
  rw [cost?]
  split
  · rename_i h
    exact iff_of_false nofun fun h' => deferred.1 h h'.1
  · rename_i found
    rw [deferred, not_not] at found
    rw [and_iff_right found]
    split
    · rename_i h
      exact iff_of_true rfl (.inl (affected.1 h))
    · rename_i some
      rw [affected] at some
      rw [or_iff_right some]
      cases k.constraint with
      | holds r xs =>
        cases r with
        | extent => simp [CanExtend]
        | feature =>
          simp only [CanExtend, iff_true]
          split <;> rfl
      | equal | closure | find => simp [CanExtend]
      | lacks | unequal | constant | count | aggregate | check | eval => simp [CanExtend]

theorem isSome_cost?_mono (h : (cost? backend bound k).isSome = true) (hb : ∀ x ∈ bound, x ∈ bound') :
    (cost? backend bound' k).isSome = true := by
  obtain ⟨deferred, rest⟩ := isSome_cost?_iff.1 h
  refine isSome_cost?_iff.2 ⟨fun x hx => hb x (deferred x hx), ?_⟩
  refine rest.imp (fun affected x hx => hb x (affected x hx)) fun extend => ?_
  cases hc : k.constraint with
  | equal l r =>
    rw [hc] at extend
    exact extend.imp (hb l) (hb r)
  | _ =>
    rw [hc] at extend
    exact extend

theorem cheapest?_eq_none_iff {cost : Candidate → Option Nat} :
    cheapest? cost ks = none ↔ ∀ k ∈ ks, cost k = none := by
  induction ks with
  | nil => simp [cheapest?]
  | cons k rest ih =>
    rw [List.forall_mem_cons, ← ih, cheapest?]
    cases cost k with
    | none => simp
    | some n =>
      cases cheapest? cost rest with
      | none => simp
      | some best =>
        simp only [reduceCtorEq, false_and, iff_false]
        split <;> simp

theorem mem_of_cheapest? {cost : Candidate → Option Nat} {n : Nat} (h : cheapest? cost ks = some (n, k)) :
    k ∈ ks ∧ cost k = some n := by
  induction ks generalizing n k with
  | nil => cases h
  | cons first rest ih =>
    rw [cheapest?] at h
    cases hf : cost first with
    | none =>
      rw [hf] at h
      exact (ih h).imp_left (List.mem_cons_of_mem first)
    | some m =>
      rw [hf] at h
      cases hr : cheapest? cost rest with
      | none =>
        rw [hr] at h
        cases h
        exact ⟨List.mem_cons_self, hf⟩
      | some best =>
        rw [hr] at h
        dsimp only at h
        split at h
        · cases h
          exact (ih hr).imp_left (List.mem_cons_of_mem first)
        · cases h
          exact ⟨List.mem_cons_self, hf⟩

def Applicable (backend : Backend) (b : Body) (bound : ExtTreeSet Variable) (index : Nat) : Prop :=
  ∃ k ∈ candidates b, k.index = index ∧ (cost? backend bound k).isSome = true

def Executable (backend : Backend) (b : Body) : ExtTreeSet Variable → List Nat → Prop
  | _, [] => True
  | bound, i :: rest => Applicable backend b bound i ∧ Executable backend b (bound ∪ b.affectedAt i) rest

/-- An order of all constraints in which they can be applied. -/
structure Orders (backend : Backend) (b : Body) (entry : ExtTreeSet Variable) (order : List Nat) :
    Prop where
  all : order.Perm (List.range b.constraints.length)
  executable : Executable backend b entry order

theorem Applicable.mono (h : Applicable backend b bound i) (hb : ∀ x ∈ bound, x ∈ bound') :
    Applicable backend b bound' i :=
  h.imp fun _ ⟨hk, hi, cost⟩ => ⟨hk, hi, isSome_cost?_mono cost hb⟩

/-- Of the constraints that wait, the one that comes first in an order can be applied: those before it
in the order do not wait any more, and so what they bind is bound. -/
theorem Executable.exists_applicable {waiting : List Nat} (h : Executable backend b entry order)
    (he : ∀ x ∈ entry, x ∈ bound) (some : ∃ i ∈ order, i ∈ waiting)
    (done : ∀ i ∈ order, i ∈ waiting ∨ ∀ x ∈ b.affectedAt i, x ∈ bound) :
    ∃ i ∈ waiting, Applicable backend b bound i := by
  induction order generalizing entry with
  | nil => simp at some
  | cons i rest ih =>
    by_cases hi : i ∈ waiting
    · exact ⟨i, hi, h.1.mono he⟩
    · rw [List.forall_mem_cons, or_iff_right hi] at done
      refine ih h.2 (fun x hx => ?_) ?_ done.2
      · exact (ExtTreeSet.mem_union_iff.1 hx).elim (he x) (done.1 x)
      · obtain ⟨j, hj, hw⟩ := some
        rcases List.mem_cons.1 hj with rfl | hj
        · exact absurd hw hi
        · exact ⟨j, hj, hw⟩

theorem exists_orderFrom (h : Executable backend b entry order) (steps : Nat)
    (he : ∀ x ∈ entry, x ∈ bound) (hks : ∀ k ∈ ks, k ∈ candidates b ∧ k.index ∈ order)
    (done : ∀ i ∈ order, i ∈ ks.map Candidate.index ∨ ∀ x ∈ b.affectedAt i, x ∈ bound) :
    ∃ result, orderFrom backend steps ks bound = .ok result := by
  induction steps generalizing ks bound with
  | zero => exact ⟨[], rfl⟩
  | succ steps ih =>
    cases ks with
    | nil => exact ⟨[], rfl⟩
    | cons first rest =>
      rw [orderFrom]
      cases best : cheapest? (cost? backend bound) (first :: rest) with
      | none =>
        obtain ⟨i, hi, k, hk, same, cost⟩ := h.exists_applicable he
          ⟨first.index, (hks first List.mem_cons_self).2, List.mem_cons_self⟩ done
        rw [← List.map_cons, List.mem_map] at hi
        obtain ⟨k', hk', rfl⟩ := hi
        obtain rfl := eq_of_index hk (hks k' hk').1 same
        rw [cheapest?_eq_none_iff.1 best k hk'] at cost
        cases cost
      | some found =>
        obtain ⟨n, k⟩ := found
        obtain ⟨hk, -⟩ := mem_of_cheapest? best
        have left : ∀ i ∈ order,
            i ∈ ((first :: rest).filter fun r => r.index ≠ k.index).map Candidate.index ∨
              ∀ x ∈ b.affectedAt i, x ∈ bound ∪ k.affected := by
          intro i hi
          by_cases e : i = k.index
          · rw [e, affectedAt_index (hks k hk).1]
            exact .inr fun x hx => ExtTreeSet.mem_union_iff.2 (.inr hx)
          · refine (done i hi).imp (fun hw => ?_) fun hb x hx =>
              ExtTreeSet.mem_union_iff.2 (.inl (hb x hx))
            obtain ⟨r, hr, rfl⟩ := List.mem_map.1 hw
            exact List.mem_map.2 ⟨r, List.mem_filter.2 ⟨hr, decide_eq_true e⟩, rfl⟩
        obtain ⟨later, hl⟩ := ih (fun x hx => ExtTreeSet.mem_union_iff.2 (.inl (he x hx)))
          (fun r hr => hks r (List.mem_of_mem_filter hr)) left
        refine ⟨k.index :: later, ?_⟩
        dsimp only
        rw [hl]
        rfl

theorem orderFrom_ok {steps : Nat} {result : List Nat}
    (h : orderFrom backend steps ks bound = .ok result) (enough : ks.length ≤ steps)
    (hks : ∀ k ∈ ks, k ∈ candidates b) (nodup : (ks.map Candidate.index).Nodup) :
    result.Perm (ks.map Candidate.index) ∧ Executable backend b bound result := by
  induction steps generalizing ks bound result with
  | zero =>
    cases h
    obtain rfl := List.length_eq_zero_iff.1 (Nat.le_zero.1 enough)
    exact ⟨.refl _, trivial⟩
  | succ steps ih =>
    cases ks with
    | nil =>
      cases h
      exact ⟨.refl _, trivial⟩
    | cons first rest =>
      rw [orderFrom] at h
      cases best : cheapest? (cost? backend bound) (first :: rest) with
      | none =>
        rw [best] at h
        cases h
      | some found =>
        obtain ⟨n, k⟩ := found
        rw [best] at h
        obtain ⟨later, hl, hr⟩ := bind_ok h
        cases hr
        obtain ⟨hk, cost⟩ := mem_of_cheapest? best
        have others : ((first :: rest).filter fun r => r.index ≠ k.index).map Candidate.index =
            ((first :: rest).map Candidate.index).erase k.index := by
          rw [nodup.erase_eq_filter, List.filter_map]
          refine congrArg _ (List.filter_congr fun r _ => ?_)
          rw [Function.comp_apply, bne, beq_eq_decide, decide_not]
        have mem : k.index ∈ (first :: rest).map Candidate.index := List.mem_map_of_mem hk
        have fewer : ((first :: rest).filter fun r => r.index ≠ k.index).length ≤ steps := by
          rw [← List.length_map Candidate.index, others, List.length_erase_of_mem mem, List.length_map]
          exact Nat.sub_le_of_le_add enough
        obtain ⟨perm, executable⟩ := ih hl fewer (fun r hr => hks r (List.mem_of_mem_filter hr))
          (others ▸ nodup.erase _)
        refine ⟨?_, ⟨k, hks k hk, rfl, by rw [cost]; rfl⟩, ?_⟩
        · rw [others] at perm
          exact (perm.cons k.index).trans (List.perm_cons_erase mem).symm
        · rw [affectedAt_index (hks k hk)]
          exact executable

theorem order_ok {result : List Nat} (h : Greedy.order backend b bound = .ok result) :
    Orders backend b bound result := by
  have indices := index_candidates b
  obtain ⟨perm, executable⟩ := orderFrom_ok h
    (by rw [← List.length_map Candidate.index, indices, List.length_range])
    (fun k hk => hk) (indices ▸ List.nodup_range)
  exact ⟨indices ▸ perm, executable⟩

theorem exists_order (h : Orders backend b bound order) :
    ∃ result, Greedy.order backend b bound = .ok result := by
  have indices := index_candidates b
  refine exists_orderFrom h.executable _ (fun x hx => hx) (fun k hk => ⟨hk, ?_⟩) fun i hi => .inl ?_
  · rw [h.all.mem_iff, ← indices]
    exact List.mem_map_of_mem hk
  · rw [indices]
    exact h.all.mem_iff.1 hi

end Greedy

namespace Plan
variable {backend : Backend} {b : Body} {bound : ExtTreeSet Variable} {order : List Nat} {p : Plan}

def turns (b : Body) : ExtTreeSet Variable → List Nat → List (Nat × ExtTreeSet Variable)
  | _, [] => []
  | bound, i :: rest => (i, bound) :: turns b (bound ∪ b.affectedAt i) rest

theorem applied_foldl (p : Plan) (order : List Nat) :
    (order.foldl apply p).applied = p.applied ++ order := by
  induction order generalizing p with
  | nil => exact (List.append_nil _).symm
  | cons i rest ih => rw [List.foldl_cons, ih, applied, List.append_assoc, List.singleton_append]

theorem run_foldl (p : Plan) (order : List Nat) (before : ExtTreeSet Variable) :
    ((order.foldl apply p).run b before).2 = (p.run b before).2 ++ turns b (p.run b before).1 order := by
  induction order generalizing p with
  | nil => exact (List.append_nil _).symm
  | cons i rest ih => rw [List.foldl_cons, ih, run, turns, List.append_assoc, List.singleton_append]

theorem entry_foldl (p : Plan) (order : List Nat) : (order.foldl apply p).entry = p.entry := by
  induction order generalizing p with
  | nil => rfl
  | cons i rest ih => exact ih (p.apply i)

theorem mem_bound_foldl (p : Plan) (order : List Nat) {x : Variable} :
    x ∈ (order.foldl apply p).bound b ↔ x ∈ p.bound b ∨ Gains b order x := by
  induction order generalizing p with
  | nil => simp [Gains]
  | cons i rest ih => simp [ih, bound, Gains, ExtTreeSet.mem_union_iff, or_assoc]

theorem checkProjections_foldl (p : Plan) (order : List Nat) :
    (order.foldl apply p).checkProjections b = p.checkProjections b := by
  induction order generalizing p with
  | nil => rfl
  | cons i rest ih => exact ih (p.apply i)

theorem checkOnce_ok {seen indices : List Nat} (nodup : indices.Nodup) (new : ∀ i ∈ indices, i ∉ seen)
    (there : ∀ i ∈ indices, i < b.constraints.length) : checkOnce b seen indices = .ok () := by
  induction indices generalizing seen with
  | nil => rfl
  | cons i rest ih =>
    rw [List.nodup_cons] at nodup
    rw [List.forall_mem_cons] at new there
    rw [checkOnce, List.getElem?_eq_getElem there.1]
    refine (if_neg new.1).trans (ih nodup.2 (fun j hj hs => ?_) there.2)
    rcases List.mem_cons.1 hs with rfl | hs
    · exact nodup.1 hj
    · exact new.2 j hj hs

theorem states_sequence : (sequence b bound order).states b = turns b bound order := by
  have none : (∅ ∪ bound : ExtTreeSet Variable) = bound :=
    ExtTreeSet.ext_mem fun x => by simp [ExtTreeSet.mem_union_iff]
  have ran : (sequence b bound order).states b = turns b (∅ ∪ bound) order :=
    run_foldl (start bound) order ∅
  rw [ran, none]

theorem executable_iff_turns : Greedy.Executable backend b bound order ↔
    ∀ state ∈ turns b bound order, Greedy.Applicable backend b state.2 state.1 := by
  induction order generalizing bound with
  | nil => exact iff_of_true trivial nofun
  | cons i rest ih => rw [Greedy.Executable, turns, List.forall_mem_cons, ih]

theorem deferred_sequence (h : Greedy.Orders backend b bound order) :
    ∀ state ∈ (sequence b bound order).states b, ∀ k, b.constraints[state.1]? = some k →
      ∀ x ∈ b.deferred state.1 k, x ∈ state.2 := by
  rw [states_sequence]
  intro state hs k hk x hx
  obtain ⟨candidate, hc, same, cost⟩ := executable_iff_turns.1 h.executable state hs
  obtain ⟨hk', deferred, -⟩ := Greedy.mem_candidates.1 hc
  rw [same] at hk' deferred
  obtain rfl := Option.some.inj (hk.symm.trans hk')
  exact (Greedy.isSome_cost?_iff.1 cost).1 x (deferred ▸ hx)

/-- A plan that follows an executable order of all constraints is only refused for what it is to start
with or to end with. -/
theorem validate_sequence (h : Greedy.Orders backend b bound order) :
    (sequence b bound order).validate b = .ok () ∨
      (∃ x ∈ bound, x ∉ b.vars ∧ (sequence b bound order).validate b = .error (.unknownVariable x)) ∨
      ∃ x ∈ b.parameters, x ∉ bound ∧ (∀ i, x ∉ b.affectedAt i) ∧
        (sequence b bound order).validate b = .error (.malformed (.unboundProjection x)) := by
  have applied : (sequence b bound order).applied = order := applied_foldl (start bound) order
  have entry : (sequence b bound order).entry = bound := entry_foldl (start bound) order
  have root : (sequence b bound order).checkRoot b = .ok () := if_pos rfl
  have once : checkOnce b [] (sequence b bound order).applied = .ok () := by
    rw [applied]
    refine checkOnce_ok (h.all.nodup_iff.2 List.nodup_range) (fun _ _ => List.not_mem_nil) fun i hi => ?_
    exact List.mem_range.1 (h.all.mem_iff.1 hi)
  have all : checkAll b (sequence b bound order).applied = .ok () := by
    rw [checkAll, applied, List.find?_eq_none.2]
    rintro ⟨c, i⟩ hc
    rw [List.mem_zipIdx_iff_getElem?] at hc
    have there := h.all.mem_iff.2 (List.mem_range.2 (List.getElem?_eq_some_iff.1 hc).1)
    simpa using there
  have deferred : ((sequence b bound order).states b).forM (checkDeferred b) = .ok () := by
    refine forM_eq_ok fun state hs => ?_
    rw [checkDeferred]
    cases hk : b.constraints[state.1]? with
    | none => rfl
    | some k =>
      dsimp only
      rw [List.find?_eq_none.2]
      intro x hx
      simpa using deferred_sequence h state hs k hk x (ExtTreeSet.mem_toList.1 hx)
  have kept : (order.foldl apply (start bound)).checkProjections b = .ok () :=
    checkProjections_foldl (start bound) order
  rw [validate, root, once, all, deferred]
  cases hentry : bound.toList.find? fun x => x ∉ b.vars with
  | some x =>
    have unknown := List.find?_some hentry
    refine .inr (.inl ⟨x, ExtTreeSet.mem_toList.1 (List.mem_of_find?_eq_some hentry), ?_, ?_⟩)
    · simpa using unknown
    · rw [checkEntry, entry, hentry]
      rfl
  | none =>
    have known : (sequence b bound order).checkEntry b = .ok () := by
      rw [checkEntry, entry, hentry]
    rw [known]
    cases hroot : b.parameters.find? fun x => x ∉ (order.foldl apply (start bound)).bound b with
    | some x =>
      have missing := List.find?_some hroot
      rw [decide_eq_true_eq, mem_bound_foldl, not_or] at missing
      refine .inr (.inr ⟨x, List.mem_of_find?_eq_some hroot, missing.1, fun i hi => ?_, ?_⟩)
      · obtain ⟨k, hk, -⟩ := Body.mem_affectedAt.1 hi
        have there := h.all.mem_iff.2 (List.mem_range.2 (List.getElem?_eq_some_iff.1 hk).1)
        exact missing.2 ⟨i, there, hi⟩
      · show (sequence b bound order).checkProjections b = _
        rw [sequence, checkProjections, hroot]
        rfl
    | none =>
      refine .inl ?_
      show (sequence b bound order).checkProjections b = _
      rw [sequence, checkProjections, hroot]
      exact kept

/-- A plan that applies constraints one after the other binds all it mentions, but for what is local
to one of them. -/
theorem coherent_foldl {p : Plan} (h : Greedy.Executable backend b (p.bound b) order)
    (nodup : (p.applied ++ order).Nodup) (hp : p.Coherent b)
    (binds : ∀ x ∈ p.mentioned b, x ∈ p.bound b ∨ ∃ i ∈ p.applied, b.isLocal x i = true) :
    (order.foldl apply p).Coherent b := by
  induction order generalizing p with
  | nil => exact hp
  | cons i rest ih =>
    obtain ⟨⟨candidate, hc, rfl, cost⟩, later⟩ := h
    obtain ⟨hk, deferred, -⟩ := Greedy.mem_candidates.1 hc
    have once : candidate.index ∉ p.applied := fun hi =>
      (List.disjoint_of_nodup_append nodup) hi List.mem_cons_self
    refine ih later (by rwa [applied, List.append_assoc]) ⟨hp, fun k' hk' => ?_⟩ fun x hx => ?_
    · obtain rfl := Option.some.inj (hk.symm.trans hk')
      refine ⟨fun x hx mentioned => (binds x mentioned).resolve_right ?_, fun _ x hx => ?_⟩
      · rintro ⟨j, hj, alone⟩
        have apart : candidate.index ≠ j := fun e => once (e.symm ▸ hj)
        rw [Body.isLocal_of_mentioned apart hk hx] at alone
        cases alone
      · rw [← deferred] at hx
        exact (Greedy.isSome_cost?_iff.1 cost).1 x (ExtTreeSet.mem_toList.1 hx)
    · rw [bound, ExtTreeSet.mem_union_iff, applied]
      rcases (Set.ext_iff.1 (mentioned_apply hk) x).1 hx with hx | hx
      · refine (binds x hx).imp .inl ?_
        rintro ⟨j, hj, alone⟩
        exact ⟨j, List.mem_append_left _ hj, alone⟩
      · by_cases alone : b.isLocal x candidate.index = true
        · exact .inr ⟨_, List.mem_append_right _ (List.mem_singleton.2 rfl), alone⟩
        · refine .inl (.inr (Body.mem_affectedAt.2 ⟨_, hk, Rows.mem_affected.2 ⟨hx, fun _ => ?_⟩⟩))
          simpa using alone

theorem coherent_greedy {p : Plan} (hp : greedy backend b bound = .ok p) : p.Coherent b := by
  obtain ⟨order, ho, hp⟩ := bind_ok hp
  cases hp
  have orders := Greedy.order_ok ho
  refine coherent_foldl (p := start bound) orders.executable ?_ trivial fun _ hx => by cases hx
  exact orders.all.nodup_iff.2 List.nodup_range

/-- A greedy plan is found whenever the constraints can be applied in some order. It applies every
constraint once, with all that the constraint cannot bind bound before, and it is valid unless the
entry or the parameters ask for what the body does not have or bind. -/
theorem greedy_exact (backend : Backend) (b : Body) (bound : ExtTreeSet Variable) :
    ((∃ p, greedy backend b bound = .ok p) ↔ ∃ order, Greedy.Orders backend b bound order) ∧
      ∀ p, greedy backend b bound = .ok p →
        p.applied.Perm (List.range b.constraints.length) ∧
        (∀ state ∈ p.states b, ∀ k, b.constraints[state.1]? = some k →
          ∀ x ∈ b.deferred state.1 k, x ∈ state.2) ∧
        (p.validate b = .ok () ∨
          (∃ x ∈ bound, x ∉ b.vars ∧ p.validate b = .error (.unknownVariable x)) ∨
          ∃ x ∈ b.parameters, x ∉ bound ∧ (∀ i, x ∉ b.affectedAt i) ∧
            p.validate b = .error (.malformed (.unboundProjection x))) := by
  have ordered : ∀ p, greedy backend b bound = .ok p →
      ∃ order, p = sequence b bound order ∧ Greedy.Orders backend b bound order := by
    intro p hp
    obtain ⟨order, ho, hp⟩ := bind_ok hp
    cases hp
    exact ⟨order, rfl, Greedy.order_ok ho⟩
  refine ⟨⟨fun ⟨p, hp⟩ => ?_, fun ⟨order, h⟩ => ?_⟩, fun p hp => ?_⟩
  · obtain ⟨order, -, h⟩ := ordered p hp
    exact ⟨order, h⟩
  · obtain ⟨result, hr⟩ := Greedy.exists_order h
    exact ⟨sequence b bound result, by rw [greedy, hr]; rfl⟩
  · obtain ⟨order, rfl, h⟩ := ordered p hp
    refine ⟨?_, deferred_sequence h, validate_sequence h⟩
    rw [show (sequence b bound order).applied = order from applied_foldl (start bound) order]
    exact h.all

end Plan
end Motif
