import Motif.Proofs.Algebra.OfPlan

set_option autoImplicit false
namespace Motif

open Std (ExtTreeSet)

namespace Body
variable {b : Body} {x : Variable}

theorem mentionedBeside_iff {ks : List Constraint} {index : Nat} :
    mentionedBeside x index ks = true ↔ ∃ j k, j ≠ index ∧ ks[j]? = some k ∧ x ∈ k.vars := by
  induction ks generalizing index with
  | nil => simp [mentionedBeside]
  | cons k rest ih =>
    cases index with
    | zero =>
      simp only [mentionedBeside, List.any_eq_true, decide_eq_true_eq, List.mem_iff_getElem?]
      constructor
      · rintro ⟨k', ⟨j, hj⟩, hx⟩
        exact ⟨j + 1, k', by omega, hj, hx⟩
      · rintro ⟨j, k', hj, hk, hx⟩
        obtain ⟨j, rfl⟩ := Nat.exists_eq_succ_of_ne_zero hj
        exact ⟨k', ⟨j, hk⟩, hx⟩
    | succ index =>
      rw [mentionedBeside, Bool.or_eq_true, ih, decide_eq_true_eq]
      constructor
      · rintro (hx | ⟨j, k', hj, hk, hx⟩)
        · exact ⟨0, k, by omega, rfl, hx⟩
        · exact ⟨j + 1, k', by omega, hk, hx⟩
      · rintro ⟨j, k', hj, hk, hx⟩
        cases j with
        | zero =>
          cases hk
          exact .inl hx
        | succ j => exact .inr ⟨j, k', by omega, hk, hx⟩

theorem isLocal_of_parameter (h : x ∈ b.parameters) (index : Nat) : b.isLocal x index = false := by
  simp [isLocal, h]

theorem isLocal_of_mentioned {index j : Nat} {k : Constraint} (hj : j ≠ index)
    (hk : b.constraints[j]? = some k) (hx : x ∈ k.vars) : b.isLocal x index = false := by
  have := mentionedBeside_iff.2 ⟨j, k, hj, hk, hx⟩
  simp [isLocal, this]

theorem mem_affectedAt {index : Nat} :
    x ∈ b.affectedAt index ↔ ∃ k, b.constraints[index]? = some k ∧ x ∈ b.affected index k := by
  rw [affectedAt]
  cases b.constraints[index]? <;> simp

end Body

namespace Plan
variable {b : Body} {entry : Variable → Prop}

def Gains (b : Body) (indices : List Nat) (x : Variable) : Prop :=
  ∃ i ∈ indices, x ∈ b.affectedAt i

/-- What is taken as bound before a constraint is bound on entry or by constraints before it. -/
def Grounded (b : Body) : (Variable → Prop) → List (Nat × ExtTreeSet Variable) → Prop
  | _, [] => True
  | entry, state :: rest => (∀ x ∈ state.2, entry x) ∧
      Grounded b (fun x => entry x ∨ x ∈ b.affectedAt state.1) rest

variable {states more : List (Nat × ExtTreeSet Variable)}

theorem Grounded.mono {entry' : Variable → Prop}
    (h : Grounded b entry states) (he : ∀ x, entry x → entry' x) : Grounded b entry' states := by
  induction states generalizing entry entry' with
  | nil => trivial
  | cons state rest ih => exact ⟨fun x hx => he x (h.1 x hx), ih h.2 fun x hx => hx.imp_left (he x)⟩

theorem Grounded.append (h : Grounded b entry states)
    (hm : Grounded b (fun x => entry x ∨ Gains b (states.map Prod.fst) x) more) :
    Grounded b entry (states ++ more) := by
  induction states generalizing entry with
  | nil =>
    refine hm.mono fun x hx => ?_
    rcases hx with hx | ⟨i, hi, -⟩
    · exact hx
    · cases hi
  | cons state rest ih =>
    refine ⟨h.1, ih h.2 (hm.mono fun x hx => ?_)⟩
    rcases hx with hx | ⟨i, hi, hx⟩
    · exact .inl (.inl hx)
    · rcases List.mem_cons.1 hi with rfl | hi
      · exact .inl (.inr hx)
      · exact .inr ⟨i, hi, hx⟩

theorem run_apply (parent : Plan) (index : Nat) (before : ExtTreeSet Variable) :
    (parent.apply index).run b before =
      ((parent.run b before).1 ∪ b.affectedAt index,
        (parent.run b before).2 ++ [(index, (parent.run b before).1)]) := rfl

theorem run_project (parent : Plan) (xs : List Variable) (before : ExtTreeSet Variable) :
    (parent.project xs).run b before =
      (before ∪ .ofList (xs.filter fun x => x ∈ (parent.run b before).1), (parent.run b before).2) := rfl

theorem run_join (left right : Plan) (before : ExtTreeSet Variable) :
    (left.join right).run b before =
      ((right.run b (left.run b before).1).1,
        (left.run b before).2 ++ (right.run b (left.run b before).1).2) := rfl

theorem map_fst_run (p : Plan) (before : ExtTreeSet Variable) :
    (p.run b before).2.map Prod.fst = p.applied := by
  induction p generalizing before with
  | start bound => rfl
  | apply parent index ih => simp [run, applied, ih]
  | project parent xs ih => exact ih before
  | join left right ihl ihr => simp [run, applied, ihl, ihr]

/-- A run takes as bound what is bound on entry or by what it has applied. -/
theorem run_grounded (p : Plan) {before : ExtTreeSet Variable} (hb : ∀ x ∈ before, entry x)
    (he : ∀ x ∈ p.entry, entry x) : Grounded b entry (p.run b before).2 ∧
      ∀ x ∈ (p.run b before).1, entry x ∨ Gains b p.applied x := by
  induction p generalizing before entry with
  | start bound =>
    refine ⟨trivial, fun x hx => .inl ?_⟩
    exact (ExtTreeSet.mem_union_iff.1 hx).elim (hb x) (he x)
  | apply parent index ih =>
    obtain ⟨grounded, now⟩ := ih hb he
    refine ⟨grounded.append ⟨fun x hx => ?_, trivial⟩, fun x hx => ?_⟩
    · rw [map_fst_run]
      exact now x hx
    · rcases ExtTreeSet.mem_union_iff.1 hx with hx | hx
      · exact (now x hx).imp_right fun ⟨i, hi, hx⟩ => ⟨i, List.mem_append_left _ hi, hx⟩
      · exact .inr ⟨index, List.mem_append_right _ (List.mem_singleton_self index), hx⟩
  | project parent xs ih =>
    obtain ⟨grounded, now⟩ := ih hb he
    refine ⟨grounded, fun x hx => ?_⟩
    rcases ExtTreeSet.mem_union_iff.1 hx with hx | hx
    · exact .inl (hb x hx)
    · rw [ExtTreeSet.mem_ofList, List.contains_iff_mem, List.mem_filter] at hx
      exact now x (of_decide_eq_true hx.2)
  | join left right ihl ihr =>
    obtain ⟨grounded, now⟩ := ihl hb fun x hx => he x (ExtTreeSet.mem_union_iff.2 (.inl hx))
    have entered : ∀ x ∈ right.entry, entry x ∨ Gains b left.applied x := fun x hx =>
      .inl (he x (ExtTreeSet.mem_union_iff.2 (.inr hx)))
    obtain ⟨more, last⟩ := ihr now entered
    refine ⟨grounded.append ?_, fun x hx => ?_⟩
    · rw [map_fst_run]
      exact more
    · rcases last x hx with (hx | ⟨i, hi, hx⟩) | ⟨i, hi, hx⟩
      · exact .inl hx
      · exact .inr ⟨i, List.mem_append_left _ hi, hx⟩
      · exact .inr ⟨i, List.mem_append_right _ hi, hx⟩

theorem checkProjections_project_iff {p : Plan} {xs : List Variable} :
    (p.project xs).checkProjections b = .ok () ↔
      (∀ x ∈ xs, x ∈ p.bound b) ∧ p.checkProjections b = .ok () := by
  have kept : xs.find? (fun x => x ∉ p.bound b) = none ↔ ∀ x ∈ xs, x ∈ p.bound b := by
    simp [List.find?_eq_none]
  rw [checkProjections, ← kept]
  cases xs.find? fun x => x ∉ p.bound b with
  | some x => exact iff_of_false nofun fun h => nomatch h.1
  | none => exact (and_iff_right rfl).symm

theorem checkProjections_join_iff {left right : Plan} :
    (left.join right).checkProjections b = .ok () ↔
      left.checkProjections b = .ok () ∧ right.checkProjections b = .ok () := by
  constructor
  · intro h
    obtain ⟨⟨⟩, hl, hr⟩ := bind_ok h
    exact ⟨hl, hr⟩
  · rintro ⟨hl, hr⟩
    exact (bind_of_ok hl).trans hr

/-- What a sub-plan leaves bound is bound on entry or by what it applies, as projections keep only
what is bound. -/
theorem mem_bound {p : Plan} (he : ∀ x ∈ p.entry, entry x) (hp : p.checkProjections b = .ok ())
    {x : Variable} (hx : x ∈ p.bound b) : entry x ∨ Gains b p.applied x := by
  induction p generalizing x with
  | start bound => exact .inl (he x hx)
  | apply before index ih =>
    rcases ExtTreeSet.mem_union_iff.1 hx with hx | hx
    · exact (ih he hp hx).imp_right fun ⟨i, hi, hx⟩ => ⟨i, List.mem_append_left _ hi, hx⟩
    · exact .inr ⟨index, List.mem_append_right _ (List.mem_singleton_self index), hx⟩
  | project before xs ih =>
    obtain ⟨kept, hp⟩ := checkProjections_project_iff.1 hp
    rw [bound, ExtTreeSet.mem_ofList, List.contains_iff_mem] at hx
    exact ih he hp (kept x hx)
  | join left right ihl ihr =>
    obtain ⟨hl, hr⟩ := checkProjections_join_iff.1 hp
    rcases ExtTreeSet.mem_union_iff.1 hx with hx | hx
    · refine (ihl (fun x hx => he x (ExtTreeSet.mem_union_iff.2 (.inl hx))) hl hx).imp_right ?_
      exact fun ⟨i, hi, hx⟩ => ⟨i, List.mem_append_left _ hi, hx⟩
    · refine (ihr (fun x hx => he x (ExtTreeSet.mem_union_iff.2 (.inr hx))) hr hx).imp_right ?_
      exact fun ⟨i, hi, hx⟩ => ⟨i, List.mem_append_right _ hi, hx⟩

theorem entry_of_validate {p : Plan} (h : p.validate b = .ok ()) : ∀ x ∈ p.entry, x ∈ b.vars := by
  obtain ⟨⟨⟩, -, h⟩ := bind_ok h
  obtain ⟨⟨⟩, known, -⟩ := bind_ok h
  rw [checkEntry] at known
  split at known
  · cases known
  · rename_i found
    rw [List.find?_eq_none] at found
    exact fun x hx => by simpa using found x (ExtTreeSet.mem_toList.2 hx)

theorem nodup_of_checkOnce {seen indices : List Nat} (h : checkOnce b seen indices = .ok ()) :
    indices.Nodup ∧ ∀ i ∈ indices, i ∉ seen := by
  induction indices generalizing seen with
  | nil => simp
  | cons index rest ih =>
    rw [checkOnce] at h
    split at h
    · cases h
    · split at h
      · cases h
      · rename_i new
        obtain ⟨nodup, fresh⟩ := ih h
        refine ⟨List.nodup_cons.2 ⟨fun hm => fresh index hm List.mem_cons_self, nodup⟩, ?_⟩
        intro i hi hs
        rcases List.mem_cons.1 hi with rfl | hi
        · exact new hs
        · exact fresh i hi (List.mem_cons_of_mem index hs)

structure Valid (b : Body) (p : Plan) : Prop where
  root : ∃ before, p = .project before b.parameters
  once : p.applied.Nodup
  all : ∀ i k, b.constraints[i]? = some k → i ∈ p.applied
  deferred : ∀ state ∈ p.states b, ∀ k, b.constraints[state.1]? = some k →
    ∀ x ∈ b.deferred state.1 k, x ∈ state.2
  projections : p.checkProjections b = .ok ()

theorem valid_of_validate {p : Plan} (h : p.validate b = .ok ()) : p.Valid b := by
  refine ⟨exists_root h, ?_, fun i k hk => mem_applied h hk, ?_, ?_⟩
  all_goals
    obtain ⟨⟨⟩, -, h⟩ := bind_ok h
    obtain ⟨⟨⟩, -, h⟩ := bind_ok h
    obtain ⟨⟨⟩, once, h⟩ := bind_ok h
    obtain ⟨⟨⟩, -, h⟩ := bind_ok h
    obtain ⟨⟨⟩, deferred, projections⟩ := bind_ok h
  · exact (nodup_of_checkOnce once).1
  · intro state hs k hk x hx
    have checked := forM_ok deferred hs
    simp only [checkDeferred, hk] at checked
    split at checked
    · cases checked
    · rename_i found
      rw [List.find?_eq_none] at found
      simpa using found x (ExtTreeSet.mem_toList.2 hx)
  · exact projections

variable {p : Plan}

theorem map_fst_states : (p.states b).map Prod.fst = p.applied := map_fst_run p ∅

theorem states_grounded (he : ∀ x ∈ p.entry, entry x) : Grounded b entry (p.states b) :=
  (run_grounded p (fun _ hx => absurd hx ExtTreeSet.not_mem_empty) he).1

theorem Valid.parameters (h : p.Valid b) (he : ∀ x ∈ p.entry, entry x) {x : Variable}
    (hx : x ∈ b.parameters) : entry x ∨ Gains b p.applied x := by
  obtain ⟨before, rfl⟩ := h.root
  refine mem_bound he h.projections ?_
  rw [bound, ExtTreeSet.mem_ofList, List.contains_iff_mem]
  exact hx

end Plan
end Motif
