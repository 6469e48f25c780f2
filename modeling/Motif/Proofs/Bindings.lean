import Motif.Proofs.Search.Grounding

/-!
What is bound in a plan, computed along its run and from the shape of its sub-plans. Where projections
keep only what is bound below them, the two agree: a sub-plan adds what it leaves bound by itself to
whatever it is entered with.
-/
set_option autoImplicit false
namespace Motif

open Std (ExtTreeSet)

namespace Plan

/-- Run from a set of variables, a plan enters its sub-plan `q` with `entered` bound; the states in the
list are recorded before that. -/
inductive Enters (b : Body) (q : Plan) (entered : ExtTreeSet Variable) :
    Plan → ExtTreeSet Variable → List (Nat × ExtTreeSet Variable) → Prop where
  | here : Enters b q entered q entered []
  | apply {p before log} (index : Nat) (h : Enters b q entered p before log) :
    Enters b q entered (p.apply index) before log
  | project {p before log} (xs : List Variable) (h : Enters b q entered p before log) :
    Enters b q entered (p.project xs) before log
  | left {p before log} (right : Plan) (h : Enters b q entered p before log) :
    Enters b q entered (p.join right) before log
  | right {p before log} (left : Plan) (h : Enters b q entered p (left.run b before).1 log) :
    Enters b q entered (left.join p) before ((left.run b before).2 ++ log)

variable {b : Body} {p q : Plan} {before entered : ExtTreeSet Variable}
  {log : List (Nat × ExtTreeSet Variable)}

theorem union_assoc (s t u : ExtTreeSet Variable) : (s ∪ t) ∪ u = s ∪ (t ∪ u) :=
  ExtTreeSet.ext_mem fun x => by simp [ExtTreeSet.mem_union_iff, or_assoc]

theorem run_fst (h : p.checkProjections b = .ok ()) (before : ExtTreeSet Variable) :
    (p.run b before).1 = before ∪ p.bound b := by
  induction p generalizing before with
  | start bound => rfl
  | apply parent index ih =>
    rw [run_apply, bound, ← union_assoc, ← ih h]
  | project parent xs ih =>
    obtain ⟨kept, h⟩ := checkProjections_project_iff.1 h
    have all : xs.filter (fun x => x ∈ before ∪ parent.bound b) = xs := by
      refine List.filter_eq_self.2 fun x hx => decide_eq_true ?_
      exact ExtTreeSet.mem_union_iff.2 (.inr (kept x hx))
    rw [run_project, bound, ih h, all]
  | join left right ihl ihr =>
    obtain ⟨hl, hr⟩ := checkProjections_join_iff.1 h
    rw [run_join, bound, ← union_assoc, ← ihl hl, ← ihr hr]

namespace Enters

theorem exists_run (h : Enters b q entered p before log) :
    ∃ more, (p.run b before).2 = log ++ (q.run b entered).2 ++ more := by
  induction h with
  | here => exact ⟨[], by simp⟩
  | apply index _ ih =>
    obtain ⟨more, ih⟩ := ih
    exact ⟨more ++ _, by rw [run_apply, ih, List.append_assoc]⟩
  | project xs _ ih => exact ih
  | left right _ ih =>
    obtain ⟨more, ih⟩ := ih
    exact ⟨more ++ _, by rw [run_join, ih, List.append_assoc]⟩
  | right left _ ih =>
    obtain ⟨more, ih⟩ := ih
    exact ⟨more, by simp [run_join, ih]⟩

theorem checkProjections (h : Enters b q entered p before log) (hp : p.checkProjections b = .ok ()) :
    q.checkProjections b = .ok () := by
  induction h with
  | here => exact hp
  | apply index _ ih => exact ih hp
  | project xs _ ih => exact ih (checkProjections_project_iff.1 hp).2
  | left right _ ih => exact ih (checkProjections_join_iff.1 hp).1
  | right left _ ih => exact ih (checkProjections_join_iff.1 hp).2

end Enters

/-- Where projections keep only what is bound below them, a run ends with what it started from and what
the plan binds by itself. The state recorded for an application is what the run entered it with and
what the sub-plan before it binds by itself; the states are in the order of application. -/
theorem run_exact (h : p.checkProjections b = .ok ()) (before : ExtTreeSet Variable) :
    (p.run b before).1 = before ∪ p.bound b ∧
      (∀ parent index entered log, Enters b (.apply parent index) entered p before log →
        ∃ more, (p.run b before).2 =
          log ++ (parent.run b entered).2 ++ (index, entered ∪ parent.bound b) :: more) ∧
      (p.run b before).2.map Prod.fst = p.applied := by
  refine ⟨run_fst h before, fun parent index entered log enters => ?_, map_fst_run p before⟩
  obtain ⟨more, found⟩ := enters.exists_run
  have now : (parent.run b entered).1 = entered ∪ parent.bound b :=
    run_fst (p := parent) (enters.checkProjections h) entered
  exact ⟨more, by simp [found, run_apply, now]⟩

theorem run_exact_joined :
    let b : Body := ⟨["x", "z"], [.holds (.feature "a") ["x", "y"], .holds (.feature "b") ["y", "z"]]⟩
    let first : Plan := .project (.apply (.start ∅) 0) ["y"]
    let p : Plan := .project (.join first (.apply (.start ∅) 1)) ["y", "z"]
    let before : ExtTreeSet Variable := .ofList ["w"]
    p.checkProjections b = .ok () ∧ (p.run b before).1 = before ∪ p.bound b ∧
      (∃ more, (p.run b before).2 =
        (first.run b before).2 ++ (1, (first.run b before).1 ∪ (start ∅).bound b) :: more) ∧
      (p.run b before).2.map Prod.fst = [0, 1] := by
  intro b first p before
  have kept : p.checkProjections b = .ok () := by decide
  obtain ⟨ends, states, order⟩ := run_exact kept before
  obtain ⟨more, second⟩ := states (start ∅) 1 _ _ (.project _ (.right first .here))
  exact ⟨kept, ends, ⟨more, by simpa [run] using second⟩, order⟩

end Plan
end Motif
