import Motif.Proofs.Derivation
import Motif.Proofs.Search.Exact
import Motif.Proofs.Search.Following

set_option autoImplicit false
namespace Motif
namespace SearchPlan

open Searcher

variable {σ ε : Type} {s : Searcher σ ε} {c : Catalog} {m : Model} {b : Body}
  {found : String → Set Tuple}

def Tells (b : Body) (found : String → Set Tuple) (a : Asking) : Prop :=
  b.Calls a.callee.query → a.answer.Nodup ∧
    ∀ t, t ∈ a.answer ↔ t ∈ found a.callee.query ∧ a.binding.agrees t = true

/-- What was answered and is in `found`, and what is needed besides, is a finite part of `found`
that the answers tell as well. -/
theorem exists_part {C : List Asking} (hC : ∀ a ∈ C, Tells b found a)
    (S : Finset (String × Tuple)) (hS : ∀ p ∈ S, p.2 ∈ found p.1) :
    ∃ F : String → Finset Tuple, (∀ n, ∀ t ∈ F n, t ∈ found n) ∧ (∀ p ∈ S, p.2 ∈ F p.1) ∧
      ∀ a ∈ C, Tells b (fun n => {t | t ∈ F n}) a := by
  classical
  obtain ⟨told, htold⟩ : ∃ told : Finset (String × Tuple), ∀ p, p ∈ told ↔
      p.2 ∈ found p.1 ∧ (p ∈ S ∨ ∃ a ∈ C, a.callee.query = p.1 ∧ p.2 ∈ a.answer) := by
    refine ⟨(S ∪ (C.flatMap fun a => a.answer.map fun t => (a.callee.query, t)).toFinset).filter
      fun p => p.2 ∈ found p.1, fun p => ?_⟩
    simp only [Finset.mem_filter, Finset.mem_union, List.mem_toFinset, List.mem_flatMap, List.mem_map]
    rw [and_comm]
    refine and_congr_right fun _ => or_congr_right (exists_congr fun a => and_congr_right fun _ => ?_)
    constructor
    · rintro ⟨t, ht, rfl⟩
      exact ⟨rfl, ht⟩
    · rintro ⟨hq, ht⟩
      exact ⟨p.2, ht, by rw [hq]⟩
  have mem : ∀ n t, t ∈ (told.filter fun p => p.1 = n).image Prod.snd ↔ (n, t) ∈ told := by
    intro n t
    simp
  refine ⟨fun n => (told.filter fun p => p.1 = n).image Prod.snd, fun n t ht => ?_, fun p hp => ?_,
    fun a ha hcall => ?_⟩
  · exact ((htold _).1 ((mem n t).1 ht)).1
  · exact (mem _ _).2 ((htold _).2 ⟨hS p hp, .inl hp⟩)
  · obtain ⟨nodup, told_iff⟩ := hC a ha hcall
    refine ⟨nodup, fun t => ?_⟩
    rw [told_iff, Set.mem_ofPred_eq, mem, htold]
    constructor
    · rintro ⟨ht, hb⟩
      exact ⟨⟨ht, .inr ⟨a, ha, rfl, (told_iff t).2 ⟨ht, hb⟩⟩⟩, hb⟩
    · rintro ⟨⟨ht, -⟩, hb⟩
      exact ⟨ht, hb⟩

noncomputable def guardOf (b : Body) (F : String → Finset Tuple) : Guard where
  accepts := Tells b fun n => {t | t ∈ F n}
  other r bnd := (F r.query).toList.filter bnd.agrees

theorem answers_guarded {F : String → Finset Tuple} (graph : s.graph = m.graph)
    (report : ∀ i, (s.report i).Returns fun _ => True) :
    (s.guarded (guardOf b F)).Answers m b.Calls F where
  graph := graph
  report := report
  ask r hcall bnd := by
    intro st
    have listed : ((F r.query).toList.filter bnd.agrees).Nodup ∧
        ∀ t, t ∈ (F r.query).toList.filter bnd.agrees ↔ t ∈ F r.query ∧ bnd.agrees t = true :=
      ⟨(Finset.nodup_toList _).filter _, fun t => by simp⟩
    change ∃ l st', (s.guarded (guardOf b F)).ask r bnd st = _ ∧ _
    simp only [guarded, ExceptT.mk]
    split
    · rename_i l st' _
      split
      · rename_i tells
        exact ⟨l, st', rfl, tells hcall⟩
      · exact ⟨_, st, rfl, listed⟩
    · exact ⟨_, st, rfl, listed⟩

section execute
variable {q : Query} (valid : q.validateBody b = .ok ()) (calls : b.constraints.forM c.checkCall = .ok ())
  (reached : m.Reached) (typed : m.Typed) {p : Plan} (entry : ∀ x ∈ p.entry, x ∈ b.parameters)
  {name : String} {sp : SearchPlan} (compiled : SearchPlan.ofPlan c m.schema name b p = .ok sp)
  (graph : s.graph = m.graph) (report : ∀ i, (s.report i).Returns fun _ => True) {bnd : Binding}
  (fixed : ∀ x ∈ p.entry, bnd.Fixes b x) {I : σ → Prop} {st st' : σ} {l : List Tuple} (hI : I st)
  (hrun : (s.execute sp bnd).run.run st = some (.ok l, st'))
include valid calls reached typed entry compiled graph report fixed hI hrun

/-- A search along a valid plan that answers has asked only so many questions. Whatever matches the
answers tell of, it has found the tuples that agree with the binding and that the body means over them,
each once. -/
theorem execute_means
    (free : ∀ operator query xs aggregated result,
      .aggregate operator query xs aggregated result ∈ b.constraints →
        ∀ op, c.aggregators[operator]? = some op → op.OrderFree)
    {P : Asking → Prop} (tells : s.Tells I P) : ∃ C : List Asking, (∀ a ∈ C, P a) ∧
      ∀ (F : String → Finset Tuple)
        (widths : ∀ name q, c.queries[name]? = some q → ∀ t ∈ F name, t.length = q.arity),
        (∀ a ∈ C, Tells b (fun n => {t | t ∈ F n}) a) →
        l.Nodup ∧ ∀ t, t ∈ l ↔ bnd.agrees t = true ∧ t ∈ b.meaning (m.facts F widths) := by
  obtain ⟨-, hok⟩ := tells.follows_execute sp bnd st _ st' hI hrun
  obtain ⟨C, hC, same⟩ := hok l rfl
  refine ⟨C, hC, fun F widths accepted => ?_⟩
  have grounds : Grounds (s.guarded (guardOf b F)) c m F b := grounds_of_valid valid calls free reached
    typed widths (answers_guarded graph report)
  obtain ⟨l', st'', hrun', hl⟩ := execute_returns grounds entry compiled fixed st
  cases hrun'.symm.trans (same (guardOf b F) accepted)
  exact hl

theorem execute_derives (positive : ∀ k ∈ b.constraints, k.isPositive = true)
    (widths : ∀ name q, c.queries[name]? = some q → ∀ t ∈ found name, t.length = q.arity)
    (tells : s.Tells I (SearchPlan.Tells b found)) :
    l.Nodup ∧ ∀ t, t ∈ l ↔ bnd.agrees t = true ∧ t ∈ b.derives c m.base found := by
  obtain ⟨C, hC, means⟩ := execute_means valid calls reached typed entry compiled graph report fixed hI
    hrun (fun operator query xs aggregated result h => by cases positive _ h) tells
  -- Whatever finite part of `found` is needed, the search finds what is derived from it.
  have finite : ∀ S : Finset (String × Tuple), (∀ p ∈ S, p.2 ∈ found p.1) →
      ∃ F : String → Finset Tuple, (∀ n, ∀ t ∈ F n, t ∈ found n) ∧ (∀ p ∈ S, p.2 ∈ F p.1) ∧
        l.Nodup ∧ ∀ t, t ∈ l ↔ bnd.agrees t = true ∧ t ∈ b.derives c m.base fun n => {t | t ∈ F n} := by
    intro S hS
    obtain ⟨F, within, needed, accepted⟩ := exists_part hC S hS
    have hl := means F (fun name q hq t ht => widths name q hq t (within name t ht)) accepted
    rw [Body.meaning_eq_derives positive] at hl
    exact ⟨F, within, needed, hl⟩
  obtain ⟨F, within, -, nodup, mem⟩ := finite ∅ (by simp)
  refine ⟨nodup, fun t => ⟨fun ht => ?_, fun ⟨hb, ht⟩ => ?_⟩⟩
  · obtain ⟨hb, hd⟩ := (mem t).1 ht
    exact ⟨hb, Body.derives_mono (fun n _ u hu => within n u hu) hd⟩
  · obtain ⟨S, hS, hd⟩ := Body.exists_finset_of_derives ht
    obtain ⟨F, -, needed, -, mem⟩ := finite S hS
    exact (mem t).2 ⟨hb, Body.derives_mono (fun n _ u hu => needed (n, u) hu) hd⟩

end execute
end SearchPlan
end Motif
