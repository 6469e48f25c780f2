import Motif.Proofs.Resolution

set_option autoImplicit false
namespace Motif

open Std (ExtTreeSet)
open Reach (Steps)
open Components

namespace Catalog
variable {c : Catalog} {name : String}

abbrev Leads (c : Catalog) : String → String → Prop := Relation.ReflTransGen (Steps c.callees)

/-- What the query asks about in a closed world does not lead back to it. -/
def Stratified (c : Catalog) (name : String) : Prop :=
  ∀ q, c.queries[name]? = some q → ∀ k ∈ q.constraints, k.isClosedWorld = true →
    ∀ callee, k.calledQuery? = some callee → ¬c.Leads callee name

theorem callee_of_constraint {q : Query} (hq : c.queries[name]? = some q) {k : Constraint}
    (hk : k ∈ q.constraints) {callee : String} (hc : k.calledQuery? = some callee) :
    callee ∈ c.callees name := by
  obtain ⟨b, hb, hk⟩ := List.mem_flatMap.1 hk
  exact mem_callees.2 ⟨q, hq, b, hb, k, hk, hc⟩

theorem checkStratified_eq_ok {component : List String} {member : String} {k : Constraint} :
    checkStratified component member k = .ok () ↔
      ∀ callee, k.calledQuery? = some callee → k.isClosedWorld = true → callee ∉ component := by
  rw [checkStratified]
  cases k.calledQuery? with
  | none => simp
  | some callee => by_cases hm : callee ∈ component <;> cases k.isClosedWorld <;> simp [hm]

theorem stratified_iff {component : List String} {q : Query} (hq : c.queries[name]? = some q)
    (connected : ∀ m, m ∈ component ↔ Connected c.callees name m) :
    q.constraints.forM (checkStratified component name) = .ok () ↔ c.Stratified name := by
  have back : ∀ {k callee}, k ∈ q.constraints → k.calledQuery? = some callee →
      (callee ∈ component ↔ c.Leads callee name) := fun hk hc => by
    rw [connected]
    exact and_iff_right (.single (callee_of_constraint hq hk hc))
  constructor
  · intro h q' hq' k hk closed callee hc
    cases hq.symm.trans hq'
    rw [← back hk hc]
    exact checkStratified_eq_ok.1 (forM_ok h hk) callee hc closed
  · intro h
    refine forM_eq_ok fun k hk => checkStratified_eq_ok.2 fun callee hc closed => ?_
    rw [back hk hc]
    exact h q hq k hk closed callee hc

/-- Resolution fails where something needed is missing, a call is out of order or a query depends on
what it does not derive, and nowhere else. -/
theorem exists_resolutionOrder_iff :
    (∃ components, c.resolutionOrder name = .ok components) ↔
      ∀ n, c.Leads name n → c.contains n = true ∧ c.checkCalls n = .ok () ∧ c.Stratified n := by
  constructor
  · rintro ⟨components, h⟩ n hn
    obtain ⟨needed, hneeded, h⟩ := bind_ok h
    obtain ⟨⟨⟩, calls, h⟩ := bind_ok h
    obtain ⟨⟨⟩, stratified, -⟩ := bind_ok h
    obtain ⟨mem, registered⟩ := dependencies_ok hneeded n
    have hn := mem.2 hn
    have decomposes := decomposes_callsOf hneeded
    obtain ⟨C, hC, hnC⟩ := (decomposes.covers n).2 (ExtTreeSet.mem_toList.2 hn)
    obtain ⟨q, hq, checks⟩ := bind_ok (forM_ok (forM_ok stratified hC) hnC)
    exact ⟨registered hn, forM_ok calls (ExtTreeSet.mem_toList.2 hn),
      (stratified_iff (query_ok hq) (decomposes.connected C hC n hnC)).1 checks⟩
  · intro h
    obtain ⟨needed, hneeded⟩ := exists_dependencies fun n hn => (h n hn).1
    have mem : ∀ n ∈ needed.toList, c.Leads name n := fun n hn =>
      (dependencies_ok hneeded n).1.1 (ExtTreeSet.mem_toList.1 hn)
    have decomposes := decomposes_callsOf hneeded
    have calls : needed.toList.forM c.checkCalls = .ok () :=
      forM_eq_ok fun n hn => (h n (mem n hn)).2.1
    have stratified : ((c.callsOf needed).components.forM fun component =>
        component.forM fun member => do
          let q ← c.query member
          q.constraints.forM (checkStratified component member)) = .ok () := by
      refine forM_eq_ok fun C hC => forM_eq_ok fun n hn => ?_
      have leads := mem n ((decomposes.covers n).1 ⟨C, hC, hn⟩)
      obtain ⟨q, hq, -⟩ := checkCalls_ok (h n leads).2.1
      rw [query, hq]
      exact (stratified_iff hq (decomposes.connected C hC n hn)).2 (h n leads).2.2
    refine ⟨(c.callsOf needed).components, ?_⟩
    rw [resolutionOrder, hneeded]
    change (needed.toList.forM c.checkCalls >>= fun _ => _) = _
    rw [calls]
    change (_ >>= fun _ => _) = _
    rw [stratified]
    rfl

theorem isRecursive_iff_leads :
    c.isRecursive name = true ↔ ∃ callee ∈ c.callees name, c.Leads callee name := by
  have known : ∀ n, c.callees n ≠ [] → n ∈ c.names := fun n hn => by
    obtain ⟨m, hm⟩ := List.exists_mem_of_ne_nil _ hn
    exact mem_names_of_callees hm
  rw [isRecursive, decide_eq_true_eq]
  exact Reach.mem_closure known Std.ExtTreeMap.length_keys.le (c.callees name) name

theorem isRecursive_of_leads {n : String} (hn : c.Leads name n) (back : name ∈ c.callees n) :
    c.isRecursive name = true := by
  rw [isRecursive_iff_leads]
  obtain rfl | ⟨callee, step, onward⟩ := hn.cases_head
  · exact ⟨name, back, .refl⟩
  · exact ⟨callee, step, onward.tail back⟩

theorem components_decomposes : Decomposes c.callees c.calls.nodes.toList c.components := by
  have decomposes := c.calls.components_decomposes
  rwa [show c.calls.next = c.callees from funext next_calls] at decomposes

theorem isRecursive_iff : c.isRecursive name = true ↔
    (∃ C ∈ c.components, name ∈ C ∧ 2 ≤ C.length) ∨ name ∈ c.callees name := by
  have decomposes := components_decomposes (c := c)
  rw [isRecursive_iff_leads]
  constructor
  · rintro ⟨callee, step, back⟩
    by_cases e : callee = name
    · exact .inr (e ▸ step)
    · have node : name ∈ c.calls.nodes.toList := by
        rw [ExtTreeSet.mem_toList, CallGraph.mem_nodes, Std.ExtTreeMap.mem_iff_isSome_getElem?,
          getElem?_calls]
        obtain ⟨q, hq, -⟩ := mem_callees.1 step
        exact .inl (by rw [hq]; rfl)
      obtain ⟨C, hC, hn⟩ := (decomposes.covers name).2 node
      exact .inl ⟨C, hC, hn, (decomposes.two_le_length_iff hC hn).2 ⟨callee, e, .single step, back⟩⟩
  · rintro (⟨C, hC, hn, two⟩ | self)
    · obtain ⟨m, ne, there, back⟩ := (decomposes.two_le_length_iff hC hn).1 two
      obtain e | ⟨callee, step, onward⟩ := there.cases_head
      · exact absurd e.symm ne
      · exact ⟨callee, step, onward.trans back⟩
    · exact ⟨name, self, .refl⟩

/-- A query can be resolved if what it leads to is registered, checked and stratified, and only then.
The order holds what it leads to, each query once and after the callees outside its component. A query
is recursive if its component has other members or it calls itself, and only then. -/
theorem resolutionOrder_exact (c : Catalog) (name : String) :
    ((∃ components, c.resolutionOrder name = .ok components) ↔
        ∀ n, c.Leads name n → c.contains n = true ∧ c.checkCalls n = .ok () ∧ c.Stratified n) ∧
      (∀ components, c.resolutionOrder name = .ok components →
        components.flatten.Nodup ∧ (∀ n, n ∈ components.flatten ↔ c.Leads name n) ∧
        (∀ C ∈ components, ∀ n ∈ C, ∀ m, m ∈ C ↔ c.Leads n m ∧ c.Leads m n) ∧
        ∀ (i : Nat) (C : List String), components[i]? = some C → ∀ n ∈ C, ∀ callee ∈ c.callees n,
          callee ∈ C ∨ ∃ j < i, ∃ D, components[j]? = some D ∧ callee ∈ D) ∧
      ∀ q, c.isRecursive q = true ↔
        (∃ C ∈ c.components, q ∈ C ∧ 2 ≤ C.length) ∨ q ∈ c.callees q := by
  refine ⟨exists_resolutionOrder_iff, fun components h => ?_, fun q => isRecursive_iff⟩
  obtain ⟨nodes, decomposes, mem, -⟩ := resolutionOrder_ok h
  refine ⟨decomposes.nodup_flatten, fun n => ?_, decomposes.connected,
    fun i C hi n hn callee step => decomposes.earlier_or_same hi hn step ?_⟩
  · rw [decomposes.mem_flatten, mem]
  · have hn : n ∈ nodes := (decomposes.covers n).1 ⟨C, List.mem_of_getElem? hi, hn⟩
    exact (mem callee).2 (((mem n).1 hn).tail step)

end Catalog
end Motif
