import Mathlib.Data.List.Chain
import Mathlib.Data.List.Nodup
import Motif.Catalog.Resolution
import Motif.Proofs.Algebra.OfPlan
import Motif.Proofs.Reach
import Motif.Proofs.Tarjan

/-!
Depth-first walks, and the resolution orders they make. A walk enters all that its starting nodes lead
to and that was not entered before. A resolution order is the components of all that a query leads to
by calls, each after those it calls, with every call checked.
-/
set_option autoImplicit false
namespace Motif

open Std (ExtTreeSet TransOrd LawfulEqOrd)
open Reach (Steps)

namespace Walk
variable {α : Type} [Ord α] [TransOrd α] {next : α → List α}

def Deep (next : α → List α) (seen : ExtTreeSet α) (depth : Nat) (a : α) : Prop :=
  ∀ l : List α, (a :: l).IsChain (Steps next) → (a :: l).Nodup → (∀ b ∈ a :: l, b ∉ seen) →
    l.length < depth

theorem Deep.mono {seen seen' : ExtTreeSet α} {depth : Nat} {a : α} (h : Deep next seen depth a)
    (hs : ∀ b ∈ seen, b ∈ seen') : Deep next seen' depth a := fun l hc hn hl =>
  h l hc hn fun b hb hm => hl b hb (hs b hm)

/-- From one walk to another the nodes of `more` were entered, all of them for the sake of
`starts`. -/
structure Advances (next : α → List α) (starts : List α) (w w' : Walk α) (more : List α) :
    Prop where
  seen : ∀ a, a ∈ w'.seen ↔ a ∈ w.seen ∨ a ∈ more
  entered : ∀ a, a ∈ w'.entered ↔ a ∈ w.entered ∨ a ∈ more
  reached : ∀ b ∈ more, ∃ a ∈ starts, Relation.ReflTransGen (Steps next) a b
  started : ∀ a ∈ starts, a ∈ w'.seen
  closed : ∀ a ∈ more, ∀ b ∈ next a, b ∈ w'.seen

namespace Advances
variable {w w' w'' : Walk α} {starts starts' : List α} {l l' : List α}

theorem refl (h : ∀ a ∈ starts, a ∈ w.seen) : Advances next starts w w [] where
  seen _ := by simp
  entered _ := by simp
  reached _ ha := by cases ha
  started := h
  closed _ ha := by cases ha

theorem trans (h : Advances next starts w w' l) (h' : Advances next starts' w' w'' l') :
    Advances next (starts ++ starts') w w'' (l' ++ l) where
  seen a := by rw [h'.seen, h.seen, List.mem_append, or_assoc, or_comm (a := a ∈ l)]
  entered a := by rw [h'.entered, h.entered, List.mem_append, or_assoc, or_comm (a := a ∈ l)]
  reached b hb := by
    rcases List.mem_append.1 hb with hb | hb
    · obtain ⟨a, ha, hr⟩ := h'.reached b hb
      exact ⟨a, List.mem_append_right _ ha, hr⟩
    · obtain ⟨a, ha, hr⟩ := h.reached b hb
      exact ⟨a, List.mem_append_left _ ha, hr⟩
  started a ha := by
    rcases List.mem_append.1 ha with ha | ha
    · exact (h'.seen a).2 (.inl (h.started a ha))
    · exact h'.started a ha
  closed a ha b hb := by
    rcases List.mem_append.1 ha with ha | ha
    · exact h'.closed a ha b hb
    · exact (h'.seen b).2 (.inl (h.closed a ha b hb))

end Advances

variable [LawfulEqOrd α]

theorem mem_enter {w : Walk α} {a b : α} : b ∈ (w.enter a).seen ↔ b = a ∨ b ∈ w.seen := by
  rw [enter, ExtTreeSet.mem_insert, Std.LawfulEqCmp.compare_eq_iff_eq]
  exact or_congr_left eq_comm

theorem Deep.step {w : Walk α} {depth : Nat} {a b : α} (h : Deep next w.seen (depth + 1) a)
    (ha : a ∉ w.seen) (hb : b ∈ next a) : Deep next (w.enter a).seen depth b := by
  intro l hc hn hl
  have unseen : ∀ c ∈ b :: l, c ≠ a ∧ c ∉ w.seen := fun c hm => by
    have hs := hl c hm
    rw [mem_enter, not_or] at hs
    exact hs
  refine Nat.lt_of_succ_lt_succ (h (b :: l) (List.isChain_cons_cons.2 ⟨hb, hc⟩)
    (List.nodup_cons.2 ⟨fun hm => (unseen a hm).1 rfl, hn⟩) fun c hm => ?_)
  rcases List.mem_cons.1 hm with rfl | hm
  · exact ha
  · exact (unseen c hm).2

/-- A walk that has entered all that a new node leads to has advanced from that node. -/
theorem Advances.enter {w w' : Walk α} {a : α} {l : List α}
    (h : Advances next (next a) (w.enter a) w' l) : Advances next [a] w w' (a :: l) where
  seen b := by rw [h.seen, mem_enter, List.mem_cons, or_comm (a := b = a), or_assoc]
  entered b := by
    rw [h.entered, Walk.enter, List.mem_cons, List.mem_cons, or_comm (a := b = a), or_assoc]
  reached b hb := by
    refine ⟨a, List.mem_singleton_self a, ?_⟩
    rcases List.mem_cons.1 hb with rfl | hb
    · exact .refl
    · obtain ⟨c, hc, hr⟩ := h.reached b hb
      exact .head hc hr
  started b hb := by
    rw [List.mem_singleton.1 hb, h.seen]
    exact .inl (mem_enter.2 (.inl rfl))
  closed b hb c hc := by
    rcases List.mem_cons.1 hb with rfl | hb
    · exact h.started c hc
    · exact h.closed b hb c hc

omit [LawfulEqOrd α] in
theorem exists_advances_foldl {depth : Nat}
    (hv : ∀ w a, Deep next w.seen depth a → ∃ l, Advances next [a] w (visit next depth w a) l)
    {w : Walk α} {starts : List α} (h : ∀ a ∈ starts, Deep next w.seen depth a) :
    ∃ l, Advances next starts w (starts.foldl (visit next depth) w) l := by
  induction starts generalizing w with
  | nil => exact ⟨[], .refl fun a ha => by cases ha⟩
  | cons a rest ih =>
    obtain ⟨l, hl⟩ := hv w a (h a List.mem_cons_self)
    obtain ⟨l', hl'⟩ := ih fun b hb =>
      (h b (List.mem_cons_of_mem a hb)).mono fun c hc => (hl.seen c).2 (.inl hc)
    exact ⟨l' ++ l, hl.trans hl'⟩

theorem exists_advances (depth : Nat) (w : Walk α) (a : α) (h : Deep next w.seen depth a) :
    ∃ l, Advances next [a] w (visit next depth w a) l := by
  induction depth generalizing w a with
  | zero =>
    have ha : a ∈ w.seen := by
      by_contra ha
      exact Nat.not_lt_zero _ (h [] (.singleton a) (List.nodup_singleton a) fun b hb =>
        List.mem_singleton.1 hb ▸ ha)
    exact ⟨[], .refl fun b hb => List.mem_singleton.1 hb ▸ ha⟩
  | succ depth ih =>
    rw [visit]
    split
    · rename_i ha
      exact ⟨[], .refl fun b hb => List.mem_singleton.1 hb ▸ ha⟩
    · rename_i ha
      obtain ⟨l, hl⟩ := exists_advances_foldl ih fun b hb => h.step ha hb
      exact ⟨a :: l, hl.enter⟩

theorem exists_advances_of {size : Nat} {nodes : List α} (h : ∀ a ∈ nodes, Deep next ∅ size a) :
    ∃ l, Advances next nodes {} (of next size nodes) l :=
  exists_advances_foldl (exists_advances size) h

end Walk

namespace Catalog
variable {c : Catalog} {name : String}

theorem contains_of_callees {n m : String} (h : m ∈ c.callees n) : c.contains n = true := by
  rw [callees] at h
  split at h
  · rename_i q hq
    rw [contains, Std.ExtTreeMap.contains_eq_isSome_getElem?, hq]
    rfl
  · cases h

theorem mem_names_of_callees {n m : String} (h : m ∈ c.callees n) : n ∈ c.names := by
  rw [names, Std.ExtTreeMap.mem_keys, ← Std.ExtTreeMap.contains_iff_mem]
  exact contains_of_callees h

theorem mem_callees {n m : String} :
    m ∈ c.callees n ↔ ∃ q, c.queries[n]? = some q ∧ ∃ b ∈ q.bodies, b.Calls m := by
  rw [callees]
  split
  · rename_i q hq
    rw [ExtTreeSet.mem_toList, Query.calledQueries, ExtTreeSet.mem_ofList, List.contains_iff_mem,
      List.mem_filterMap]
    simp only [hq, Option.some_inj, exists_eq_left', Query.constraints, List.mem_flatMap, Body.Calls]
    constructor
    · rintro ⟨k, ⟨b, hb, hk⟩, hm⟩
      exact ⟨b, hb, k, hk, hm⟩
    · rintro ⟨b, hb, k, hk, hm⟩
      exact ⟨k, ⟨b, hb, hk⟩, hm⟩
  · rename_i hq
    simp [hq]

theorem checkCalls_ok (h : c.checkCalls name = .ok ()) :
    ∃ q, c.queries[name]? = some q ∧ ∀ b ∈ q.bodies, b.constraints.forM c.checkCall = .ok () := by
  obtain ⟨q, hq, h⟩ := bind_ok h
  refine ⟨q, query_ok hq, fun b hb => ?_⟩
  obtain ⟨⟨⟩, hcall, -⟩ := bind_ok (forM_ok h hb)
  exact hcall

def Checks (c : Catalog) (name : String) : Prop :=
  ∀ n, Relation.ReflTransGen (Steps c.callees) name n → c.checkCalls n = .ok ()

theorem dropLast_subset_names {n : String} {l : List String}
    (hc : (n :: l).IsChain (Steps fun n => (c.callees n).reverse)) : (n :: l).dropLast ⊆ c.names := by
  induction l generalizing n with
  | nil => simp
  | cons m rest ih =>
    obtain ⟨step, hc⟩ := List.isChain_cons_cons.1 hc
    rw [List.dropLast_cons_cons]
    exact List.cons_subset.2 ⟨mem_names_of_callees (List.mem_reverse.1 step), ih hc⟩

theorem deep_callees (seen : ExtTreeSet String) :
    Walk.Deep (fun n => (c.callees n).reverse) seen (c.queries.size + 1) name := by
  intro l hc hd _
  have bound := ((hd.sublist (List.dropLast_sublist _)).subperm (dropLast_subset_names hc)).length_le
  rw [List.length_dropLast, List.length_cons, names, Std.ExtTreeMap.length_keys] at bound
  exact Nat.lt_succ_of_le bound

theorem reflTransGen_reverse {n : String} :
    Relation.ReflTransGen (Steps fun n => (c.callees n).reverse) name n ↔
      Relation.ReflTransGen (Steps c.callees) name n := by
  have same : Steps (fun n => (c.callees n).reverse) = Steps c.callees := by
    funext n m
    exact propext List.mem_reverse
  rw [same]

theorem mem_entered {n : String} :
    n ∈ (Walk.of (fun n => (c.callees n).reverse) (c.queries.size + 1) [name]).entered ↔
      Relation.ReflTransGen (Steps c.callees) name n := by
  obtain ⟨w, hw⟩ : ∃ w, w = Walk.of (fun n => (c.callees n).reverse) (c.queries.size + 1) [name] :=
    ⟨_, rfl⟩
  obtain ⟨l, hl⟩ := Walk.exists_advances_of fun a (_ : a ∈ [name]) => deep_callees (c := c) ∅
  rw [← hw] at hl ⊢
  have seen : ∀ {m}, m ∈ w.seen → m ∈ l := fun hm => ((hl.seen _).1 hm).resolve_left (by simp)
  rw [hl.entered, or_iff_right List.not_mem_nil, ← reflTransGen_reverse]
  constructor
  · intro hn
    obtain ⟨a, ha, hr⟩ := hl.reached n hn
    rwa [List.mem_singleton.1 ha] at hr
  · intro hr
    exact Reach.mem_of_closed (fun a ha b hb => seen (hl.closed a ha b hb))
      (seen (hl.started name (List.mem_singleton_self name))) hr

/-- The dependencies of a query are what it leads to by calls, and they are registered. -/
theorem dependencies_ok {needed : ExtTreeSet String} (h : c.dependencies name = .ok needed) :
    ∀ n, (n ∈ needed ↔ Relation.ReflTransGen (Steps c.callees) name n) ∧
      (n ∈ needed → c.contains n = true) := by
  rw [dependencies] at h
  split at h
  · cases h
  · rename_i none
    cases h
    intro n
    rw [ExtTreeSet.mem_ofList, List.contains_iff_mem]
    refine ⟨by rw [List.mem_reverse, mem_entered], fun hn => ?_⟩
    simpa using List.find?_eq_none.1 none n hn

/-- Only a call to a query that is not registered keeps the dependencies from being found. -/
theorem exists_dependencies
    (h : ∀ n, Relation.ReflTransGen (Steps c.callees) name n → c.contains n = true) :
    ∃ needed, c.dependencies name = .ok needed := by
  rw [dependencies]
  split
  · rename_i missing found
    have registered := h missing (mem_entered.1 (List.mem_reverse.1 (List.mem_of_find?_eq_some found)))
    have unregistered := List.find?_some found
    simp [registered] at unregistered
  · exact ⟨_, rfl⟩

theorem getElem?_calls (n : String) : c.calls[n]? = c.queries[n]?.map Query.calledQueries :=
  Std.ExtTreeMap.getElem?_map

theorem next_calls (n : String) : c.calls.next n = c.callees n := by
  rw [CallGraph.next, Std.ExtTreeMap.getD_eq_getD_getElem?, getElem?_calls, callees]
  cases c.queries[n]? with
  | none => rfl
  | some q => rfl

variable {needed : ExtTreeSet String}

theorem getElem?_callsOf {n : String} (hn : n ∈ needed) : (c.callsOf needed)[n]? = c.calls[n]? := by
  rw [callsOf, Std.ExtTreeMap.getElem?_filter']
  cases c.calls[n]? with
  | none => rfl
  | some callees => exact Option.filter_some_pos (decide_eq_true hn)

theorem next_callsOf {n : String} (hn : n ∈ needed) : (c.callsOf needed).next n = c.callees n := by
  rw [← next_calls, CallGraph.next, CallGraph.next, Std.ExtTreeMap.getD_eq_getD_getElem?,
    getElem?_callsOf hn, ← Std.ExtTreeMap.getD_eq_getD_getElem?]

theorem mem_callsOf {n : String} : n ∈ c.callsOf needed ↔ n ∈ needed ∧ c.contains n = true := by
  rw [Std.ExtTreeMap.mem_iff_isSome_getElem?, callsOf, Std.ExtTreeMap.getElem?_filter',
    getElem?_calls, contains, Std.ExtTreeMap.contains_eq_isSome_getElem?]
  cases c.queries[n]? <;> simp [Option.filter]

theorem mem_nodes_callsOf (registered : ∀ n ∈ needed, c.contains n = true)
    (closed : ∀ n ∈ needed, ∀ m ∈ c.callees n, m ∈ needed) {n : String} :
    n ∈ (c.callsOf needed).nodes ↔ n ∈ needed := by
  rw [CallGraph.mem_nodes, mem_callsOf]
  constructor
  · rintro (hn | ⟨m, hm⟩)
    · exact hn.1
    · obtain ⟨callees, hc, -⟩ := CallGraph.mem_next.1 hm
      have key : m ∈ c.callsOf needed := Std.ExtTreeMap.mem_iff_isSome_getElem?.2 (hc ▸ rfl)
      rw [mem_callsOf] at key
      rw [next_callsOf key.1] at hm
      exact closed m key.1 n hm
  · exact fun hn => .inl ⟨hn, registered n hn⟩

theorem decomposes_callsOf (h : c.dependencies name = .ok needed) :
    Components.Decomposes c.callees needed.toList (c.callsOf needed).components := by
  have mem := dependencies_ok h
  have closed : ∀ n ∈ needed, ∀ m ∈ c.callees n, m ∈ needed := fun n hn m hm =>
    (mem m).1.2 (((mem n).1.1 hn).tail hm)
  have nodes : (c.callsOf needed).nodes = needed := ExtTreeSet.ext_mem fun n =>
    mem_nodes_callsOf (fun n => (mem n).2) closed
  have decomposes := CallGraph.components_decomposes (c.callsOf needed)
  rw [nodes] at decomposes
  refine decomposes.congr (fun n hn => (next_callsOf (ExtTreeSet.mem_toList.1 hn)).symm)
    fun n hn m hm => ?_
  rw [ExtTreeSet.mem_toList] at hn ⊢
  rw [next_callsOf hn] at hm
  exact closed n hn m hm

theorem resolutionOrder_ok {components : List (List String)}
    (h : c.resolutionOrder name = .ok components) :
    ∃ nodes, Components.Decomposes c.callees nodes components ∧
      (∀ n, n ∈ nodes ↔ Relation.ReflTransGen (Steps c.callees) name n) ∧
      ∀ n ∈ nodes, c.checkCalls n = .ok () := by
  obtain ⟨needed, hneeded, h⟩ := bind_ok h
  obtain ⟨⟨⟩, hcalls, h⟩ := bind_ok h
  obtain ⟨⟨⟩, -, h⟩ := bind_ok h
  cases h
  refine ⟨_, decomposes_callsOf hneeded, fun n => ?_, fun n hn => forM_ok hcalls hn⟩
  rw [ExtTreeSet.mem_toList, (dependencies_ok hneeded n).1]

end Catalog
end Motif
