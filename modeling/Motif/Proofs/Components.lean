import Motif.Catalog.Components
import Motif.Proofs.Reach

set_option autoImplicit false
namespace Motif

open Std (ExtTreeMap ExtTreeSet TransOrd LawfulEqOrd)
open Reach (Steps)

namespace Components
variable {α : Type} {next : α → List α}

def Connected (next : α → List α) (a b : α) : Prop :=
  Relation.ReflTransGen (Steps next) a b ∧ Relation.ReflTransGen (Steps next) b a

theorem Connected.symm {a b : α} (h : Connected next a b) : Connected next b a := ⟨h.2, h.1⟩

theorem Connected.trans {a b c : α} (h : Connected next a b) (h' : Connected next b c) :
    Connected next a c := ⟨h.1.trans h'.1, h'.2.trans h.2⟩

variable [Ord α]

/-- The components of a graph, each in ascending order, and no edge from one to a later one. -/
structure Decomposes (next : α → List α) (nodes : List α) (components : List (List α)) : Prop where
  covers : ∀ a, (∃ C ∈ components, a ∈ C) ↔ a ∈ nodes
  inhabited : ∀ C ∈ components, C ≠ []
  connected : ∀ C ∈ components, ∀ a ∈ C, ∀ b, b ∈ C ↔ Connected next a b
  apart : components.Pairwise List.Disjoint
  after : components.Pairwise fun C D => ∀ a ∈ C, ∀ b ∈ next a, b ∉ D
  ascending : ∀ C ∈ components, C.Pairwise fun a b => compare a b = .lt

namespace Decomposes
variable {nodes : List α} {components : List (List α)} (h : Decomposes next nodes components)
include h

theorem snoc {C : List α} (inhabited : C ≠ [])
    (connected : ∀ a ∈ C, ∀ b, b ∈ C ↔ Connected next a b) (fresh : ∀ a ∈ C, a ∉ nodes)
    (closed : ∀ a ∈ nodes, ∀ b ∈ next a, b ∈ nodes)
    (ascending : C.Pairwise fun a b => compare a b = .lt) {nodes' : List α}
    (mem : ∀ a, a ∈ nodes' ↔ a ∈ C ∨ a ∈ nodes) : Decomposes next nodes' (components ++ [C]) where
  covers a := by
    rw [mem, ← h.covers a]
    simp only [List.mem_append, List.mem_singleton, or_and_right, exists_or, exists_eq_left]
    exact or_comm
  inhabited := by simpa [or_imp, forall_and] using ⟨h.inhabited, inhabited⟩
  connected := by simpa [or_imp, forall_and] using ⟨h.connected, connected⟩
  apart := List.pairwise_append.2 ⟨h.apart, List.pairwise_singleton _ _, fun D hD D' hD' a ha ha' =>
    fresh a (List.mem_singleton.1 hD' ▸ ha') ((h.covers a).1 ⟨D, hD, ha⟩)⟩
  after := List.pairwise_append.2 ⟨h.after, List.pairwise_singleton _ _,
    fun D hD D' hD' a ha b hb hm => fresh b (List.mem_singleton.1 hD' ▸ hm)
      (closed a ((h.covers a).1 ⟨D, hD, ha⟩) b hb)⟩
  ascending := by simpa [or_imp, forall_and] using ⟨h.ascending, ascending⟩

/-- Graphs that agree on a closed set of nodes have the same components there. -/
theorem congr {next' : α → List α} (same : ∀ a ∈ nodes, next' a = next a)
    (closed : ∀ a ∈ nodes, ∀ b ∈ next a, b ∈ nodes) : Decomposes next' nodes components := by
  have paths : ∀ {f f' : α → List α}, (∀ a ∈ nodes, f' a = f a) →
      (∀ a ∈ nodes, ∀ b ∈ f a, b ∈ nodes) → ∀ {a b}, a ∈ nodes →
      Relation.ReflTransGen (Steps f) a b → b ∈ nodes ∧ Relation.ReflTransGen (Steps f') a b := by
    intro f f' same closed a b ha hr
    induction hr with
    | refl => exact ⟨ha, .refl⟩
    | @tail b c _ step ih =>
      have step' : c ∈ f' b := by rwa [same b ih.1]
      exact ⟨closed b ih.1 c step, ih.2.tail step'⟩
  have closed' : ∀ a ∈ nodes, ∀ b ∈ next' a, b ∈ nodes := fun a ha => same a ha ▸ closed a ha
  have back : ∀ a ∈ nodes, next a = next' a := fun a ha => (same a ha).symm
  refine { h with
    connected := fun C hC a ha b => ?_
    after := h.after.imp_of_mem fun {C D} hC _ after a ha => ?_ }
  · have hn : a ∈ nodes := (h.covers a).1 ⟨C, hC, ha⟩
    rw [h.connected C hC a ha b]
    constructor
    · rintro ⟨hab, hba⟩
      obtain ⟨hb, hab⟩ := paths same closed hn hab
      exact ⟨hab, (paths same closed hb hba).2⟩
    · rintro ⟨hab, hba⟩
      obtain ⟨hb, hab⟩ := paths back closed' hn hab
      exact ⟨hab, (paths back closed' hb hba).2⟩
  · rw [same a ((h.covers a).1 ⟨C, hC, ha⟩)]
    exact after a ha

theorem nodup [TransOrd α] {C : List α} (hC : C ∈ components) : C.Nodup := by
  refine (h.ascending C hC).imp fun {a b} lt e => ?_
  have self : compare b b = .eq := Std.ReflCmp.compare_self
  rw [e, self] at lt
  cases lt

theorem nodup_flatten [TransOrd α] : components.flatten.Nodup :=
  List.nodup_flatten.2 ⟨fun _ hC => h.nodup hC, h.apart⟩

theorem mem_flatten {a : α} : a ∈ components.flatten ↔ a ∈ nodes := by
  rw [List.mem_flatten, h.covers]

theorem shared_iff {a b : α} :
    (∃ C ∈ components, a ∈ C ∧ b ∈ C) ↔ a ∈ nodes ∧ Connected next a b := by
  constructor
  · rintro ⟨C, hC, ha, hb⟩
    exact ⟨(h.covers a).1 ⟨C, hC, ha⟩, (h.connected C hC a ha b).1 hb⟩
  · rintro ⟨ha, hab⟩
    obtain ⟨C, hC, ha⟩ := (h.covers a).2 ha
    exact ⟨C, hC, ha, (h.connected C hC a ha b).2 hab⟩

theorem two_le_length_iff [TransOrd α] {C : List α} (hC : C ∈ components) {a : α} (ha : a ∈ C) :
    2 ≤ C.length ↔ ∃ b, b ≠ a ∧ Connected next a b := by
  have nodup := h.nodup hC
  simp only [← h.connected C hC a ha]
  constructor
  · intro two
    by_contra none
    have all : ∀ b ∈ C, b = a := fun b hb => by
      by_contra ne
      exact none ⟨b, ne, hb⟩
    have := (List.nodup_replicate.1 (List.eq_replicate_iff.2 ⟨rfl, all⟩ ▸ nodup))
    omega
  · rintro ⟨b, ne, hb⟩
    have sub : [b, a] ⊆ C := List.cons_subset.2 ⟨hb, List.cons_subset.2 ⟨ha, List.nil_subset C⟩⟩
    have nodup : [b, a].Nodup := by simpa using ne
    exact (nodup.subperm sub).length_le

theorem earlier {i j : Nat} {C D : List α} (hi : components[i]? = some C)
    (hj : components[j]? = some D) {a b : α} (ha : a ∈ C) (hb : b ∈ D) (step : b ∈ next a)
    (ne : i ≠ j) : j < i := by
  refine Nat.lt_of_le_of_ne (Nat.le_of_not_lt fun lt => ?_) ne.symm
  obtain ⟨hi', rfl⟩ := List.getElem?_eq_some_iff.1 hi
  obtain ⟨hj', rfl⟩ := List.getElem?_eq_some_iff.1 hj
  exact List.pairwise_iff_getElem.1 h.after i j hi' hj' lt a ha b step hb

theorem earlier_or_same {i : Nat} {C : List α} (hi : components[i]? = some C) {a b : α}
    (ha : a ∈ C) (step : b ∈ next a) (hb : b ∈ nodes) :
    b ∈ C ∨ ∃ j < i, ∃ D, components[j]? = some D ∧ b ∈ D := by
  obtain ⟨D, hD, hb⟩ := (h.covers b).2 hb
  obtain ⟨j, hj⟩ := List.getElem?_of_mem hD
  by_cases e : i = j
  · subst e
    cases hi.symm.trans hj
    exact .inl hb
  · exact .inr ⟨j, h.earlier hi hj ha hb step e, D, hj, hb⟩

theorem mem_or_before {done rest : List (List α)} {C : List α} (e : components = done ++ C :: rest)
    {a b : α} (ha : a ∈ C) (step : b ∈ next a) (hb : b ∈ nodes) : b ∈ C ∨ ∃ D ∈ done, b ∈ D := by
  have hi : components[done.length]? = some C := by
    rw [e, List.getElem?_append_right (Nat.le_refl _), Nat.sub_self]
    rfl
  refine (h.earlier_or_same hi ha step hb).imp_right ?_
  rintro ⟨j, hj, D, hD, hbD⟩
  rw [e, List.getElem?_append_left hj] at hD
  exact ⟨D, List.mem_of_getElem? hD, hbD⟩

end Decomposes
end Components
end Motif
