import Motif.Proofs.Closure
import Motif.Proofs.Search.Calls

set_option autoImplicit false
namespace Motif

open Std (ExtTreeSet)

namespace Searcher

variable {start goal node : Value} {t t' : Trail}

def Passed (E : Finset Tuple) (start goal : Value) (t : Trail) (node : Value) : Prop :=
  ∀ next, [node, next] ∈ E →
    (next = start ∧ ¬(node = start ∧ next = goal)) ∨ (next ≠ goal ∧ next ∈ t.visited)

theorem Passed.mono {E : Finset Tuple} (h : Passed E start goal t node)
    (ht : ∀ v ∈ t.visited, v ∈ t'.visited) : Passed E start goal t' node := fun next hn =>
  (h next hn).imp_right fun ⟨hg, hv⟩ => ⟨hg, ht next hv⟩

/-- An edge that leads to the goal: an edge of its own if it is the start. -/
def Arrives (start goal node next : Value) : Prop :=
  next = goal ∧ (next = start → node = start)

theorem follow?_eq_none {next : Value} :
    t.follow? start goal node [node, next] = none ↔ Arrives start goal node next := by
  simp only [Trail.follow?, List.getElem?_cons_succ, List.getElem?_cons_zero, Arrives]
  grind

structure Followed (edges : List Tuple) (start goal node : Value) (t t' : Trail)
    (found : List Value) : Prop where
  later : t'.later = found ++ t.later
  nodup : found.Nodup
  fresh : ∀ v ∈ found, v ∉ t.visited ∧ [node, v] ∈ edges
  visited : ∀ v, v ∈ t'.visited ↔ v ∈ t.visited ∨ v ∈ found
  passed : ∀ next, [node, next] ∈ edges →
    (next = start ∧ ¬(node = start ∧ next = goal)) ∨ (next ≠ goal ∧ next ∈ t'.visited)

theorem followed_single {next : Value} (h : t.follow? start goal node [node, next] = some t') :
    ∃ found, Followed [[node, next]] start goal node t t' found := by
  simp only [Trail.follow?, List.getElem?_cons_succ, List.getElem?_cons_zero] at h
  split at h
  · split at h
    · cases h
    · cases h
      refine ⟨[], rfl, .nil, by simp, by simp, ?_⟩
      grind
  · split at h
    · cases h
    · split at h
      · cases h
        refine ⟨[], rfl, .nil, by simp, by simp, ?_⟩
        grind
      · cases h
        refine ⟨[next], rfl, by simp, by simpa, ?_, ?_⟩
        · intro v
          rw [ExtTreeSet.mem_insert, Std.LawfulEqCmp.compare_eq_iff_eq, List.mem_singleton,
            or_comm, eq_comm]
        · simp
          grind

theorem followed_foldlM {edges : List Tuple} (he : ∀ e ∈ edges, ∃ next, e = [node, next])
    (h : edges.foldlM (Trail.follow? start goal node) t = some t') :
    ∃ found, Followed edges start goal node t t' found := by
  induction edges generalizing t with
  | nil =>
    cases h
    exact ⟨[], rfl, .nil, by simp, by simp, by simp⟩
  | cons e rest ih =>
    rw [List.forall_mem_cons] at he
    obtain ⟨⟨next, rfl⟩, he⟩ := he
    rw [List.foldlM_cons] at h
    obtain ⟨t₁, h₁, h⟩ := Option.bind_eq_some_iff.1 h
    obtain ⟨found, hf⟩ := followed_single h₁
    obtain ⟨more, hm⟩ := ih he h
    refine ⟨more ++ found, ?_⟩
    constructor
    case later => rw [hm.later, hf.later, List.append_assoc]
    case nodup =>
      refine hm.nodup.append hf.nodup fun v hv hv' => ?_
      exact (hm.fresh v hv).1 ((hf.visited v).2 (.inr hv'))
    case fresh =>
      intro v hv
      rcases List.mem_append.1 hv with hv | hv
      · obtain ⟨hn, hv⟩ := hm.fresh v hv
        exact ⟨fun h => hn ((hf.visited v).2 (.inl h)), List.mem_cons_of_mem _ hv⟩
      · obtain ⟨hn, hv⟩ := hf.fresh v hv
        exact ⟨hn, List.mem_cons.2 (.inl (List.mem_singleton.1 hv))⟩
    case visited =>
      intro v
      rw [hm.visited, hf.visited, List.mem_append, or_assoc, or_comm (a := v ∈ found)]
    case passed =>
      intro v hv
      rcases List.mem_cons.1 hv with e | hv
      · refine (hf.passed v (List.mem_singleton.2 e)).imp_right fun ⟨hg, hv⟩ => ⟨hg, ?_⟩
        exact (hm.visited v).2 (.inl hv)
      · exact hm.passed v hv

theorem arrives_of_foldlM {edges : List Tuple} (he : ∀ e ∈ edges, ∃ next, e = [node, next])
    (h : edges.foldlM (Trail.follow? start goal node) t = none) :
    ∃ next, [node, next] ∈ edges ∧ Arrives start goal node next := by
  induction edges generalizing t with
  | nil => cases h
  | cons e rest ih =>
    rw [List.forall_mem_cons] at he
    obtain ⟨⟨next, rfl⟩, he⟩ := he
    rw [List.foldlM_cons] at h
    cases h₁ : t.follow? start goal node [node, next] with
    | none => exact ⟨next, List.mem_cons_self, follow?_eq_none.1 h₁⟩
    | some t₁ =>
      rw [h₁] at h
      obtain ⟨next, hn, ha⟩ := ih he h
      exact ⟨next, List.mem_cons_of_mem _ hn, ha⟩

/-- How far a path search has come: what it has visited is reached from the start, and what it will
not go on from is passed. -/
structure OnTrail (E : Finset Tuple) (start goal : Value) (t : Trail) (nodes : List Value) :
    Prop where
  reached : ∀ v ∈ t.visited, EdgePath E.val start v
  faced : ∀ v ∈ nodes ++ t.later, v = start ∨ v ∈ t.visited
  passed : ∀ v, v = start ∨ v ∈ t.visited → v ∉ nodes ++ t.later → Passed E start goal t v

variable {E : Finset Tuple} {nodes : List Value}

theorem onTrail_start : OnTrail E start goal {} [start] where
  reached v hv := absurd hv ExtTreeSet.not_mem_empty
  faced v hv := by simpa using hv
  passed v hv hn := by simp_all

theorem OnTrail.not_linked (h : OnTrail E start goal t []) (ht : t.later = []) :
    ¬Linked E.val start goal := by
  have passed : ∀ v, v = start ∨ v ∈ t.visited → Passed E start goal t v :=
    fun v hv => h.passed v hv (by simp [ht])
  intro linked
  by_cases e : start = goal
  · subst e
    have := passed start (.inl rfl) start (linked_self.1 linked)
    simp at this
  · have inside : ∀ v, EdgePath E.val start v → (v = start ∨ v ∈ t.visited) ∧ v ≠ goal := by
      intro v path
      have step : ∀ u w, u = start ∨ u ∈ t.visited → [u, w] ∈ E →
          (w = start ∨ w ∈ t.visited) ∧ w ≠ goal := by
        intro u w hu hw
        rcases passed u hu w hw with ⟨rfl, -⟩ | ⟨hg, hv⟩
        · exact ⟨.inl rfl, e⟩
        · exact ⟨.inr hv, hg⟩
      induction path with
      | single hw => exact step start _ (.inl rfl) hw
      | tail _ hw ih => exact step _ _ ih.1 hw
    exact (inside goal ((linked_of_ne e).1 linked)).2 rfl

theorem OnTrail.linked (h : OnTrail E start goal t (node :: nodes)) {next : Value}
    (hn : [node, next] ∈ E) (ha : Arrives start goal node next) : Linked E.val start goal := by
  obtain ⟨rfl, loop⟩ := ha
  by_cases e : next = start
  · obtain rfl := loop e
    subst e
    exact linked_self.2 hn
  · rw [linked_of_ne (Ne.symm e)]
    rcases h.faced node (by simp) with rfl | hv
    · exact .single hn
    · exact (h.reached node hv).tail hn

theorem OnTrail.turn (h : OnTrail E start goal t []) :
    OnTrail E start goal { t with later := [] } t.later.reverse where
  reached := h.reached
  faced v hv := h.faced v (by simpa using hv)
  passed v hv hn := h.passed v hv (by simpa using hn)

theorem OnTrail.follow (h : OnTrail E start goal t (node :: nodes)) {edges : List Tuple}
    (he : ∀ next, [node, next] ∈ edges ↔ [node, next] ∈ E) {found : List Value}
    (hf : Followed edges start goal node t t' found) : OnTrail E start goal t' nodes where
  reached v hv := by
    rcases (hf.visited v).1 hv with hv | hv
    · exact h.reached v hv
    · have step := (he v).1 (hf.fresh v hv).2
      rcases h.faced node (by simp) with rfl | hn
      · exact .single step
      · exact (h.reached node hn).tail step
  faced v hv := by
    rw [hf.later] at hv
    rw [hf.visited]
    have := h.faced v
    grind
  passed v hv hn := by
    by_cases e : v = node
    · subst e
      intro next hnext
      exact hf.passed next ((he next).2 hnext)
    · rw [hf.later] at hn
      rw [hf.visited] at hv
      refine (h.passed v ?_ ?_).mono fun u hu => (hf.visited u).2 (.inl hu)
      · grind
      · grind

def unvisited (E : Finset Tuple) (t : Trail) : Finset Value :=
  (E.image fun e => e.getD 1 .null).filter (· ∉ t.visited)

theorem card_unvisited {edges : List Tuple} (he : ∀ e ∈ edges, e ∈ E) {found : List Value}
    (hf : Followed edges start goal node t t' found) :
    (unvisited E t').card + found.length = (unvisited E t).card := by
  have split : unvisited E t = unvisited E t' ∪ found.toFinset := by
    ext v
    have target : v ∈ found → v ∉ t.visited ∧ v ∈ E.image fun e => e.getD 1 .null := fun hv =>
      ⟨(hf.fresh v hv).1, Finset.mem_image.2 ⟨[node, v], he _ (hf.fresh v hv).2, rfl⟩⟩
    simp only [unvisited, Finset.mem_filter, Finset.mem_union, List.mem_toFinset, hf.visited]
    grind
  have disjoint : Disjoint (unvisited E t') found.toFinset := by
    rw [Finset.disjoint_left]
    intro v hv hm
    exact (Finset.mem_filter.1 hv).2 ((hf.visited v).2 (.inr (List.mem_toFinset.1 hm)))
  rw [split, Finset.card_union_of_disjoint disjoint, List.toFinset_card_of_nodup hf.nodup]

section
variable {σ ε : Type} {s : Searcher σ ε} {callee : Reference}

def Shows (s : Searcher σ ε) (callee : Reference) (E : Finset Tuple) (node : Value) : Prop :=
  (s.ask callee [some node, none]).Returns fun edges =>
    (∀ e ∈ edges, ∃ next, e = [node, next]) ∧ ∀ next, [node, next] ∈ edges ↔ [node, next] ∈ E

/-- A path search ends and tells whether edges link the start to the goal, if the nodes it meets show
their edges. -/
theorem reachesFrom_returns
    (shown : ∀ node, node = start ∨ EdgePath E.val start node → s.Shows callee E node) (steps : Nat)
    {t : Trail} {nodes : List Value} (h : OnTrail E start goal t nodes)
    (enough : 3 * (unvisited E t).card + 2 * t.later.length + nodes.length ≤ steps) :
    (s.reachesFrom callee start goal t nodes).Returns fun yes =>
      yes = true ↔ Linked E.val start goal := by
  induction steps using Nat.strongRecOn generalizing t nodes with
  | ind steps ih =>
    cases nodes with
    | nil =>
      rw [reachesFrom_nil]
      split
      · rename_i empty
        refine Search.returns_pure ?_
        simpa using h.not_linked (List.isEmpty_iff.1 empty)
      · rename_i later
        have pos : 0 < t.later.length :=
          List.length_pos_iff.2 fun e => later (List.isEmpty_iff.2 e)
        refine ih (steps - 1) ?_ h.turn ?_
        · omega
        · simp only [List.length_reverse, List.length_nil]
          change 3 * (unvisited E t).card + _ + _ ≤ _
          simp only [List.length_nil] at enough
          omega
    | cons node rest =>
      rw [reachesFrom_cons]
      have met := (h.faced node (by simp)).imp_right (h.reached node)
      refine (shown node met).bind ?_
      rintro edges ⟨shape, he⟩
      have sub : ∀ e ∈ edges, e ∈ E := fun e hm => by
        obtain ⟨next, rfl⟩ := shape e hm
        exact (he next).1 hm
      split
      · rename_i hnone
        obtain ⟨next, hn, ha⟩ := arrives_of_foldlM shape hnone
        exact Search.returns_pure (by simpa using h.linked ((he next).1 hn) ha)
      · rename_i t' hsome
        obtain ⟨new, hf⟩ := followed_foldlM shape hsome
        have card := card_unvisited sub hf
        have later : t'.later.length = new.length + t.later.length := by
          rw [hf.later, List.length_append]
        simp only [List.length_cons] at enough
        refine ih (steps - 1) ?_ (h.follow he hf) ?_ <;> omega

/-- The search for a path tells whether edges link the start to the goal, if all nodes that they lead
to from the start show them. -/
theorem reaches_of_shows (goal : Value)
    (shown : ∀ node, node = start ∨ EdgePath E.val start node → s.Shows callee E node) :
    (s.reaches callee start goal).Returns fun yes => yes = true ↔ Linked E.val start goal :=
  reachesFrom_returns shown _ onTrail_start le_rfl

variable {m : Model} {called : String → Prop} {found : String → Finset Tuple}
  (hs : s.Answers m called found) (hc : called callee.query)
  (hw : ∀ e ∈ found callee.query, e.length = 2)
include hs hc hw

theorem Answers.shows (node : Value) : s.Shows callee (found callee.query) node := by
  refine (hs.ask callee hc _).mono ?_
  rintro edges ⟨-, he⟩
  refine ⟨fun e hm => ?_, fun next => ?_⟩
  · obtain ⟨hm, ha⟩ := (he e).1 hm
    obtain ⟨a, b, rfl⟩ := List.length_eq_two.1 (hw e hm)
    refine ⟨b, ?_⟩
    have := Binding.agrees_iff.1 ha 0 node rfl
    simpa using this
  · rw [he]
    simp [Binding.agrees]

theorem reaches_returns (start goal : Value) :
    (s.reaches callee start goal).Returns fun yes =>
      yes = true ↔ Linked (found callee.query).val start goal :=
  reaches_of_shows goal fun node _ => hs.shows hc hw node

end
end Searcher
end Motif
