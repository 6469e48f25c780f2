import Motif.Proofs.Components

/-!
Tarjan's algorithm finds the components. Nodes on the stack are linked from older ones to newer ones,
and a node that the search has left leads to an older one on the stack. So a node that leads to
nothing older than itself is connected to all above it on the stack, and to nothing else.
-/
set_option autoImplicit false
namespace Motif

open Std (ExtTreeMap ExtTreeSet TransOrd LawfulEqOrd)
open Reach (Steps)
open Components

namespace CallGraph
variable {α : Type} [Ord α] [TransOrd α] {g : CallGraph α}

abbrev Leads (g : CallGraph α) : α → α → Prop := Relation.ReflTransGen (Steps g.next)

variable [LawfulEqOrd α]

theorem mem_next {a b : α} : b ∈ g.next a ↔ ∃ s, g[a]? = some s ∧ b ∈ s := by
  rw [next, ExtTreeSet.mem_toList, ExtTreeMap.getD_eq_getD_getElem?]
  cases g[a]? <;> simp

theorem mem_nodes {a : α} : a ∈ g.nodes ↔ a ∈ g ∨ ∃ b, a ∈ g.next b := by
  classical
  simp only [nodes, ExtTreeSet.mem_ofList, List.contains_iff_mem, List.mem_flatMap, List.mem_cons,
    ExtTreeSet.mem_toList, Prod.exists, ExtTreeMap.mem_toList_iff_getElem?_eq_some, mem_next]
  constructor
  · rintro ⟨b, s, hs, rfl | ha⟩
    · exact .inl (ExtTreeMap.mem_iff_isSome_getElem?.2 (hs ▸ rfl))
    · exact .inr ⟨b, s, hs, ha⟩
  · rintro (ha | ⟨b, s, hs, ha⟩)
    · exact ⟨a, g[a], ExtTreeMap.getElem?_eq_some_getElem ha, .inl rfl⟩
    · exact ⟨b, s, hs, .inr ha⟩

theorem next_subset_nodes {a b : α} (h : b ∈ g.next a) : b ∈ g.nodes := mem_nodes.2 (.inr ⟨a, h⟩)

end CallGraph

namespace Tarjan
variable {α : Type} [Ord α] [TransOrd α] {g : CallGraph α} {t t' t₀ : Tarjan α} {v w : α}
  {done rest : List α} {low : Nat}

def num (t : Tarjan α) (a : α) : Nat := t.indices.getD a 0

theorem num_of_getElem? {a : α} {i : Nat} (h : t.indices[a]? = some i) : t.num a = i := by
  rw [num, ExtTreeMap.getD_eq_getD_getElem?, h, Option.getD_some]

theorem mem_of_getElem? {a : α} {i : Nat} (h : t.indices[a]? = some i) : a ∈ t.indices :=
  ExtTreeMap.mem_iff_isSome_getElem?.2 (h ▸ rfl)

/-- Numbers ascend in the order of entry and along the stack, older nodes on the stack lead to newer
ones, and components that are complete lead to nothing but themselves. -/
structure Sound (g : CallGraph α) (t : Tarjan α) : Prop where
  known : ∀ a ∈ t.indices, a ∈ g.nodes
  numbered : ∀ a ∈ t.indices, t.num a < t.index
  falling : t.stack.Pairwise fun a b => t.num b < t.num a
  onStack : ∀ a, a ∈ t.onStack ↔ a ∈ t.stack
  entered : ∀ a, a ∈ t.indices ↔ a ∈ t.stack ∨ a ∈ t.found.flatten
  apart : ∀ a ∈ t.stack, a ∉ t.found.flatten
  older : ∀ a ∈ t.stack, ∀ b ∈ t.stack, t.num a ≤ t.num b → g.Leads a b
  closed : ∀ a ∈ t.found.flatten, ∀ b ∈ g.next a, b ∈ t.found.flatten
  decomposes : Decomposes g.next t.found.flatten t.found.reverse

def Kept (t₀ t : Tarjan α) : Prop :=
  ∀ a ∈ t₀.indices, t.indices[a]? = t₀.indices[a]? ∧ t.lowlinks[a]? = t₀.lowlinks[a]?

/-- The search has entered `v` and not left it. -/
structure Inside (g : CallGraph α) (t₀ : Tarjan α) (v : α) (t : Tarjan α) : Prop where
  sound : t.Sound g
  stack : ∃ newer, t.stack = newer ++ v :: t₀.stack
  kept : Kept t₀ t
  own : t.indices[v]? = some t₀.index
  back : ∀ a ∈ t.stack, g.Leads a v

def Followed (t₀ t : Tarjan α) (low : Nat) (b : α) : Prop :=
  b ∈ t.indices ∧ (b ∈ t₀.stack → low ≤ t₀.num b)

structure Explores (g : CallGraph α) (t₀ : Tarjan α) (v : α) (done : List α) (t : Tarjan α)
    (low : Nat) : Prop extends Inside g t₀ v t where
  edges : ∀ a ∈ t.indices, a ∉ t₀.indices → a ≠ v → ∀ b ∈ g.next a, Followed t₀ t low b
  followed : ∀ b ∈ done, Followed t₀ t low b
  least : t.lowlinks[v]? = some low
  le : low ≤ t₀.index
  leads : ∃ u ∈ t.stack, t.num u = low ∧ g.Leads v u

structure Connects (g : CallGraph α) (t₀ : Tarjan α) (v : α) (t : Tarjan α) (low : Nat) : Prop where
  sound : t.Sound g
  stack : t₀.stack <:+ t.stack
  kept : Kept t₀ t
  own : v ∈ t.indices
  edges : ∀ a ∈ t.indices, a ∉ t₀.indices → ∀ b ∈ g.next a, Followed t₀ t low b
  back : ∀ a ∈ t.stack, ∃ u ∈ t₀.stack, g.Leads a u
  least : t.lowlinks[v]? = some low
  leads : low < t₀.index → ∃ u ∈ t.stack, t.num u = low ∧ g.Leads v u

theorem Kept.num (h : Kept t₀ t) {a : α} (ha : a ∈ t₀.indices) : t.num a = t₀.num a := by
  simp only [Tarjan.num, ExtTreeMap.getD_eq_getD_getElem?, (h a ha).1]

theorem Kept.mem (h : Kept t₀ t) {a : α} (ha : a ∈ t₀.indices) : a ∈ t.indices := by
  rw [ExtTreeMap.mem_iff_isSome_getElem?] at ha ⊢
  rwa [(h a (ExtTreeMap.mem_iff_isSome_getElem?.2 ha)).1]

theorem Kept.trans (h : Kept t₀ t) (h' : Kept t t') : Kept t₀ t' := fun a ha =>
  ⟨(h' a (h.mem ha)).1.trans (h a ha).1, (h' a (h.mem ha)).2.trans (h a ha).2⟩

theorem Followed.mono {b : α} (h : Followed t₀ t low b) (ht : ∀ a ∈ t.indices, a ∈ t'.indices)
    {c : Nat} (hc : c ≤ low) : Followed t₀ t' c b := ⟨ht b h.1, fun hb => hc.trans (h.2 hb)⟩

theorem Sound.mem_of_stack (h : t.Sound g) {a : α} (ha : a ∈ t.stack) : a ∈ t.indices :=
  (h.entered a).2 (.inl ha)

theorem Sound.lower (h : t.Sound g) (c : Nat) : (t.lower v c).Sound g :=
  ⟨h.known, h.numbered, h.falling, h.onStack, h.entered, h.apart, h.older, h.closed, h.decomposes⟩

theorem Sound.num_lt (h : t₀.Sound g) (kept : Kept t₀ t) {a : α} (ha : a ∈ t₀.indices) :
    t.num a < t₀.index := by
  rw [kept.num ha]
  exact h.numbered a ha

section
variable [LawfulEqOrd α]

theorem kept_enter (hv : v ∉ t₀.indices) : Kept t₀ (t₀.enter v) := by
  intro a ha
  have ne : compare v a ≠ .eq := fun e => hv (Std.LawfulEqCmp.eq_of_compare e ▸ ha)
  simp only [enter, ExtTreeMap.getElem?_insert, if_neg ne, and_self]

theorem mem_indices_enter {a : α} : a ∈ (t.enter v).indices ↔ a = v ∨ a ∈ t.indices := by
  rw [enter, ExtTreeMap.mem_insert, Std.LawfulEqCmp.compare_eq_iff_eq, eq_comm]

omit [LawfulEqOrd α] in
theorem getElem?_indices_enter : (t.enter v).indices[v]? = some t.index := by
  simp only [enter, ExtTreeMap.getElem?_insert_self]

variable (h : t₀.Sound g) (hv : v ∉ t₀.indices) (known : v ∈ g.nodes)
  (leads : ∀ a ∈ t₀.stack, g.Leads a v)
include h hv known leads

theorem inside_enter : Inside g t₀ v (t₀.enter v) := by
  have kept := kept_enter hv
  have num : (t₀.enter v).num v = t₀.index := num_of_getElem? getElem?_indices_enter
  have old : ∀ a ∈ t₀.stack, (t₀.enter v).num a = t₀.num a := fun a ha =>
    kept.num (h.mem_of_stack ha)
  have back : ∀ a ∈ v :: t₀.stack, g.Leads a v := fun a ha => by
    rcases List.mem_cons.1 ha with rfl | hm
    · exact .refl
    · exact leads a hm
  refine ⟨?_, ⟨[], rfl⟩, kept, getElem?_indices_enter, back⟩
  constructor
  case known =>
    intro a ha
    rcases mem_indices_enter.1 ha with rfl | ha
    · exact known
    · exact h.known a ha
  case numbered =>
    intro a ha
    change _ < t₀.index + 1
    rcases mem_indices_enter.1 ha with rfl | ha
    · omega
    · have := h.num_lt kept ha
      omega
  case falling =>
    refine List.pairwise_cons.2 ⟨fun a ha => ?_, h.falling.imp_of_mem fun {a b} ha hb lt => ?_⟩
    · rw [num]
      exact h.num_lt kept (h.mem_of_stack ha)
    · rwa [old a ha, old b hb]
  case onStack =>
    intro a
    change a ∈ t₀.onStack.insert v ↔ a ∈ v :: t₀.stack
    rw [ExtTreeSet.mem_insert, Std.LawfulEqCmp.compare_eq_iff_eq, h.onStack, List.mem_cons, eq_comm]
  case entered =>
    intro a
    change _ ↔ a ∈ v :: t₀.stack ∨ _
    rw [mem_indices_enter, h.entered, List.mem_cons, or_assoc]
    rfl
  case apart =>
    intro a ha
    rcases List.mem_cons.1 ha with rfl | hm
    · exact fun hf => hv ((h.entered a).2 (.inr hf))
    · exact h.apart a hm
  case older =>
    intro a ha b hb le
    rcases List.mem_cons.1 hb with rfl | hm'
    · exact back a ha
    rcases List.mem_cons.1 ha with rfl | hm
    · have := h.num_lt kept (h.mem_of_stack hm')
      omega
    · rw [old a hm, old b hm'] at le
      exact h.older a hm b hm' le
  case closed => exact h.closed
  case decomposes => exact h.decomposes

theorem explores_enter : Explores g t₀ v [] (t₀.enter v) t₀.index where
  toInside := inside_enter h hv known leads
  edges a ha hn ne := absurd (mem_indices_enter.1 ha) (not_or.2 ⟨ne, hn⟩)
  followed b hb := absurd hb List.not_mem_nil
  least := by simp only [enter, ExtTreeMap.getElem?_insert_self]
  le := Nat.le_refl _
  leads := ⟨v, List.mem_cons_self, num_of_getElem? getElem?_indices_enter, .refl⟩

end

namespace Inside
variable (h : Inside g t₀ v t)
include h

theorem num_own : t.num v = t₀.index := num_of_getElem? h.own

theorem mem_own : v ∈ t.indices := mem_of_getElem? h.own

theorem mem_stack : v ∈ t.stack := by
  obtain ⟨newer, e⟩ := h.stack
  rw [e]
  exact List.mem_append_right _ List.mem_cons_self

theorem suffix : t₀.stack <:+ t.stack := by
  obtain ⟨newer, e⟩ := h.stack
  exact ⟨newer ++ [v], by rw [e, List.append_assoc, List.singleton_append]⟩

theorem newer {a : α} (ha : a ∈ t.stack) (hn : a ∉ t₀.stack) : t₀.index ≤ t.num a := by
  obtain ⟨newer, e⟩ := h.stack
  have falling := h.sound.falling
  rw [e] at ha falling
  rcases List.mem_append.1 ha with hm | hm
  · have := (List.pairwise_append.1 falling).2.2 a hm v List.mem_cons_self
    rw [h.num_own] at this
    omega
  · rw [(List.mem_cons.1 hm).resolve_right hn, h.num_own]

variable [LawfulEqOrd α]

theorem lower (hv : v ∉ t₀.indices) (least : t.lowlinks[v]? = some low) (le : low ≤ t₀.index)
    (c : Nat)
    (edges : ∀ a ∈ t.indices, a ∉ t₀.indices → a ≠ v → ∀ b ∈ g.next a, Followed t₀ t (min low c) b)
    (followed : ∀ b ∈ done, Followed t₀ t (min low c) b)
    (leads : ∃ u ∈ t.stack, t.num u = min low c ∧ g.Leads v u) :
    Explores g t₀ v done (t.lower v c) (min low c) where
  sound := h.sound.lower c
  stack := h.stack
  kept a ha := by
    have ne : compare v a ≠ .eq := fun e => hv (Std.LawfulEqCmp.eq_of_compare e ▸ ha)
    refine ⟨(h.kept a ha).1, ?_⟩
    rw [Tarjan.lower, ExtTreeMap.getElem?_modify, if_neg ne]
    exact (h.kept a ha).2
  own := h.own
  back := h.back
  edges := edges
  followed := followed
  least := by
    rw [Tarjan.lower, ExtTreeMap.getElem?_modify, if_pos Std.ReflCmp.compare_self, least]
    rfl
  le := (Nat.min_le_left _ _).trans le
  leads := leads

end Inside

theorem Inside.connect (h : Inside g t₀ v t) (c : Connects g t w t' low) : Inside g t₀ v t' where
  sound := c.sound
  stack := by
    obtain ⟨newer, e⟩ := h.stack
    obtain ⟨newest, e'⟩ := c.stack
    exact ⟨newest ++ newer, by rw [← e', e, List.append_assoc]⟩
  kept := h.kept.trans c.kept
  own := (c.kept v h.mem_own).1.trans h.own
  back a ha := by
    obtain ⟨u, hu, hr⟩ := c.back a ha
    exact hr.trans (h.back u hu)

namespace Explores
variable (h : Explores g t₀ v done t low)
include h

theorem follow_found (hw : w ∈ t.indices) (hs : w ∉ t.stack) :
    Explores g t₀ v (done ++ [w]) t low where
  toInside := h.toInside
  edges := h.edges
  followed b hb := by
    rcases List.mem_append.1 hb with hm | hm
    · exact h.followed b hm
    · cases List.mem_singleton.1 hm
      exact ⟨hw, fun hm => absurd (h.suffix.mem hm) hs⟩
  least := h.least
  le := h.le
  leads := h.leads

variable [LawfulEqOrd α] (h₀ : t₀.Sound g) (hv : v ∉ t₀.indices) (hw : w ∈ g.next v)
include h₀ hv hw

theorem follow_stack (hs : w ∈ t.stack) :
    Explores g t₀ v (done ++ [w]) (t.lower v (t.num w)) (min low (t.num w)) := by
  have lower : ∀ {b}, Followed t₀ t low b → Followed t₀ t (min low (t.num w)) b := fun hb =>
    hb.mono (fun _ ha => ha) (Nat.min_le_left _ _)
  refine h.toInside.lower hv h.least h.le _ (fun a ha hn ne b hb => lower (h.edges a ha hn ne b hb))
    (fun b hb => ?_) ?_
  · rcases List.mem_append.1 hb with hm | hm
    · exact lower (h.followed b hm)
    · cases List.mem_singleton.1 hm
      refine ⟨h.sound.mem_of_stack hs, fun hm => ?_⟩
      rw [h.kept.num (h₀.mem_of_stack hm)]
      exact Nat.min_le_right _ _
  · rcases Nat.le_total low (t.num w) with le | le
    · rw [Nat.min_eq_left le]
      exact h.leads
    · rw [Nat.min_eq_right le]
      exact ⟨w, hs, rfl, .single hw⟩

/-- An edge to a node that was not entered before. -/
theorem follow_new {lowest : Nat} (hn : w ∉ t.indices) (c : Connects g t w t' lowest) :
    Explores g t₀ v (done ++ [w]) (t'.lower v lowest) (min low lowest) := by
  have inside := h.toInside.connect c
  have before : ∀ {b}, Followed t₀ t low b → Followed t₀ t' (min low lowest) b := fun hb =>
    hb.mono (fun _ ha => c.kept.mem ha) (Nat.min_le_left _ _)
  refine inside.lower hv ((c.kept v h.mem_own).2.trans h.least) h.le _ (fun a ha ha₀ ne b hb => ?_)
    (fun b hb => ?_) ?_
  · by_cases hm : a ∈ t.indices
    · exact before (h.edges a hm ha₀ ne b hb)
    · obtain ⟨hb, le⟩ := c.edges a ha hm b hb
      refine ⟨hb, fun hm => (Nat.min_le_right _ _).trans ?_⟩
      rw [← h.kept.num (h₀.mem_of_stack hm)]
      exact le (h.suffix.mem hm)
  · rcases List.mem_append.1 hb with hm | hm
    · exact before (h.followed b hm)
    · cases List.mem_singleton.1 hm
      exact ⟨c.own, fun hm => absurd (h.sound.mem_of_stack (h.suffix.mem hm)) hn⟩
  · rcases Nat.lt_or_ge lowest low with lt | le
    · rw [Nat.min_eq_right lt.le]
      have own := h.sound.numbered v h.mem_own
      rw [h.num_own] at own
      obtain ⟨u, hu, hl, hr⟩ := c.leads ((lt.trans_le h.le).trans own)
      exact ⟨u, hu, hl, .head hw hr⟩
    · rw [Nat.min_eq_left le]
      obtain ⟨u, hu, hl, hr⟩ := h.leads
      exact ⟨u, c.stack.mem hu, (c.kept.num (h.sound.mem_of_stack hu)).trans hl, hr⟩

end Explores

/-! ### Leaving a node -/

namespace Explores
variable (h : Explores g t₀ v (g.next v) t low)
include h

theorem all_edges {a : α} (ha : a ∈ t.indices) (hn : a ∉ t₀.indices) {b : α} (hb : b ∈ g.next a) :
    Followed t₀ t low b := by
  by_cases e : a = v
  · exact h.followed b (e ▸ hb)
  · exact h.edges a ha hn e b hb

theorem connects_of_lt (lt : low < t₀.index) : Connects g t₀ v t low where
  sound := h.sound
  stack := h.suffix
  kept := h.kept
  own := h.mem_own
  edges _ ha hn _ hb := h.all_edges ha hn hb
  back a ha := by
    obtain ⟨u, hu, hl, hr⟩ := h.leads
    refine ⟨u, ?_, (h.back a ha).trans hr⟩
    by_contra hn
    have := h.newer hu hn
    omega
  least := h.least
  leads _ := h.leads

end Explores

section
variable [LawfulEqOrd α]

theorem mem_foldl_erase {l : List α} {s : ExtTreeSet α} {a : α} :
    a ∈ l.foldl .erase s ↔ a ∈ s ∧ a ∉ l := by
  induction l generalizing s with
  | nil => simp
  | cons b rest ih =>
    rw [List.foldl_cons, ih, ExtTreeSet.mem_erase, List.mem_cons, not_or,
      Ne, Std.LawfulEqCmp.compare_eq_iff_eq, eq_comm (a := b)]
    tauto

theorem ascending_mergeSort {l : List α} (hl : l.Nodup) :
    (l.mergeSort fun a b => (compare a b).isLE).Pairwise fun a b => compare a b = .lt := by
  have total : ∀ a b : α, ((compare a b).isLE || (compare b a).isLE) = true := fun a b => by
    have swap : compare b a = (compare a b).swap := Std.OrientedCmp.eq_swap
    rw [swap]
    cases compare a b <;> rfl
  have sorted : (l.mergeSort fun a b => (compare a b).isLE).Pairwise
      fun a b => (compare a b).isLE = true :=
    List.pairwise_mergeSort (fun _ _ _ => Std.TransCmp.isLE_trans) total l
  have distinct : (l.mergeSort fun a b => (compare a b).isLE).Nodup :=
    (List.mergeSort_perm l _).nodup_iff.2 hl
  refine (sorted.and distinct).imp fun {a b} ⟨le, ne⟩ => ?_
  rcases h : compare a b with _ | _ | _
  · rfl
  · exact absurd (Std.LawfulEqCmp.eq_of_compare h) ne
  · rw [h] at le
    cases le

end

theorem close_of_least [DecidableEq α] {newer older : List α} (least : t.lowlinks[v]? = t.indices[v]?)
    (stack : t.stack = newer ++ v :: older) (hv : v ∉ newer) :
    t.close v = { t with
      stack := older
      onStack := (newer ++ [v]).foldl .erase t.onStack
      found := (newer ++ [v]).mergeSort (fun a b => (compare a b).isLE) :: t.found } := by
  have differ : ∀ a ∈ newer, decide (a ≠ v) = true := fun a ha => decide_eq_true fun e => hv (e ▸ ha)
  have above : t.stack.takeWhile (· ≠ v) = newer := by
    rw [stack, List.takeWhile_append_of_pos differ, List.takeWhile_cons_of_neg (by simp),
      List.append_nil]
  have rest : t.stack.dropWhile (· ≠ v) = v :: older := by
    rw [stack, List.dropWhile_append_of_pos differ, List.dropWhile_cons_of_neg (by simp)]
  rw [close, if_pos least, List.span_eq_takeWhile_dropWhile, above, rest]
  rfl

section
variable {newer : List α} (h : Explores g t₀ v (g.next v) t t₀.index)
  (stack : t.stack = newer ++ v :: t₀.stack)

include h stack in
theorem nodup_stack : (newer ++ v :: t₀.stack).Nodup := stack ▸ h.sound.falling.imp fun lt e => by
  subst e
  omega

include h stack in
theorem mem_component {a : α} : a ∈ newer ++ [v] ↔ a ∈ t.stack ∧ a ∉ t₀.stack := by
  obtain ⟨-, nodup, apart⟩ := List.nodup_append.1 (nodup_stack h stack)
  rw [stack, List.mem_append, List.mem_singleton, List.mem_append, List.mem_cons]
  constructor
  · rintro (ha | rfl)
    · exact ⟨.inl ha, fun hm => apart a ha a (List.mem_cons_of_mem v hm) rfl⟩
    · exact ⟨.inr (.inl rfl), (List.nodup_cons.1 nodup).1⟩
  · rintro ⟨ha | ha | ha, hn⟩
    · exact .inl ha
    · exact .inr ha
    · exact absurd ha hn

variable (h₀ : t₀.Sound g)
include h stack h₀

theorem mem_component_of_next {a b : α} (ha : a ∈ newer ++ [v]) (hb : b ∈ g.next a) :
    b ∈ newer ++ [v] ∨ b ∈ t.found.flatten := by
  obtain ⟨hs, hn⟩ := (mem_component h stack).1 ha
  have fresh : a ∉ t₀.indices := fun hm => by
    have := h.newer hs hn
    have := h₀.num_lt h.kept hm
    omega
  obtain ⟨hb, le⟩ := h.all_edges (h.sound.mem_of_stack hs) fresh hb
  have newer : b ∉ t₀.stack := fun hm => by
    have := le hm
    have := h₀.numbered b (h₀.mem_of_stack hm)
    omega
  exact ((h.sound.entered b).1 hb).imp_left fun hs => (mem_component h stack).2 ⟨hs, newer⟩

theorem connected_component {a : α} (ha : a ∈ newer ++ [v]) (b : α) :
    b ∈ newer ++ [v] ↔ Connected g.next a b := by
  have own : ∀ {c}, c ∈ newer ++ [v] → Connected g.next v c := fun {c} hc => by
    obtain ⟨hs, hn⟩ := (mem_component h stack).1 hc
    refine ⟨h.sound.older v h.mem_stack c hs ?_, h.back c hs⟩
    rw [h.num_own]
    exact h.newer hs hn
  refine ⟨fun hb => (own ha).symm.trans (own hb), fun ⟨hab, hba⟩ => ?_⟩
  have reached : ∀ {c}, g.Leads a c → c ∈ newer ++ [v] ∨ c ∈ t.found.flatten := fun hr => by
    induction hr with
    | refl => exact .inl ha
    | tail _ step ih =>
      exact ih.elim (fun hc => mem_component_of_next h stack h₀ hc step)
        fun hc => .inr (h.sound.closed _ hc _ step)
  refine (reached hab).resolve_right fun hb => ?_
  exact h.sound.apart a ((mem_component h stack).1 ha).1
    (Reach.mem_of_closed h.sound.closed hb hba)

variable [LawfulEqOrd α] [DecidableEq α]

/-- `v` leads to nothing older, and its component is complete. -/
theorem sound_close : (t.close v).Sound g := by
  have nodup := nodup_stack h stack
  obtain ⟨-, -, apart⟩ := List.nodup_append.1 nodup
  have suffix := h.suffix
  have members : ∀ a, a ∈ (newer ++ [v]).mergeSort (fun a b => (compare a b).isLE) ↔
      a ∈ newer ++ [v] := fun a => List.mem_mergeSort
  have fresh : ∀ a ∈ newer ++ [v], a ∉ t.found.flatten := fun a ha =>
    h.sound.apart a ((mem_component h stack).1 ha).1
  rw [close_of_least (h.least.trans h.own.symm) stack fun hm => apart v hm v List.mem_cons_self rfl]
  constructor
  case known => exact h.sound.known
  case numbered => exact h.sound.numbered
  case falling => exact h.sound.falling.sublist suffix.sublist
  case onStack =>
    intro a
    rw [mem_foldl_erase, h.sound.onStack, mem_component h stack]
    have := suffix.mem (a := a)
    tauto
  case entered =>
    intro a
    rw [h.sound.entered, List.flatten_cons, List.mem_append, members, mem_component h stack]
    have := suffix.mem (a := a)
    tauto
  case apart =>
    intro a ha
    rw [List.flatten_cons, List.mem_append, members, mem_component h stack]
    rintro (hm | hm)
    · exact hm.2 ha
    · exact h.sound.apart a (suffix.mem ha) hm
  case older => exact fun a ha b hb => h.sound.older a (suffix.mem ha) b (suffix.mem hb)
  case closed =>
    intro a ha b hb
    rw [List.flatten_cons, List.mem_append, members] at ha ⊢
    rcases ha with ha | ha
    · exact mem_component_of_next h stack h₀ ha hb
    · exact .inr (h.sound.closed a ha b hb)
  case decomposes =>
    rw [List.reverse_cons]
    refine h.sound.decomposes.snoc (fun e => ?_) (fun a ha b => ?_) (fun a ha => ?_) h.sound.closed
      (ascending_mergeSort ?_) fun a => ?_
    · exact List.not_mem_nil (e ▸ (members v).2 (List.mem_append_right _ (List.mem_singleton_self v)))
    · rw [members] at ha ⊢
      exact connected_component h stack h₀ ha b
    · exact fresh a ((members a).1 ha)
    · rw [List.append_cons] at nodup
      exact (List.nodup_append.1 nodup).1
    · rw [List.flatten_cons, List.mem_append]

theorem connects_close : Connects g t₀ v (t.close v) t₀.index := by
  have sound := sound_close h stack h₀
  obtain ⟨-, -, apart⟩ := List.nodup_append.1 (nodup_stack h stack)
  rw [close_of_least (h.least.trans h.own.symm) stack fun hm => apart v hm v List.mem_cons_self rfl]
    at sound ⊢
  exact ⟨sound, List.suffix_refl _, h.kept, h.mem_own, fun a ha hn b hb => h.all_edges ha hn hb,
    fun a ha => ⟨a, ha, .refl⟩, h.least, fun lt => absurd lt (Nat.lt_irrefl _)⟩

end

/-! ### The search -/

section
variable [LawfulEqOrd α] [DecidableEq α]

theorem Explores.close (h : Explores g t₀ v (g.next v) t low) (h₀ : t₀.Sound g) :
    ∃ low, Connects g t₀ v (t.close v) low := by
  rcases Nat.lt_or_eq_of_le h.le with lt | rfl
  · refine ⟨low, ?_⟩
    have open' : ¬t.lowlinks[v]? = t.indices[v]? := by
      rw [h.least, h.own, Option.some_inj]
      exact lt.ne
    rw [Tarjan.close, if_neg open']
    exact h.connects_of_lt lt
  · obtain ⟨newer, stack⟩ := h.stack
    exact ⟨_, connects_close h stack h₀⟩

def ahead (g : CallGraph α) (t : Tarjan α) : Finset α :=
  g.nodes.toList.toFinset.filter (· ∉ t.indices)

theorem mem_ahead {a : α} : a ∈ ahead g t ↔ a ∈ g.nodes ∧ a ∉ t.indices := by
  rw [ahead, Finset.mem_filter, List.mem_toFinset, ExtTreeSet.mem_toList]

theorem Explores.follow (h₀ : t₀.Sound g) (hv : v ∉ t₀.indices) (hw : w ∈ g.next v)
    {connect : Tarjan α → α → Tarjan α}
    (connects : w ∉ t.indices → ∃ low, Connects g t w (connect t w) low)
    (h : Explores g t₀ v done t low) :
    ∃ low, Explores g t₀ v (done ++ [w]) (Tarjan.follow connect v t w) low := by
  rw [Tarjan.follow]
  rcases hi : t.indices[w]? with _ | index
  · have hn : w ∉ t.indices := fun hm => by
      rw [ExtTreeMap.mem_iff_isSome_getElem?, hi] at hm
      cases hm
    obtain ⟨lowest, c⟩ := connects hn
    simp only [c.least]
    exact ⟨_, h.follow_new h₀ hv hw hn c⟩
  · by_cases hs : w ∈ t.stack
    · simp only [if_pos ((h.sound.onStack w).2 hs)]
      rw [← num_of_getElem? hi]
      exact ⟨_, h.follow_stack h₀ hv hw hs⟩
    · simp only [if_neg fun hm => hs ((h.sound.onStack w).1 hm)]
      exact ⟨_, h.follow_found (mem_of_getElem? hi) hs⟩

theorem Explores.foldl (h₀ : t₀.Sound g) (hv : v ∉ t₀.indices) {connect : Tarjan α → α → Tarjan α}
    (connects : ∀ t w, t.Sound g → Kept t₀ t → v ∈ t.indices → w ∈ g.nodes → w ∉ t.indices →
      (∀ a ∈ t.stack, g.Leads a w) → ∃ low, Connects g t w (connect t w) low)
    (h : Explores g t₀ v done t low) (split : g.next v = done ++ rest) :
    ∃ low, Explores g t₀ v (g.next v) (rest.foldl (Tarjan.follow connect v) t) low := by
  induction rest generalizing t done low with
  | nil =>
    rw [split, List.append_nil]
    exact ⟨low, h⟩
  | cons w rest ih =>
    have hw : w ∈ g.next v := split ▸ List.mem_append_right _ List.mem_cons_self
    obtain ⟨low, h'⟩ := h.follow h₀ hv hw fun hn => connects t w h.sound h.kept h.mem_own
      (CallGraph.next_subset_nodes hw) hn fun a ha => (h.back a ha).tail hw
    rw [List.foldl_cons]
    exact ih h' (by rw [split, List.append_assoc, List.singleton_append])

theorem exists_connects (depth : Nat) (h : t.Sound g) (known : v ∈ g.nodes) (hv : v ∉ t.indices)
    (leads : ∀ a ∈ t.stack, g.Leads a v) (enough : (ahead g t).card ≤ depth) :
    ∃ low, Connects g t v (connect g depth t v) low := by
  induction depth generalizing t v with
  | zero =>
    have none := Finset.card_eq_zero.1 (Nat.le_zero.1 enough)
    exact absurd (mem_ahead.2 ⟨known, hv⟩) (none ▸ Finset.notMem_empty v)
  | succ depth ih =>
    have fewer : ∀ t', Kept t t' → v ∈ t'.indices → (ahead g t').card ≤ depth := by
      intro t' kept own
      have subset : ahead g t' ⊂ ahead g t := by
        refine (Finset.ssubset_iff_of_subset fun a ha => ?_).2 ⟨v, mem_ahead.2 ⟨known, hv⟩, ?_⟩
        · rw [mem_ahead] at ha ⊢
          exact ha.imp_right fun hn hm => hn (kept.mem hm)
        · exact fun hm => (mem_ahead.1 hm).2 own
      have := Finset.card_lt_card subset
      omega
    have entered : Explores g t v [] (t.enter v) t.index := explores_enter h hv known leads
    obtain ⟨low, explored⟩ := entered.foldl h hv
      (fun t' w sound kept own hw hn leads => ih sound hw hn leads (fewer t' kept own))
      (List.nil_append (g.next v)).symm
    exact explored.close h

/-- A search connects the nodes it is given one after the other. -/
theorem sound_foldl {size : Nat} (enough : g.nodes.size ≤ size) {nodes : List α}
    (known : ∀ v ∈ nodes, v ∈ g.nodes) (h : t.Sound g) (empty : t.stack = []) :
    ∃ t', nodes.foldl (fun t v => if v ∈ t.indices then t else connect g size t v) t = t' ∧
      t'.Sound g ∧ t'.stack = [] ∧ Kept t t' ∧ ∀ v ∈ nodes, v ∈ t'.indices := by
  induction nodes generalizing t with
  | nil => exact ⟨t, rfl, h, empty, fun _ _ => ⟨rfl, rfl⟩, fun v hv => by cases hv⟩
  | cons v rest ih =>
    have known' : ∀ v ∈ rest, v ∈ g.nodes := fun v hv => known v (List.mem_cons_of_mem _ hv)
    rw [List.foldl_cons]
    by_cases hv : v ∈ t.indices
    · rw [if_pos hv]
      obtain ⟨t', e, h', empty', kept, all⟩ := ih known' h empty
      exact ⟨t', e, h', empty', kept, List.forall_mem_cons.2 ⟨kept.mem hv, all⟩⟩
    · have depth : (ahead g t).card ≤ size := by
        refine (Finset.card_filter_le _ _).trans ((List.toFinset_card_le _).trans ?_)
        rwa [ExtTreeSet.length_toList]
      obtain ⟨low, c⟩ := exists_connects size h (known v List.mem_cons_self) hv
        (fun a ha => by rw [empty] at ha; cases ha) depth
      have closed : (connect g size t v).stack = [] := by
        refine List.eq_nil_iff_forall_not_mem.2 fun a ha => ?_
        obtain ⟨u, hu, -⟩ := c.back a ha
        rw [empty] at hu
        cases hu
      rw [if_neg hv]
      obtain ⟨t', e, h', empty', kept, all⟩ := ih known' c.sound closed
      exact ⟨t', e, h', empty', c.kept.trans kept, List.forall_mem_cons.2 ⟨kept.mem c.own, all⟩⟩

end

end Tarjan

namespace CallGraph
variable {α : Type} [Ord α] [TransOrd α] [LawfulEqOrd α] [DecidableEq α]

theorem components_decomposes (g : CallGraph α) :
    Decomposes g.next g.nodes.toList g.components := by
  have start : ({} : Tarjan α).Sound g := by
    refine ⟨?_, ?_, .nil, ?_, ?_, ?_, ?_, ?_, ⟨?_, ?_, ?_, .nil, .nil, ?_⟩⟩ <;> simp
  obtain ⟨t, e, sound, empty, -, all⟩ := Tarjan.sound_foldl (Nat.le_refl g.nodes.size)
    (fun v hv => ExtTreeSet.mem_toList.1 hv) start rfl
  have found : ∀ a, a ∈ t.found.flatten ↔ a ∈ g.nodes.toList := by
    intro a
    have entered := sound.entered a
    rw [empty, or_iff_right List.not_mem_nil] at entered
    rw [← entered]
    exact ⟨fun ha => ExtTreeSet.mem_toList.2 (sound.known a ha), all a⟩
  have decomposes := sound.decomposes
  rw [components, Tarjan.search, e]
  exact { decomposes with covers := fun a => (decomposes.covers a).trans (found a) }

/-- Every key and every callee is in one component. Two share a component if each reaches the other,
and only then. Components are ascending, and a callee in another component is in an earlier one. -/
theorem components_exact (g : CallGraph String) :
    g.components.flatten.Nodup ∧
      (∀ a, a ∈ g.components.flatten ↔ a ∈ g ∨ ∃ caller, a ∈ g.next caller) ∧
      (∀ a b, (∃ C ∈ g.components, a ∈ C ∧ b ∈ C) ↔ a ∈ g.nodes ∧ g.Leads a b ∧ g.Leads b a) ∧
      (∀ C ∈ g.components, C ≠ [] ∧ C.Pairwise (· < ·)) ∧
      ∀ (i j : Nat) (C D : List String), g.components[i]? = some C → g.components[j]? = some D →
        ∀ caller ∈ C, ∀ callee ∈ D, callee ∈ g.next caller → i ≠ j → j < i := by
  have h := g.components_decomposes
  refine ⟨h.nodup_flatten, fun a => ?_, fun a b => ?_, fun C hC => ⟨h.inhabited C hC, ?_⟩,
    fun i j C D hi hj a ha b hb step => h.earlier hi hj ha hb step⟩
  · rw [h.mem_flatten, ExtTreeSet.mem_toList, mem_nodes]
  · rw [h.shared_iff, ExtTreeSet.mem_toList]
    rfl
  · refine (h.ascending C hC).imp fun {a b} lt => ?_
    exact compareOfLessAndEq_eq_lt.1 lt

end CallGraph
end Motif
