import Mathlib.Data.Finset.Card
import Mathlib.Data.Finset.SDiff
import Mathlib.Logic.Relation
import Motif.Reach

set_option autoImplicit false
namespace Motif

open Std (ExtTreeSet TransOrd LawfulEqOrd)

variable {α : Type} [Ord α] [TransOrd α] [LawfulEqOrd α]

theorem nodup_toList (s : ExtTreeSet α) : s.toList.Nodup :=
  ExtTreeSet.distinct_toList.imp fun h e => h (Std.LawfulEqCmp.compare_eq_iff_eq.2 e)

theorem mem_foldl_keepFirst (l : List α) (kept : ExtTreeSet α × List α) (a : α) :
    (a ∈ (l.foldl keepFirst kept).1 ↔ a ∈ kept.1 ∨ a ∈ l) ∧
      (a ∈ (l.foldl keepFirst kept).2 ↔ a ∈ kept.2 ∨ (a ∈ l ∧ a ∉ kept.1)) := by
  induction l generalizing kept with
  | nil => simp
  | cons b rest ih =>
    rw [List.foldl_cons, (ih _).1, (ih _).2, keepFirst]
    by_cases hb : b ∈ kept.1
    · rw [if_pos hb]
      constructor
      · simp only [List.mem_cons]
        grind
      · simp only [List.mem_cons]
        grind
    · rw [if_neg hb]
      simp only [ExtTreeSet.mem_insert, Std.LawfulEqCmp.compare_eq_iff_eq, List.mem_cons]
      grind

theorem mem_firsts {l : List α} {a : α} : a ∈ firsts l ↔ a ∈ l := by
  rw [firsts, List.mem_reverse, (mem_foldl_keepFirst l (∅, []) a).2]
  simp

theorem nodup_foldl_keepFirst (l : List α) (kept : ExtTreeSet α × List α)
    (hd : kept.2.Nodup) (hk : ∀ a ∈ kept.2, a ∈ kept.1) : (l.foldl keepFirst kept).2.Nodup := by
  induction l generalizing kept with
  | nil => exact hd
  | cons b rest ih =>
    rw [List.foldl_cons, keepFirst]
    by_cases hb : b ∈ kept.1
    · rw [if_pos hb]
      exact ih kept hd hk
    · rw [if_neg hb]
      refine ih _ (List.nodup_cons.2 ⟨fun h => hb (hk b h), hd⟩) fun a ha => ?_
      rw [ExtTreeSet.mem_insert, Std.LawfulEqCmp.compare_eq_iff_eq]
      exact (List.mem_cons.1 ha).imp Eq.symm (hk a)

theorem nodup_firsts (l : List α) : (firsts l).Nodup :=
  List.nodup_reverse.2 (nodup_foldl_keepFirst l (∅, []) List.nodup_nil (by simp))

namespace Reach
variable {next : α → List α}

def Steps (next : α → List α) (a b : α) : Prop := b ∈ next a

omit [Ord α] [TransOrd α] [LawfulEqOrd α] in
theorem mem_of_closed {nodes : List α} (hn : ∀ a ∈ nodes, ∀ b ∈ next a, b ∈ nodes) {a b : α}
    (ha : a ∈ nodes) (h : Relation.ReflTransGen (Steps next) a b) : b ∈ nodes := by
  induction h with
  | refl => exact ha
  | tail _ step ih => exact hn _ ih _ step

open Classical in
/-- What lies behind the frontier has been stepped on from, and there are rounds enough for the nodes
that have not. -/
structure Searched (next : α → List α) (nodes : Finset α) (rounds : Nat) (start : List α)
    (seen : ExtTreeSet α) (frontier : List α) : Prop where
  started : ∀ a ∈ start, a ∈ seen
  sound : ∀ a ∈ seen, ∃ s ∈ start, Relation.ReflTransGen (Steps next) s a
  faced : ∀ a ∈ frontier, a ∈ seen
  behind : ∀ a ∈ seen, a ∉ frontier → ∀ b ∈ next a, b ∈ seen
  enough : (nodes.filter fun a => a ∈ seen → a ∈ frontier).card ≤ rounds

omit [LawfulEqOrd α] in
theorem mem_iff_of_closed {start : List α} {seen : ExtTreeSet α} (hs : ∀ a ∈ start, a ∈ seen)
    (sound : ∀ a ∈ seen, ∃ s ∈ start, Relation.ReflTransGen (Steps next) s a)
    (closed : ∀ a ∈ seen, ∀ b ∈ next a, b ∈ seen) (a : α) :
    a ∈ seen ↔ ∃ s ∈ start, Relation.ReflTransGen (Steps next) s a := by
  refine ⟨sound a, ?_⟩
  rintro ⟨s, hm, h⟩
  induction h with
  | refl => exact hs s hm
  | tail _ step ih => exact closed _ ih _ step

theorem mem_expand {nodes : Finset α} {start : List α}
    (hn : ∀ s ∈ start, ∀ a, Relation.ReflTransGen (Steps next) s a → next a ≠ [] → a ∈ nodes)
    {rounds : Nat} {seen : ExtTreeSet α} {frontier : List α}
    (h : Searched next nodes rounds start seen frontier) (a : α) :
    a ∈ expand next rounds seen frontier ↔
      ∃ s ∈ start, Relation.ReflTransGen (Steps next) s a := by
  classical
  induction rounds generalizing seen frontier with
  | zero =>
    refine mem_iff_of_closed h.started h.sound (fun b hb c hc => ?_) a
    obtain ⟨s, hs, hr⟩ := h.sound b hb
    have hbn : b ∈ nodes := hn s hs b hr (List.ne_nil_of_mem hc)
    have hz := Finset.card_eq_zero.1 (Nat.le_zero.1 h.enough)
    refine h.behind b hb (fun hf => ?_) c hc
    exact Finset.notMem_empty b (hz ▸ Finset.mem_filter.2 ⟨hbn, fun _ => hf⟩)
  | succ rounds ih =>
    obtain ⟨seen', hs'⟩ : ∃ t, ((frontier.flatMap next).foldl keepFirst (seen, [])) = t := ⟨_, rfl⟩
    have mem := fun b => mem_foldl_keepFirst (frontier.flatMap next) (seen, []) b
    simp only [hs', List.not_mem_nil, false_or] at mem
    have grown : ∀ b ∈ seen, b ∈ seen'.1 := fun b hb => (mem b).1.2 (.inl hb)
    have sound : ∀ b ∈ seen'.1, ∃ s ∈ start, Relation.ReflTransGen (Steps next) s b := by
      intro b hb
      rcases (mem b).1.1 hb with hb | hb
      · exact h.sound b hb
      · obtain ⟨c, hc, hb⟩ := List.mem_flatMap.1 hb
        obtain ⟨s, hs, hr⟩ := h.sound c (h.faced c hc)
        exact ⟨s, hs, hr.tail hb⟩
    have stepped : ∀ b ∈ seen, ∀ c ∈ next b, c ∈ seen'.1 := by
      intro b hb c hc
      by_cases hf : b ∈ frontier
      · exact (mem c).1.2 (.inr (List.mem_flatMap.2 ⟨b, hf, hc⟩))
      · exact grown c (h.behind b hb hf c hc)
    rw [expand, hs']
    dsimp only
    split
    · next he =>
      have none : seen'.2 = [] := List.isEmpty_iff.1 he
      refine mem_iff_of_closed (fun b hb => grown b (h.started b hb)) sound (fun b hb => ?_) a
      by_cases hs : b ∈ seen
      · exact stepped b hs
      · have := (mem b).2.2 ⟨((mem b).1.1 hb).resolve_left hs, hs⟩
        rw [none] at this
        cases this
    · next he =>
      refine ih ⟨fun b hb => grown b (h.started b hb), sound, fun b hb => ?_, fun b hb hf => ?_, ?_⟩
      · exact (mem b).1.2 (.inr ((mem b).2.1 hb).1)
      · by_cases hs : b ∈ seen
        · exact stepped b hs
        · exact absurd ((mem b).2.2 ⟨((mem b).1.1 hb).resolve_left hs, hs⟩) hf
      · obtain ⟨b, hb⟩ := List.exists_mem_of_ne_nil _ fun e => he (List.isEmpty_iff.2 e)
        obtain ⟨c, hc, hb⟩ := List.mem_flatMap.1 ((mem b).2.1 hb).1
        have less : (nodes.filter fun d => d ∈ seen'.1 → d ∈ seen'.2) ⊂
            nodes.filter fun d => d ∈ seen → d ∈ frontier := by
          refine Finset.ssubset_iff_of_subset (fun d hd => ?_) |>.2 ⟨c, ?_, ?_⟩
          · rw [Finset.mem_filter] at hd ⊢
            exact ⟨hd.1, fun hs => absurd hs ((mem d).2.1 (hd.2 (grown d hs))).2⟩
          · obtain ⟨s, hm, hr⟩ := h.sound c (h.faced c hc)
            exact Finset.mem_filter.2 ⟨hn s hm c hr (List.ne_nil_of_mem hb), fun _ => hc⟩
          · intro hd
            have hs := h.faced c hc
            exact ((mem c).2.1 ((Finset.mem_filter.1 hd).2 (grown c hs))).2 hs
        exact Nat.le_of_lt_succ (Nat.lt_of_lt_of_le (Finset.card_lt_card less) h.enough)

/-- The closure holds what the start leads to. `nodes` are those on the way that lead on. -/
theorem mem_closure_from {nodes start : List α}
    (hn : ∀ s ∈ start, ∀ a, Relation.ReflTransGen (Steps next) s a → next a ≠ [] → a ∈ nodes)
    {size : Nat} (hs : nodes.length ≤ size) (a : α) :
    a ∈ closure next size start ↔ ∃ s ∈ start, Relation.ReflTransGen (Steps next) s a := by
  classical
  have known : ∀ s ∈ start, ∀ b, Relation.ReflTransGen (Steps next) s b → next b ≠ [] →
      b ∈ nodes.toFinset := fun s hs b hr hb => List.mem_toFinset.2 (hn s hs b hr hb)
  refine mem_expand known
    ⟨fun b hb => ?_, fun b hb => ?_, fun b hb => ?_, fun b hb hf => ?_, ?_⟩ a
  · simpa using hb
  · exact ⟨b, by simpa using hb, .refl⟩
  · simpa using hb
  · exact absurd (by simpa using hb) hf
  · exact (Finset.card_filter_le _ _).trans ((List.toFinset_card_le _).trans hs)

theorem mem_closure {nodes : List α} (hn : ∀ a, next a ≠ [] → a ∈ nodes) {size : Nat}
    (hs : nodes.length ≤ size) (start : List α) (a : α) :
    a ∈ closure next size start ↔ ∃ s ∈ start, Relation.ReflTransGen (Steps next) s a :=
  mem_closure_from (fun _ _ b _ => hn b) hs a

end Reach
end Motif
