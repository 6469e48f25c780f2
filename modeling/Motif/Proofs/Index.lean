import Mathlib.Algebra.Ring.Nat
import Motif.Index
import Motif.Proofs.Bag
import Motif.Proofs.Mask

set_option autoImplicit false
namespace Motif

open Std (ExtTreeMap)

namespace Index

def content (ix : Index) : Multiset Tuple := ↑(ix.buckets.toList.flatMap fun e => e.2.items)

def bare (ix : Index) : Index := { ix with buckets := ∅, size := 0, work := {} }

structure Sound (ix : Index) : Prop where
  nonempty : ∀ (s : Tuple) (b : Bag Tuple), ix.buckets[s]? = some b → b.toMultiset ≠ 0
  filed : ∀ (s : Tuple) (b : Bag Tuple), ix.buckets[s]? = some b → ∀ t ∈ b.toMultiset,
    t.length = ix.mask.width ∧ ix.mask.signature t = s

theorem mem_content {ix : Index} {t : Tuple} :
    t ∈ ix.content ↔ ∃ (s : Tuple) (b : Bag Tuple), ix.buckets[s]? = some b ∧ t ∈ b.toMultiset := by
  simp only [content, Multiset.mem_coe, List.mem_flatMap, Prod.exists,
    ExtTreeMap.mem_toList_iff_getElem?_eq_some, Bag.mem_items]

namespace Sound
variable {ix : Index}

theorem width (h : ix.Sound) {t : Tuple} (ht : t ∈ ix.content) : t.length = ix.mask.width := by
  obtain ⟨s, b, hb, hm⟩ := mem_content.1 ht
  exact (h.filed s b hb t hm).1

theorem count_content (h : ix.Sound) (t : Tuple) :
    ix.content.count t = (ix.bucket (ix.mask.signature t)).count t := by
  have other : ∀ e ∈ ix.buckets.toList, e.1 ≠ ix.mask.signature t → t ∉ e.2.items := by
    intro e he hk hm
    rw [ExtTreeMap.mem_toList_iff_getElem?_eq_some] at he
    exact hk (h.filed _ _ he t (Bag.mem_items.1 hm)).2.symm
  have zero : ∀ l : List (Tuple × Bag Tuple), (∀ e ∈ l, t ∉ e.2.items) →
      (↑(l.flatMap fun e => e.2.items) : Multiset Tuple).count t = 0 := by
    intro l hz
    rw [Multiset.count_eq_zero, Multiset.mem_coe]
    intro hm
    obtain ⟨e, he, ht⟩ := List.mem_flatMap.1 hm
    exact hz e he ht
  rw [content, bucket, bucket?]
  cases hb : ix.buckets[ix.mask.signature t]? with
  | none =>
    refine (zero _ fun e he => other e he fun hk => ?_).trans (by simp)
    rw [ExtTreeMap.mem_toList_iff_getElem?_eq_some, hk, hb] at he
    exact absurd he (by simp)
  | some b =>
    obtain ⟨l, r, hl⟩ := List.append_of_mem (ExtTreeMap.mem_toList_iff_getElem?_eq_some.2 hb)
    have hd : (ix.buckets.toList.map Prod.fst).Nodup := by
      rw [ExtTreeMap.map_fst_toList_eq_keys]
      exact ExtTreeMap.nodup_keys
    rw [hl] at hd other ⊢
    simp only [List.map_append, List.map_cons, List.nodup_append, List.nodup_cons] at hd
    have hzl := zero l fun e he => other e (by simp [he]) fun hk =>
      hd.2.2 e.1 (List.mem_map_of_mem he) _ (by simp) hk
    have hzr := zero r fun e he => other e (by simp [he]) fun hk =>
      hd.2.1.1 (hk ▸ List.mem_map_of_mem he)
    rw [List.flatMap_append, ← Multiset.coe_add, Multiset.count_add, List.flatMap_cons,
      ← Multiset.coe_add, Multiset.count_add, hzl, hzr]
    simp only [Nat.zero_add, Nat.add_zero, Option.getD_some]
    exact Bag.count_toMultiset b t

theorem bucket_eq_filter (h : ix.Sound) (s : Tuple) :
    (ix.bucket s).toMultiset = ix.content.filter fun t => ix.mask.signature t = s := by
  refine Multiset.ext.2 fun t => ?_
  rw [Bag.count_toMultiset, Multiset.count_filter]
  by_cases hs : ix.mask.signature t = s
  · rw [if_pos hs, h.count_content, hs]
  · rw [if_neg hs]
    cases hb : ix.buckets[s]? with
    | none => simp [bucket, bucket?, hb]
    | some b =>
      have hn : t ∉ b.toMultiset := fun hm => hs (h.filed s b hb t hm).2
      rw [← Multiset.count_eq_zero, Bag.count_toMultiset] at hn
      simpa [bucket, bucket?, hb] using hn

theorem bucket?_eq_none_iff (h : ix.Sound) (s : Tuple) :
    ix.bucket? s = none ↔ ∀ t ∈ ix.content, ix.mask.signature t ≠ s := by
  rw [← Multiset.filter_eq_nil, ← h.bucket_eq_filter, bucket]
  cases hb : ix.bucket? s with
  | none => simp
  | some b => simpa using h.nonempty s b hb

theorem mem_bucket_iff (h : ix.Sound) (t : Tuple) :
    t ∈ (ix.bucket (ix.mask.signature t)).toMultiset ↔ t ∈ ix.content := by
  rw [h.bucket_eq_filter, Multiset.mem_filter]
  simp

end Sound

theorem sound_of_empty {ix : Index} (h : ix.buckets = ∅) : ix.Sound :=
  ⟨fun s b hb => by simp [h] at hb, fun s b hb => by simp [h] at hb⟩

theorem content_of_empty {ix : Index} (h : ix.buckets = ∅) : ix.content = 0 :=
  Multiset.eq_zero_of_forall_notMem fun t ht => by
    obtain ⟨s, b, hb, -⟩ := mem_content.1 ht
    simp [h] at hb

theorem Sound.replace {ix ix' : Index} {t : Tuple} {b : Bag Tuple} (h : ix.Sound)
    (ht : t.length = ix.mask.width) (hm : ix'.mask = ix.mask)
    (hb : ∀ s, ix'.bucket s = if s = ix.mask.signature t then b else ix.bucket s)
    (hz : ∀ (s : Tuple) (c : Bag Tuple), ix'.buckets[s]? = some c → c.toMultiset ≠ 0)
    (hs : ∀ u ∈ b.toMultiset, u = t ∨ u ∈ (ix.bucket (ix.mask.signature t)).toMultiset) :
    ix'.Sound := by
  refine ⟨hz, fun s c hc u hu => ?_⟩
  have e : ix'.bucket s = c := by simp [bucket, bucket?, hc]
  rw [hm]
  rw [← e, hb] at hu
  split at hu
  · next hk =>
    rcases hs u hu with rfl | hu
    · exact ⟨ht, hk.symm⟩
    · rw [h.bucket_eq_filter, Multiset.mem_filter] at hu
      exact ⟨h.width hu.1, hu.2.trans hk.symm⟩
  · rw [h.bucket_eq_filter, Multiset.mem_filter] at hu
    exact ⟨h.width hu.1, hu.2⟩

def holding (ix : Index) (t : Tuple) : Index :=
  { ix with
    buckets := ix.buckets.insert (ix.mask.signature t) ((ix.bucket (ix.mask.signature t)).add t)
    size := ix.size + 1
    work := { ix.work with inserts := ix.work.inserts + 1 } }

def left (ix : Index) (t : Tuple) : Bag Tuple := (ix.bucket (ix.mask.signature t)).remove t

def lacking (ix : Index) (t : Tuple) : Index :=
  { ix with
    buckets :=
      if (ix.left t).isEmpty then ix.buckets.erase (ix.mask.signature t)
      else ix.buckets.insert (ix.mask.signature t) (ix.left t)
    size := ix.size - 1
    work := { ix.work with removals := ix.work.removals + 1 } }

section moves
variable {ix : Index} {t : Tuple}

theorem insert_eq (hw : t.length = ix.mask.width)
    (hn : (ix.unique && (ix.bucket (ix.mask.signature t)).contains t) = false) :
    ix.insert t = .ok (ix.holding t,
      .ok ⟨ix.mask.signature t, (ix.bucket (ix.mask.signature t)).isEmpty⟩) := by
  simp only [Index.insert, Mask.project_eq hw, bind, Except.bind, hn, Bool.false_eq_true, if_false,
    pure, Except.pure]
  rfl

theorem remove_eq (hw : t.length = ix.mask.width)
    (hc : (ix.bucket (ix.mask.signature t)).contains t = true) :
    ix.remove t = .ok (ix.lacking t, .ok ⟨ix.mask.signature t, (ix.left t).isEmpty⟩) := by
  simp only [Index.remove, Mask.project_eq hw, bind, Except.bind, hc, if_true, pure, Except.pure]
  rfl

theorem bucket_holding (s : Tuple) : (ix.holding t).bucket s =
    if s = ix.mask.signature t then (ix.bucket (ix.mask.signature t)).add t else ix.bucket s := by
  simp only [holding, bucket, bucket?, ExtTreeMap.getElem?_insert,
    Std.LawfulEqCmp.compare_eq_iff_eq, eq_comm (a := s)]
  split <;> rfl

theorem buckets_lacking (s : Tuple) : (ix.lacking t).buckets[s]? =
    if s = ix.mask.signature t then (if (ix.left t).isEmpty then none else some (ix.left t))
    else ix.buckets[s]? := by
  by_cases he : (ix.left t).isEmpty
  · simp only [lacking, he, if_true, ExtTreeMap.getElem?_erase, Std.LawfulEqCmp.compare_eq_iff_eq,
      eq_comm (a := s)]
  · simp only [lacking, he, if_false, Bool.false_eq_true, ExtTreeMap.getElem?_insert,
      Std.LawfulEqCmp.compare_eq_iff_eq, eq_comm (a := s)]

theorem bucket_lacking (s : Tuple) : (ix.lacking t).bucket s =
    if s = ix.mask.signature t then ix.left t else ix.bucket s := by
  rw [bucket, bucket?, buckets_lacking]
  split
  · split
    · next he =>
      apply Bag.toMultiset_injective
      rw [Bag.isEmpty_iff.1 he]
      exact Bag.toMultiset_empty
    · rfl
  · rfl

theorem Sound.holding (h : ix.Sound) (hw : t.length = ix.mask.width) : (ix.holding t).Sound := by
  refine h.replace hw rfl bucket_holding (fun s c hc => ?_) fun u hu => by simpa using hu
  simp only [Index.holding, ExtTreeMap.getElem?_insert, Std.LawfulEqCmp.compare_eq_iff_eq] at hc
  split at hc
  · cases hc
    simp
  · exact h.nonempty s c hc

theorem Sound.lacking (h : ix.Sound) (hw : t.length = ix.mask.width) : (ix.lacking t).Sound := by
  refine h.replace hw rfl bucket_lacking (fun s c hc => ?_) fun u hu => ?_
  · rw [buckets_lacking] at hc
    split at hc
    · split at hc
      · cases hc
      · next he =>
        cases hc
        exact fun hz => he (Bag.isEmpty_iff.2 hz)
    · exact h.nonempty s c hc
  · rw [left, Bag.toMultiset_remove] at hu
    exact .inr (Multiset.mem_of_mem_erase hu)

theorem Sound.content_holding (h : ix.Sound) (hw : t.length = ix.mask.width) :
    (ix.holding t).content = t ::ₘ ix.content := by
  refine Multiset.ext.2 fun u => ?_
  rw [(h.holding hw).count_content, show (ix.holding t).mask = ix.mask from rfl, bucket_holding,
    Multiset.count_cons, h.count_content]
  split
  · next hk =>
    rw [Bag.count_add, hk]
    simp [eq_comm]
  · next hk =>
    rw [if_neg fun e : u = t => hk (by rw [e]), Nat.add_zero]

theorem Sound.content_lacking (h : ix.Sound) (hw : t.length = ix.mask.width) :
    (ix.lacking t).content = ix.content.erase t := by
  refine Multiset.ext.2 fun u => ?_
  rw [(h.lacking hw).count_content, show (ix.lacking t).mask = ix.mask from rfl, bucket_lacking]
  split
  · next hu =>
    rw [left, Bag.count_remove, ← hu, ← h.count_content]
    by_cases e : t = u
    · subst e
      simp
    · simp [e, Multiset.count_erase_of_ne (Ne.symm e)]
  · next hu =>
    rw [← h.count_content, Multiset.count_erase_of_ne fun e : u = t => hu (by rw [e])]

end moves

theorem Sound.insert {ix : Index} {t : Tuple} (h : ix.Sound) (ht : t.length = ix.mask.width)
    (hu : ix.unique = true → t ∉ ix.content) :
    ∃ ix' transition, ix.insert t = .ok (ix', .ok ⟨ix.mask.signature t, transition⟩) ∧
      ix'.Sound ∧ ix'.bare = ix.bare ∧ ix'.content = t ::ₘ ix.content ∧
      (transition = true ↔ ∀ u ∈ ix.content, ix.mask.signature u ≠ ix.mask.signature t) := by
  have hn : (ix.unique && (ix.bucket (ix.mask.signature t)).contains t) = false := by
    rw [Bool.and_eq_false_iff, ← Bool.not_eq_true, ← Bool.not_eq_true, Bag.contains_iff_mem,
      h.mem_bucket_iff]
    by_cases hx : ix.unique = true
    · exact .inr (hu hx)
    · exact .inl hx
  refine ⟨ix.holding t, _, insert_eq ht hn, h.holding ht, rfl, h.content_holding ht, ?_⟩
  rw [Bag.isEmpty_iff, h.bucket_eq_filter, Multiset.filter_eq_nil]

/-- A tuple that an index holds is taken out, once. -/
theorem Sound.remove {ix : Index} {t : Tuple} (h : ix.Sound) (ht : t ∈ ix.content) :
    ∃ ix' transition, ix.remove t = .ok (ix', .ok ⟨ix.mask.signature t, transition⟩) ∧
      ix'.Sound ∧ ix'.bare = ix.bare ∧ ix'.content = ix.content.erase t ∧
      (transition = true ↔
        ∀ u ∈ ix.content.erase t, ix.mask.signature u ≠ ix.mask.signature t) := by
  have hw := h.width ht
  have hc : (ix.bucket (ix.mask.signature t)).contains t = true :=
    Bag.contains_iff_mem.2 ((h.mem_bucket_iff t).2 ht)
  refine ⟨ix.lacking t, _, remove_eq hw hc, h.lacking hw, rfl, h.content_lacking hw, ?_⟩
  have left := (h.lacking hw).bucket_eq_filter (ix.mask.signature t)
  rw [bucket_lacking, if_pos rfl, h.content_lacking hw] at left
  rw [Bag.isEmpty_iff, left, Multiset.filter_eq_nil]
  rfl

@[simp] theorem bare_mask (ix : Index) : ix.bare.mask = ix.mask := rfl

@[simp] theorem bare_unique (ix : Index) : ix.bare.unique = ix.unique := rfl

theorem mask_eq_of_bare_eq {ix ix' : Index} (h : ix'.bare = ix.bare) : ix'.mask = ix.mask := by
  simpa using congrArg mask h

theorem unique_eq_of_bare_eq {ix ix' : Index} (h : ix'.bare = ix.bare) :
    ix'.unique = ix.unique := by
  simpa using congrArg unique h

@[simp] theorem content_probe (ix : Index) (s : Tuple) : (ix.probe s).1.content = ix.content := rfl

@[simp] theorem bare_probe (ix : Index) (s : Tuple) : (ix.probe s).1.bare = ix.bare := rfl

theorem Sound.probe {ix : Index} (h : ix.Sound) (s : Tuple) : (ix.probe s).1.Sound :=
  ⟨h.nonempty, h.filed⟩

def refusal? (ix : Index) (e : Event) : Option Issue :=
  match e.direction with
  | .insert =>
    if ix.unique = true ∧ e.tuple ∈ ix.content then some (.duplicateInsert ix.name e.tuple) else none
  | .revoke => if e.tuple ∈ ix.content then none else some (.missingTuple ix.name e.tuple)

def contentAfter (ix : Index) (e : Event) : Multiset Tuple :=
  match e.direction with
  | .insert => e.tuple ::ₘ ix.content
  | .revoke => ix.content.erase e.tuple

/-- A change that takes place says whether its signature came or went. -/
structure Takes (ix : Index) (e : Event) (ix' : Index) (c : IndexChange) : Prop where
  sound : ix'.Sound
  bare : ix'.bare = ix.bare
  content : ix'.content = ix.contentAfter e
  signature : c.signature = ix.mask.signature e.tuple
  transition : c.transition = true ↔
    (ix'.bucket? c.signature).isSome ≠ (ix.bucket? c.signature).isSome

namespace Sound
variable {ix : Index} {e : Event}

theorem isSome_bucket? (h : ix.Sound) (s : Tuple) :
    (ix.bucket? s).isSome = true ↔ ∃ t ∈ ix.content, ix.mask.signature t = s := by
  rw [Option.isSome_iff_ne_none, ne_eq, h.bucket?_eq_none_iff]
  simp

theorem update_of_refusal (h : ix.Sound) (hw : e.tuple.length = ix.mask.width) {issue : Issue}
    (hr : ix.refusal? e = some issue) : ix.update e = .ok (ix, .error issue) := by
  obtain ⟨d, t⟩ := e
  have held := Bag.contains_iff_mem.trans (h.mem_bucket_iff t)
  cases d with
  | insert =>
    simp only [refusal?, Option.ite_none_right_eq_some, Option.some.injEq] at hr
    obtain ⟨⟨unique, ht⟩, rfl⟩ := hr
    simp [Index.update, Index.insert, Mask.project_eq hw, bind, Except.bind, unique, held.2 ht,
      pure, Except.pure]
  | revoke =>
    simp only [refusal?, Option.ite_none_left_eq_some, Option.some.injEq] at hr
    obtain ⟨ht, rfl⟩ := hr
    simp [Index.update, Index.remove, Mask.project_eq hw, bind, Except.bind,
      Bool.eq_false_iff.2 fun hc => ht (held.1 hc), pure, Except.pure]

theorem exists_update (h : ix.Sound) (hw : e.tuple.length = ix.mask.width)
    (hr : ix.refusal? e = none) :
    ∃ ix' c, ix.update e = .ok (ix', .ok c) ∧ ix.Takes e ix' c := by
  obtain ⟨d, t⟩ := e
  cases d with
  | insert =>
    have fresh : ix.unique = true → t ∉ ix.content := by simpa [refusal?] using hr
    obtain ⟨ix', transition, run, sound, bare, content, came⟩ := h.insert hw fresh
    refine ⟨ix', _, run, sound, bare, content, rfl, came.trans ?_⟩
    have now : (ix'.bucket? (ix.mask.signature t)).isSome = true :=
      (sound.isSome_bucket? _).2 ⟨t, by simp [content], by rw [mask_eq_of_bare_eq bare]⟩
    rw [now, ← h.bucket?_eq_none_iff]
    cases ix.bucket? (ix.mask.signature t) <;> simp
  | revoke =>
    have held : t ∈ ix.content := by simpa [refusal?] using hr
    obtain ⟨ix', transition, run, sound, bare, content, went⟩ := h.remove held
    refine ⟨ix', _, run, sound, bare, content, rfl, went.trans ?_⟩
    have before : (ix.bucket? (ix.mask.signature t)).isSome = true :=
      (h.isSome_bucket? _).2 ⟨t, held, rfl⟩
    rw [before, ← content, ← mask_eq_of_bare_eq bare, ← sound.bucket?_eq_none_iff]
    cases ix'.bucket? (ix'.mask.signature t) <;> simp

end Sound

/-- The index knows how much it holds, and holds nothing twice when it is unique. -/
structure Tight (ix : Index) : Prop extends ix.Sound where
  size : ix.size = (ix.buckets.toList.map fun e => e.2.size).sum
  nodup : ix.unique = true → ix.content.Nodup

theorem sum_sizes (ix : Index) :
    (ix.buckets.toList.map fun e => e.2.size).sum = ix.content.card := by
  simp [content, List.length_flatMap, Bag.size_eq_card, Bag.toMultiset]

theorem size_of_update {ix ix' : Index} {e : Event} {c : IndexChange}
    (h : ix.update e = .ok (ix', .ok c)) :
    ix'.size = match e.direction with
      | .insert => ix.size + 1
      | .revoke => ix.size - 1 := by
  obtain ⟨d, t⟩ := e
  cases d with
  | insert =>
    cases hp : ix.mask.project t with
    | error f => simp [Index.update, Index.insert, hp, bind, Except.bind] at h
    | ok s =>
      simp only [Index.update, Index.insert, hp, bind, Except.bind, pure, Except.pure] at h
      split at h
      · simp at h
      · cases h
        rfl
  | revoke =>
    cases hp : ix.mask.project t with
    | error f => simp [Index.update, Index.remove, hp, bind, Except.bind] at h
    | ok s =>
      simp only [Index.update, Index.remove, hp, bind, Except.bind, pure, Except.pure] at h
      split at h
      · cases h
        rfl
      · simp at h

theorem Tight.update {ix ix' : Index} {e : Event} {c : IndexChange} (h : ix.Tight)
    (hr : ix.refusal? e = none) (run : ix.update e = .ok (ix', .ok c)) (taken : ix.Takes e ix' c) :
    ix'.Tight := by
  have card : ix.size = ix.content.card := h.size.trans ix.sum_sizes
  have size := size_of_update run
  have content := taken.content
  have unique := unique_eq_of_bare_eq taken.bare
  refine ⟨taken.sound, ?_, fun hu => ?_⟩
  · rw [sum_sizes, size, content, contentAfter, card]
    rcases e with ⟨_ | _, t⟩
    · simp
    · have held : t ∈ ix.content := by simpa [refusal?] using hr
      simp [Multiset.card_erase_of_mem held]
  · have once := h.nodup (unique ▸ hu)
    rw [content, contentAfter]
    rcases e with ⟨_ | _, t⟩
    · have fresh : ix.unique = true → t ∉ ix.content := by simpa [refusal?] using hr
      exact Multiset.nodup_cons.2 ⟨fresh (unique ▸ hu), once⟩
    · exact once.erase t

def updateAll (ix : Index) : List Event → Except Fault (Index × List (Except Issue IndexChange))
  | [] => .ok (ix, [])
  | e :: rest => do
    let (next, outcome) ← ix.update e
    let (last, outcomes) ← next.updateAll rest
    return (last, outcome :: outcomes)

def takenPlace (d : Direction) (events : List Event) (outcomes : List (Except Issue IndexChange)) :
    Multiset Tuple :=
  ↑((events.zip outcomes).filterMap fun (e, outcome) =>
    if e.direction = d ∧ outcome.isOk = true then some e.tuple else none)

@[simp] theorem takenPlace_cons_error (d : Direction) (e : Event) (events : List Event)
    (issue : Issue) (outcomes : List (Except Issue IndexChange)) :
    takenPlace d (e :: events) (.error issue :: outcomes) = takenPlace d events outcomes := by
  simp [takenPlace, Except.isOk, Except.toBool]

@[simp] theorem takenPlace_cons_ok (d : Direction) (e : Event) (events : List Event)
    (c : IndexChange) (outcomes : List (Except Issue IndexChange)) :
    takenPlace d (e :: events) (.ok c :: outcomes) =
      if e.direction = d then e.tuple ::ₘ takenPlace d events outcomes
      else takenPlace d events outcomes := by
  by_cases h : e.direction = d <;> simp [takenPlace, Except.isOk, Except.toBool, h]

/-- What is held and what was taken away add up to what was there and what came. -/
theorem Tight.exists_updateAll {ix : Index} (h : ix.Tight) {events : List Event}
    (hw : ∀ e ∈ events, e.tuple.length = ix.mask.width) :
    ∃ ix' outcomes, ix.updateAll events = .ok (ix', outcomes) ∧ ix'.Tight ∧ ix'.bare = ix.bare ∧
      outcomes.length = events.length ∧
      ix'.content + takenPlace .revoke events outcomes =
        ix.content + takenPlace .insert events outcomes := by
  induction events generalizing ix with
  | nil => exact ⟨ix, [], rfl, h, rfl, rfl, rfl⟩
  | cons e rest ih =>
    have width := hw e List.mem_cons_self
    cases hr : ix.refusal? e with
    | some issue =>
      obtain ⟨ix', outcomes, run, tight, bare, length, balance⟩ :=
        ih h fun e' he => hw e' (List.mem_cons_of_mem e he)
      refine ⟨ix', .error issue :: outcomes, ?_, tight, bare, by simp [length], by simpa using balance⟩
      simp [updateAll, h.update_of_refusal width hr, run, bind, Except.bind, pure, Except.pure]
    | none =>
      obtain ⟨next, c, step, taken⟩ := h.exists_update width hr
      have mask := mask_eq_of_bare_eq taken.bare
      obtain ⟨ix', outcomes, run, tight, bare, length, balance⟩ :=
        ih (h.update hr step taken) fun e' he => mask ▸ hw e' (List.mem_cons_of_mem e he)
      refine ⟨ix', .ok c :: outcomes, ?_, tight, bare.trans taken.bare, by simp [length], ?_⟩
      · simp [updateAll, step, run, bind, Except.bind, pure, Except.pure]
      · rw [taken.content, contentAfter] at balance
        rcases e with ⟨_ | _, t⟩
        · simpa using balance
        · have held : t ∈ ix.content := by simpa [refusal?] using hr
          simp [balance, ← Multiset.cons_add, Multiset.cons_erase held]

theorem tight_new (name : String) (mask : Mask) (unique : Bool) :
    ({ name, mask, unique } : Index).Tight :=
  ⟨sound_of_empty rfl, rfl, by simp [content_of_empty]⟩

/-- An index that has taken changes of its width holds what came and did not go. It is in order, and
answers a further change as it should. -/
theorem exists_tight_of_changes (name : String) (mask : Mask) (unique : Bool) (events : List Event)
    (hw : ∀ e ∈ events, e.tuple.length = mask.width) :
    ∃ ix outcomes, ({ name, mask, unique } : Index).updateAll events = .ok (ix, outcomes) ∧
      outcomes.length = events.length ∧ ix.Tight ∧ ix.bare = { name, mask, unique } ∧
      ix.content + takenPlace .revoke events outcomes = takenPlace .insert events outcomes ∧
      ∀ e : Event, e.tuple.length = mask.width →
        (∀ issue, ix.refusal? e = some issue → ix.update e = .ok (ix, .error issue)) ∧
        (ix.refusal? e = none → ∃ ix' c, ix.update e = .ok (ix', .ok c) ∧ ix.Takes e ix' c) := by
  obtain ⟨ix, outcomes, run, tight, bare, length, balance⟩ :=
    (tight_new name mask unique).exists_updateAll hw
  have width : ix.mask.width = mask.width := congrArg Mask.width (mask_eq_of_bare_eq bare)
  refine ⟨ix, outcomes, run, length, tight, bare, ?_, fun e he => ?_⟩
  · simpa [content_of_empty] using balance
  · exact ⟨fun issue hr => tight.update_of_refusal (he.trans width.symm) hr,
      tight.exists_update (he.trans width.symm)⟩

theorem exists_tight_of_changes_edge :
    let events : List Event := [⟨.insert, [.string "a", .string "b"]⟩,
      ⟨.insert, [.string "a", .string "b"]⟩, ⟨.revoke, [.string "a", .null]⟩]
    (∀ e ∈ events, e.tuple.length = (Mask.first 1 2 (by decide)).width) ∧
      ∃ ix outcomes, ({ name := "edge", mask := .first 1 2 (by decide), unique := true } :
        Index).updateAll events = .ok (ix, outcomes) ∧ ix.Tight ∧
        ix.content + takenPlace .revoke events outcomes = takenPlace .insert events outcomes := by
  intro events
  have width : ∀ e ∈ events, e.tuple.length = (Mask.first 1 2 (by decide)).width := by
    simp [events, Mask.first]
  obtain ⟨ix, outcomes, run, -, tight, -, balance, -⟩ :=
    exists_tight_of_changes "edge" (.first 1 2 (by decide)) true events width
  exact ⟨width, ix, outcomes, run, tight, balance⟩

end Index
end Motif
