import Motif.Proofs.Relational

set_option autoImplicit false
namespace Motif

theorem filterMap_congr {α β : Type} {P : Multiset α} {f g : α → Option β}
    (h : ∀ a ∈ P, f a = g a) : P.filterMap f = P.filterMap g := by
  induction P using Quotient.inductionOn with
  | h l => exact congrArg _ (List.filterMap_congr h)

theorem bind_ite_singleton {α β : Type} (P : Multiset α) (q : α → Prop) [DecidablePred q]
    (f : α → β) : (P.bind fun a => if q a then {f a} else 0) = (P.filter q).map f := by
  induction P using Multiset.induction with
  | empty => rfl
  | cons a P ih =>
    rw [Multiset.cons_bind, ih]
    by_cases h : q a
    · rw [if_pos h, Multiset.filter_cons_of_pos _ h, Multiset.map_cons, Multiset.singleton_add]
    · rw [if_neg h, Multiset.filter_cons_of_neg _ h, zero_add]

section partners
variable {p s : Mask} {S : Multiset Tuple}

theorem mem_partners {a b : Tuple} :
    b ∈ partners p s S a ↔ b ∈ S ∧ s.signature b = p.signature a := Multiset.mem_filter

theorem partners_cons (b a : Tuple) :
    partners p s (b ::ₘ S) a =
      (if p.signature a = s.signature b then {b} else 0) + partners p s S a := by
  by_cases h : s.signature b = p.signature a
  · rw [partners, Multiset.filter_cons_of_pos (p := fun b => s.signature b = p.signature a) _ h,
      if_pos h.symm, Multiset.singleton_add]
    rfl
  · rw [partners, Multiset.filter_cons_of_neg (p := fun b => s.signature b = p.signature a) _ h,
      if_neg fun e => h e.symm, zero_add]
    rfl

theorem partners_eq_zero_iff {a : Tuple} :
    partners p s S a = 0 ↔ ∀ b ∈ S, s.signature b ≠ p.signature a := Multiset.filter_eq_nil

end partners

section naturalJoin
variable {p s c : Mask}

@[simp] theorem naturalJoin_cons_left (a : Tuple) (P S : Multiset Tuple) :
    naturalJoin p s c (a ::ₘ P) S =
      (partners p s S a).map (fun b => a ++ c.signature b) + naturalJoin p s c P S :=
  Multiset.cons_bind ..

theorem naturalJoin_cons_right (b : Tuple) (P S : Multiset Tuple) :
    naturalJoin p s c P (b ::ₘ S) =
      (P.filter fun a => p.signature a = s.signature b).map (fun a => a ++ c.signature b) +
        naturalJoin p s c P S := by
  rw [naturalJoin, naturalJoin, ← bind_ite_singleton, ← Multiset.bind_add]
  refine Multiset.bind_congr fun a _ => ?_
  rw [partners_cons, Multiset.map_add]
  by_cases h : p.signature a = s.signature b
  · rw [if_pos h, if_pos h, Multiset.map_singleton]
  · rw [if_neg h, if_neg h, Multiset.map_zero]

theorem mem_naturalJoin {P S : Multiset Tuple} {t : Tuple} :
    t ∈ naturalJoin p s c P S ↔
      ∃ a ∈ P, ∃ b ∈ S, s.signature b = p.signature a ∧ a ++ c.signature b = t := by
  simp only [naturalJoin, Multiset.mem_bind, Multiset.mem_map, mem_partners, and_assoc]

theorem pair_of_row {a a' b b' : Tuple} (ha : a.length = p.width) (ha' : a'.length = p.width)
    (hb : b.length = s.width) (hb' : b'.length = s.width) (h : s.signature b = p.signature a)
    (h' : s.signature b' = p.signature a')
    (e : a ++ s.complement.signature b = a' ++ s.complement.signature b') : a = a' ∧ b = b' :=
  Mask.pair_eq_of_append_eq ha ha' hb hb' h.symm h'.symm e

theorem nodup_partners_map {S : Multiset Tuple} {a : Tuple} (ha : a.length = p.width)
    (hS : S.Nodup) (hw : ∀ b ∈ S, b.length = s.width) :
    ((partners p s S a).map fun b => a ++ s.complement.signature b).Nodup := by
  refine (hS.filter _).map_on fun b hb b' hb' e => ?_
  rw [mem_partners] at hb hb'
  exact (pair_of_row ha ha (hw b hb.1) (hw b' hb'.1) hb.2 hb'.2 e).2

theorem nodup_naturalJoin {P S : Multiset Tuple} (hP : P.Nodup) (hS : S.Nodup)
    (wP : ∀ a ∈ P, a.length = p.width) (wS : ∀ b ∈ S, b.length = s.width) :
    (naturalJoin p s s.complement P S).Nodup := by
  rw [naturalJoin, Multiset.nodup_bind]
  refine ⟨fun a ha => nodup_partners_map (wP a ha) hS wS, hP.pairwise fun a ha a' ha' hne => ?_⟩
  rw [Function.onFun, Multiset.disjoint_left]
  intro t ht ht'
  obtain ⟨b, hb, rfl⟩ := Multiset.mem_map.1 ht
  obtain ⟨b', hb', e⟩ := Multiset.mem_map.1 ht'
  rw [mem_partners] at hb hb'
  exact hne (pair_of_row (wP a ha) (wP a' ha') (wS b hb.1) (wS b' hb'.1) hb.2 hb'.2 e.symm).1

theorem length_of_mem_naturalJoin {P S : Multiset Tuple} {t : Tuple} {w : Nat}
    (wP : ∀ a ∈ P, a.length = w) (wS : ∀ b ∈ S, b.length = c.width)
    (h : t ∈ naturalJoin p s c P S) : t.length = w + c.arity := by
  obtain ⟨a, ha, b, hb, -, rfl⟩ := mem_naturalJoin.1 h
  rw [List.length_append, wP a ha, Mask.length_signature (wS b hb)]

end naturalJoin

section matching
variable {p s : Mask} {negative : Bool}

/-- A further secondary tuple matters only if it is the first of its signature; then it decides for
the primary tuples of that signature. -/
theorem matching_cons_right {b : Tuple} {P S : Multiset Tuple} :
    ((∃ u ∈ S, s.signature u = s.signature b) →
      matching p s negative P (b ::ₘ S) = matching p s negative P S) ∧
    ((∀ u ∈ S, s.signature u ≠ s.signature b) →
      (if negative then matching p s negative P S else matching p s negative P (b ::ₘ S)) =
        (if negative then matching p s negative P (b ::ₘ S) else matching p s negative P S) +
          P.filter fun a => p.signature a = s.signature b) := by
  have more : ∀ a : Tuple, partners p s (b ::ₘ S) a = 0 ↔
      p.signature a ≠ s.signature b ∧ partners p s S a = 0 := by
    intro a
    simp only [partners_eq_zero_iff, Multiset.mem_cons, forall_eq_or_imp, ne_comm]
  constructor
  · rintro ⟨u, hu, hs⟩
    refine Multiset.filter_congr fun a _ => ?_
    rw [more]
    refine iff_congr (and_iff_right_of_imp fun hz he => ?_) Iff.rfl
    exact partners_eq_zero_iff.1 hz u hu (hs.trans he.symm)
  · intro hu
    have first : ∀ a : Tuple, p.signature a = s.signature b → partners p s S a = 0 := by
      intro a ha
      rw [partners_eq_zero_iff]
      exact fun u hm => ha ▸ hu u hm
    cases negative with
    | true =>
      simp only [if_true, matching, iff_true, more]
      rw [← Multiset.filter_add_not (fun a => p.signature a ≠ s.signature b)
        (P.filter fun a => partners p s S a = 0), Multiset.filter_filter, Multiset.filter_filter]
      congr 1
      refine Multiset.filter_congr fun a _ => ?_
      rw [not_not, and_iff_left_of_imp (first a)]
    | false =>
      simp only [Bool.false_eq_true, if_false, matching, iff_false, more, not_and_or, not_not]
      rw [← Multiset.filter_add_not (fun a => partners p s S a = 0)
        (P.filter fun a => p.signature a = s.signature b ∨ ¬partners p s S a = 0),
        Multiset.filter_filter, Multiset.filter_filter, add_comm]
      congr 1
      · refine Multiset.filter_congr fun a _ => ?_
        exact and_iff_left_of_imp fun h => .inr h
      · refine Multiset.filter_congr fun a _ => ?_
        constructor
        · rintro ⟨h, h' | h'⟩
          · exact h'
          · exact absurd h h'
        · exact fun h => ⟨first a h, .inl h⟩

theorem matching_cons_left (a : Tuple) (P S : Multiset Tuple) :
    matching p s negative (a ::ₘ P) S =
      (if partners p s S a = 0 ↔ negative = true then {a} else 0) + matching p s negative P S := by
  by_cases h : partners p s S a = 0 ↔ negative = true
  · rw [matching, Multiset.filter_cons_of_pos
      (p := fun a => partners p s S a = 0 ↔ negative = true) _ h, if_pos h, Multiset.singleton_add]
    rfl
  · rw [matching, Multiset.filter_cons_of_neg
      (p := fun a => partners p s S a = 0 ↔ negative = true) _ h, if_neg h, zero_add]
    rfl

end matching

section leftJoin
variable {p s c : Mask} {d : Tuple}

@[simp] theorem leftJoin_cons_left (a : Tuple) (P S : Multiset Tuple) :
    leftJoin p s c d (a ::ₘ P) S = outerRows p s c d S a + leftJoin p s c d P S :=
  Multiset.cons_bind ..

def othersJoin (p s c : Mask) (d : Tuple) (P S : Multiset Tuple) (signature : Tuple) :
    Multiset Tuple :=
  leftJoin p s c d (P.filter fun a => p.signature a ≠ signature) S

theorem leftJoin_eq_add (P S : Multiset Tuple) (b : Tuple) :
    leftJoin p s c d P S =
      (P.filter fun a => p.signature a = s.signature b).bind (outerRows p s c d S) +
        othersJoin p s c d P S (s.signature b) := by
  rw [othersJoin, leftJoin, leftJoin, ← Multiset.add_bind, Multiset.filter_add_not]

theorem outerRows_cons_of_ne {S : Multiset Tuple} {a b : Tuple}
    (h : p.signature a ≠ s.signature b) :
    outerRows p s c d (b ::ₘ S) a = outerRows p s c d S a := by
  rw [outerRows, outerRows, partners_cons, if_neg h, zero_add]

theorem othersJoin_cons (P S : Multiset Tuple) (b : Tuple) :
    othersJoin p s c d P (b ::ₘ S) (s.signature b) = othersJoin p s c d P S (s.signature b) :=
  Multiset.bind_congr fun _ ha => outerRows_cons_of_ne (Multiset.mem_filter.1 ha).2

theorem outerRows_cons_of_eq {S : Multiset Tuple} {a b : Tuple}
    (h : p.signature a = s.signature b) :
    outerRows p s c d (b ::ₘ S) a =
      {a ++ c.signature b} + (partners p s S a).map fun b => a ++ c.signature b := by
  have hp : partners p s (b ::ₘ S) a ≠ 0 := by
    rw [Ne, partners_eq_zero_iff]
    exact fun hz => hz b (Multiset.mem_cons_self _ _) h.symm
  rw [outerRows, if_neg hp, partners_cons, if_pos h, Multiset.map_add, Multiset.map_singleton]

/-- Beside others of its signature a further secondary tuple only adds rows. -/
theorem bind_outerRows_cons_of_exists {P S : Multiset Tuple} {b : Tuple}
    (hu : ∃ u ∈ S, s.signature u = s.signature b) :
    (P.filter fun a => p.signature a = s.signature b).bind (outerRows p s c d (b ::ₘ S)) =
      (P.filter fun a => p.signature a = s.signature b).map (fun a => a ++ c.signature b) +
        (P.filter fun a => p.signature a = s.signature b).bind (outerRows p s c d S) := by
  obtain ⟨u, hu, e⟩ := hu
  rw [← Multiset.bind_singleton, ← Multiset.bind_add]
  refine Multiset.bind_congr fun a ha => ?_
  have h := (Multiset.mem_filter.1 ha).2
  have hq : partners p s S a ≠ 0 := by
    rw [Ne, partners_eq_zero_iff]
    exact fun hz => hz u hu (e.trans h.symm)
  rw [outerRows_cons_of_eq h, outerRows, if_neg hq]

theorem bind_outerRows_cons_of_forall_ne {P S : Multiset Tuple} {b : Tuple}
    (hu : ∀ u ∈ S, s.signature u ≠ s.signature b) :
    (P.filter fun a => p.signature a = s.signature b).bind (outerRows p s c d (b ::ₘ S)) =
      (P.filter fun a => p.signature a = s.signature b).map fun a => a ++ c.signature b := by
  rw [← Multiset.bind_singleton]
  refine Multiset.bind_congr fun a ha => ?_
  have h := (Multiset.mem_filter.1 ha).2
  have hq : partners p s S a = 0 := by
    rw [partners_eq_zero_iff]
    exact fun u hm e => hu u hm (e.trans h)
  rw [outerRows_cons_of_eq h, hq, Multiset.map_zero, add_zero]

theorem bind_outerRows_of_forall_ne {P S : Multiset Tuple} {b : Tuple}
    (h : ∀ u ∈ S, s.signature u ≠ s.signature b) :
    (P.filter fun a => p.signature a = s.signature b).bind (outerRows p s c d S) =
      (P.filter fun a => p.signature a = s.signature b).map fun a => a ++ d := by
  rw [← Multiset.bind_singleton]
  refine Multiset.bind_congr fun a ha => ?_
  have hq : partners p s S a = 0 := by
    rw [partners_eq_zero_iff]
    exact fun u hu e => h u hu (e.trans (Multiset.mem_filter.1 ha).2)
  rw [outerRows, if_pos hq]

theorem prefix_of_mem_outerRows {S : Multiset Tuple} {a t : Tuple}
    (h : t ∈ outerRows p s c d S a) : ∃ r, t = a ++ r := by
  rw [outerRows] at h
  split at h
  · exact ⟨d, Multiset.mem_singleton.1 h⟩
  · obtain ⟨b, -, rfl⟩ := Multiset.mem_map.1 h
    exact ⟨_, rfl⟩

theorem leftJoin_cons_of_forall_ne {P S : Multiset Tuple} {b : Tuple}
    (h : ∀ u ∈ S, s.signature u ≠ s.signature b) :
    leftJoin p s c d P S = othersJoin p s c d P S (s.signature b) +
        (P.filter fun a => p.signature a = s.signature b).map (fun a => a ++ d) ∧
      leftJoin p s c d P (b ::ₘ S) = othersJoin p s c d P S (s.signature b) +
        (P.filter fun a => p.signature a = s.signature b).map fun a => a ++ c.signature b := by
  rw [leftJoin_eq_add P S b, leftJoin_eq_add P (b ::ₘ S) b, othersJoin_cons,
    bind_outerRows_of_forall_ne h, bind_outerRows_cons_of_forall_ne h]
  exact ⟨add_comm _ _, add_comm _ _⟩

theorem leftJoin_cons_of_exists {P S : Multiset Tuple} {b : Tuple}
    (h : ∃ u ∈ S, s.signature u = s.signature b) : leftJoin p s c d P (b ::ₘ S) =
      leftJoin p s c d P S +
        (P.filter fun a => p.signature a = s.signature b).map fun a => a ++ c.signature b := by
  rw [leftJoin_eq_add P (b ::ₘ S) b, leftJoin_eq_add P S b, othersJoin_cons,
    bind_outerRows_cons_of_exists h, add_assoc, add_comm]

theorem nodup_leftJoin {P S : Multiset Tuple} (hP : P.Nodup) (hS : S.Nodup)
    (wP : ∀ a ∈ P, a.length = p.width) (wS : ∀ b ∈ S, b.length = s.width) :
    (leftJoin p s s.complement d P S).Nodup := by
  rw [leftJoin, Multiset.nodup_bind]
  constructor
  · intro a ha
    rw [outerRows]
    split
    · exact Multiset.nodup_singleton _
    · exact nodup_partners_map (wP a ha) hS wS
  · refine hP.pairwise fun a ha a' ha' hne => ?_
    rw [Function.onFun, Multiset.disjoint_left]
    intro t ht ht'
    obtain ⟨r, rfl⟩ := prefix_of_mem_outerRows ht
    obtain ⟨r', e⟩ := prefix_of_mem_outerRows ht'
    exact hne (List.append_inj e ((wP a ha).trans (wP a' ha').symm)).1

theorem length_of_mem_outerRows {S : Multiset Tuple} {a t : Tuple}
    (wS : ∀ b ∈ S, b.length = c.width) (wd : d.length = c.arity)
    (h : t ∈ outerRows p s c d S a) : t.length = a.length + c.arity := by
  rw [outerRows] at h
  split at h
  · rw [Multiset.mem_singleton.1 h, List.length_append, wd]
  · obtain ⟨b, hb, rfl⟩ := Multiset.mem_map.1 h
    rw [List.length_append, Mask.length_signature (wS b (mem_partners.1 hb).1)]

theorem length_of_mem_leftJoin {P S : Multiset Tuple} {t : Tuple} {w : Nat}
    (wP : ∀ a ∈ P, a.length = w) (wS : ∀ b ∈ S, b.length = c.width) (wd : d.length = c.arity)
    (h : t ∈ leftJoin p s c d P S) : t.length = w + c.arity := by
  obtain ⟨a, ha, ht⟩ := Multiset.mem_bind.1 h
  rw [length_of_mem_outerRows wS wd ht, wP a ha]

end leftJoin

section groupRows
variable {m : Mask} {op : Aggregator} {column : Option Nat}

theorem groupValue_eq_none {S : Multiset Tuple} {s : Tuple} (h : s ∉ S.map m.signature) :
    op.groupValue column (group m S s) = none := by
  have hz : group m S s = 0 := by
    rw [group, Multiset.filter_eq_nil]
    exact fun t ht e => h (Multiset.mem_map.2 ⟨t, ht, e⟩)
  rw [Aggregator.groupValue, if_pos hz]

def otherRows (m : Mask) (op : Aggregator) (column : Option Nat) (S : Multiset Tuple) (s : Tuple) :
    Multiset Tuple :=
  ((S.map m.signature).dedup.filter (· ≠ s)).filterMap (groupRow m op column S)

theorem groupRows_eq_add (S : Multiset Tuple) (s : Tuple) :
    groupRows m op column S = otherRows m op column S s + ↑(groupRow m op column S s).toList := by
  have hd := Multiset.nodup_dedup (S.map m.signature)
  have one : ((S.map m.signature).dedup.filter (¬ · ≠ s)).filterMap (groupRow m op column S) =
      ↑(groupRow m op column S s).toList := by
    simp only [ne_eq, not_not]
    by_cases hs : s ∈ (S.map m.signature).dedup
    · rw [Multiset.filter_eq', Multiset.count_eq_one_of_mem hd hs, Multiset.replicate_one,
        ← Multiset.cons_zero]
      cases h : groupRow m op column S s with
      | none => exact Multiset.filterMap_cons_none _ _ h
      | some t => exact Multiset.filterMap_cons_some _ _ _ h
    · have hn : groupRow m op column S s = none := by
        rw [groupRow, groupValue_eq_none fun h => hs (Multiset.mem_dedup.2 h)]
        rfl
      rw [Multiset.filter_eq', Multiset.count_eq_zero_of_notMem hs, hn]
      rfl
  rw [otherRows, ← one, ← Multiset.filterMap_add, Multiset.filter_add_not]
  rfl

theorem group_cons_of_ne {S : Multiset Tuple} {t s : Tuple} (h : m.signature t ≠ s) :
    group m (t ::ₘ S) s = group m S s :=
  Multiset.filter_cons_of_neg (p := fun t => m.signature t = s) _ h

theorem otherRows_cons (S : Multiset Tuple) (t : Tuple) :
    otherRows m op column (t ::ₘ S) (m.signature t) = otherRows m op column S (m.signature t) := by
  have keys : ((t ::ₘ S).map m.signature).dedup.filter (· ≠ m.signature t) =
      (S.map m.signature).dedup.filter (· ≠ m.signature t) := by
    refine (Multiset.Nodup.ext ((Multiset.nodup_dedup _).filter _)
      ((Multiset.nodup_dedup _).filter _)).2 fun x => ?_
    simp only [Multiset.map_cons, Multiset.mem_filter, Multiset.mem_dedup, Multiset.mem_cons]
    grind
  rw [otherRows, keys]
  refine filterMap_congr fun x hx => ?_
  rw [groupRow, groupRow, group_cons_of_ne (Ne.symm (Multiset.mem_filter.1 hx).2)]

theorem mem_groupRows {S : Multiset Tuple} {t : Tuple} :
    t ∈ groupRows m op column S ↔
      ∃ s v, op.groupValue column (group m S s) = some v ∧ t = s ++ [v] := by
  simp only [groupRows, groupRow, Multiset.mem_filterMap, Multiset.mem_dedup,
    Option.map_eq_some_iff]
  constructor
  · rintro ⟨s, -, v, hv, rfl⟩
    exact ⟨s, v, hv, rfl⟩
  · rintro ⟨s, v, hv, rfl⟩
    refine ⟨s, ?_, v, hv, rfl⟩
    by_contra hs
    rw [groupValue_eq_none hs] at hv
    cases hv

theorem nodup_groupRows (S : Multiset Tuple) : (groupRows m op column S).Nodup := by
  refine (Multiset.nodup_dedup _).filterMap _ fun s s' t hs hs' => ?_
  obtain ⟨v, -, rfl⟩ := Option.map_eq_some_iff.1 hs
  obtain ⟨v', -, e⟩ := Option.map_eq_some_iff.1 hs'
  exact (List.append_inj' e rfl).1.symm

theorem length_of_mem_groupRows {S : Multiset Tuple} {t : Tuple}
    (wS : ∀ u ∈ S, u.length = m.width) (h : t ∈ groupRows m op column S) :
    t.length = m.arity + 1 := by
  obtain ⟨s, v, hv, rfl⟩ := mem_groupRows.1 h
  have hs : s ∈ S.map m.signature := by
    by_contra hs
    rw [groupValue_eq_none hs] at hv
    cases hv
  obtain ⟨u, hu, rfl⟩ := Multiset.mem_map.1 hs
  rw [List.length_append, Mask.length_signature (wS u hu)]
  rfl

end groupRows
end Motif
