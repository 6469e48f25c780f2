import Motif.Algebra.OfPlan
import Motif.Proofs.Algebra.Extensions

set_option autoImplicit false
namespace Motif

section beside
variable {p m : Mask} {op : Aggregator} {column : Option Nat} {P S : Multiset Tuple} {n : Nat}

theorem signature_complement_first {s : Tuple} {v : Value} (hs : s.length = n) :
    (Mask.first n (n + 1) (Nat.le_succ n)).complement.signature (s ++ [v]) = [v] := by
  have last : (Mask.first n (n + 1) (Nat.le_succ n)).complement.indices = [n] := by
    simp [Mask.complement, Mask.first, List.range_succ]
  subst hs
  rw [Mask.signature, last]
  simp [Tuple.project]

theorem mem_partners_groupRows (wS : ∀ t ∈ S, t.length = m.width) (hn : m.arity = n) {u b : Tuple} :
    b ∈ partners p (Mask.first n (n + 1) (Nat.le_succ n)) (groupRows m op column S) u ↔
      ∃ v, op.groupValue column (group m S (p.signature u)) = some v ∧
        b = p.signature u ++ [v] := by
  have key : ∀ s v, op.groupValue column (group m S s) = some v → s.length = n := by
    intro s v hv
    have hs : s ∈ S.map m.signature := by
      by_contra hs
      rw [groupValue_eq_none hs] at hv
      cases hv
    obtain ⟨t, ht, rfl⟩ := Multiset.mem_map.1 hs
    rw [Mask.length_signature (wS t ht), hn]
  rw [mem_partners, mem_groupRows]
  constructor
  · rintro ⟨⟨s, v, hv, rfl⟩, e⟩
    rw [signature_first _ (key s v hv)] at e
    subst e
    exact ⟨v, hv, rfl⟩
  · rintro ⟨v, hv, rfl⟩
    exact ⟨⟨_, v, hv, rfl⟩, signature_first _ (key _ v hv)⟩

theorem mem_join_groupRows (wS : ∀ t ∈ S, t.length = m.width) (hn : m.arity = n)
    (hp : p.arity = n) (wP : ∀ u ∈ P, u.length = p.width) {t : Tuple} :
    t ∈ naturalJoin p (Mask.first n (n + 1) (Nat.le_succ n))
        (Mask.first n (n + 1) (Nat.le_succ n)).complement P (groupRows m op column S) ↔
      ∃ u ∈ P, ∃ v, op.groupValue column (group m S (p.signature u)) = some v ∧ t = u ++ [v] := by
  simp only [naturalJoin, Multiset.mem_bind, Multiset.mem_map, mem_partners_groupRows wS hn]
  refine exists_congr fun u => and_congr_right fun hu => ?_
  have len : (p.signature u).length = n := (Mask.length_signature (wP u hu)).trans hp
  constructor
  · rintro ⟨_, ⟨v, hv, rfl⟩, rfl⟩
    exact ⟨v, hv, by rw [signature_complement_first len]⟩
  · rintro ⟨v, hv, rfl⟩
    exact ⟨_, ⟨v, hv, rfl⟩, by rw [signature_complement_first len]⟩

theorem mem_leftJoin_groupRows (wS : ∀ t ∈ S, t.length = m.width) (hn : m.arity = n)
    (hp : p.arity = n) (wP : ∀ u ∈ P, u.length = p.width) {neutral : Value} {t : Tuple} :
    t ∈ leftJoin p (Mask.first n (n + 1) (Nat.le_succ n))
        (Mask.first n (n + 1) (Nat.le_succ n)).complement [neutral] P (groupRows m op column S) ↔
      ∃ u ∈ P, ∃ v, (op.groupValue column (group m S (p.signature u))).or (some neutral) = some v ∧
        t = u ++ [v] := by
  simp only [leftJoin, Multiset.mem_bind]
  refine exists_congr fun u => and_congr_right fun hu => ?_
  have len : (p.signature u).length = n := (Mask.length_signature (wP u hu)).trans hp
  have partner : ∀ b, b ∈ partners p (Mask.first n (n + 1) (Nat.le_succ n))
      (groupRows m op column S) u ↔ ∃ v, op.groupValue column (group m S (p.signature u)) = some v ∧
        b = p.signature u ++ [v] := fun b => mem_partners_groupRows wS hn
  rw [outerRows]
  cases hv : op.groupValue column (group m S (p.signature u)) with
  | none =>
    have empty : partners p (Mask.first n (n + 1) (Nat.le_succ n)) (groupRows m op column S) u =
        0 := by
      rw [Multiset.eq_zero_iff_forall_notMem]
      intro b hb
      obtain ⟨v, h, -⟩ := (partner b).1 hb
      rw [hv] at h
      cases h
    rw [if_pos empty, Multiset.mem_singleton]
    simp
  | some v =>
    have mem := (partner _).2 ⟨v, hv, rfl⟩
    have full : partners p (Mask.first n (n + 1) (Nat.le_succ n)) (groupRows m op column S) u ≠
        0 := by
      intro e
      rw [e] at mem
      exact Multiset.notMem_zero _ mem
    rw [if_neg full, Multiset.mem_map]
    constructor
    · rintro ⟨b, hb, rfl⟩
      obtain ⟨w, hw, rfl⟩ := (partner b).1 hb
      rw [hv] at hw
      cases hw
      exact ⟨v, rfl, by rw [signature_complement_first len]⟩
    · rintro ⟨w, hw, rfl⟩
      cases hw
      exact ⟨_, mem, by rw [signature_complement_first len]⟩

end beside

namespace Catalog
variable {c : Catalog} {name : String} {op : Aggregator}

theorem aggregator_ok (h : c.aggregator name = .ok op) : c.aggregators[name]? = some op := by
  rw [aggregator] at h
  split at h
  · rename_i e
    cases h
    exact e
  · cases h

theorem aggregator_of (h : c.aggregators[name]? = some op) : c.aggregator name = .ok op := by
  rw [aggregator, h]

end Catalog

namespace Rows
variable {c : Catalog} {f : Facts c} {r r' : Rows} {A : Set Variable} {S : Set Assignment}
  {b : Body} {index : Nat} {xs : List Variable}

theorem mem_outerArguments {x : Variable} :
    x ∈ outerArguments b index xs ↔ x ∈ xs ∧ b.isLocal x index = false := by
  simp [outerArguments, List.mem_filter]

/-- A match agrees with the arguments if it fits them and has the values of the arguments that are
visible outside. -/
theorem agrees_iff {σ : Assignment} {u : Tuple} :
    b.Agrees index xs σ u ↔ (∃ τ : Assignment, xs.map τ = u) ∧
      (outerArguments b index xs).map (Assignment.ofRow xs u) =
        (outerArguments b index xs).map σ := by
  rw [List.map_inj_left]
  constructor
  · rintro ⟨τ, h, rfl⟩
    refine ⟨⟨τ, rfl⟩, fun x hx => ?_⟩
    obtain ⟨hx, hl⟩ := mem_outerArguments.1 hx
    rw [ofRow_map hx, h x hx hl]
  · rintro ⟨hτ, h⟩
    exact ⟨.ofRow xs u, fun x hx hl => h x (mem_outerArguments.2 ⟨hx, hl⟩), map_ofRow hτ⟩

theorem group_source {query : String} {arity : Nat}
    (hw : ∀ u ∈ f.found query, u.length = xs.length)
    {is : List (Fin (source (.production query arity) xs).columns.length)}
    (hm : (outerArguments b index xs).mapM (source (.production query arity) xs).position = .ok is)
    (σ : Assignment) :
    group (.ofFins is) ((source (.production query arity) xs).expr.value f)
        ((outerArguments b index xs).map σ) =
      (b.agreeing index xs (f.found query) σ).val.map fun u =>
        (source (.production query arity) xs).columns.map (Assignment.ofRow xs u) := by
  classical
  have hw' : ∀ u ∈ (Algebra.production query arity).value f, u.length = xs.length := hw
  rw [group, value_source hw', Multiset.filter_map, Multiset.filter_filter, Body.agreeing,
    Finset.filter_val]
  refine congrArg _ (Multiset.filter_congr fun u _ => ?_)
  rw [agrees_iff, Function.comp_apply, signature_positions hm]
  exact and_comm

namespace Shows

theorem fold (h : r.Shows f A S) {query operator : String} {arity : Nat} {column : Option Nat}
    {result : Variable} (hw : ∀ u ∈ f.found query, u.length = xs.length)
    (hA : result ∈ A → result ∈ r.columns)
    (he : Rows.fold c r (source (.production query arity) xs) (outerArguments b index xs) operator
      column result = .ok r') :
    ∃ op, c.aggregators[operator]? = some op ∧
      r'.Shows f (A ∪ {result}) (S ∩ {σ | (op.sorted.groupValue column
        ((b.agreeing index xs (f.found query) σ).val.map fun u =>
          (source (.production query arity) xs).columns.map (Assignment.ofRow xs u))).or op.neutral =
            some (σ result)}) ∧
      (∀ x, x ∈ r'.columns ↔ x ∈ r.columns ∨ x = result) ∧
      ∀ x ∈ outerArguments b index xs, x ∈ r.columns := by
  obtain ⟨op, hop, he⟩ := bind_ok he
  obtain ⟨is, his, he⟩ := bind_ok he
  obtain ⟨js, hjs, he⟩ := bind_ok he
  have hop' := Catalog.aggregator_ok hop
  have callee := @toSource c f (.production query arity) xs hw rfl
  have wS : ∀ t ∈ (source (.production query arity) xs).expr.value f,
      t.length = (Mask.ofFins is).width := fun t ht => callee.length ht
  have wP : ∀ u ∈ r.expr.value f, u.length = (Mask.ofFins js).width := fun u hu => h.length hu
  have his' : (Mask.ofFins is).arity = (outerArguments b index xs).length := by
    rw [← map_position his, List.length_map]
    simp [Mask.arity, Mask.ofFins]
  have hjs' : (Mask.ofFins js).arity = (outerArguments b index xs).length := by
    rw [← map_position hjs, List.length_map]
    simp [Mask.arity, Mask.ofFins]
  obtain ⟨g, hg⟩ : ∃ g : Tuple → Option Value, g = fun u => (op.sorted.groupValue column
      (group (.ofFins is) ((source (.production query arity) xs).expr.value f)
        ((Mask.ofFins js).signature u))).or op.neutral := ⟨_, rfl⟩
  have beside : ∀ σ, g (r.columns.map σ) = (op.sorted.groupValue column
      ((b.agreeing index xs (f.found query) σ).val.map fun u =>
        (source (.production query arity) xs).columns.map (Assignment.ofRow xs u))).or
          op.neutral := by
    intro σ
    rw [hg]
    simp only [signature_positions hjs, group_source hw his]
  obtain ⟨expr, hexpr, hu, he⟩ : ∃ expr : Algebra, (∀ t, t ∈ expr.value f ↔
      ∃ u ∈ r.expr.value f, ∃ v, g u = some v ∧ t = u ++ [v]) ∧ expr.isUnit = false ∧
      (if result ∈ r.columns then unifyLast ⟨expr, r.columns ++ [primed result]⟩ result
        else .ok ⟨expr, r.columns ++ [result]⟩) = .ok r' := by
    cases hn : op.neutral with
    | none =>
      rw [hn] at he
      refine ⟨_, fun t => ?_, rfl, he⟩
      simp only [Algebra.value, hop', mem_join_groupRows wS his' hjs' wP, hg, hn, Option.or_none]
    | some neutral =>
      rw [hn] at he
      refine ⟨_, fun t => ?_, rfl, he⟩
      simp only [Algebra.value, hop', mem_leftJoin_groupRows wS his' hjs' wP, hg, hn]
  refine ⟨op, hop', ?_⟩
  simp only [← beside]
  have seen : ∀ x ∈ outerArguments b index xs, x ∈ r.columns := fun x hx =>
    mem_columns_of_mapM hjs hx
  by_cases hr : result ∈ r.columns
  · rw [if_pos hr] at he
    obtain ⟨shows, columns⟩ := h.unify hexpr hr he
    refine ⟨shows.mono Set.subset_union_left, fun x => ?_, seen⟩
    rw [columns]
    exact ⟨.inl, fun hx => hx.elim id fun e => e ▸ hr⟩
  · rw [if_neg hr] at he
    cases he
    refine ⟨h.append hexpr hu fun ha => hr (hA ha), fun x => ?_, seen⟩
    rw [List.mem_append, List.mem_singleton]

end Shows
end Rows
end Motif
