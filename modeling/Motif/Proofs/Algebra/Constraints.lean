import Motif.Catalog.Resolution
import Motif.Proofs.Algebra.Folds

/-!
Applying a constraint keeps the assignments that satisfy it. A variable of the constraint that is
mentioned before must have a column, and so must the arguments of a closed-world constraint that are
visible outside.
-/
set_option autoImplicit false
namespace Motif

namespace Aggregator

/-- An operator with a neutral value has a value for all that is not empty. -/
def Total (op : Aggregator) : Prop :=
  op.neutral.isSome = true → ∀ vs : List Value, vs ≠ [] → (op.fold vs).isSome = true

end Aggregator

/-- Folds mean what constraints say: counts are counts, and no neutral value stands in for a group
with tuples. -/
def Catalog.Folds (c : Catalog) : Constraint → Prop
  | .count .. => c.aggregators["count"]? = some Aggregator.count
  | .aggregate operator .. => ∀ op, c.aggregators[operator]? = some op → op.Total
  | _ => True

namespace Catalog
variable {c : Catalog}

theorem query_ok {name : String} {q : Query} (h : c.query name = .ok q) :
    c.queries[name]? = some q := by
  rw [query] at h
  split at h
  · rename_i e
    cases h
    exact e
  · cases h

theorem evaluator_ok {name : String} {e : Evaluator} (h : c.evaluator name = .ok e) :
    c.evaluators[name]? = some e := by
  rw [evaluator] at h
  split at h
  · rename_i e
    cases h
    exact e
  · cases h

theorem evaluator_of {name : String} {e : Evaluator} (h : c.evaluators[name]? = some e) :
    c.evaluator name = .ok e := by
  rw [evaluator, h]

theorem checkCall_ok {k : Constraint} {name : String} (h : c.checkCall k = .ok ())
    (hk : k.calledQuery? = some name) :
    ∃ q, c.queries[name]? = some q ∧ k.callWidth = q.arity := by
  simp only [checkCall, hk] at h
  obtain ⟨q, hq, h⟩ := bind_ok h
  refine ⟨q, query_ok hq, ?_⟩
  by_contra hne
  rw [if_pos hne] at h
  cases h

end Catalog

namespace Query

theorem length_of_validateConstraint {r : Relation} {xs : List Variable}
    (h : validateConstraint (.holds r xs) = .ok ()) : xs.length = r.arity := by
  rw [validateConstraint] at h
  split at h
  · assumption
  · cases h

theorem validateBody_ok {q : Query} {b : Body} (h : q.validateBody b = .ok ()) :
    b.parameters.length = q.arity ∧ ∀ k ∈ b.constraints, validateConstraint k = .ok () := by
  rw [validateBody] at h
  split at h
  · cases h
  · rename_i e
    exact ⟨not_not.1 e, fun k hk => forM_ok h hk⟩

end Query

namespace Rows
variable {c : Catalog} {f : Facts c} {r r' : Rows} {A : Set Variable} {S : Set Assignment}
  {b : Body} {index : Nat} {k : Constraint}

theorem length_of_call {name : String} (h : c.checkCall k = .ok ())
    (hk : k.calledQuery? = some name) : ∀ u ∈ f.found name, u.length = k.callWidth := by
  obtain ⟨q, hq, hw⟩ := c.checkCall_ok h hk
  intro u hu
  rw [f.length_found name q hq u hu, hw]

theorem outcome_eq {op : Aggregator} (ht : op.Total) {column : Nat} {G : Multiset Tuple}
    {row : Tuple → Tuple} {i : Nat}
    (hrow : ∀ u, foldedValue (some i) (row u) = foldedValue (some column) u) :
    (op.sorted.groupValue (some i) (G.map row)).or op.neutral = op.outcome column G := by
  rw [Aggregator.groupValue, Aggregator.outcome]
  by_cases hG : G = 0
  · rw [if_pos hG, if_pos (by rw [hG]; rfl), Option.none_or]
  · have hm : G.map row ≠ 0 := fun e => hG (Multiset.map_eq_zero.1 e)
    have same : (G.map row).map (foldedValue (some i)) = G.map (foldedValue (some column)) := by
      rw [Multiset.map_map]
      exact Multiset.map_congr rfl fun u _ => hrow u
    rw [if_neg hG, if_neg hm, Aggregator.sorted_valueOf, same]
    cases hn : op.neutral with
    | none => exact Option.or_none
    | some n =>
      have some := ht (by rw [hn]; rfl) (ascending (G.map (foldedValue (some column)))) (by
        intro e
        have empty : G.map (foldedValue (some column)) = 0 := by
          rw [← coe_ascending (G.map (foldedValue (some column))), e]
          rfl
        exact hG (Multiset.map_eq_zero.1 empty))
      obtain ⟨v, hv⟩ := Option.isSome_iff_exists.1 some
      rw [hv]
      rfl

theorem count_eq {G : Multiset Tuple} {row : Tuple → Tuple} :
    (Aggregator.count.sorted.groupValue none (G.map row)).or Aggregator.count.neutral =
      some (.ofNat G.card) := by
  rw [Aggregator.groupValue]
  by_cases hG : G = 0
  · rw [if_pos (by rw [hG]; rfl), Option.none_or, hG]
    rfl
  · have hm : G.map row ≠ 0 := fun e => hG (Multiset.map_eq_zero.1 e)
    rw [if_neg hm, Aggregator.sorted_valueOf]
    have len : (ascending ((G.map row).map (foldedValue none))).length = G.card := by
      rw [← Multiset.coe_card, coe_ascending, Multiset.card_map, Multiset.card_map]
    simp only [Aggregator.count, len]
    rfl

theorem mem_affected {x : Variable} :
    x ∈ b.affected index k ↔
      x ∈ k.vars ∧ (k.isClosedWorld = true → b.isLocal x index = false) := by
  rw [Body.affected]
  split
  · rename_i h
    simp [h]
  · rename_i h
    simp [h]

theorem source_singleton {expr : Algebra} {x : Variable} : source expr [x] = ⟨expr, [x]⟩ := by
  simp [source, repeatedPositions, numbered, positionsOf, List.finRange_succ]

/-- The rows of a constraint applied show the assignments that satisfy it too. -/
structure Applies (f : Facts c) (b : Body) (index : Nat) (k : Constraint) (r r' : Rows)
    (A : Set Variable) (S : Set Assignment) : Prop where
  shows : r'.Shows f (A ∪ {x | x ∈ k.vars}) (S ∩ {σ | b.Satisfies f index σ k})
  kept : ∀ x ∈ r.columns, x ∈ r'.columns
  bound : ∀ x ∈ b.affected index k, x ∈ r'.columns

theorem Applies.of_result {ys : List Variable} {result : Variable} {T : Set Assignment}
    (hk : k.vars = ys ++ [result]) (shows : r'.Shows f (A ∪ {result}) (S ∩ T))
    (hT : ∀ σ, σ ∈ T ↔ b.Satisfies f index σ k) (kept : ∀ x ∈ r.columns, x ∈ r'.columns)
    (bound : ∀ x ∈ b.affected index k, x ∈ ys → x ∈ r'.columns) (set : result ∈ r'.columns) :
    Applies f b index k r r' A S where
  shows := by
    have inside : A ∪ {result} ⊆ A ∪ {x | x ∈ k.vars} := by
      rintro x (hx | rfl)
      · exact .inl hx
      · exact .inr (by simp [hk])
    exact (shows.mono inside).of_eq fun σ => and_congr_right fun _ => hT σ
  kept := kept
  bound := by
    intro x hx
    have hm : x ∈ ys ++ [result] := hk ▸ (mem_affected.1 hx).1
    rcases List.mem_append.1 hm with hm | hm
    · exact bound x hx hm
    · exact List.mem_singleton.1 hm ▸ set

section applied
variable {k' : Constraint} {left right x : Variable} {v : Value}

theorem applyUnequal_ok (he : r.applyUnequal k' left right = .ok r') :
    ∃ i j, r.position left = .ok i ∧ r.position right = .ok j ∧
      r' = ⟨.inequalityFilter r.expr i.val j.val, r.columns⟩ := by
  rw [applyUnequal] at he
  split at he
  · obtain ⟨i, hi, he⟩ := bind_ok he
    obtain ⟨j, hj, he⟩ := bind_ok he
    exact ⟨i, j, hi, hj, (Except.ok.inj he).symm⟩
  · cases he

def copied (r : Rows) (i : Fin r.columns.length) (x : Variable) : Rows :=
  ⟨.trim r.expr (.ofFins (List.finRange r.columns.length ++ [i])), r.columns ++ [x]⟩

theorem applyEqual_ok (he : r.applyEqual k' left right = .ok r') :
    (∃ i j, r.position left = .ok i ∧ r.position right = .ok j ∧
      r' = ⟨.equalityFilter r.expr [[i.val, j.val]], r.columns⟩) ∨
    (∃ i, r.position left = .ok i ∧ right ∉ r.columns ∧ r' = r.copied i right) ∨
    ∃ i, r.position right = .ok i ∧ left ∉ r.columns ∧ r' = r.copied i left := by
  rw [applyEqual] at he
  split at he
  · split at he
    · obtain ⟨i, hi, he⟩ := bind_ok he
      obtain ⟨j, hj, he⟩ := bind_ok he
      exact .inl ⟨i, j, hi, hj, (Except.ok.inj he).symm⟩
    · rename_i hr
      obtain ⟨i, hi, he⟩ := bind_ok he
      exact .inr (.inl ⟨i, hi, hr, (Except.ok.inj he).symm⟩)
  · rename_i hl
    split at he
    · obtain ⟨i, hi, he⟩ := bind_ok he
      exact .inr (.inr ⟨i, hi, hl, (Except.ok.inj he).symm⟩)
    · cases he

theorem applyConstant_ok (he : r.applyConstant x v = .ok r') :
    (∃ i, r.position x = .ok i ∧ r' = ⟨.constantFilter r.expr i.val v, r.columns⟩) ∨
      r' = r.join ⟨.constant [[v]] 1, [x]⟩ := by
  rw [applyConstant] at he
  split at he
  · obtain ⟨i, hi, he⟩ := bind_ok he
    exact .inl ⟨i, hi, (Except.ok.inj he).symm⟩
  · exact .inr (Except.ok.inj he).symm

end applied

inductive Made (c : Catalog) (b : Body) (r : Rows) (index : Nat) : Constraint → Rows → Prop
  | holds {relation : Relation} {xs : List Variable} :
      Made c b r index (.holds relation xs) (r.join (source (.input relation) xs))
  | find {query : String} {xs : List Variable} {q : Query} (hq : c.queries[query]? = some q) :
      Made c b r index (.find query xs) (r.join (source (.production query q.arity) xs))
  | lacks {query : String} {xs : List Variable} {q : Query} {callee : Rows}
      (hq : c.queries[query]? = some q)
      (made : (source (.production query q.arity) xs).project (outerArguments b index xs) =
        .ok callee) : Made c b r index (.lacks query xs) (r.without callee)
  | unequal {left right : Variable} {r' : Rows}
      (made : r.applyUnequal (.unequal left right) left right = .ok r') :
      Made c b r index (.unequal left right) r'
  | equal {left right : Variable} {r' : Rows}
      (made : r.applyEqual (.equal left right) left right = .ok r') :
      Made c b r index (.equal left right) r'
  | constant {x : Variable} {v : Value} {r' : Rows} (made : r.applyConstant x v = .ok r') :
      Made c b r index (.constant x v) r'
  | count {query : String} {xs : List Variable} {result : Variable} {q : Query} {r' : Rows}
      (hq : c.queries[query]? = some q)
      (made : fold c r (source (.production query q.arity) xs) (outerArguments b index xs) "count"
        none result = .ok r') : Made c b r index (.count query xs result) r'
  | aggregate {operator query : String} {xs : List Variable} {aggregated result : Variable}
      {q : Query} {column : Fin (source (.production query q.arity) xs).columns.length} {r' : Rows}
      (hq : c.queries[query]? = some q)
      (hcolumn : (source (.production query q.arity) xs).position aggregated = .ok column)
      (made : fold c r (source (.production query q.arity) xs) (outerArguments b index xs) operator
        (some column.val) result = .ok r') :
      Made c b r index (.aggregate operator query xs aggregated result) r'
  | check {evaluator : String} {inputs : List Variable} {e : Evaluator}
      {is : List (Fin r.columns.length)} (he : c.evaluators[evaluator]? = some e)
      (his : inputs.mapM r.position = .ok is) : Made c b r index (.check evaluator inputs)
        ⟨.expression r.expr evaluator (is.map Fin.val) .check, r.columns⟩
  | eval {evaluator : String} {inputs : List Variable} {output : Variable} {e : Evaluator}
      {is : List (Fin r.columns.length)} {expr : Algebra} {r' : Rows}
      (he : c.evaluators[evaluator]? = some e) (his : inputs.mapM r.position = .ok is)
      (hexpr : expr = .expression r.expr evaluator (is.map Fin.val) .bind)
      (made : (if output ∈ r.columns then unifyLast ⟨expr, r.columns ++ [primed output]⟩ output
        else .ok ⟨expr, r.columns ++ [output]⟩) = .ok r') :
      Made c b r index (.eval evaluator inputs output) r'
  | closure {query : String} {x y : Variable} {q : Query} (hq : c.queries[query]? = some q)
      (arity : q.arity = 2) : Made c b r index (.closure query x y)
        (r.join (source (.closure (.production query 2)) [x, y]))

theorem ofCall_ok {query : String} {xs : List Variable} {p : Rows × Reference}
    (h : ofCall c r query xs = .ok p) :
    ∃ q, c.queries[query]? = some q ∧ p.1 = source (.production query q.arity) xs := by
  obtain ⟨q, hq, h⟩ := bind_ok h
  cases h
  exact ⟨q, Catalog.query_ok hq, rfl⟩

theorem evaluated_ok {evaluator : String} {inputs : List Variable} {mode : ExpressionMode}
    {expr : Algebra} (he : evaluated c r evaluator inputs mode = .ok expr) :
    ∃ e, c.evaluators[evaluator]? = some e ∧ ∃ is, inputs.mapM r.position = .ok is ∧
      expr = .expression r.expr evaluator (is.map Fin.val) mode := by
  cases hev : c.evaluator evaluator with
  | error e =>
    rw [evaluated, hev] at he
    cases he
  | ok e =>
    rw [evaluated, hev] at he
    obtain ⟨is, his, he⟩ := bind_ok (x := inputs.mapM r.position) he
    cases he
    exact ⟨e, Catalog.evaluator_ok hev, is, his, rfl⟩

theorem made_of_applyConstraint {calls : List Reference}
    (h : applyConstraint c b r index k = .ok (r', calls)) : Made c b r index k r' := by
  cases k with
  | holds relation xs =>
    cases h
    exact .holds
  | find query xs =>
    obtain ⟨⟨callee, call⟩, hcall, h⟩ := bind_ok h
    obtain ⟨q, hq, rfl⟩ := ofCall_ok hcall
    cases h
    exact .find hq
  | lacks query xs =>
    obtain ⟨⟨callee, call⟩, hcall, h⟩ := bind_ok h
    obtain ⟨q, hq, rfl⟩ := ofCall_ok hcall
    obtain ⟨outer, made, h⟩ := bind_ok h
    cases h
    exact .lacks hq made
  | unequal left right =>
    obtain ⟨r₁, made, h⟩ := bind_ok h
    cases h
    exact .unequal made
  | equal left right =>
    obtain ⟨r₁, made, h⟩ := bind_ok h
    cases h
    exact .equal made
  | constant x v =>
    obtain ⟨r₁, made, h⟩ := bind_ok h
    cases h
    exact .constant made
  | count query xs result =>
    obtain ⟨⟨callee, call⟩, hcall, h⟩ := bind_ok h
    obtain ⟨q, hq, rfl⟩ := ofCall_ok hcall
    obtain ⟨r₁, made, h⟩ := bind_ok h
    cases h
    exact .count hq made
  | aggregate operator query xs aggregated result =>
    rw [applyConstraint] at h
    split at h
    · cases h
    obtain ⟨⟨callee, call⟩, hcall, h⟩ := bind_ok h
    obtain ⟨q, hq, rfl⟩ := ofCall_ok hcall
    obtain ⟨column, hcolumn, h⟩ := bind_ok h
    obtain ⟨r₁, made, h⟩ := bind_ok h
    cases h
    exact .aggregate hq hcolumn made
  | check evaluator inputs =>
    obtain ⟨expr, hexpr, h⟩ := bind_ok h
    obtain ⟨e, he, is, his, rfl⟩ := evaluated_ok hexpr
    cases h
    exact .check he his
  | eval evaluator inputs output =>
    obtain ⟨expr, hexpr, h⟩ := bind_ok h
    obtain ⟨e, he, is, his, rfl⟩ := evaluated_ok hexpr
    refine .eval he his rfl ?_
    split at h
    · obtain ⟨r₁, made, h⟩ := bind_ok h
      cases h
      rw [if_pos ‹_›, made]
    · cases h
      rw [if_neg ‹_›]
  | closure query x y =>
    obtain ⟨q, hq, h⟩ := bind_ok h
    dsimp only at h
    split at h
    · cases h
    · cases h
      exact .closure (Catalog.query_ok hq) (not_not.1 ‹_›)

section applies
variable (h : r.Shows f A S)
include h

theorem Applies.of_restrict {expr : Algebra} {p : Tuple → Prop}
    (hv : ∀ t, t ∈ expr.value f ↔ t ∈ r.expr.value f ∧ p t)
    (hp : ∀ σ, p (r.columns.map σ) ↔ b.Satisfies f index σ k) (hu : expr.isUnit = false)
    (hk : ∀ x ∈ k.vars, x ∈ r.columns) : Applies f b index k r ⟨expr, r.columns⟩ A S where
  shows := by
    have inside : ∀ x ∈ k.vars, x ∈ A := fun x hx => h.columns x (hk x hx)
    refine (h.restrict hv (fun σ _ => hp σ) ?_ hu).mono Set.subset_union_left
    intro σ hσ τ e
    exact (Body.satisfies_congr fun x hx => e x (inside x hx)).2 hσ
  kept _ hx := hx
  bound x hx := hk x (mem_affected.1 hx).1

theorem Applies.of_join {expr : Algebra} {xs : List Variable} (hk : k.vars = xs)
    (hw : ∀ u ∈ expr.value f, u.length = xs.length) (hu : expr.isUnit = false)
    (hs : ∀ σ, xs.map σ ∈ expr.value f ↔ b.Satisfies f index σ k)
    (hA : ∀ x ∈ k.vars, x ∈ A → x ∈ r.columns) :
    Applies f b index k r (r.join (source expr xs)) A S := by
  have right := Shows.toSource hw hu
  have columns := fun x => Shows.mem_columns_join (x := x) h right
  subst hk
  refine ⟨(h.join right fun x ha hx => ⟨hA x hx ha, mem_columns_source.2 hx⟩).of_eq fun σ => ?_,
    fun x hx => (columns x).2 (.inl hx), fun x hx => (columns x).2 (.inr ?_)⟩
  · exact and_congr_right fun _ => hs σ
  · exact mem_columns_source.2 (mem_affected.1 hx).1

theorem applyUnequal_applies {left right : Variable} {k' : Constraint}
    (he : r.applyUnequal k' left right = .ok r') :
    Applies f b index (.unequal left right) r r' A S := by
  obtain ⟨i, j, hi, hj, rfl⟩ := applyUnequal_ok he
  refine .of_restrict h (p := fun t => t[i.val]? ≠ t[j.val]?) (fun t => ?_) (fun σ => ?_) rfl ?_
  · exact Multiset.mem_filter
  · rw [getElem?_position hi, getElem?_position hj, ne_eq, Option.some_inj]
    rfl
  · intro x hx
    simp only [Constraint.vars, List.mem_cons, List.not_mem_nil, or_false] at hx
    rcases hx with rfl | rfl
    · exact mem_columns_of_position hi
    · exact mem_columns_of_position hj

/-- A column copied for a new variable. -/
theorem copy_applies {bound unbound : Variable} {i : Fin r.columns.length}
    (hi : r.position bound = .ok i) (hk : ∀ x, x ∈ k.vars ↔ x = bound ∨ x = unbound)
    (hs : ∀ σ, b.Satisfies f index σ k ↔ σ bound = σ unbound) (hn : unbound ∉ A) :
    Applies f b index k r (r.copied i unbound) A S := by
  have hv : ∀ t, t ∈ (Algebra.trim r.expr
      (.ofFins (List.finRange r.columns.length ++ [i]))).value f ↔
        ∃ u ∈ r.expr.value f, ∃ v, u[i.val]? = some v ∧ t = u ++ [v] := by
    intro t
    simp only [Algebra.value, Multiset.mem_map]
    refine exists_congr fun u => and_congr_right fun hu => ?_
    obtain ⟨σ, -, rfl⟩ := (h.rows u).1 hu
    rw [getElem?_position hi, signature_ofFins, List.map_append, List.map_singleton]
    have same : (List.finRange r.columns.length).map (fun i => σ (r.columns.get i)) =
        r.columns.map σ := by
      have all := congrArg (List.map σ) (List.map_getElem_finRange r.columns)
      rw [List.map_map] at all
      exact all
    rw [same, position_eq hi]
    simp [eq_comm]
  refine ⟨?_, fun x hx => List.mem_append_left _ hx, fun x hx => ?_⟩
  · have shows := (h.append hv rfl hn).mono (B := A ∪ {x | x ∈ k.vars}) (by
      rintro x (hx | rfl)
      · exact .inl hx
      · exact .inr ((hk _).2 (.inr rfl)))
    refine shows.of_eq fun σ => and_congr_right fun _ => ?_
    rw [Set.mem_ofPred_eq, Set.mem_ofPred_eq, getElem?_position hi, hs, Option.some_inj]
  · rcases (hk x).1 (mem_affected.1 hx).1 with rfl | rfl
    · exact List.mem_append_left _ (mem_columns_of_position hi)
    · exact List.mem_append_right _ (List.mem_singleton_self _)

theorem applyEqual_applies {left right : Variable} {k' : Constraint}
    (hA : ∀ x ∈ (Constraint.equal left right).vars, x ∈ A → x ∈ r.columns)
    (he : r.applyEqual k' left right = .ok r') :
    Applies f b index (.equal left right) r r' A S := by
  simp only [Constraint.vars, List.mem_cons, List.not_mem_nil, or_false, forall_eq_or_imp,
    forall_eq] at hA
  obtain ⟨i, j, hi, hj, rfl⟩ | ⟨i, hi, hr, rfl⟩ | ⟨i, hi, hl, rfl⟩ := applyEqual_ok he
  · refine .of_restrict h (p := fun t => t.equalIn [[i.val, j.val]]) (fun t => ?_) (fun σ => ?_) rfl ?_
    · exact Multiset.mem_filter
    · simp only [Tuple.equalIn, List.mem_cons, List.not_mem_nil, or_false,
        forall_eq, forall_eq_or_imp, List.headD_cons, getElem?_position hi, getElem?_position hj,
        Option.some_inj, true_and]
      exact eq_comm
    · intro x hx
      simp only [Constraint.vars, List.mem_cons, List.not_mem_nil, or_false] at hx
      rcases hx with rfl | rfl
      · exact mem_columns_of_position hi
      · exact mem_columns_of_position hj
  · exact copy_applies h hi (fun x => by simp [Constraint.vars]) (fun σ => Iff.rfl)
      fun ha => hr (hA.2 ha)
  · exact copy_applies h hi (fun x => by simp [Constraint.vars, or_comm]) (fun σ => eq_comm)
      fun ha => hl (hA.1 ha)

theorem applyConstant_applies {x : Variable} {v : Value}
    (hA : ∀ y ∈ (Constraint.constant x v).vars, y ∈ A → y ∈ r.columns)
    (he : r.applyConstant x v = .ok r') :
    Applies f b index (.constant x v) r r' A S := by
  obtain ⟨i, hi, rfl⟩ | rfl := applyConstant_ok he
  · refine .of_restrict h (p := fun t => t[i.val]? = some v) (fun t => ?_) (fun σ => ?_) rfl ?_
    · exact Multiset.mem_filter
    · rw [getElem?_position hi, Option.some_inj]
      rfl
    · intro y hy
      rw [List.mem_singleton.1 hy]
      exact mem_columns_of_position hi
  · have join : Applies f b index (.constant x v) r (r.join (source (.constant [[v]] 1) [x])) A S :=
      .of_join h rfl (by simp [Algebra.value]) rfl
        (fun σ => by simp [Algebra.value, Body.Satisfies]) hA
    rw [source_singleton] at join
    exact join

theorem check_applies {evaluator : String} {inputs : List Variable} {e : Evaluator}
    {is : List (Fin r.columns.length)} (hev : c.evaluators[evaluator]? = some e)
    (his : inputs.mapM r.position = .ok is) : Applies f b index (.check evaluator inputs) r
      ⟨.expression r.expr evaluator (is.map Fin.val) .check, r.columns⟩ A S := by
  refine .of_restrict h (p := fun t => ∃ v, e.evaluate ((is.map Fin.val).map
    fun i => t.getD i .null) = .ok v ∧ v.isTruthy = true) (fun t => ?_) (fun σ => ?_) rfl ?_
  · simp only [Algebra.value, hev, Multiset.mem_filterMap, Evaluator.result]
    constructor
    · rintro ⟨u, hu, hr⟩
      split at hr
      · rename_i v hv
        simp only [Option.ite_none_right_eq_some, Option.some_inj] at hr
        obtain ⟨ht, rfl⟩ := hr
        exact ⟨hu, v, hv, ht⟩
      · cases hr
    · rintro ⟨ht, v, hv, htrue⟩
      refine ⟨t, ht, ?_⟩
      rw [hv]
      exact if_pos htrue
  · simp only [getD_positions his, Body.Satisfies, hev, Option.some_inj, exists_and_left,
      exists_eq_left']
  · intro x hx
    exact mem_columns_of_mapM his hx

theorem eval_applies {evaluator : String} {inputs : List Variable} {output : Variable}
    {e : Evaluator} {is : List (Fin r.columns.length)} {expr : Algebra}
    (hA : ∀ x ∈ (Constraint.eval evaluator inputs output).vars, x ∈ A → x ∈ r.columns)
    (hev : c.evaluators[evaluator]? = some e) (his : inputs.mapM r.position = .ok is)
    (hexpr : expr = .expression r.expr evaluator (is.map Fin.val) .bind)
    (hr : (if output ∈ r.columns then unifyLast ⟨expr, r.columns ++ [primed output]⟩ output
      else .ok ⟨expr, r.columns ++ [output]⟩) = .ok r') :
    Applies f b index (.eval evaluator inputs output) r r' A S := by
  subst hexpr
  have hv : ∀ t, t ∈ (Algebra.expression r.expr evaluator (is.map Fin.val) .bind).value f ↔
      ∃ u ∈ r.expr.value f, ∃ v,
        (e.evaluate ((is.map Fin.val).map fun i => u.getD i .null)).toOption = some v ∧
          t = u ++ [v] := by
    intro t
    simp only [Algebra.value, hev, Multiset.mem_filterMap, Evaluator.result]
    refine exists_congr fun u => and_congr_right fun _ => ?_
    cases e.evaluate ((is.map Fin.val).map fun i => u.getD i .null) with
    | error message => simp [Except.toOption]
    | ok v => simp [Except.toOption, eq_comm]
  have sat : ∀ σ, (e.evaluate ((is.map Fin.val).map
      fun i => (r.columns.map σ).getD i .null)).toOption = some (σ output) ↔
        b.Satisfies f index σ (.eval evaluator inputs output) := by
    intro σ
    rw [getD_positions his]
    simp only [Body.Satisfies, hev, Option.some_inj, exists_eq_left']
    cases e.evaluate (inputs.map σ) with
    | error message => simp [Except.toOption]
    | ok v => simp [Except.toOption]
  have bound : ∀ x ∈ inputs, x ∈ r.columns := fun x hx => mem_columns_of_mapM his hx
  by_cases ho : output ∈ r.columns
  · rw [if_pos ho] at hr
    obtain ⟨shows, columns⟩ := h.unify hv ho hr
    refine .of_result rfl (shows.mono Set.subset_union_left) sat (fun x hx => ?_)
      (fun x _ hx => ?_) ?_
    · rwa [columns]
    · rw [columns]
      exact bound x hx
    · rwa [columns]
  · rw [if_neg ho] at hr
    cases hr
    have new : output ∉ A := fun ha => ho (hA output (by simp [Constraint.vars]) ha)
    exact .of_result rfl (h.append hv rfl new) sat (fun x hx => List.mem_append_left _ hx)
      (fun x _ hx => List.mem_append_left _ (bound x hx))
      (List.mem_append_right _ (List.mem_singleton_self _))

theorem count_applies {query : String} {arity : Nat} {xs : List Variable} {result : Variable}
    (hc : c.aggregators["count"]? = some Aggregator.count)
    (hw : ∀ u ∈ f.found query, u.length = xs.length)
    (hA : ∀ x ∈ (Constraint.count query xs result).vars, x ∈ A → x ∈ r.columns)
    (he : fold c r (source (.production query arity) xs) (outerArguments b index xs) "count" none
      result = .ok r') :
    Applies f b index (.count query xs result) r r' A S := by
  obtain ⟨op, hop, shows, columns, outer⟩ :=
    h.fold hw (fun ha => hA result (by simp [Constraint.vars]) ha) he
  rw [hc] at hop
  cases hop
  refine .of_result rfl shows (fun σ => ?_) (fun x hx => (columns x).2 (.inl hx))
    (fun x hx hm => (columns x).2 (.inl (outer x (mem_outerArguments.2 ⟨hm, ?_⟩))))
    ((columns result).2 (.inr rfl))
  · rw [Set.mem_ofPred_eq, count_eq, Option.some_inj]
    exact eq_comm
  · exact (mem_affected.1 hx).2 rfl

theorem aggregate_applies {operator query : String} {arity : Nat} {xs : List Variable}
    {aggregated result : Variable} {column : Fin (source (.production query arity) xs).columns.length}
    (hc : ∀ op, c.aggregators[operator]? = some op → op.Total)
    (hw : ∀ u ∈ f.found query, u.length = xs.length)
    (hA : ∀ x ∈ (Constraint.aggregate operator query xs aggregated result).vars,
      x ∈ A → x ∈ r.columns)
    (hcol : (source (.production query arity) xs).position aggregated = .ok column)
    (he : fold c r (source (.production query arity) xs) (outerArguments b index xs) operator
      (some column.val) result = .ok r') :
    Applies f b index (.aggregate operator query xs aggregated result) r r' A S := by
  obtain ⟨op, hop, shows, columns, outer⟩ :=
    h.fold hw (fun ha => hA result (by simp [Constraint.vars]) ha) he
  have row : ∀ u, foldedValue (some column.val)
      ((source (.production query arity) xs).columns.map (Assignment.ofRow xs u)) =
        foldedValue (some (xs.idxOf aggregated)) u := by
    intro u
    have at_column := getElem?_position hcol (Assignment.ofRow xs u)
    simp only [foldedValue, List.getD_eq_getElem?_getD, at_column]
    rfl
  refine .of_result rfl shows (fun σ => ?_) (fun x hx => (columns x).2 (.inl hx))
    (fun x hx hm => (columns x).2 (.inl (outer x (mem_outerArguments.2 ⟨hm, ?_⟩))))
    ((columns result).2 (.inr rfl))
  · rw [Set.mem_ofPred_eq, outcome_eq (hc op hop) row]
    simp only [Body.Satisfies, hop, Option.some_inj, exists_eq_left']
  · exact (mem_affected.1 hx).2 rfl

theorem lacks_applies {query : String} {arity : Nat} {xs : List Variable} {callee : Rows}
    (hw : ∀ u ∈ f.found query, u.length = xs.length)
    (hclosed : ∀ x ∈ outerArguments b index xs, x ∈ r.columns)
    (he : (source (.production query arity) xs).project (outerArguments b index xs) =
      .ok callee) :
    Applies f b index (.lacks query xs) r (r.without callee) A S := by
  have shows := (@Shows.toSource c f (.production query arity) xs hw rfl).project he
  have columns := columns_project he
  refine ⟨((h.without shows).mono Set.subset_union_left).of_eq fun σ => and_congr_right fun _ => ?_,
    fun x hx => hx, fun x hx => ?_⟩
  · simp only [Set.mem_ofPred_eq, columns, Body.Satisfies, Body.agreeing,
      Finset.filter_eq_empty_iff]
    constructor
    · rintro hn u hu ⟨τ, e, rfl⟩
      refine hn ⟨τ, hu, fun x _ hx => ?_⟩
      obtain ⟨hx, hl⟩ := mem_outerArguments.1 hx
      exact (e x hx hl).symm
    · rintro hn ⟨τ, hu, e⟩
      refine hn hu ⟨τ, fun x hx hl => ?_, rfl⟩
      have hx' := mem_outerArguments.2 ⟨hx, hl⟩
      exact (e x (hclosed x hx') hx').symm
  · obtain ⟨hm, hl⟩ := mem_affected.1 hx
    exact hclosed x (mem_outerArguments.2 ⟨hm, hl rfl⟩)

/-- Applying a constraint keeps what satisfies it. Its variables that are mentioned before have
columns, and so have the outer arguments of a call that is lacked. -/
theorem applyConstraint_applies {calls : List Reference} (hv : Query.validateConstraint k = .ok ())
    (hcall : c.checkCall k = .ok ()) (hc : c.Folds k) (hA : ∀ x ∈ k.vars, x ∈ A → x ∈ r.columns)
    (hclosed : k.isClosedWorld = true → ∀ x ∈ b.deferred index k, x ∈ r.columns)
    (he : applyConstraint c b r index k = .ok (r', calls)) : Applies f b index k r r' A S := by
  cases made_of_applyConstraint he with
  | @holds relation xs =>
    refine .of_join h rfl (fun u hu => ?_) rfl (fun σ => Iff.rfl) hA
    rw [Query.length_of_validateConstraint hv]
    exact f.length_holds relation u hu
  | find => exact .of_join h rfl (length_of_call hcall rfl) rfl (fun σ => Iff.rfl) hA
  | lacks _ made =>
    refine lacks_applies h (length_of_call hcall rfl) (fun x hx => hclosed rfl x ?_) made
    obtain ⟨hx, hl⟩ := mem_outerArguments.1 hx
    simp [Body.deferred, hx, hl]
  | unequal made => exact applyUnequal_applies h made
  | equal made => exact applyEqual_applies h hA made
  | constant made => exact applyConstant_applies h hA made
  | count _ made => exact count_applies h hc (length_of_call hcall rfl) hA made
  | aggregate _ hcolumn made =>
    exact aggregate_applies h hc (length_of_call hcall rfl) hA hcolumn made
  | check hev his => exact check_applies h hev his
  | eval hev his hexpr made => exact eval_applies h hA hev his hexpr made
  | closure =>
    refine .of_join h rfl (fun u hu => ?_) rfl (fun σ => ?_) hA
    · obtain ⟨x, y, rfl, -⟩ := mem_linkedPairs.1 hu
      rfl
    · simp only [Algebra.value, mem_linkedPairs, List.map_cons, List.map_nil, List.cons.injEq,
        and_true, Body.Satisfies]
      constructor
      · rintro ⟨x, y, ⟨rfl, rfl⟩, hl⟩
        exact hl
      · intro hl
        exact ⟨_, _, ⟨rfl, rfl⟩, hl⟩

end applies
end Rows
end Motif
