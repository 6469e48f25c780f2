import Motif.Proofs.Algebra.OfPlan

set_option autoImplicit false
namespace Motif

def Constraint.isBinding : Constraint → Bool
  | eval .. => true
  | _ => false

def Constraint.operator? : Constraint → Option String
  | count .. => some "count"
  | aggregate operator .. => some operator
  | _ => none

/-- What an expression may refer to. -/
structure Scope where
  /-- how wide the matches of the queries are that may be read -/
  calls : String → Nat → Prop
  /-- and of those that may be read where it matters what is missing -/
  guarded : String → Nat → Prop
  evaluator : String → Prop
  operator : String → Prop
  /-- new values may be computed -/
  binds : Prop

namespace Scope

def closed (s : Scope) : Scope := { s with calls := s.guarded }

def registered (c : Catalog) : Scope where
  calls name arity := ∃ q, c.queries[name]? = some q ∧ q.arity = arity
  guarded name arity := ∃ q, c.queries[name]? = some q ∧ q.arity = arity
  evaluator name := ∃ x, c.evaluators[name]? = some x
  operator name := ∃ op, c.aggregators[name]? = some op
  binds := True

structure Admits (s : Scope) (c : Catalog) (k : Constraint) : Prop where
  valid : Query.validateConstraint k = .ok ()
  checked : c.checkCall k = .ok ()
  calls : ∀ name q, k.calledQuery? = some name → c.queries[name]? = some q → s.calls name q.arity
  guarded : ∀ name q, k.calledQuery? = some name → k.isClosedWorld = true →
    c.queries[name]? = some q → s.guarded name q.arity
  evaluator : ∀ name x, c.evaluators[name]? = some x → s.evaluator name
  operator : ∀ name op, k.operator? = some name → c.aggregators[name]? = some op → s.operator name
  binds : k.isBinding = true → s.binds

end Scope

namespace Algebra

/-- The expression keeps to a scope, and the columns it works with are there. -/
def WellFormed : Algebra → Scope → Prop
  | constant rows arity, _ => ∀ t ∈ rows, t.length = arity
  | input _, _ => True
  | production query arity, s => s.calls query arity
  | trim e mask, s => e.WellFormed s ∧ mask.width = e.arity
  | constantFilter e column _, s => e.WellFormed s ∧ column < e.arity
  | equalityFilter e groups, s => e.WellFormed s ∧ ∀ g ∈ groups, ∀ i ∈ g, i < e.arity
  | inequalityFilter e left right, s => e.WellFormed s ∧ left < e.arity ∧ right < e.arity
  | expression e evaluator inputs mode, s => e.WellFormed s ∧ s.evaluator evaluator ∧
      (∀ i ∈ inputs, i < e.arity) ∧ (mode = .bind → s.binds)
  | join a p b q, s =>
    a.WellFormed s ∧ b.WellFormed s ∧ p.width = a.arity ∧ q.width = b.arity ∧ p.arity = q.arity
  | existence a p b q _, s => a.WellFormed s ∧ b.WellFormed s.closed ∧ p.width = a.arity ∧
      q.width = b.arity ∧ p.arity = q.arity
  | outerJoin a p b q defaults, s => a.WellFormed s ∧ b.WellFormed s.closed ∧ p.width = a.arity ∧
      q.width = b.arity ∧ p.arity = q.arity ∧ q.complement.arity = defaults.arity
  | grouping e mask operator column, s => e.WellFormed s.closed ∧ s.operator operator ∧
      mask.width = e.arity ∧ ∀ i, column = some i → i < e.arity
  | closure e, s => e.WellFormed s ∧ e.arity = 2

end Algebra

theorem Mask.arity_ofFins {w : Nat} (is : List (Fin w)) : (Mask.ofFins is).arity = is.length :=
  List.length_map _

theorem arity_complement_ofFins {w : Nat} (is : List (Fin w)) :
    (Mask.ofFins is).complement.arity = ((List.finRange w).filter fun j => j ∉ is).length := by
  simp only [Mask.arity, Mask.complement, Mask.ofFins]
  rw [← List.map_coe_finRange_eq_range, List.filter_map, List.length_map]
  refine congrArg List.length (List.filter_congr fun j _ => ?_)
  have same : j.val ∈ is.map Fin.val ↔ j ∈ is := List.mem_map_of_injective Fin.val_injective
  exact decide_eq_decide.2 (not_congr same)

theorem arity_complement_first (n : Nat) :
    (Mask.first n (n + 1) (Nat.le_succ n)).complement.arity = 1 := by
  have width : (List.replicate n Value.null ++ [Value.null]).length = n + 1 := by simp
  rw [← Mask.length_signature (m := (Mask.first n (n + 1) _).complement) width,
    signature_complement_first List.length_replicate]
  rfl

namespace Rows

/-- The expression is well-formed, with a variable for every column. -/
structure WellFormed (s : Scope) (r : Rows) : Prop where
  expr : r.expr.WellFormed s
  arity : r.expr.arity = r.columns.length

variable {c : Catalog} {s : Scope} {r l r' : Rows} {b : Body} {k : Constraint}

theorem length_of_mapM_position {xs : List Variable} {is : List (Fin r.columns.length)}
    (h : xs.mapM r.position = .ok is) : is.length = xs.length := by
  simpa using congrArg List.length (map_position h)

theorem wellFormed_unit : Rows.unit.WellFormed s :=
  ⟨fun t ht => by rw [List.mem_singleton.1 ht]; rfl, rfl⟩

theorem wellFormed_source {expr : Algebra} {xs : List Variable} (he : expr.WellFormed s)
    (ha : expr.arity = xs.length) : (source expr xs).WellFormed s := by
  rw [source]
  split
  · exact ⟨he, ha⟩
  · refine ⟨⟨⟨he, fun g hg i hi => ?_⟩, ha.symm⟩, ?_⟩
    · obtain ⟨g', -, rfl⟩ := List.mem_map.1 hg
      obtain ⟨j, -, rfl⟩ := List.mem_map.1 hi
      exact Nat.lt_of_lt_of_eq j.isLt ha.symm
    · simp [Algebra.arity, Mask.arity_ofFins]

namespace WellFormed

theorem lt (h : r.WellFormed s) (i : Fin r.columns.length) : i.val < r.expr.arity :=
  Nat.lt_of_lt_of_eq i.isLt h.arity.symm

theorem lt_of_mem_map (h : r.WellFormed s) {is : List (Fin r.columns.length)} {n : Nat}
    (hn : n ∈ is.map Fin.val) : n < r.expr.arity := by
  obtain ⟨i, -, rfl⟩ := List.mem_map.1 hn
  exact h.lt i

theorem trim (h : r.WellFormed s) {xs : List Variable} {is : List (Fin r.columns.length)}
    (hm : xs.mapM r.position = .ok is) : WellFormed s ⟨.trim r.expr (.ofFins is), xs⟩ :=
  ⟨⟨h.expr, h.arity.symm⟩, (Mask.arity_ofFins is).trans (length_of_mapM_position hm)⟩

theorem select (h : r.WellFormed s) {xs : List Variable} (hs : r.select xs = .ok r') :
    r'.WellFormed s := by
  obtain ⟨is, hm, e⟩ := bind_ok hs
  cases e
  exact h.trim hm

theorem project (h : r.WellFormed s) {xs : List Variable} (hs : r.project xs = .ok r') :
    r'.WellFormed s := by
  obtain ⟨is, hm, e⟩ := bind_ok hs
  cases e
  split
  · exact h
  · exact h.trim hm

theorem join (hl : l.WellFormed s) (hr : r.WellFormed s) : (l.join r).WellFormed s := by
  rw [Rows.join]
  split
  · exact hr
  · split
    · exact hl
    · refine ⟨⟨hl.expr, hr.expr, hl.arity.symm, hr.arity.symm, ?_⟩, ?_⟩
      · simp only [Mask.arity_ofFins, List.length_map]
      · rw [Algebra.arity, arity_complement_ofFins, hl.arity, List.length_append, List.length_map]

theorem without (hl : l.WellFormed s) (hr : r.WellFormed s.closed) : (l.without r).WellFormed s := by
  refine ⟨⟨hl.expr, hr.expr, hl.arity.symm, hr.arity.symm, ?_⟩, hl.arity⟩
  simp only [Mask.arity_ofFins, List.length_map]

theorem unifyLast (h : r.WellFormed s) (hne : r.columns ≠ []) {x : Variable}
    (hu : r.unifyLast x = .ok r') : r'.WellFormed s := by
  obtain ⟨target, -, hu⟩ := bind_ok hu
  cases hu
  have last : r.arity - 1 < r.expr.arity := by
    rw [h.arity]
    exact Nat.sub_lt (List.length_pos_iff.2 hne) Nat.one_pos
  refine ⟨⟨⟨h.expr, fun g hg n hn => ?_⟩, h.arity.symm⟩, ?_⟩
  · rw [List.mem_singleton.1 hg, List.mem_cons, List.mem_singleton] at hn
    rcases hn with rfl | rfl
    · exact h.lt target
    · exact last
  · rw [List.length_dropLast]
    exact List.length_range

theorem result {expr : Algebra} {xs : List Variable} {x y : Variable} (he : expr.WellFormed s)
    (ha : expr.arity = xs.length + 1)
    (hr : (if x ∈ xs then Rows.unifyLast ⟨expr, xs ++ [y]⟩ x
      else .ok ⟨expr, xs ++ [x]⟩) = .ok r') : r'.WellFormed s := by
  split at hr
  · exact unifyLast (r := ⟨expr, xs ++ [y]⟩) ⟨he, by simp [ha]⟩ (by simp) hr
  · cases hr
    exact ⟨he, by simp [ha]⟩

theorem fold (h : r.WellFormed s) {callee : Rows} (hc : callee.WellFormed s.closed)
    {operator : String} (hop : ∀ op, c.aggregators[operator]? = some op → s.operator operator)
    {groups : List Variable} {column : Option Nat} {result : Variable}
    (hcol : ∀ i, column = some i → i < callee.expr.arity)
    (he : Rows.fold c r callee groups operator column result = .ok r') : r'.WellFormed s := by
  obtain ⟨op, hop', he⟩ := bind_ok he
  obtain ⟨is, his, he⟩ := bind_ok he
  obtain ⟨js, hjs, he⟩ := bind_ok he
  have hlen := length_of_mapM_position his
  have hlen' := length_of_mapM_position hjs
  have grouped : Algebra.WellFormed (.grouping callee.expr (.ofFins is) operator column) s.closed :=
    ⟨hc.expr, hop op (Catalog.aggregator_ok hop'), hc.arity.symm, hcol⟩
  have width : groups.length + 1 = (Mask.ofFins is).arity + 1 := by rw [Mask.arity_ofFins, hlen]
  have same : (Mask.ofFins js).arity =
      (Mask.first groups.length (groups.length + 1) (Nat.le_succ _)).arity := by
    rw [Mask.arity_ofFins, hlen']
    exact List.length_range.symm
  have beside := arity_complement_first groups.length
  cases hn : op.neutral with
  | some neutral =>
    rw [hn] at he
    have joined : Algebra.WellFormed (.outerJoin r.expr (.ofFins js)
        (.grouping callee.expr (.ofFins is) operator column) (.first groups.length _ (Nat.le_succ _))
        [neutral]) s := ⟨h.expr, grouped, h.arity.symm, width, same, beside⟩
    refine Rows.WellFormed.result joined ?_ he
    rw [Algebra.arity, beside, h.arity]
  | none =>
    rw [hn] at he
    have joined : Algebra.WellFormed (.join r.expr (.ofFins js)
        (.grouping callee.expr (.ofFins is) operator column) (.first groups.length _ (Nat.le_succ _)))
        s := ⟨h.expr, grouped, h.arity.symm, width, same⟩
    refine Rows.WellFormed.result joined ?_ he
    rw [Algebra.arity, beside, h.arity]

theorem applyUnequal (h : r.WellFormed s) {left right : Variable}
    (he : r.applyUnequal k left right = .ok r') : r'.WellFormed s := by
  obtain ⟨i, j, -, -, rfl⟩ := applyUnequal_ok he
  exact ⟨⟨h.expr, h.lt i, h.lt j⟩, h.arity⟩

theorem copy (h : r.WellFormed s) (i : Fin r.columns.length) (x : Variable) :
    (r.copied i x).WellFormed s :=
  ⟨⟨h.expr, h.arity.symm⟩, by simp [copied, Algebra.arity, Mask.arity_ofFins]⟩

theorem applyEqual (h : r.WellFormed s) {left right : Variable}
    (he : r.applyEqual k left right = .ok r') : r'.WellFormed s := by
  obtain ⟨i, j, -, -, rfl⟩ | ⟨i, -, -, rfl⟩ | ⟨i, -, -, rfl⟩ := applyEqual_ok he
  · refine ⟨⟨h.expr, fun g hg n hn => ?_⟩, h.arity⟩
    rw [List.mem_singleton.1 hg, List.mem_cons, List.mem_singleton] at hn
    rcases hn with rfl | rfl
    · exact h.lt i
    · exact h.lt j
  · exact h.copy i right
  · exact h.copy i left

theorem applyConstant (h : r.WellFormed s) {x : Variable} {v : Value}
    (he : r.applyConstant x v = .ok r') : r'.WellFormed s := by
  obtain ⟨i, -, rfl⟩ | rfl := applyConstant_ok he
  · exact ⟨⟨h.expr, h.lt i⟩, h.arity⟩
  · exact h.join ⟨fun t ht => by rw [List.mem_singleton.1 ht]; rfl, rfl⟩

/-- A constraint applied to well-formed rows gives well-formed rows. -/
theorem applyConstraint (h : r.WellFormed s) (hk : s.Admits c k) {index : Nat}
    {more : List Reference} (he : Rows.applyConstraint c b r index k = .ok (r', more)) :
    r'.WellFormed s := by
  -- The match set of a callee has a column for every argument.
  have callee : ∀ {query : String} {q : Query} {xs : List Variable} (s' : Scope),
      c.queries[query]? = some q → k.calledQuery? = some query → k.callWidth = xs.length →
      s'.calls query q.arity → (source (.production query q.arity) xs).WellFormed s' := by
    intro query q xs s' hq called width calls
    obtain ⟨q', hq', same⟩ := c.checkCall_ok hk.checked called
    cases hq.symm.trans hq'
    exact wellFormed_source calls (same.symm.trans width)
  cases made_of_applyConstraint he with
  | holds =>
    exact h.join (wellFormed_source trivial (Query.length_of_validateConstraint hk.valid).symm)
  | find hq => exact h.join (callee _ hq rfl rfl (hk.calls _ _ rfl hq))
  | lacks hq made =>
    exact h.without ((callee _ hq rfl rfl (hk.guarded _ _ rfl rfl hq)).project made)
  | unequal made => exact h.applyUnequal made
  | equal made => exact h.applyEqual made
  | constant made => exact h.applyConstant made
  | count hq made =>
    exact h.fold (callee _ hq rfl rfl (hk.guarded _ _ rfl rfl hq)) (hk.operator _ · rfl)
      (fun i hi => by cases hi) made
  | @aggregate _ _ _ _ _ _ column _ hq _ made =>
    have hrows := callee s.closed hq rfl rfl (hk.guarded _ _ rfl rfl hq)
    exact h.fold hrows (hk.operator _ · rfl) (fun i hi => Option.some.inj hi ▸ hrows.lt column) made
  | check hev =>
    exact ⟨⟨h.expr, hk.evaluator _ _ hev, fun n => h.lt_of_mem_map, nofun⟩, h.arity⟩
  | @eval evaluator _ output _ is _ _ hev _ hexpr made =>
    have expr : Algebra.WellFormed (.expression r.expr evaluator (is.map Fin.val) .bind) s :=
      ⟨h.expr, hk.evaluator _ _ hev, fun n => h.lt_of_mem_map, fun _ => hk.binds rfl⟩
    subst hexpr
    exact Rows.WellFormed.result (y := primed output) expr (congrArg (· + 1) h.arity) made
  | @closure query _ _ q hq arity =>
    have calls := hk.calls query q rfl hq
    rw [arity] at calls
    exact h.join (wellFormed_source ⟨calls, rfl⟩ rfl)

theorem ofPlan (hb : ∀ k ∈ b.constraints, s.Admits c k) {p : Plan} {more : List Reference}
    (he : Rows.ofPlan c b p = .ok (r, more)) : r.WellFormed s :=
  ofPlan_induction wellFormed_unit (fun k hk _ _ h => h.applyConstraint (hb k hk)) select project join he

end WellFormed
end Rows

/-- The expression of a body keeps to the scope that its constraints keep to, and is as wide as the
body has parameters. -/
theorem Compiled.wellFormed_ofPlan {c : Catalog} {s : Scope} {b : Body}
    (hb : ∀ k ∈ b.constraints, s.Admits c k) {p : Plan} {r : Compiled}
    (compiled : Compiled.ofPlan c b p = .ok r) :
    r.expr.WellFormed s ∧ r.expr.arity = b.parameters.length := by
  obtain ⟨⟨⟩, hvalid, hr⟩ := bind_ok compiled
  split at hr
  · cases hr
  obtain ⟨⟨rows, more⟩, hrows, hr⟩ := bind_ok hr
  cases hr
  have rowsWell := Rows.WellFormed.ofPlan hb hrows
  obtain ⟨before, rfl⟩ := Plan.exists_root hvalid
  refine ⟨rowsWell.expr, ?_⟩
  rw [rowsWell.arity, Rows.columns_ofPlan hrows]

end Motif
