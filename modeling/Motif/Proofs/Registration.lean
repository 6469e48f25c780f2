import Motif.Proofs.Engine.Answering
import Motif.Proofs.Network.Loops

/-!
Catalogs that change while queries are in use. As long as a query and all it leads to are registered
as they were, nothing that has been compiled of it is out of date, if no evaluator or operator has
been replaced either.
-/
set_option autoImplicit false
namespace Motif

open Reach (Steps)

structure Scope.Within (s s' : Scope) : Prop where
  calls : ∀ name arity, s.calls name arity → s'.calls name arity
  guarded : ∀ name arity, s.guarded name arity → s'.guarded name arity
  evaluator : ∀ name, s.evaluator name → s'.evaluator name
  operator : ∀ name, s.operator name → s'.operator name
  binds : s.binds → s'.binds

theorem Scope.Within.closed {s s' : Scope} (h : s.Within s') : s.closed.Within s'.closed :=
  ⟨h.guarded, h.guarded, h.evaluator, h.operator, h.binds⟩

theorem Algebra.WellFormed.mono {e : Algebra} {s s' : Scope} (he : e.WellFormed s)
    (h : s.Within s') : e.WellFormed s' := by
  induction e generalizing s s' with
  | constant _ _ => exact he
  | input _ => trivial
  | production query arity => exact h.calls query arity he
  | trim e _ ih | constantFilter e _ _ ih | equalityFilter e _ ih | inequalityFilter e _ _ ih
  | closure e ih => exact ⟨ih he.1 h, he.2⟩
  | expression e evaluator inputs mode ih =>
    obtain ⟨he, hv, hi, hb⟩ := he
    exact ⟨ih he h, h.evaluator evaluator hv, hi, fun hm => h.binds (hb hm)⟩
  | join a _ b _ iha ihb => exact ⟨iha he.1 h, ihb he.2.1 h, he.2.2⟩
  | existence a _ b _ _ iha ihb | outerJoin a _ b _ _ iha ihb =>
    exact ⟨iha he.1 h, ihb he.2.1 h.closed, he.2.2⟩
  | grouping e _ operator _ ih =>
    obtain ⟨he, ho, rest⟩ := he
    exact ⟨ih he h.closed, h.operator operator ho, rest⟩

namespace Catalog

/-- The queries of some names are what they were. Evaluators and operators are still there, and the
same ones if the change is faithful. -/
structure Keeps (faithful : Prop) (kept : String → Prop) (c c' : Catalog) : Prop where
  queries : ∀ (name : String) (q : Query), kept name → c.queries[name]? = some q →
    c'.queries[name]? = some q
  evaluators : ∀ (name : String) (x : Evaluator), c.evaluators[name]? = some x →
    ∃ x', c'.evaluators[name]? = some x' ∧ (faithful → x' = x)
  aggregators : ∀ (name : String) (op : Aggregator), c.aggregators[name]? = some op →
    ∃ op', c'.aggregators[name]? = some op' ∧ (faithful → op' = op)

variable {faithful : Prop} {kept : String → Prop} {c c' : Catalog} {b : Body}

theorem Keeps.refl : Keeps faithful kept c c :=
  ⟨fun _ _ _ h => h, fun _ x h => ⟨x, h, fun _ => rfl⟩, fun _ op h => ⟨op, h, fun _ => rfl⟩⟩

theorem keeps_register {q : Query} (h : c.register q = .ok c') (hq : ¬kept q.name) :
    Keeps faithful kept c c' := by
  obtain ⟨_, -, h⟩ := bind_ok h
  cases h
  refine ⟨fun name q' hk hq' => ?_, fun _ x hx => ⟨x, hx, fun _ => rfl⟩,
    fun _ op hop => ⟨op, hop, fun _ => rfl⟩⟩
  rw [Std.ExtTreeMap.getElem?_insert, if_neg fun e => hq ?_, hq']
  rw [Std.LawfulEqCmp.eq_of_compare e]
  exact hk

theorem keeps_registerEvaluator {v : Evaluator}
    (h : faithful → ∀ x, c.evaluators[v.name]? = some x → x = v) :
    Keeps faithful kept c (c.registerEvaluator v) := by
  refine ⟨fun _ _ _ hq => hq, fun name x hx => ?_, fun _ op hop => ⟨op, hop, fun _ => rfl⟩⟩
  rw [registerEvaluator, Std.ExtTreeMap.getElem?_insert]
  split
  · rename_i e
    cases Std.LawfulEqCmp.eq_of_compare e
    exact ⟨v, rfl, fun hf => (h hf x hx).symm⟩
  · exact ⟨x, hx, fun _ => rfl⟩

theorem keeps_registerAggregator {v : Aggregator}
    (h : faithful → ∀ op, c.aggregators[v.name]? = some op → op = v) :
    Keeps faithful kept c (c.registerAggregator v) := by
  refine ⟨fun _ _ _ hq => hq, fun _ x hx => ⟨x, hx, fun _ => rfl⟩, fun name op hop => ?_⟩
  rw [registerAggregator, Std.ExtTreeMap.getElem?_insert]
  split
  · rename_i e
    cases Std.LawfulEqCmp.eq_of_compare e
    exact ⟨v, rfl, fun hf => (h hf op hop).symm⟩
  · exact ⟨op, hop, fun _ => rfl⟩

theorem valid_register (h : c.Valid) {q : Query} (hr : c.register q = .ok c') : c'.Valid := by
  obtain ⟨_, valid, hr⟩ := bind_ok hr
  cases hr
  intro name q' hq'
  obtain ⟨rfl, rfl⟩ | hq' := eq_or_of_getElem?_insert hq'
  · exact ⟨rfl, valid⟩
  · exact h name q' hq'

namespace Keeps
variable (k : Keeps faithful kept c c')
include k

theorem query_ok {name : String} {q : Query} (hn : kept name) (h : c.query name = .ok q) :
    c'.query name = .ok q := by
  rw [Catalog.query, k.queries name q hn (Catalog.query_ok h)]

theorem evaluator_ok (hf : faithful) {name : String} {x : Evaluator} (h : c.evaluator name = .ok x) :
    c'.evaluator name = .ok x := by
  obtain ⟨x', hx', same⟩ := k.evaluators name x (Catalog.evaluator_ok h)
  rw [Catalog.evaluator, hx', same hf]

theorem aggregator_ok (hf : faithful) {name : String} {op : Aggregator}
    (h : c.aggregator name = .ok op) : c'.aggregator name = .ok op := by
  obtain ⟨op', hop', same⟩ := k.aggregators name op (Catalog.aggregator_ok h)
  rw [Catalog.aggregator, hop', same hf]

theorem checkCalls (hb : ∀ n, b.Calls n → kept n) (h : b.constraints.forM c.checkCall = .ok ()) :
    b.constraints.forM c'.checkCall = .ok () := by
  refine forM_eq_ok fun x hx => ?_
  have checked := forM_ok h hx
  have kept : ∀ n, x.calledQuery? = some n → kept n := fun n hn => hb n ⟨x, hx, hn⟩
  cases x with
  | find query _ | lacks query _ | count query _ _ | closure query _ _ =>
    obtain ⟨callee, hcallee, checked⟩ := bind_ok checked
    simp only [checkCall, Constraint.calledQuery?, k.query_ok (kept query rfl) hcallee]
    exact checked
  | aggregate operator query xs _ _ =>
    obtain ⟨callee, hcallee, checked⟩ := bind_ok checked
    simp only [checkCall, Constraint.calledQuery?, k.query_ok (kept query rfl) hcallee]
    dsimp only at checked
    split at checked
    · cases checked
    · obtain ⟨op, hop, -⟩ := bind_ok checked
      obtain ⟨op', hop', -⟩ := k.aggregators operator op (Catalog.aggregator_ok hop)
      rename_i same
      simp only [bind, Except.bind, if_neg same, Catalog.aggregator, hop']
      rfl
  | _ => rfl

theorem scope_within (hb : ∀ n, b.Calls n → kept n) : (b.scope c).Within (b.scope c') where
  calls := by
    rintro name arity ⟨hc, q, hq, ha⟩
    exact ⟨hc, q, k.queries name q (hb name hc) hq, ha⟩
  guarded := by
    rintro name arity ⟨⟨k', hk', hc, hw⟩, q, hq, ha⟩
    exact ⟨⟨k', hk', hc, hw⟩, q, k.queries name q (hb name ⟨k', hk', hc⟩) hq, ha⟩
  evaluator := by
    rintro name ⟨x, hx⟩
    obtain ⟨x', hx', -⟩ := k.evaluators name x hx
    exact ⟨x', hx'⟩
  operator := by
    rintro name ⟨op, hop⟩
    obtain ⟨op', hop', -⟩ := k.aggregators name op hop
    exact ⟨op', hop'⟩
  binds h := h

theorem ofCall {r : Rows} {query : String} {xs : List Variable} {p : Rows × Reference}
    (hn : kept query) (h : Rows.ofCall c r query xs = .ok p) : Rows.ofCall c' r query xs = .ok p := by
  obtain ⟨q, hq, rest⟩ := bind_ok h
  rw [Rows.ofCall, k.query_ok hn hq]
  exact rest

section compile
variable (hf : faithful)
include hf

theorem fold {r callee r' : Rows} {groups : List Variable} {operator : String} {column : Option Nat}
    {result : Variable} (h : Rows.fold c r callee groups operator column result = .ok r') :
    Rows.fold c' r callee groups operator column result = .ok r' := by
  obtain ⟨op, hop, rest⟩ := bind_ok h
  rw [Rows.fold, k.aggregator_ok hf hop]
  exact rest

theorem evaluated {r : Rows} {evaluator : String} {inputs : List Variable} {mode : ExpressionMode}
    {e : Algebra} (h : Rows.evaluated c r evaluator inputs mode = .ok e) :
    Rows.evaluated c' r evaluator inputs mode = .ok e := by
  obtain ⟨x, hx, -⟩ := Rows.evaluated_ok h
  rw [Rows.evaluated, k.evaluator_ok hf (x := x) (Catalog.evaluator_of hx)]
  rw [Rows.evaluated, Catalog.evaluator_of hx] at h
  exact h

theorem applyConstraint {r : Rows} {i : Nat} {x : Constraint} {p : Rows × List Reference}
    (hn : ∀ n, x.calledQuery? = some n → kept n) (h : Rows.applyConstraint c b r i x = .ok p) :
    Rows.applyConstraint c' b r i x = .ok p := by
  cases x with
  | holds _ _ | unequal _ _ | equal _ _ | constant _ _ => exact h
  | find query xs | lacks query xs =>
    obtain ⟨called, hc, rest⟩ := bind_ok h
    rw [Rows.applyConstraint, k.ofCall (hn query rfl) hc]
    exact rest
  | count query xs result =>
    obtain ⟨called, hc, rest⟩ := bind_ok h
    obtain ⟨folded, ho, rest⟩ := bind_ok rest
    rw [Rows.applyConstraint, k.ofCall (hn query rfl) hc]
    simp only [bind, Except.bind, k.fold hf ho]
    exact rest
  | aggregate operator query xs aggregated result =>
    rw [Rows.applyConstraint] at h ⊢
    split at h
    · cases h
    · rename_i hl
      obtain ⟨called, hc, rest⟩ := bind_ok h
      obtain ⟨column, hcol, rest⟩ := bind_ok rest
      obtain ⟨folded, ho, rest⟩ := bind_ok rest
      rw [if_neg hl, k.ofCall (hn query rfl) hc]
      simp only [bind, Except.bind, hcol, k.fold hf ho]
      exact rest
  | check evaluator inputs | eval evaluator inputs output =>
    obtain ⟨e, he, rest⟩ := bind_ok h
    rw [Rows.applyConstraint, k.evaluated hf he]
    exact rest
  | closure query s t =>
    obtain ⟨q, hq, rest⟩ := bind_ok h
    rw [Rows.applyConstraint, k.query_ok (hn query rfl) hq]
    exact rest

theorem rows (hb : ∀ n, b.Calls n → kept n) {p : Plan} {r : Rows × List Reference}
    (h : Rows.ofPlan c b p = .ok r) : Rows.ofPlan c' b p = .ok r := by
  induction p generalizing r with
  | start _ => exact h
  | apply before index ih =>
    obtain ⟨first, hfirst, rest⟩ := bind_ok h
    rw [Rows.ofPlan, ih hfirst]
    dsimp only [bind, Except.bind] at rest ⊢
    split at rest
    · cases rest
    · rename_i x hx
      obtain ⟨applied, ha, rest⟩ := bind_ok rest
      rw [k.applyConstraint hf (fun n hn => hb n ⟨x, List.mem_of_getElem? hx, hn⟩) ha]
      exact rest
  | project before xs ih =>
    obtain ⟨first, hfirst, rest⟩ := bind_ok h
    rw [Rows.ofPlan, ih hfirst]
    exact rest
  | join left right ihl ihr =>
    obtain ⟨first, hfirst, rest⟩ := bind_ok h
    obtain ⟨second, hsecond, rest⟩ := bind_ok rest
    rw [Rows.ofPlan, ihl hfirst]
    simp only [bind, Except.bind, ihr hsecond]
    exact rest

theorem compiles (hb : ∀ n, b.Calls n → kept n) {r : Compiled} (h : c.Compiles b r) :
    c'.Compiles b r := by
  obtain ⟨p, hp, hr⟩ := h
  refine ⟨p, hp, ?_⟩
  obtain ⟨⟨⟩, hvalid, rest⟩ := bind_ok hr
  rw [Compiled.ofPlan, hvalid]
  split at rest
  · cases rest
  · rename_i hentry
    obtain ⟨rows, hrows, rest⟩ := bind_ok rest
    simp only [bind, Except.bind, if_neg hentry,
      k.rows hf (fun n hn => hb n (Body.calls_normalize hn)) hrows]
    exact rest

theorem operation {schema : Schema} {slots : Slots} {bound : Std.ExtTreeSet Nat} {check : Bool}
    {x : Constraint} {op : Operation}
    (h : Operation.ofConstraint c schema slots bound check x = .ok op) :
    Operation.ofConstraint c' schema slots bound check x = .ok op := by
  cases x with
  | aggregate operator query xs aggregated result =>
    obtain ⟨v, hv, rest⟩ := bind_ok h
    rw [Operation.ofConstraint, k.aggregator_ok hf (liftPlan_ok hv)]
    exact rest
  | check evaluator inputs | eval evaluator inputs output =>
    obtain ⟨v, hv, rest⟩ := bind_ok h
    rw [Operation.ofConstraint, k.evaluator_ok hf (liftPlan_ok hv)]
    exact rest
  | holds r xs => cases r <;> exact h
  | _ => exact h

theorem searchPlan {schema : Schema} {query : String} {p : Plan} {sp : SearchPlan}
    (h : SearchPlan.ofPlan c schema query b p = .ok sp) :
    SearchPlan.ofPlan c' schema query b p = .ok sp := by
  obtain ⟨⟨⟩, hvalid, rest⟩ := bind_ok h
  obtain ⟨slots, hslots, rest⟩ := bind_ok rest
  obtain ⟨ops, hops, rest⟩ := bind_ok rest
  have same := mapM_ok_of_imp (g := SearchPlan.operationAt c' schema b (Slots.of b)) hops
    fun state _ op hop => by
      rw [SearchPlan.operationAt] at hop ⊢
      split at hop
      · cases hop
      · exact k.operation hf hop
  rw [SearchPlan.ofPlan, hvalid]
  simp only [bind, Except.bind, hslots, same]
  exact rest

theorem searchPlans {schema : Schema} {r : Reference} {ps : List SearchPlan} (hn : kept r.query)
    (h : c.searchPlans schema r = .ok ps) : c'.searchPlans schema r = .ok ps := by
  obtain ⟨q, hq, rest⟩ := bind_ok h
  rw [Catalog.searchPlans, k.query_ok hn (liftPlan_ok hq)]
  refine mapM_ok_of_imp rest fun b _ p hp => ?_
  obtain ⟨plan, hplan, hp⟩ := bind_ok hp
  simp only [bind, Except.bind, hplan]
  exact k.searchPlan hf hp

end compile

theorem callees {n : String} (hk : kept n) (hn : ∃ q, c.queries[n]? = some q) :
    c'.callees n = c.callees n := by
  obtain ⟨q, hq⟩ := hn
  rw [Catalog.callees, Catalog.callees, hq, k.queries n q hk hq]

/-- From queries that are kept with all they call, calls lead where they led. -/
theorem leads_iff {among : String → Prop} (registered : ∀ n, among n → kept n ∧ c.contains n = true)
    (closed : ∀ n, among n → ∀ m ∈ c.callees n, among m) {n m : String} (hn : among n) :
    c'.Leads n m ↔ c.Leads n m := by
  have same : ∀ n, among n → c'.callees n = c.callees n := by
    intro n hn
    obtain ⟨hk, hc⟩ := registered n hn
    rw [Catalog.contains, Std.ExtTreeMap.contains_eq_isSome_getElem?, Option.isSome_iff_exists] at hc
    exact k.callees hk hc
  constructor
  · intro h
    have both : among m ∧ c.Leads n m := by
      induction h with
      | refl => exact ⟨hn, .refl⟩
      | tail _ step ih =>
        have step' : _ ∈ c.callees _ := (same _ ih.1).subst (motive := fun l => _ ∈ l) step
        exact ⟨closed _ ih.1 _ step', ih.2.tail step'⟩
    exact both.2
  · intro h
    have both : among m ∧ c'.Leads n m := by
      induction h with
      | refl => exact ⟨hn, .refl⟩
      | tail _ step ih =>
        have step' : _ ∈ c.callees _ := step
        exact ⟨closed _ ih.1 _ step', ih.2.tail (show _ ∈ c'.callees _ from same _ ih.1 ▸ step')⟩
    exact both.2

theorem stratified {among : String → Prop}
    (registered : ∀ n, among n → kept n ∧ c.contains n = true)
    (closed : ∀ n, among n → ∀ m ∈ c.callees n, among m) {name : String} (hn : among name)
    (h : c.Stratified name) : c'.Stratified name := by
  intro q hq x hx hw callee hcall
  obtain ⟨hk, hc⟩ := registered name hn
  rw [Catalog.contains, Std.ExtTreeMap.contains_eq_isSome_getElem?, Option.isSome_iff_exists] at hc
  obtain ⟨q', hq'⟩ := hc
  cases hq.symm.trans (k.queries name q' hk hq')
  rw [k.leads_iff registered closed (closed name hn callee (callee_of_constraint hq' hx hcall))]
  exact h q hq' x hx hw callee hcall

end Keeps
end Catalog
end Motif
