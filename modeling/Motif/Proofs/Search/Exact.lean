import Motif.Proofs.Search.Grounding
import Motif.Proofs.Search.Operations

/-!
Search is sound and complete along every valid plan: it ends and finds the parameter tuples of the
values that satisfy every constraint, as far as they agree with the binding. From one operation to
the next the frames are suited by the values that satisfy what was applied.
-/
set_option autoImplicit false
namespace Motif

open Std (ExtTreeMap ExtTreeSet)

namespace Searcher
variable {σ ε : Type} {s : Searcher σ ε} {c : Catalog} {m : Model} {found : String → Finset Tuple}
  {b : Body} {slots : Slots}

/-- What the operations of a search rely on: the answers to calls, the model, and what is checked of
the body. -/
structure Grounds (s : Searcher σ ε) (c : Catalog) (m : Model) (found : String → Finset Tuple)
    (b : Body) : Prop where
  answers : s.Answers m b.Calls found
  converse : m.Converse
  typed : m.Typed
  widths : ∀ name q, c.queries[name]? = some q → ∀ t ∈ found name, t.length = q.arity
  valid : ∀ k ∈ b.constraints, Query.validateConstraint k = .ok ()
  calls : ∀ k ∈ b.constraints, c.checkCall k = .ok ()
  free : ∀ operator query xs aggregated result,
    .aggregate operator query xs aggregated result ∈ b.constraints →
      ∀ op, c.aggregators[operator]? = some op → op.OrderFree

theorem mem_flatten {α β γ : Type} {l : List α} {ls : List (List γ)} {g : β → γ}
    {Q : α → β → Prop} (h : List.Forall₂ (fun a l' => ∀ t, t ∈ l' ↔ ∃ u, Q a u ∧ g u = t) l ls)
    (t : γ) : t ∈ ls.flatten ↔ ∃ u, (∃ a ∈ l, Q a u) ∧ g u = t := by
  induction h with
  | nil => simp
  | cons hl _ ih =>
    rw [List.flatten_cons, List.mem_append, hl, ih]
    simp only [List.exists_mem_cons_iff]
    grind

/-- The constraints still to be applied, each with what is bound before it, once `entry` is bound. -/
structure Remaining (b : Body) (entry : Variable → Prop)
    (states : List (Nat × ExtTreeSet Variable)) : Prop where
  grounded : Plan.Grounded b entry states
  once : (states.map Prod.fst).Nodup
  visible : ∀ x, entry x → ∀ state ∈ states, b.isLocal x state.1 = false
  deferred : ∀ state ∈ states, ∀ k, b.constraints[state.1]? = some k →
    ∀ x ∈ b.deferred state.1 k, x ∈ state.2
  last : ∀ x ∈ b.parameters, entry x ∨ Plan.Gains b (states.map Prod.fst) x

namespace Remaining
variable {entry : Variable → Prop} {state : Nat × ExtTreeSet Variable}
  {states : List (Nat × ExtTreeSet Variable)} {k : Constraint} {f : Frame}

theorem mem_affectedAt (hk : b.constraints[state.1]? = some k) {x : Variable} :
    x ∈ b.affectedAt state.1 ↔ x ∈ b.affected state.1 k := by
  rw [Body.mem_affectedAt, hk]
  simp

theorem ready (h : Remaining b entry (state :: states)) (hk : b.constraints[state.1]? = some k)
    (length : f.length = slots.size) (binds : ∀ x, entry x → f.Binds slots x) :
    Ready b slots state.1 k state.2 f where
  length := length
  binds x hx := binds x (h.grounded.1 x hx)
  visible x hx := h.visible x (h.grounded.1 x hx) state List.mem_cons_self
  deferred := h.deferred state List.mem_cons_self k hk

theorem tail (h : Remaining b entry (state :: states)) (hk : b.constraints[state.1]? = some k) :
    Remaining b (fun x => entry x ∨ x ∈ b.affectedAt state.1) states := by
  obtain ⟨new, once⟩ := List.nodup_cons.1 h.once
  refine ⟨h.grounded.2, once, ?_, fun later hl => h.deferred later (List.mem_cons_of_mem _ hl), ?_⟩
  · rintro x (hx | hx) later hl
    · exact h.visible x hx later (List.mem_cons_of_mem _ hl)
    · have mentioned := (Rows.mem_affected.1 ((mem_affectedAt hk).1 hx)).1
      have other : state.1 ≠ later.1 := fun e => new (List.mem_map.2 ⟨later, hl, e.symm⟩)
      exact Body.isLocal_of_mentioned other hk mentioned
  · intro x hx
    rcases h.last x hx with hx | ⟨i, hi, hx⟩
    · exact .inl (.inl hx)
    · rcases List.mem_cons.1 hi with rfl | hi
      · exact .inl (.inr hx)
      · exact .inr ⟨i, hi, hx⟩

end Remaining

theorem run_nil_returns {entry : Variable → Prop} (left : Remaining b entry []) {is : List Nat}
    (his : slots.Of b.parameters is) {f : Frame} (binds : ∀ x, entry x → f.Binds slots x) :
    (s.run is [] f).Returns fun l => ∀ t, t ∈ l ↔ ∃ σ, f.Suits slots σ ∧ b.parameters.map σ = t := by
  refine Search.returns_pure fun t => ?_
  have bound : ∀ x ∈ b.parameters, f.Binds slots x := by
    intro x hx
    rcases left.last x hx with hx | ⟨i, hi, -⟩
    · exact binds x hx
    · cases hi
  have row : ∀ σ, f.Suits slots σ → is.map (fun i => (f.value? i).getD .null) =
      b.parameters.map σ := fun σ hσ => his.map_value? hσ bound
  rw [List.mem_singleton]
  constructor
  · rintro rfl
    obtain ⟨σ, hσ⟩ := f.exists_suits slots
    exact ⟨σ, hσ, (row σ hσ).symm⟩
  · rintro ⟨σ, hσ, rfl⟩
    exact (row σ hσ).symm

/-- Operations lead from a frame to the parameter tuples of the values that suit it and satisfy
their constraints. -/
theorem run_returns (grounds : Grounds s c m found b) {entry : Variable → Prop}
    {states : List (Nat × ExtTreeSet Variable)} {operations : List Operation}
    (hops : List.Forall₂
      (fun state op => SearchPlan.operationAt c m.schema b slots state = .ok op) states operations)
    (left : Remaining b entry states) {is : List Nat} (his : slots.Of b.parameters is) {f : Frame}
    (length : f.length = slots.size) (binds : ∀ x, entry x → f.Binds slots x) :
    (s.run is operations f).Returns fun l => ∀ t, t ∈ l ↔ ∃ σ,
      (f.Suits slots σ ∧
        b.SatisfiesAt (m.facts found grounds.widths) (states.map Prod.fst) σ) ∧
      b.parameters.map σ = t := by
  induction hops generalizing entry f with
  | nil =>
    refine (run_nil_returns left his binds).mono fun l hl t => (hl t).trans ?_
    simp [Body.SatisfiesAt]
  | @cons state op states operations hop _ ih =>
    rw [SearchPlan.operationAt] at hop
    split at hop
    · cases hop
    rename_i k hk
    have hmem := List.mem_of_getElem? hk
    have continues := frames_continue grounds.answers grounds.converse grounds.typed grounds.widths
      (grounds.valid k hmem) (fun query hq => ⟨k, hmem, hq⟩) (grounds.calls k hmem)
      (fun operator query xs aggregated result e =>
        grounds.free operator query xs aggregated result (e ▸ hmem)) (left.ready hk length binds) hop
    refine continues.bind fun next hnext => ?_
    have binds' : ∀ g ∈ next, ∀ x, entry x ∨ x ∈ b.affectedAt state.1 → g.Binds slots x := by
      rintro g hg x (hx | hx)
      · exact hnext.kept g hg x (binds x hx)
      · exact hnext.binds g hg x ((Remaining.mem_affectedAt hk).1 hx)
    have tails := Search.returns_mapM fun g hg =>
      ih (left.tail hk) (hnext.length g hg) (binds' g hg)
    refine tails.bind fun ls hls => Search.returns_pure fun t => ?_
    rw [mem_flatten hls t]
    refine exists_congr fun σ => and_congr_left fun _ => ?_
    have split : (∃ g ∈ next, g.Suits slots σ ∧
        b.SatisfiesAt (m.facts found grounds.widths) (states.map Prod.fst) σ) ↔
          (∃ g ∈ next, g.Suits slots σ) ∧
            b.SatisfiesAt (m.facts found grounds.widths) (states.map Prod.fst) σ := by
      grind
    rw [split, hnext.suits, and_assoc]
    refine and_congr_right fun _ => ?_
    simp only [Body.SatisfiesAt, List.map_cons, List.forall_mem_cons, hk, Option.some_inj,
      forall_eq']

section enter
variable {is : List Nat} (bound : ExtTreeSet Nat) {f : Frame}

def Asked (b : Body) (bound : ExtTreeSet Nat) (e : Option Value × Nat) (σ : Assignment) : Prop :=
  ∀ v x, e.1 = some v → b.parameters[e.2]? = some x → e.2 ∈ bound → σ x = v

def Gives (b : Body) (bound : ExtTreeSet Nat) (e : Option Value × Nat) (x : Variable) : Prop :=
  e.1.isSome = true ∧ b.parameters[e.2]? = some x ∧ e.2 ∈ bound

def enterAt (is : List Nat) (bound : ExtTreeSet Nat) (f : Frame) (e : Option Value × Nat) :
    Option Frame :=
  match e.1, is[e.2]? with
  | some v, some slot => if e.2 ∈ bound then f.put? slot v else some f
  | _, _ => some f

theorem continues_self (hf : f.length = slots.size) {xs : Variable → Prop}
    {P : Assignment → Prop} (hx : ∀ x, ¬xs x) (hP : ∀ σ, P σ) : f.Continues slots xs P [f] :=
  have kept : f.Continues slots xs P (keep f true) :=
    .of_keep hf (fun x h => absurd h (hx x)) fun σ _ => iff_of_true rfl (hP σ)
  kept

theorem enterAt_continues (his : slots.Of b.parameters is) (hf : f.length = slots.size)
    (e : Option Value × Nat) :
    f.Continues slots (Gives b bound e) (Asked b bound e) (enterAt is bound f e).toList := by
  obtain ⟨o, n⟩ := e
  cases o with
  | none => exact continues_self hf (by simp [Gives]) (by simp [Asked])
  | some v =>
    cases hn : is[n]? with
    | none =>
      have none : b.parameters[n]? = none := by
        rw [List.getElem?_eq_none_iff] at hn ⊢
        rwa [his.length_eq]
      rw [enterAt, hn]
      exact continues_self hf (by simp [Gives, none]) (by simp [Asked, none])
    | some slot =>
      obtain ⟨x, hx, hslot⟩ := his.getElem?_eq hn
      simp only [enterAt, hn]
      split
      · rename_i hb
        refine .of_put_option (o := some v) hslot hf (fun y hy => ?_) fun σ _ => ?_
        · exact .inl (Option.some_inj.1 (hy.2.1.symm.trans hx))
        · simp [Asked, hx, hb, eq_comm]
      · rename_i hb
        exact continues_self hf (by simp [Gives, hb]) (by simp [Asked, hb])

theorem foldlM_continues (his : slots.Of b.parameters is) (hf : f.length = slots.size)
    (entries : List (Option Value × Nat)) :
    f.Continues slots (fun x => ∃ e ∈ entries, Gives b bound e x)
      (fun σ => ∀ e ∈ entries, Asked b bound e σ)
      (entries.foldlM (enterAt is bound) f).toList := by
  induction entries generalizing f with
  | nil => exact continues_self hf (by simp) (by simp)
  | cons e rest ih =>
    have first := enterAt_continues bound his hf e
    rw [List.foldlM_cons]
    cases hg : enterAt is bound f e with
    | none =>
      rw [hg] at first
      refine .of_none fun σ hσ hP => ?_
      have := (first.suits σ).2 ⟨hσ, hP e List.mem_cons_self⟩
      simp at this
    | some g =>
      rw [hg] at first
      have next := ih (first.length g (by simp))
      refine ⟨next.length, fun h hh x hx => ?_, fun h hh x => ?_, fun σ => ?_⟩
      · exact next.kept h hh x (first.kept g (by simp) x hx)
      · rintro ⟨e', he', hx⟩
        rcases List.mem_cons.1 he' with rfl | he'
        · exact next.kept h hh x (first.binds g (by simp) x hx)
        · exact next.binds h hh x ⟨e', he', hx⟩
      · have one := first.suits σ
        simp only [Option.toList_some, List.mem_singleton, exists_eq_left] at one
        rw [List.forall_mem_cons, ← and_assoc, ← one]
        exact next.suits σ

end enter

end Searcher

def Binding.Fixes (bnd : Binding) (b : Body) (x : Variable) : Prop :=
  ∃ (n : Nat) (v : Value), b.parameters[n]? = some x ∧ bnd[n]? = some (some v)

namespace SearchPlan
open Searcher
variable {σ ε : Type} {s : Searcher σ ε} {c : Catalog} {m : Model} {found : String → Finset Tuple}
  {b : Body}

/-- A compiled plan has the slots of the body's variables, is bound at the positions of the entry's
variables, and has an operation for every state of the plan. -/
theorem ofPlan_ok {schema : Schema} {name : String} {p : Plan} {sp : SearchPlan}
    (h : SearchPlan.ofPlan c schema name b p = .ok sp) : p.Valid b ∧
      (Slots.of b).Of b.parameters sp.parameterSlots ∧ sp.slots = Slots.of b ∧
      (∀ n, n ∈ sp.bound ↔ ∃ x ∈ p.entry, b.parameters[n]? = some x) ∧
      List.Forall₂ (fun state op => operationAt c schema b (Slots.of b) state = .ok op)
        (p.states b) sp.operations := by
  obtain ⟨⟨⟩, valid, h⟩ := bind_ok h
  obtain ⟨is, his, h⟩ := bind_ok h
  obtain ⟨operations, hops, h⟩ := bind_ok h
  cases h
  refine ⟨Plan.valid_of_validate (liftPlan_ok valid), Slots.of_mapM (liftPlan_ok his), rfl,
    fun n => ?_, forall₂_of_mapM hops⟩
  simp only [ExtTreeSet.mem_ofList, List.contains_iff_mem, List.mem_map, List.mem_filter,
    decide_eq_true_eq, Prod.exists, List.mem_zipIdx_iff_getElem?, exists_eq_right]
  exact exists_congr fun x => and_comm

theorem enter_eq (sp : SearchPlan) (bnd : Binding) : enter sp bnd =
    bnd.zipIdx.foldlM (enterAt sp.parameterSlots sp.bound) (.blank sp.slots) := rfl

theorem asked_of_agrees {bnd : Binding} {bound : ExtTreeSet Nat} {τ : Assignment}
    (h : bnd.agrees (b.parameters.map τ) = true) : ∀ e ∈ bnd.zipIdx, Asked b bound e τ := by
  rintro ⟨o, n⟩ he v x rfl hx -
  have hv := Binding.agrees_iff.1 h n v (List.mem_zipIdx_iff_getElem?.1 he)
  rw [List.getElem?_map, hx] at hv
  exact Option.some_inj.1 hv

/-- What is checked of a body, and what is so of every model that was built up, is what a search relies
on. -/
theorem grounds_of_valid {q : Query} (valid : q.validateBody b = .ok ())
    (calls : b.constraints.forM c.checkCall = .ok ())
    (free : ∀ operator query xs aggregated result,
      .aggregate operator query xs aggregated result ∈ b.constraints →
        ∀ op, c.aggregators[operator]? = some op → op.OrderFree)
    (reached : m.Reached) (typed : m.Typed)
    (widths : ∀ name q, c.queries[name]? = some q → ∀ t ∈ found name, t.length = q.arity)
    (answers : s.Answers m b.Calls found) : Grounds s c m found b where
  answers := answers
  converse := reached.converse
  typed := typed
  widths := widths
  valid k hk := by
    rw [Query.validateBody] at valid
    split at valid
    · cases valid
    · exact forM_ok valid hk
  calls k hk := forM_ok calls hk
  free := free

theorem execute_returns (grounds : Grounds s c m found b) {p : Plan}
    (entry : ∀ x ∈ p.entry, x ∈ b.parameters) {name : String} {sp : SearchPlan}
    (compiled : SearchPlan.ofPlan c m.schema name b p = .ok sp) {bnd : Binding}
    (fixed : ∀ x ∈ p.entry, bnd.Fixes b x) : (s.execute sp bnd).Returns fun l => l.Nodup ∧
      ∀ t, t ∈ l ↔ bnd.agrees t = true ∧ t ∈ b.meaning (m.facts found grounds.widths) := by
  obtain ⟨plan, his, hslots, hbound, hops⟩ := ofPlan_ok compiled
  have entered := foldlM_continues sp.bound his (Frame.length_blank _) bnd.zipIdx
  have all : ∀ τ, b.SatisfiesAt (m.facts found grounds.widths) p.applied τ ↔
      ∀ i k, b.constraints[i]? = some k → b.Satisfies (m.facts found grounds.widths) i τ k := fun τ =>
    ⟨fun h i k hk => h i (plan.all i k hk) k hk, fun h i _ k hk => h i k hk⟩
  rw [execute, enter_eq, hslots]
  cases hf : bnd.zipIdx.foldlM (enterAt sp.parameterSlots sp.bound) (.blank (Slots.of b)) with
  | none =>
    rw [hf] at entered
    refine Search.returns_pure ⟨List.nodup_nil, fun t => ?_⟩
    refine iff_of_false List.not_mem_nil ?_
    rintro ⟨agrees, τ, -, rfl⟩
    have := (entered.suits τ).2 ⟨Frame.suits_blank _ τ, asked_of_agrees agrees⟩
    simp at this
  | some f =>
    rw [hf] at entered
    have binds : ∀ x, x ∈ p.entry → f.Binds (Slots.of b) x := by
      intro x hx
      obtain ⟨n, v, hn, hv⟩ := fixed x hx
      refine entered.binds f (by simp) x ⟨(some v, n), ?_, rfl, hn, (hbound n).2 ⟨x, hx, hn⟩⟩
      exact List.mem_zipIdx_iff_getElem?.2 hv
    have states : (p.states b).map Prod.fst = p.applied := Plan.map_fst_states
    have left : Remaining b (· ∈ p.entry) (p.states b) := {
      grounded := Plan.states_grounded fun _ hx => hx
      once := states ▸ plan.once
      visible := fun x hx _ _ => Body.isLocal_of_parameter (entry x hx) _
      deferred := plan.deferred
      last := fun x hx => states ▸ plan.parameters (fun _ hx => hx) hx }
    have ran := run_returns grounds hops left his (entered.length f (by simp)) binds
    refine ran.bind fun l hl => Search.returns_pure ⟨(nodup_firsts l).filter _, fun t => ?_⟩
    rw [List.mem_filter, mem_firsts, hl, states, and_comm]
    refine and_congr_right fun agrees => ?_
    constructor
    · rintro ⟨τ, ⟨-, satisfied⟩, rfl⟩
      exact ⟨τ, (all τ).1 satisfied, rfl⟩
    · rintro ⟨τ, satisfied, rfl⟩
      have suits := (entered.suits τ).2 ⟨Frame.suits_blank _ τ, asked_of_agrees agrees⟩
      simp only [Option.toList_some, List.mem_singleton, exists_eq_left] at suits
      exact ⟨τ, ⟨suits, (all τ).2 satisfied⟩, rfl⟩

/-- A search along a valid plan, with the parameters fixed that are bound on entry, ends with the
parameter tuples that agree with the binding and come from values that satisfy every constraint,
each once. -/
theorem execute_exact {q : Query} (valid : q.validateBody b = .ok ())
    (calls : b.constraints.forM c.checkCall = .ok ())
    (free : ∀ operator query xs aggregated result,
      .aggregate operator query xs aggregated result ∈ b.constraints →
        ∀ op, c.aggregators[operator]? = some op → op.OrderFree)
    (reached : m.Reached) (typed : m.Typed) {p : Plan} (entry : ∀ x ∈ p.entry, x ∈ b.parameters)
    {name : String} {sp : SearchPlan} (compiled : SearchPlan.ofPlan c m.schema name b p = .ok sp)
    (widths : ∀ name q, c.queries[name]? = some q → ∀ t ∈ found name, t.length = q.arity)
    (answers : s.Answers m b.Calls found) {bnd : Binding} (fixed : ∀ x ∈ p.entry, bnd.Fixes b x) :
    (s.execute sp bnd).Returns fun l => l.Nodup ∧
      ∀ t, t ∈ l ↔ bnd.agrees t = true ∧ t ∈ b.meaning (m.facts found widths) :=
  execute_returns (grounds_of_valid valid calls free reached typed widths answers) entry compiled fixed

section degrees

def edgeQuery : Query :=
  ⟨"edge", [⟨"x", none⟩, ⟨"y", none⟩], [⟨["x", "y"], [.holds (.feature "edge") ["x", "y"]]⟩], none⟩

def degreeBody : Body :=
  ⟨["x", "n"], [.holds (.extent "Node") ["x"], .count "edge" ["x", "y"] "n"]⟩

def degreeQuery : Query := ⟨"degree", [⟨"x", none⟩, ⟨"n", none⟩], [degreeBody], none⟩

def degreePlan : Plan :=
  .project (.join (.apply (.start {"x"}) 0) (.project (.apply (.start {}) 1) ["n"])) ["x", "n"]

def edgeCatalog : Catalog := { queries := (∅ : ExtTreeMap String Query).insert "edge" edgeQuery }

def nodeSchema : Schema :=
  (Schema.withClass {} "Node" []).withFeature { name := "edge", source := some "Node" }

def twoEdges : Model :=
  ({ schema := nodeSchema : Model }.writeAll
    [.addInstance "Node" (.int 1), .addValue (.int 1) "edge" (.int 2),
      .addValue (.int 1) "edge" (.int 3)]).1

def edgeRowList : List Tuple := [[.int 1, .int 2], [.int 1, .int 3]]

def edgesFound (name : String) : Finset Tuple := if name = "edge" then edgeRowList.toFinset else ∅

def edgeSearcher : Searcher Unit Failure where
  graph := twoEdges.graph
  ask r b := return if r.query = "edge" then edgeRowList.filter b.agrees else []
  report _ := return ()

theorem reached_twoEdges : twoEdges.Reached :=
  .write (.addValue (.int 1) "edge" (.int 3)) (.write (.addValue (.int 1) "edge" (.int 2))
    (.write (.addInstance "Node" (.int 1)) (.start nodeSchema)))

theorem typed_twoEdges : twoEdges.Typed := by
  intro feature cls hcls h hv
  have source : nodeSchema.features =
      (∅ : ExtTreeMap String Feature).insert "edge" { name := "edge", source := some "Node" } := rfl
  have held : twoEdges.slots = ((∅ : ExtTreeMap (Value × String) (List Value)).insert
      (.int 1, "edge") [.int 2]).insert (.int 1, "edge") [.int 2, .int 3] := rfl
  have schema : twoEdges.schema = nodeSchema := rfl
  rw [schema, Schema.sourceClass?, Schema.feature?, source] at hcls
  rw [Model.valuesOf, held] at hv
  simp only [ExtTreeMap.getElem?_insert, ExtTreeMap.getD_insert, Std.LawfulEqCmp.compare_eq_iff_eq,
    Prod.mk.injEq, ExtTreeMap.getD_empty, ExtTreeMap.getElem?_empty] at hcls hv
  split at hcls
  · cases hcls
    split at hv
    · rename_i e
      rw [← e.1]
      decide
    · simp_all
  · cases hcls

theorem mem_edgesFound {t : Tuple} : t ∈ edgesFound "edge" ↔ t ∈ edgeRowList := by
  rw [edgesFound, if_pos rfl, List.mem_toFinset]

theorem widths_edgesFound : ∀ name q, edgeCatalog.queries[name]? = some q →
    ∀ t ∈ edgesFound name, t.length = q.arity := by
  intro name q hq t ht
  simp only [edgeCatalog, ExtTreeMap.getElem?_insert, Std.LawfulEqCmp.compare_eq_iff_eq,
    ExtTreeMap.getElem?_empty] at hq
  split at hq
  · rename_i e
    cases hq
    subst e
    rw [mem_edgesFound] at ht
    revert t
    decide
  · cases hq

theorem answers_edgeSearcher : edgeSearcher.Answers twoEdges degreeBody.Calls edgesFound where
  graph := rfl
  report _ := Search.returns_pure trivial
  ask r hr bnd := by
    obtain ⟨k, hk, hq⟩ := hr
    obtain rfl | rfl : k = _ ∨ k = _ := by simpa [degreeBody] using hk
    · cases hq
    · have edge : "edge" = r.query := Option.some_inj.1 hq
      have rows : edgeRowList.Nodup := by decide
      refine Search.returns_pure ?_
      rw [if_pos edge.symm]
      refine ⟨rows.filter _, fun t => ?_⟩
      rw [List.mem_filter, ← edge, mem_edgesFound]

theorem eq_of_mem_entry_degreePlan : ∀ x ∈ degreePlan.entry, x = "x" := by
  intro x hx
  have same : compare "x" x = .eq := by simpa [degreePlan, Plan.entry, eq_comm] using hx
  exact (Std.LawfulEqCmp.eq_of_compare same).symm

theorem exists_ofPlan_degrees : ∃ sp,
    SearchPlan.ofPlan edgeCatalog nodeSchema "degree" degreeBody degreePlan = .ok sp := by
  cases h : SearchPlan.ofPlan edgeCatalog nodeSchema "degree" degreeBody degreePlan with
  | ok sp => exact ⟨sp, rfl⟩
  | error e =>
    have ok : (SearchPlan.ofPlan edgeCatalog nodeSchema "degree" degreeBody
      degreePlan).toOption.isSome = true := by decide
    rw [h] at ok
    cases ok

theorem degrees_execute : (degreeQuery.validateBody degreeBody = .ok () ∧
      degreeBody.constraints.forM edgeCatalog.checkCall = .ok () ∧ twoEdges.Reached ∧
      twoEdges.Typed ∧ ∀ x ∈ degreePlan.entry, x ∈ degreeBody.parameters) ∧
    ∃ sp, SearchPlan.ofPlan edgeCatalog twoEdges.schema "degree" degreeBody degreePlan = .ok sp ∧
      (edgeSearcher.execute sp [some (.int 1), none]).Returns fun l => l.Nodup ∧
        ∀ t, t ∈ l ↔ Binding.agrees [some (.int 1), none] t = true ∧
          t ∈ degreeBody.meaning (twoEdges.facts edgesFound widths_edgesFound) := by
  have valid : degreeQuery.validateBody degreeBody = .ok () := rfl
  have calls : degreeBody.constraints.forM edgeCatalog.checkCall = .ok () := rfl
  have entry := eq_of_mem_entry_degreePlan
  have parameters : ∀ x ∈ degreePlan.entry, x ∈ degreeBody.parameters := fun x hx =>
    entry x hx ▸ List.mem_cons_self
  have fixed : ∀ x ∈ degreePlan.entry, Binding.Fixes [some (.int 1), none] degreeBody x :=
    fun x hx => ⟨0, .int 1, by rw [entry x hx]; rfl, rfl⟩
  have free : ∀ operator query xs aggregated result,
      .aggregate operator query xs aggregated result ∈ degreeBody.constraints →
        ∀ op, edgeCatalog.aggregators[operator]? = some op → op.OrderFree := by
    intro operator query xs aggregated result h
    simp [degreeBody] at h
  obtain ⟨sp, compiled⟩ := exists_ofPlan_degrees
  refine ⟨⟨valid, calls, reached_twoEdges, typed_twoEdges, parameters⟩, sp, compiled, ?_⟩
  exact execute_exact valid calls free reached_twoEdges typed_twoEdges parameters compiled
    widths_edgesFound answers_edgeSearcher fixed

end degrees

end SearchPlan
end Motif
