import Motif.Engine.Matching
import Motif.Proofs.Engine.Preparing
import Motif.Proofs.Greedy
import Motif.Proofs.Search.Derived

set_option autoImplicit false
namespace Motif

open Std (ExtTreeMap ExtTreeSet)
open Reach (Steps)

namespace Catalog
variable {c : Catalog} {base : Relation → Set Tuple} {name : String} {t : Tuple}

theorem mem_least_iff : t ∈ c.least base name ↔
    ∃ q, c.queries[name]? = some q ∧ ∃ b ∈ q.bodies, t ∈ b.derives c base (c.least base) := by
  constructor
  · intro ht
    refine ht (fun name => {t | ∃ q, c.queries[name]? = some q ∧
      ∃ b ∈ q.bodies, t ∈ b.derives c base (c.least base)}) fun name q hq b hb t ht => ?_
    refine ⟨q, hq, b, hb, Body.derives_mono (fun n _ u hu => ?_) ht⟩
    obtain ⟨q', hq', b', hb', hu⟩ := hu
    exact isLeast_least.1 n q' hq' b' hb' hu
  · rintro ⟨q, hq, b, hb, ht⟩
    exact isLeast_least.1 name q hq b hb ht

end Catalog

namespace Engine
variable {e e' : Engine} {name : String}

theorem Resting.exists_memory (h : e.Resting) (hn : e.InNetwork name) :
    ∃ memory, (e.productions[name]?).bind e.network.productionMemory? = some memory ∧
      ∀ t, t ∈ memory.distinct ↔ t ∈ e.catalog.least e.model.base name := by
  obtain ⟨id, hid⟩ := hn
  obtain ⟨out, hs⟩ := h.houses.sound.saturated
  obtain ⟨q, -, -, ps, v, hv, hbare, -, -⟩ := h.houses.exists_query hid
  obtain ⟨node, receivers, parents, arity⟩ := v
  cases node with
  | production query memory =>
    refine ⟨memory, ?_, fun t => ?_⟩
    · rw [hid, Option.bind_some, Network.productionMemory?,
        show e.network.vertices[id]? = _ from hv]
    · rw [hs.mem_distinct hv rfl]
      exact ⟨h.houses.mem_least_of_mem_out h.valid h.positive hs hid,
        h.houses.mem_out_of_mem_least h.valid h.positive hs hid⟩
  | _ => cases hbare

def Matched (e : Engine) (name : String) (bnd : Binding) (l : List Tuple) : Prop :=
  l.Nodup ∧ ∀ t, t ∈ l ↔ bnd.agrees t = true ∧ t ∈ e.catalog.least e.model.base name

theorem inNetwork_of_maintained {bnd : Binding} {l : List Tuple} (h : e.maintained name bnd = .ok l) :
    e.InNetwork name := by
  rw [InNetwork, ← Option.isSome_iff_exists, Option.isSome_iff_ne_none]
  intro hn
  rw [Engine.maintained, hn] at h
  cases h

theorem Resting.maintained (h : e.Resting) (hn : e.InNetwork name) (bnd : Binding) :
    ∃ l, e.maintained name bnd = .ok l ∧ e.Matched name bnd l := by
  obtain ⟨memory, hmemory, mem⟩ := h.exists_memory hn
  refine ⟨memory.distinct.filter bnd.agrees, ?_, memory.nodup_distinct.filter _, fun t => ?_⟩
  · rw [Engine.maintained, hmemory]
  · rw [List.mem_filter, mem, and_comm]

structure Searches (e e' : Engine) : Prop where
  same : ∃ searchPlans history, e' = { e with searchPlans, history }
  plans : ∀ (r : Reference) (ps : List SearchPlan), e'.searchPlans[r]? = some ps →
    e.catalog.searchPlans e.model.schema r = .ok ps

theorem Resting.searches (h : e.Resting) : Searches e e := ⟨⟨_, _, rfl⟩, h.plans⟩

theorem Searches.report (s : Searches e e') (issues : List Issue) :
    Searches e (e'.report issues) := by
  obtain ⟨⟨searchPlans, history, rfl⟩, plans⟩ := s
  obtain ⟨history', hr⟩ := exists_report { e with searchPlans, history } issues
  rw [hr]
  exact ⟨⟨_, _, rfl⟩, plans⟩

end Engine

theorem Plan.entry_greedy {backend : Backend} {b : Body} {bound : ExtTreeSet Variable} {p : Plan}
    (h : Plan.greedy backend b bound = .ok p) : p.entry = bound := by
  obtain ⟨order, -, h⟩ := bind_ok h
  cases h
  exact Plan.entry_foldl (.start bound) order

theorem Binding.mem_firsts_flatten {α : Type} {bnd : Binding} {S : α → Set Tuple} {as : List α}
    {ls : List (List Tuple)}
    (h : List.Forall₂ (fun a l => ∀ t, t ∈ l ↔ bnd.agrees t = true ∧ t ∈ S a) as ls) (t : Tuple) :
    t ∈ firsts ls.flatten ↔ bnd.agrees t = true ∧ ∃ a ∈ as, t ∈ S a := by
  have flat := Searcher.mem_flatten (g := id) (h.imp fun a l hl t => by simpa using hl t) t
  rw [mem_firsts, flat]
  simp only [id_eq, exists_eq_right]
  tauto

theorem Binding.mem_positions {b : Binding} {i : Nat} :
    i ∈ b.positions ↔ ∃ v, b[i]? = some (some v) := by
  simp [Binding.positions, List.mem_zipIdx_iff_getElem?, Option.isSome_iff_exists]

namespace Catalog

def GivesPlan (c : Catalog) (schema : Schema) (q : Query) (bound : ExtTreeSet Nat) (b : Body)
    (p : SearchPlan) : Prop :=
  ∃ plan, Plan.greedy .localSearch b.normalize
      (.ofList (bound.toList.filterMap fun i => b.normalize.parameters[i]?)) = .ok plan ∧
    SearchPlan.ofPlan c schema q.name b.normalize plan = .ok p

theorem searchPlans_ok {c : Catalog} {schema : Schema} {r : Reference} {ps : List SearchPlan}
    (h : c.searchPlans schema r = .ok ps) : ∃ q, c.queries[r.query]? = some q ∧
      List.Forall₂ (c.GivesPlan schema q r.bound) q.bodies ps := by
  obtain ⟨q, hq, h⟩ := bind_ok h
  refine ⟨q, query_ok (liftPlan_ok hq), (forall₂_of_mapM h).imp fun b p h => ?_⟩
  obtain ⟨plan, hplan, h⟩ := bind_ok h
  exact ⟨plan, liftPlan_ok hplan, h⟩

theorem GivesPlan.exists_plan {c : Catalog} {schema : Schema} {q : Query} {bnd : Binding} {b : Body}
    {p : SearchPlan} (gives : c.GivesPlan schema q (.ofList bnd.positions) b p) :
    ∃ plan, SearchPlan.ofPlan c schema q.name b.normalize plan = .ok p ∧
      (∀ x ∈ plan.entry, x ∈ b.normalize.parameters) ∧ ∀ x ∈ plan.entry, bnd.Fixes b.normalize x := by
  obtain ⟨plan, hplan, hp⟩ := gives
  have mem : ∀ x, x ∈ plan.entry ↔ ∃ i ∈ bnd.positions, b.normalize.parameters[i]? = some x := by
    intro x
    rw [Plan.entry_greedy hplan, ExtTreeSet.mem_ofList, List.contains_iff_mem, List.mem_filterMap]
    simp [ExtTreeSet.mem_toList, ExtTreeSet.mem_ofList]
  refine ⟨plan, hp, fun x hx => ?_, fun x hx => ?_⟩
  · obtain ⟨i, -, hi⟩ := (mem x).1 hx
    exact List.mem_of_getElem? hi
  · obtain ⟨i, hi, hx⟩ := (mem x).1 hx
    obtain ⟨v, hv⟩ := Binding.mem_positions.1 hi
    exact ⟨i, v, hx, hv⟩

end Catalog

namespace Engine
variable {e e' : Engine} {name : String}

def Tells (e : Engine) (name : String) (a : Asking) : Prop :=
  a.callee.query ∈ e.catalog.callees name → e.Matched a.callee.query a.binding a.answer

/-- What a plan for a body finds is what the body derives from the least matches. -/
theorem Resting.execute_plan (h : e.Resting) (reached : e.model.Reached) (typed : e.model.Typed)
    {q : Query} (hq : e.catalog.queries[name]? = some q)
    (calls : ∀ b ∈ q.bodies, b.constraints.forM e.catalog.checkCall = .ok ())
    {bnd : Binding} {b : Body} (hb : b ∈ q.bodies) {p : SearchPlan}
    (gives : e.catalog.GivesPlan e.model.schema q (.ofList bnd.positions) b p)
    {σ ε : Type} {s : Searcher σ ε} {I : σ → Prop} (tells : s.Tells I (e.Tells name))
    (graph : s.graph = e.model.graph) (report : ∀ i, (s.report i).Returns fun _ => True)
    {st st' : σ} {l : List Tuple} (hI : I st)
    (hrun : (s.execute p bnd).run.run st = some (.ok l, st')) :
    l.Nodup ∧ ∀ t, t ∈ l ↔ bnd.agrees t = true ∧
      t ∈ b.derives e.catalog e.model.base (e.catalog.least e.model.base) := by
  obtain ⟨plan, hp, entry, fixed⟩ := gives.exists_plan
  have valid := h.valid.validateBody hq hb
  rw [← Body.derives_normalize]
  refine SearchPlan.execute_derives (Query.validateBody_normalize valid)
    (Body.checkCall_normalize (calls b hb)) reached typed entry hp graph report fixed hI hrun
    (Body.isPositive_normalize (h.positive name q hq b hb)) (fun n q' hq' t ht => ?_)
    (tells.mono fun a ha hcall => ?_)
  · obtain ⟨q'', hq'', hl⟩ := h.valid.length_of_mem_least ht
    cases hq'.symm.trans hq''
    exact hl
  · obtain ⟨nodup, exact⟩ := ha (Catalog.mem_callees.2 ⟨q, hq, b, hb, Body.calls_normalize hcall⟩)
    exact ⟨nodup, fun t => (exact t).trans and_comm⟩

theorem Resting.execute_plans (h : e.Resting) (reached : e.model.Reached) (typed : e.model.Typed)
    (checks : e.catalog.checkCalls name = .ok ()) {bnd : Binding} {ps : List SearchPlan}
    (hps : e.catalog.searchPlans e.model.schema ⟨name, .ofList bnd.positions⟩ = .ok ps)
    {σ ε : Type} {s : Searcher σ ε} {I : σ → Prop} (tells : s.Tells I (e.Tells name))
    (graph : s.graph = e.model.graph) (report : ∀ i, (s.report i).Returns fun _ => True)
    {ls : List (List Tuple)} (runs : List.Forall₂ (fun p l => ∃ st st', I st ∧
      (s.execute p bnd).run.run st = some (.ok l, st')) ps ls) :
    e.Matched name bnd (firsts ls.flatten) := by
  obtain ⟨q, hq, gives⟩ := Catalog.searchPlans_ok hps
  obtain ⟨q', hq', calls⟩ := Catalog.checkCalls_ok checks
  cases hq.symm.trans hq'
  have lists := (List.forall₂_and_left _ ls).2 ⟨fun b hb => hb, forall₂_trans gives runs⟩
  have found := Binding.mem_firsts_flatten
    (S := fun b : Body => b.derives e.catalog e.model.base (e.catalog.least e.model.base))
    (lists.imp fun b l ⟨hb, p, gives, st, st', hI, hrun⟩ =>
      (h.execute_plan reached typed hq calls hb gives tells graph report hI hrun).2)
  refine ⟨nodup_firsts _, fun t => ?_⟩
  rw [found, Catalog.mem_least_iff]
  refine and_congr_right fun _ => ⟨fun ht => ⟨q, hq, ht⟩, ?_⟩
  rintro ⟨q', hq', ht⟩
  cases hq.symm.trans hq'
  exact ht

/-- What is true of all answers: of what is at hand, and of what is found by a search if it is true of
all that the search is told. -/
structure Vouches (e : Engine) (M : String → Binding → List Tuple → Prop) : Prop where
  maintained : ∀ {name : String} {bnd : Binding} {l : List Tuple},
    e.maintained name bnd = .ok l → M name bnd l
  searched : ∀ {name : String} {bnd : Binding} {ps : List SearchPlan},
    e.catalog.searchPlans e.model.schema ⟨name, .ofList bnd.positions⟩ = .ok ps →
    ∀ {σ ε : Type} {s : Searcher σ ε} {I : σ → Prop},
      s.Tells I (fun a => M a.callee.query a.binding a.answer) → s.graph = e.model.graph →
      (∀ i, (s.report i).Returns fun _ => True) → ∀ {ls : List (List Tuple)},
      List.Forall₂ (fun p l => ∃ st st', I st ∧ (s.execute p bnd).run.run st = some (.ok l, st')) ps ls →
      M name bnd (firsts ls.flatten)

theorem Resting.vouches (h : e.Resting) (reached : e.model.Reached) (typed : e.model.Typed) :
    e.Vouches fun name bnd l => e.catalog.Checks name → e.Matched name bnd l where
  maintained {name bnd l} hl _ := by
    obtain ⟨l', hl', matched⟩ := h.maintained (inNetwork_of_maintained hl) bnd
    cases hl.symm.trans hl'
    exact matched
  searched hps _ _ _ _ tells graph report _ runs checks :=
    h.execute_plans reached typed (checks _ .refl) hps
      (tells.mono fun a ha hcall => ha fun n hn => checks n (.head hcall hn)) graph report runs

end Engine

namespace Session
variable {e e' : Engine} {name : String}

open Engine

theorem leads_searchPlans {r : Reference} {P : List SearchPlan → Engine → Prop}
    {F : Failure → Engine → Prop} (kept : ∀ ps, e.searchPlans[r]? = some ps → P ps e)
    (made : ∀ ps, e.catalog.searchPlans e.model.schema r = .ok ps →
      P ps { e with searchPlans := e.searchPlans.insert r ps })
    (failed : ∀ f, e.catalog.searchPlans e.model.schema r = .error f → F f e) :
    (Session.searchPlans r).Leads e P F := by
  refine leads_get ?_
  split
  · rename_i ps hps
    exact leads_pure (kept ps hps)
  · exact Leads.bind (leads_lift (fun ps hps => Leads.bind (leads_set (leads_pure (made ps hps)))) failed)

theorem searchPlans_leads (s : Searches e e') (r : Reference) :
    (Session.searchPlans r).Leads e'
      (fun ps e'' => Searches e e'' ∧ e.catalog.searchPlans e.model.schema r = .ok ps)
      (fun _ e'' => Searches e e'') := by
  refine leads_searchPlans (fun ps hps => ⟨s, s.plans r ps hps⟩) (fun ps hps => ?_) fun _ _ => s
  obtain ⟨⟨searchPlans, history, rfl⟩, plans⟩ := s
  refine ⟨⟨⟨_, _, rfl⟩, fun r' ps' h => ?_⟩, hps⟩
  obtain ⟨rfl, rfl⟩ | h := eq_or_of_getElem?_insert h
  · exact hps
  · exact plans r' ps' h

section searched
variable {α : Type} {x y : Search (Engine × List Issue) Failure α} {e e₁ : Engine} {issues : List Issue}

theorem searched_of_none (h : x.run.run (e, []) = none) :
    (searched x).run.run e = (.error (.fault .unsettled), e) := by
  rw [ExceptT.run, StateT.run] at h
  simp only [searched, ExceptT.run, ExceptT.mk, StateT.run, h]

theorem searched_of_error {f : Failure} (h : x.run.run (e, []) = some (.error f, e₁, issues)) :
    (searched x).run.run e = (.error f, e₁) := by
  rw [ExceptT.run, StateT.run] at h
  simp only [searched, ExceptT.run, ExceptT.mk, StateT.run, h]

theorem searched_of_ok {a : α} (h : x.run.run (e, []) = some (.ok a, e₁, issues)) :
    (searched x).run.run e = (.ok a, e₁.report issues.reverse) := by
  rw [ExceptT.run, StateT.run] at h
  simp only [searched, ExceptT.run, ExceptT.mk, StateT.run, h]

theorem searched_congr (h : x.run.run (e, []) = y.run.run (e, [])) :
    (searched x).run.run e = (searched y).run.run e := by
  rcases hx : x.run.run (e, []) with _ | ⟨f | a, e₁, issues⟩
  · rw [searched_of_none hx, searched_of_none (h ▸ hx)]
  · rw [searched_of_error hx, searched_of_error (h ▸ hx)]
  · rw [searched_of_ok hx, searched_of_ok (h ▸ hx)]

end searched

theorem searched_leads {α : Type} {x : Search (Engine × List Issue) Failure α}
    {P : α → Engine → Prop} {F : Failure → Engine → Prop}
    (ok : ∀ a e₁ issues, x.run.run (e, []) = some (.ok a, e₁, issues) →
      P a (e₁.report issues.reverse))
    (error : ∀ f e₁ issues, x.run.run (e, []) = some (.error f, e₁, issues) → F f e₁)
    (unsettled : F (.fault .unsettled) e) : (searched x).Leads e P F := by
  rw [Leads]
  rcases hx : x.run.run (e, []) with _ | ⟨f | a, e₁, issues⟩
  · rw [searched_of_none hx]
    exact unsettled
  · rw [searched_of_error hx]
    exact error f e₁ issues hx
  · rw [searched_of_ok hx]
    exact ok a e₁ issues hx

theorem Leads.asked {α : Type} {x : Session α} {P : α → Engine → Prop} {F : Failure → Engine → Prop}
    (h : x.Leads e P F) {issues : List Issue} {answer : Except Failure α} {st : Engine × List Issue}
    (hrun : (asked x).run.run (e, issues) = some (answer, st)) :
    st.2 = issues ∧ (∀ a, answer = .ok a → P a st.1) ∧ ∀ f, answer = .error f → F f st.1 := by
  replace hrun : some ((x.run.run e).1, (x.run.run e).2, issues) = some (answer, st) := hrun
  cases hrun
  exact ⟨rfl, fun a ha => h.of_ok ha, fun f hf => h.of_error hf⟩

section vouches
variable {M : String → Binding → List Tuple → Prop}

theorem tells_searcher {ask : String → Backend → Binding → Session (List Tuple)}
    (leads : ∀ (e' : Engine) (name : String) (backend : Backend) (bnd : Binding), Searches e e' →
      (ask name backend bnd).Leads e' (fun l e'' => Searches e e'' ∧ M name bnd l)
        (fun _ e'' => Searches e e'')) (e₁ : Engine) :
    (searcher ask e₁).Tells (fun st => Searches e st.1)
      (fun a => M a.callee.query a.binding a.answer) where
  ask := by
    rintro r bnd ⟨e₁, issues⟩ answer ⟨e₂, issues'⟩ s hrun
    obtain ⟨-, answers, fails⟩ := (leads e₁ r.query _ bnd s).asked hrun
    cases answer with
    | error f => exact ⟨fails f rfl, nofun⟩
    | ok l => exact ⟨(answers l rfl).1, fun l' hl => Except.ok.inj hl ▸ (answers l rfl).2⟩
  report := by
    rintro i ⟨e₁, issues⟩ answer ⟨e₂, issues'⟩ s hrun
    cases hrun
    exact s

/-- However an evaluation ends, it leaves the engine as it was but for plans made and reports; if
with an answer, then with one for which the engine vouches. -/
theorem evaluateWithin_leads (v : e.Vouches M) (depth : Nat) (s : Searches e e') (name : String)
    (backend : Backend) (bnd : Binding) :
    (evaluateWithin depth name backend bnd).Leads e' (fun l e'' => Searches e e'' ∧ M name bnd l)
      (fun _ e'' => Searches e e'') := by
  have rete : ∀ (e' : Engine) (name : String) (bnd : Binding), Searches e e' →
      (do liftM (liftPlan ((← get).maintained name bnd)) : Session (List Tuple)).Leads e'
        (fun l e'' => Searches e e'' ∧ M name bnd l) (fun _ e'' => Searches e e'') := by
    refine fun e' name bnd s => leads_get (leads_liftPlan (fun l hl => ⟨s, v.maintained ?_⟩) fun c _ => s)
    obtain ⟨⟨searchPlans, history, rfl⟩, -⟩ := s
    exact hl
  induction depth generalizing e' name backend bnd with
  | zero =>
    cases backend with
    | rete => exact rete e' name bnd s
    | localSearch => exact leads_throw s
  | succ depth ih =>
    cases backend with
    | rete => exact rete e' name bnd s
    | localSearch =>
      refine Leads.bind ((searchPlans_leads s _).mono (fun ps e₁ hps => ?_) fun f e₁ hf => hf)
      obtain ⟨s₁, hps⟩ := hps
      refine leads_get (Leads.bind ?_)
      have tells := tells_searcher (fun e₂ name backend bnd s₂ => ih s₂ name backend bnd) e₁
      have keeps := fun p => tells.follows_execute p bnd
      refine searched_leads (fun ls e₂ issues hrun => ?_) (fun f e₂ issues hrun => ?_) s₁
      · obtain ⟨s₂, runs⟩ := Search.forall₂_of_run_mapM
          (fun p st r st' hI hrun => (keeps p st r st' hI hrun).1) s₁ hrun
        refine leads_pure ⟨s₂.report _, v.searched hps tells ?_ (fun i st => ⟨_, _, rfl, trivial⟩)
          (runs ls rfl)⟩
        obtain ⟨⟨searchPlans, history, rfl⟩, -⟩ := s₁
        rfl
      · exact (Search.forall₂_of_run_mapM
          (fun p st r st' hI hrun => (keeps p st r st' hI hrun).1) s₁ hrun).1

end vouches

end Session
end Motif
