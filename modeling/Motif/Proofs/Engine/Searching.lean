import Motif.Proofs.Engine.Provision

set_option autoImplicit false
namespace Motif

open Std (ExtTreeMap)

namespace Catalog
variable {c : Catalog} {schema : Schema} {r : Reference} {ps : List SearchPlan}

theorem serves_searchPlans (h : c.searchPlans schema r = .ok ps) : ∀ p ∈ ps, c.Serves r.query p := by
  obtain ⟨q, hq, gives⟩ := searchPlans_ok h
  intro p hp
  obtain ⟨b, hb, plan, -, hplan⟩ := (exists_of_forall₂ gives).2 p hp
  exact ⟨SearchPlan.fits_ofPlan hplan, ⟨q, hq⟩, fun op hop r' hr => mem_callees.2
    ⟨q, hq, b, hb, Body.calls_normalize (SearchPlan.calls_of_ofPlan hplan hop hr)⟩⟩

theorem planned_searchPlans (valid : c.Valid) : Planned (c.searchPlans schema r) := by
  refine (planned_liftPlan _).bind fun q hq => planned_mapM fun b hb => ?_
  refine (planned_liftPlan _).bind fun plan _ => SearchPlan.planned_ofPlan ?_
  have hq := Catalog.query_ok (liftPlan_ok hq)
  exact (Query.validateBody_ok (Query.validateBody_normalize (valid.validateBody hq hb))).2

end Catalog

namespace Engine
variable {faithful : Prop} {e : Engine}

/-- A plan is kept that would be made again. -/
theorem Sound.plan (h : e.Sound faithful [] []) {r : Reference} {ps : List SearchPlan}
    (hps : e.catalog.searchPlans e.model.schema r = .ok ps) :
    Sound faithful { e with searchPlans := e.searchPlans.insert r ps } [] [] where
  mounted := h.mounted
  owner := h.owner
  lodged := h.lodged
  calls := h.calls
  stratified := h.stratified
  valid := h.valid
  plans r' ps' hr := by
    obtain ⟨rfl, rfl⟩ | hr := eq_or_of_getElem?_insert hr
    · exact ⟨fun _ => hps, Catalog.serves_searchPlans hps⟩
    · exact h.plans r' ps' hr
  reached := h.reached
  log := h.log
  issues := h.issues
  history := h.history
  rests := h.rests

def Searchable (f : Failure) : Prop := ∀ x, f = .fault x → x = .unsettled

theorem searchable_of_planned {α : Type} {x : Except Failure α} (h : Planned x) {f : Failure}
    (hf : x = .error f) : Searchable f := by
  obtain ⟨c, rfl⟩ := h f hf
  exact nofun

theorem Sound.declines (h : e.Sound faithful [] []) {f : Failure} (hf : Searchable f) :
    Declines faithful True f e := by
  by_cases he : ∃ x, f = .fault x
  · obtain ⟨x, rfl⟩ := he
    exact .inl ⟨congrArg _ (hf x rfl), trivial⟩
  · exact .inr ⟨fun x hx => he ⟨x, hx⟩, h⟩

end Engine

namespace Session

open Engine
variable {faithful : Prop} {e : Engine}

structure Lasting (I : Engine → Prop) (E : Failure → Prop) : Prop where
  plans : ∀ {e : Engine} {r : Reference} {ps : List SearchPlan}, I e →
    e.catalog.searchPlans e.model.schema r = .ok ps →
    I { e with searchPlans := e.searchPlans.insert r ps }
  unplanned : ∀ {e : Engine} {r : Reference} {f : Failure}, I e →
    e.catalog.searchPlans e.model.schema r = .error f → E f
  report : ∀ {e : Engine} {issues : List Issue}, I e → (∀ i ∈ issues, ¬i.IsRelational) →
    I (e.report issues)
  refused : ∀ c, E (.plan c)
  endless : E (.fault .unsettled)

section lasting
variable {I : Engine → Prop} {E : Failure → Prop}

def Searching (I : Engine → Prop) (st : Engine × List Issue) : Prop :=
  I st.1 ∧ ∀ i ∈ st.2, ¬i.IsRelational

theorem stays_asked {α : Type} {x : Session α}
    (h : ∀ e : Engine, I e → x.Leads e (fun _ => I) fun f e' => I e' ∧ E f) :
    Search.Stays (Searching I) E (fun _ => True) (asked x) := by
  rintro ⟨e, issues⟩ answer ⟨e', issues'⟩ ⟨kept, quiet⟩ hrun
  obtain ⟨rfl, answers, fails⟩ := (h e kept).asked hrun
  cases answer with
  | ok a => exact ⟨⟨answers a rfl, quiet⟩, fun _ _ => trivial, nofun⟩
  | error f =>
    obtain ⟨kept', failed⟩ := fails f rfl
    exact ⟨⟨kept', quiet⟩, nofun, fun f' hf => Except.error.inj hf ▸ failed⟩

theorem searcher_stays {ask : String → Backend → Binding → Session (List Tuple)}
    (h : ∀ (e : Engine) (name : String) (backend : Backend) (b : Binding), I e →
      (ask name backend b).Leads e (fun _ => I) fun f e' => I e' ∧ E f) (e : Engine) :
    (searcher ask e).Alike (searcher ask e) (Searching I) E (fun _ => True) where
  graph := rfl
  ask r b _ := (stays_asked fun e he => h e _ _ _ he).alike
  report name t message := by
    refine Search.Stays.alike ?_
    rintro ⟨e, issues⟩ answer ⟨e', issues'⟩ ⟨kept, quiet⟩ hrun
    cases hrun
    exact ⟨⟨kept, List.forall_mem_cons.2 ⟨id, quiet⟩⟩, fun _ _ => trivial, nofun⟩

theorem Lasting.evaluateWithin (L : Lasting I E) (h : I e) (depth : Nat) (name : String)
    (backend : Backend) (b : Binding) :
    (evaluateWithin depth name backend b).Leads e (fun _ => I) fun f e' => I e' ∧ E f := by
  have rete : ∀ (e : Engine) (name : String) (b : Binding), I e →
      (do liftM (liftPlan ((← get).maintained name b)) : Session (List Tuple)).Leads e
        (fun _ => I) fun f e' => I e' ∧ E f :=
    fun e name b h => leads_get (leads_liftPlan (fun _ _ => h) fun c _ => ⟨h, L.refused c⟩)
  induction depth generalizing e name backend b with
  | zero =>
    cases backend with
    | rete => exact rete e name b h
    | localSearch => exact leads_throw ⟨h, L.endless⟩
  | succ depth ih =>
    cases backend with
    | rete => exact rete e name b h
    | localSearch =>
      have planned : (Session.searchPlans ⟨name, .ofList b.positions⟩).Leads e (fun _ => I)
          fun f e' => I e' ∧ E f :=
        leads_searchPlans (fun _ _ => h) (fun _ hps => L.plans h hps) fun _ hf =>
          ⟨h, L.unplanned h hf⟩
      refine Leads.bind (planned.mono (fun ps e₁ h₁ => ?_) fun f e₁ hf => hf)
      refine leads_get (Leads.bind ?_)
      have stays := (Search.alike_mapM fun p (_ : p ∈ ps) =>
        (searcher_stays (fun e name backend b he => ih he name backend b) e₁).execute (p := p)
          (fun _ _ _ _ => trivial) b).stays
      refine searched_leads (fun ls e₂ issues hrun => ?_) (fun f e₂ issues hrun => ?_)
        ⟨h₁, L.endless⟩
      · obtain ⟨⟨kept, quiet⟩, -⟩ := stays (e₁, []) _ _ ⟨h₁, nofun⟩ hrun
        exact leads_pure (L.report kept fun i hi => quiet i (List.mem_reverse.1 hi))
      · obtain ⟨⟨kept, -⟩, -, fails⟩ := stays (e₁, []) _ _ ⟨h₁, nofun⟩ hrun
        exact ⟨kept, fails f rfl⟩

end lasting

theorem evaluateWithin_sound (h : e.Sound faithful [] []) (depth : Nat) (name : String)
    (backend : Backend) (b : Binding) :
    (evaluateWithin depth name backend b).Leads e (fun _ e' => e'.Sound faithful [] [])
      fun f e' => e'.Sound faithful [] [] ∧ Searchable f := by
  have lasting : Lasting (fun e => e.Sound faithful [] []) Searchable := {
    plans := fun h hps => h.plan hps
    unplanned := fun h hf => searchable_of_planned (Catalog.planned_searchPlans h.valid) hf
    report := fun h hi => h.report hi
    refused := fun _ => nofun
    endless := fun x hx => by cases hx; rfl }
  exact lasting.evaluateWithin h depth name backend b

end Session
end Motif
