import Motif.Engine.Matching
import Motif.Engine.Subscription
import Motif.Proofs.Engine.Flushing
import Motif.Proofs.Engine.Searching
import Motif.Proofs.Network.Exact

set_option autoImplicit false
namespace Motif

open Std (ExtTreeMap)

theorem Network.regular_clear (net : Network) : net.clear.Regular where
  wired := Wired.of_bare_eq (rfl : ({} : Network).bare = net.clear.bare) wired_empty
  within := {
    bare := rfl
    nodes := fun q v h => by cases h
    indexes := fun I a h => by cases h }
  apart I a h := by cases h
  ordered q m v _ h := by cases h

namespace Engine
variable {faithful : Prop} {e : Engine}

theorem Sound.registered (h : e.Sound faithful [] []) {c : Catalog} (valid : c.Valid)
    (k : Catalog.Keeps faithful (fun n => e.inUse n = true) e.catalog c) :
    Sound faithful { e with catalog := c } [] [] :=
  h.renew k valid h.reached h.log rfl h.regular rfl h.mirrors rfl rfl rfl rfl h.issues h.history
    h.rests

/-- An engine without a network and plans. -/
theorem sound_of_clear {n : Nat} (installed : e.installed = { network := { propagated := n } })
    (productions : e.productions = ∅) (plans : e.searchPlans = ∅) (valid : e.catalog.Valid)
    (reached : e.model.Reached) (log : e.model.log = [])
    (history : ∀ i, Happening.issue i ∈ e.history → ¬i.IsRelational) : e.Sound faithful [] [] := by
  obtain ⟨settings, model, catalog, inst, prods, producers, searchPlans, subscriptions,
    nextListener, disposed, news⟩ := e
  dsimp only at installed productions plans
  subst installed productions plans
  have none : ∀ {name : String} {id : NodeId}, (∅ : ExtTreeMap String NodeId)[name]? ≠ some id := by
    intro name id h
    rw [ExtTreeMap.getElem?_empty] at h
    cases h
  have unnamed : ∀ name, ¬Engine.InNetwork ⟨settings, model, catalog, { network := { propagated := n } },
      ∅, producers, ∅, subscriptions, nextListener, disposed, news⟩ name := fun name ⟨_, h⟩ => none h
  exact {
    mounted := {
      regular := Network.regular_clear { propagated := n }
      inputs := fun r id h => by cases h
      productions := fun q id query h => absurd h none
      nodes := fun a id h => by cases h }
    owner := fun id v h => by cases h
    lodged := fun name id h => absurd h none
    calls := fun name h => absurd h (unnamed name)
    stratified := fun name h => absurd h (unnamed name)
    valid := valid
    plans := fun r ps h => by
      replace h : (∅ : ExtTreeMap Reference (List SearchPlan))[r]? = some ps := h
      rw [ExtTreeMap.getElem?_empty] at h
      cases h
    reached := reached
    log := log
    issues := nofun
    history := history
    rests := fun _ => Network.Rests.clear { propagated := n } }

theorem sound_start (settings : EngineSettings) {m : Model} (hm : m.Reached) :
    (start settings m).Sound faithful [] [] :=
  sound_of_clear rfl rfl rfl (fun name q h => by cases h) hm.drain rfl nofun

theorem Sound.introduceAll (h : e.Sound faithful [] []) (s : Subscription) (ts : List Tuple) :
    (runAll Engine.introduce (e, s) ts).1.1.Sound faithful [] [] ∧
      (runAll Engine.introduce (e, s) ts).1.1.catalog = e.catalog := by
  refine runAll_keeps
    (I := fun p : Engine × Subscription => p.1.Sound faithful [] [] ∧ p.1.catalog = e.catalog)
    (fun p t ⟨sound, catalog⟩ => ?_) ⟨h, rfl⟩ ts
  rw [Engine.introduce]
  split
  · rename_i issue hissue
    exact ⟨sound.report fun i hi => List.mem_singleton.1 hi ▸ Match.not_isRelational hissue,
      catalog_report.trans catalog⟩
  · exact ⟨sound.record fun _ hi => (nomatch List.mem_singleton.1 hi), catalog⟩

theorem Sound.attach (h : e.Sound faithful [] []) (fatals : List Fatal) (s : Subscription) :
    ((e.record (fatals.map .fatal)).attach s).Sound faithful [] [] := by
  refine h.attended _ _ (h.record fun i hi => ?_).history
  obtain ⟨_, -, hi⟩ := List.mem_map.1 hi
  cases hi

end Engine

/-- Whether a partial match can be resolved has nothing to do with contracts. -/
theorem PartialMatch.resolve_ne_fault {p : PartialMatch} {q : Query} {f : Failure}
    (h : p.resolve q = .error f) : ∀ x, f ≠ .fault x := by
  have named : ∀ (l : List (String × Value)) (b : Binding),
      l.foldlM (fun (b : Binding) (x : String × Value) => do
        let i ← liftPlan (q.position x.1)
        return b.set i (some x.2)) b = .error f → ∀ x, f ≠ .fault x := by
    intro l
    induction l with
    | nil => exact fun b h => by cases h
    | cons a rest ih =>
      intro b h
      rw [List.foldlM_cons] at h
      cases hi : q.position a.1 with
      | ok i =>
        rw [hi] at h
        exact ih _ h
      | error c =>
        rw [hi] at h
        cases h
        exact nofun
  rw [resolve] at h
  cases hs : p.positional q with
  | ok b =>
    rw [hs] at h
    exact named _ b h
  | error f' =>
    rw [hs] at h
    cases h
    rw [positional] at hs
    split at hs
    · cases hs
    · split at hs <;> cases hs
      exact nofun

namespace Session

open Engine
variable {faithful : Prop} {e : Engine}

theorem requireLive_declines {endless : Prop} (h : e.Sound faithful [] []) :
    requireLive.Leads e (fun _ e' => e' = e) (Declines faithful endless) := by
  rw [requireLive]
  refine leads_get ?_
  split
  · exact leads_throw h.declines_disposed
  · exact leads_pure rfl

theorem register_declines (h : e.Sound faithful [] []) (q : Query) :
    (register q).Leads e (fun _ e' => e'.Sound faithful [] []) (Declines faithful False) := by
  refine Leads.bind ((requireLive_declines h).mono ?_ fun f e' hf => hf)
  rintro - e rfl
  refine leads_get ?_
  split
  · exact leads_throw (h.declines_plan _)
  · rename_i unused
    refine Leads.bind (leads_liftPlan (fun c hc => ?_) fun c _ => h.declines_plan c)
    exact leads_set (h.registered (Catalog.valid_register h.valid hc)
      (Catalog.keeps_register hc unused))

theorem evaluate_declines (h : e.Sound faithful [] []) (name : String) (backend : Backend)
    (b : Binding) : (evaluate name backend b).Leads e (fun _ e' => e'.Sound faithful [] [])
      (Declines faithful True) :=
  leads_get ((evaluateWithin_sound h _ name backend b).mono (fun _ _ h => h)
    fun _ _ hf => hf.1.declines hf.2)

theorem typedTuples_declines (h : e.Sound faithful [] []) (q : Query) (ts : List Tuple) :
    (typedTuples q ts).Leads e (fun _ e' => e'.Sound faithful [] []) (Declines faithful True) := by
  refine Leads.bind (leads_modify (leads_pure (h.report fun i hi => ?_)))
  obtain ⟨r, hr, hi⟩ := List.mem_filterMap.1 hi
  obtain ⟨t, -, rfl⟩ := List.mem_map.1 hr
  split at hi
  · rename_i issue hissue
    cases hi
    exact Match.not_isRelational hissue
  · cases hi

theorem matchesOf_declines (h : e.Sound faithful [] []) (q : Query) (backend : Backend)
    (p : PartialMatch) : (matchesOf q backend p).Leads e (fun _ e' => e'.Sound faithful [] [])
      (Declines faithful True) := by
  refine Leads.bind (leads_lift (fun b _ => ?_) fun f hf => .inr ⟨p.resolve_ne_fault hf, h⟩)
  refine Leads.bind ((requireLive_declines h).mono ?_ fun f e' hf => hf)
  rintro - e rfl
  refine Leads.bind ((evaluate_declines h _ _ _).mono (fun ts e' h' => ?_) fun f e' hf => hf)
  exact typedTuples_declines h' q ts

theorem prepared_declines (h : e.Sound faithful [] []) (name : String) :
    (prepared name).Leads e (fun _ e' => e'.Sound faithful [] []) (Declines faithful True) := by
  refine Leads.bind ((prepare_declines h name).mono (fun backend e' h' => ?_)
    fun f e' hf => hf.mono fun _ => trivial)
  exact leads_get (Leads.bind (leads_liftPlan (fun q _ => leads_pure h'.1)
    fun c _ => h'.1.declines_plan c))

theorem allMatches_declines (h : e.Sound faithful [] []) (name : String) (p : PartialMatch) :
    (allMatches name p).Leads e (fun _ e' => e'.Sound faithful [] []) (Declines faithful True) :=
  Leads.bind ((prepared_declines h name).mono (fun (q, backend) _ h' => matchesOf_declines h' q backend p)
    fun _ _ hf => hf)

theorem valuesOf_declines (h : e.Sound faithful [] []) (name parameter : String) (p : PartialMatch) :
    (valuesOf name parameter p).Leads e (fun _ e' => e'.Sound faithful [] [])
      (Declines faithful True) := by
  refine Leads.bind ((prepared_declines h name).mono (fun (q, backend) e' h' => ?_)
    fun _ _ hf => hf)
  refine Leads.bind (leads_liftPlan (fun i _ => ?_) fun c _ => h'.declines_plan c)
  exact Leads.bind ((matchesOf_declines h' q backend p).mono (fun _ _ h => leads_pure h)
    fun _ _ hf => hf)

theorem converted_declines {α : Type} (h : e.Sound faithful [] []) (name : String)
    (p : PartialMatch) (convert : Match → Except String α) :
    (converted name p convert).Leads e (fun _ e' => e'.Sound faithful [] [])
      (Declines faithful True) := by
  refine Leads.bind ((allMatches_declines h name p).mono (fun found e' h' => ?_)
    fun _ _ hf => hf)
  refine Leads.bind (leads_modify (leads_pure (h'.report fun i hi => ?_)))
  obtain ⟨m, -, hi⟩ := List.mem_filterMap.1 hi
  split at hi <;> cases hi
  exact id

theorem flush_declines (h : e.Written faithful) :
    Session.flush.Leads e (fun _ e' => e'.Sound faithful [] [])
      (Declines faithful (¬e.catalog.Calm)) := by
  refine leads_get (Leads.bind (leads_lift (fun e' he' => leads_set ?_) fun f hf => ?_))
  all_goals obtain ⟨e₁, he, sound, -⟩ | ⟨he, endless⟩ := h.flush
  · rw [he] at he'
    cases he'
    exact sound
  · rw [he] at he'
    cases he'
  · rw [he] at hf
    cases hf
  · rw [he] at hf
    cases hf
    exact .inl ⟨rfl, endless⟩

theorem update_declines (h : e.Sound faithful [] []) (ws : List Write) :
    (update ws).Leads e (fun _ e' => e'.Sound faithful [] [])
      (Declines faithful (¬e.catalog.Calm)) := by
  refine Leads.bind ((requireLive_declines h).mono ?_ fun f e' hf => hf)
  rintro - e rfl
  refine leads_get (Leads.bind (leads_set (Leads.bind ?_)))
  exact (flush_declines (h.written ws)).mono (fun _ _ h => leads_pure h) fun _ _ hf => hf

theorem evaluate_rete_declines {endless : Prop} (h : e.Sound faithful [] []) (name : String)
    (b : Binding) : (evaluate name .rete b).Leads e (fun _ e' => e' = e)
      (Declines faithful endless) := by
  refine leads_get ?_
  rw [searchDepth, evaluateWithin]
  exact leads_get (leads_liftPlan (fun _ _ => rfl) fun c _ => h.declines_plan c)

theorem subscribe_declines (h : e.Sound faithful [] []) (name : String) (fireNow : Bool)
    (listener : Listener) : (subscribe name fireNow listener).Leads e
      (fun _ e' => e'.Sound faithful [] []) (Declines faithful (¬e.catalog.Calm)) := by
  refine Leads.bind ((prepare_declines h name).mono (fun backend e₁ h₁ => ?_) fun _ _ hf => hf)
  obtain ⟨h₁, beside, -⟩ := h₁
  rw [← beside.catalog]
  cases backend with
  | localSearch => exact leads_throw (h₁.declines_plan _)
  | rete =>
    refine leads_get (Leads.bind (leads_liftPlan (fun q _ => ?_) fun c _ => h₁.declines_plan c))
    -- The listener has its number before it is told of anything.
    have numbered : Sound faithful { e₁ with nextListener := e₁.nextListener + 1 } [] [] :=
      h₁.attended _ _ h₁.history
    refine Leads.bind (leads_set ?_)
    cases fireNow with
    | false => exact Leads.bind (leads_modify (leads_pure
        (numbered.attended _ _ numbered.history)))
    | true =>
      refine Leads.bind ((evaluate_rete_declines numbered name _).mono ?_ fun _ _ hf => hf)
      rintro ts - rfl
      refine leads_get ?_
      obtain ⟨told, catalog⟩ := numbered.introduceAll ⟨e₁.nextListener, q, listener, []⟩ ts
      split
      rename_i e₂ s₂ answers hr
      rw [hr] at told catalog
      have attached := told.attach (answers.flatMap Prod.snd) s₂
      dsimp only
      split
      · exact Leads.bind (leads_set (leads_pure attached))
      · refine Leads.bind (leads_set (Leads.bind ?_))
        rw [← (catalog : e₂.catalog = e₁.catalog)]
        exact (flush_declines (Written.runQueued attached _)).mono (fun _ _ h => leads_pure h)
          fun _ _ hf => hf

theorem dispose_declines (h : e.Sound faithful [] []) :
    dispose.Leads e (fun _ e' => e'.Sound faithful [] []) (Declines faithful False) := by
  refine Leads.bind ((requireLive_declines h).mono ?_ fun f e' hf => hf)
  rintro - e rfl
  refine leads_get ?_
  split
  · exact leads_throw (.inr ⟨nofun, h⟩)
  · exact leads_set (sound_of_clear rfl rfl rfl h.valid h.reached h.log h.history)

end Session
end Motif
