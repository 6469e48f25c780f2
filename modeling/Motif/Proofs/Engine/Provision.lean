import Motif.Proofs.Engine.Building

set_option autoImplicit false
namespace Motif

namespace Engine
variable {faithful : Prop} {e e' : Engine}

theorem Sound.inNetwork_of_leads (h : e.Sound faithful [] []) {a b : String} (ha : e.InNetwork a)
    (hr : e.catalog.Leads a b) : e.InNetwork b := by
  induction hr with
  | refl => exact ha
  | tail _ step ih => exact (h.calls _ ih _ step).resolve_left List.not_mem_nil

/-- How a sound engine fails a request: the request has no end, as it may where `endless`, or the
engine is sound still and no contract is broken. -/
def Declines (faithful endless : Prop) (f : Failure) (e : Engine) : Prop :=
  (f = .fault .unsettled ∧ endless) ∨ (∀ x, f ≠ .fault x) ∧ e.Sound faithful [] []

def Unwinds (e : Engine) (name : String) : Prop :=
  ∀ n, e.catalog.Leads name n → e.catalog.contains n = true ∧
    (e.InNetwork n ∨ e.catalog.isRecursive n = false)

def Provides (e : Engine) (name : String) : Backend → Prop
  | .rete => e.InNetwork name
  | .localSearch => e.Unwinds name ∧ e.catalog.Checks name

theorem Sound.declines_plan (h : e.Sound faithful [] []) {endless : Prop} (c : PlanError) :
    Declines faithful endless (.plan c) e :=
  .inr ⟨nofun, h⟩

theorem Sound.declines_disposed (h : e.Sound faithful [] []) {endless : Prop} :
    Declines faithful endless .disposed e := by
  refine .inr ⟨fun x hx => ?_, h⟩
  cases hx

theorem Declines.mono {endless endless' : Prop} {f : Failure} (h : Declines faithful endless f e)
    (he : endless → endless') : Declines faithful endless' f e :=
  h.imp_left fun h => ⟨h.1, he h.2⟩

end Engine

namespace Session

open Engine
variable {faithful : Prop} {e : Engine}

structure Attaches (e : Engine) (component : List String) : Prop where
  connected : ∀ a ∈ component, ∀ b, b ∈ component ↔ Components.Connected e.catalog.callees a b
  nodup : component.Nodup
  checked : ∀ n ∈ component, e.catalog.checkCalls n = .ok ()
  stratified : ∀ n ∈ component, e.catalog.Stratified n
  calls : ∀ n ∈ component, ∀ m ∈ e.catalog.callees n, m ∈ component ∨ e.InNetwork m

structure Assembles (faithful : Prop) (e : Engine) (component rest : List String)
    (todo : List (String × Compiled)) (e' : Engine) : Prop where
  sound : e'.Sound faithful rest todo
  enters : Enters e component rest e'
  waiting : ∀ n ∈ rest, ∃ q, e.catalog.queries[n]? = some q ∧
    List.Forall₂ (e.catalog.Yields faithful) q.bodies (bodiesOf todo n)
  within : ∀ p ∈ todo, p.1 ∈ component

section assembles
variable {component rest : List String} {todo : List (String × Compiled)} {e' : Engine}
  {name : String} {r : Compiled}

theorem Assembles.start (h : e.Sound faithful [] []) (a : Attaches e component)
    (hbodies : e.catalog.compile component = .ok todo)
    (some : ¬component.all e.productions.contains) :
    Assembles faithful e component component todo e := by
  have new : ∀ n ∈ component, ¬e.InNetwork n := by
    intro n hn hin
    refine some (List.all_eq_true.2 fun m hm => Houses.inNetwork_iff_contains.1 ?_)
    exact h.inNetwork_of_leads hin ((a.connected n hn m).1 hm).1
  obtain ⟨compiled, others⟩ := Catalog.compile_bodiesOf hbodies a.nodup
  refine ⟨h.await fun n hn => others n fun hm => new n hm hn, .start a.nodup new, fun n hn => ?_,
    fun p hp => ((Catalog.compile_ok hbodies).2 p hp).1⟩
  obtain ⟨q, hq, made⟩ := compiled n hn
  obtain ⟨q', hq', hcalls⟩ := Catalog.checkCalls_ok (a.checked n hn)
  cases hq.symm.trans hq'
  refine ⟨q, hq, ?_⟩
  obtain ⟨len, all⟩ := List.forall₂_iff_get.1 made
  exact List.forall₂_iff_get.2 ⟨len, fun i hi hj => (all i hi hj).yields
    (h.valid.validateBody hq (List.getElem_mem hi)) (hcalls _ (List.getElem_mem hi))⟩

theorem Assembles.addProduction (h : Assembles faithful e component (name :: rest) todo e')
    (a : Attaches e component) : ∃ q, e.catalog.query name = .ok q ∧ q.name = name ∧
      Assembles faithful e component rest todo (e'.addProduction q) := by
  obtain ⟨hname, new⟩ := h.enters.fresh name List.mem_cons_self
  obtain ⟨q, hq, made⟩ := h.waiting name List.mem_cons_self
  have catalog := h.enters.beside.catalog
  have sound := h.sound.addProduction (catalog ▸ hq) new (by rw [catalog]; exact made)
    (h.enters.called (a.calls name hname)) (by rw [catalog]; exact a.stratified name hname)
  obtain rfl : q.name = name := (h.sound.valid name q (catalog ▸ hq)).1
  exact ⟨q, by rw [Catalog.query, hq], rfl, sound, h.enters.addProduction,
    fun n hn => h.waiting n (.tail _ hn), h.within⟩

theorem Assembles.addBody (h : Assembles faithful e component [] ((name, r) :: todo) e') :
    (∀ e'', e'.addBody name r = .ok e'' → Assembles faithful e component [] todo e'') ∧
      ∀ f, e'.addBody name r = .error f → f = .fault .unsettled ∧ ¬e.catalog.Calm := by
  obtain ⟨made, failed⟩ :=
    h.sound.addBody ((h.enters.inNetwork name).2 (.inl (h.within _ List.mem_cons_self)))
  refine ⟨fun e'' he => ?_, fun f hf => ?_⟩
  · obtain ⟨sound, same, beside⟩ := made e'' he
    exact ⟨sound, h.enters.addBody beside same, fun _ hn => absurd hn List.not_mem_nil,
      fun p hp => h.within p (.tail _ hp)⟩
  · rw [← h.enters.beside.catalog]
    exact failed f hf

theorem install_sound (h : e.Sound faithful [] []) (a : Attaches e component) :
    (install component).Leads e
      (fun _ e' => e'.Sound faithful [] [] ∧ Beside e e' ∧
        ∀ n, e'.InNetwork n ↔ n ∈ component ∨ e.InNetwork n)
      (fun f e' => (f = .fault .unsettled ∧ ¬e.catalog.Calm) ∨
        e' = e ∧ ∃ c, e.catalog.compile component = .error c ∧ f = .plan c) := by
  refine leads_install (Assembles faithful e component) (fun all => ⟨h, .refl e, fun n => ?_⟩)
    (fun c hc => .inr ⟨rfl, c, hc, rfl⟩) (fun bodies hbodies some => .start h a hbodies some)
    (fun name rest todo e₁ h₁ => ?_) (fun name r rest e₁ h₁ => ?_) fun e₁ h₁ => ?_
  · refine ⟨.inr, fun hn => hn.elim (fun hn => ?_) id⟩
    exact Houses.inNetwork_iff_contains.2 (List.all_eq_true.1 all n hn)
  · obtain ⟨q, hq, -, h₂⟩ := h₁.addProduction a
    exact ⟨q, hq, h₂⟩
  · exact ⟨h₁.addBody.1, fun f hf => .inl (h₁.addBody.2 f hf)⟩
  · exact ⟨h₁.sound, h₁.enters.beside, h₁.enters.inNetwork⟩

end assembles

structure Admitting (faithful : Prop) (J : Engine → Prop) : Prop where
  install : ∀ {e : Engine} {component : List String}, e.Sound faithful [] [] →
    Attaches e component → J e → (install component).Leads e (fun _ => J) fun f e' =>
      (∃ x, f = .fault x) ∨ J e'
  settleIn : ∀ {e : Engine}, J e → J e.settleIn

theorem admitting_true : Admitting faithful fun _ => True where
  install h a _ := (install_sound h a).mono (fun _ _ _ => trivial) fun _ _ _ => .inr trivial
  settleIn _ := trivial

section admitting
variable {J : Engine → Prop} (K : Admitting faithful J)
include K

/-- Components go in one after the other, as far as they can be compiled. -/
theorem components_keeps {nodes : List String} {components : List (List String)}
    (h : e.Sound faithful [] []) (hJ : J e)
    (hd : Components.Decomposes e.catalog.callees nodes components)
    (closed : ∀ a ∈ nodes, ∀ b ∈ e.catalog.callees a, b ∈ nodes)
    (checked : ∀ n ∈ nodes, e.catalog.checkCalls n = .ok ())
    (stratified : ∀ n ∈ nodes, e.catalog.Stratified n) :
    (components.forM install).Leads e
      (fun _ e' => e'.Sound faithful [] [] ∧ Beside e e' ∧ J e' ∧
        ∀ n, e'.InNetwork n ↔ n ∈ components.flatten ∨ e.InNetwork n)
      (fun f e' => (f = .fault .unsettled ∧ ¬e.catalog.Calm) ∨
        ∃ done component rest c, components = done ++ component :: rest ∧
          (done.forM install).run.run e = (.ok ⟨⟩, e') ∧ e.catalog.compile component = .error c ∧
          f = .plan c ∧ e'.Sound faithful [] [] ∧ Beside e e' ∧ J e') := by
  refine leads_forM (fun rest e₁ => e₁.Sound faithful [] [] ∧ Beside e e₁ ∧ J e₁ ∧
      ∃ done, components = done ++ rest ∧ (done.forM install).run.run e = (.ok ⟨⟩, e₁) ∧
        ∀ n, e₁.InNetwork n ↔ n ∈ done.flatten ∨ e.InNetwork n)
    ⟨h, .refl e, hJ, [], rfl, rfl, by simp⟩ ?_ ?_
  · rintro component rest e₁ ⟨h₁, beside, hJ₁, done, rfl, run, there⟩
    have mem : component ∈ done ++ component :: rest := by simp
    have within : ∀ n ∈ component, n ∈ nodes := fun n hn => (hd.covers n).1 ⟨component, mem, hn⟩
    have attaches : Attaches e₁ component := {
      connected := by rw [beside.catalog]; exact hd.connected component mem
      nodup := hd.nodup mem
      checked := fun n hn => by rw [beside.catalog]; exact checked n (within n hn)
      stratified := fun n hn => by rw [beside.catalog]; exact stratified n (within n hn)
      -- What the component calls is in it or in one before it.
      calls := fun n hn m hm => by
        rw [beside.catalog] at hm
        refine (hd.mem_or_before rfl hn hm (closed n (within n hn) m hm)).imp_right fun before => ?_
        exact (there m).2 (.inl (List.mem_flatten.2 before)) }
    refine (((install_sound h₁ attaches).and (K.install h₁ attaches hJ₁)).and_run).mono ?_ ?_
    · rintro ⟨⟩ e₂ ⟨⟨⟨h₂, beside₂, there₂⟩, hJ₂⟩, run₂⟩
      refine ⟨h₂, beside.trans beside₂, hJ₂, done ++ [component], by simp,
        run_forM_append run run₂, fun n => ?_⟩
      rw [there₂, there, List.flatten_append, List.mem_append, List.flatten_singleton]
      tauto
    · rintro f e₂ ⟨⟨endless | ⟨rfl, c, hc, rfl⟩, -⟩, -⟩
      · exact .inl (beside.catalog ▸ endless)
      · exact .inr ⟨done, component, rest, c, rfl, run, beside.catalog ▸ hc, rfl, h₁, beside, hJ₁⟩
  · rintro e₁ ⟨h₁, beside, hJ₁, done, rfl, -, there⟩
    rw [List.append_nil]
    exact ⟨h₁, beside, hJ₁, there⟩

theorem resolved_keeps (h : e.Sound faithful [] []) (hJ : J e) {name : String}
    {components : List (List String)} (hc : e.catalog.resolutionOrder name = .ok components) :
    (components.forM install).Leads e
      (fun _ e' => e'.Sound faithful [] [] ∧ Beside e e' ∧ J e' ∧
        ∀ n, e'.InNetwork n ↔ e.catalog.Leads name n ∨ e.InNetwork n)
      (fun f e' => (f = .fault .unsettled ∧ ¬e.catalog.Calm) ∨
        ∃ done component rest c, components = done ++ component :: rest ∧
          (done.forM install).run.run e = (.ok ⟨⟩, e') ∧ e.catalog.compile component = .error c ∧
          f = .plan c ∧ e'.Sound faithful [] [] ∧ Beside e e' ∧ J e') := by
  obtain ⟨nodes, decomposes, mem, checked⟩ := Catalog.resolutionOrder_ok hc
  have reached := Catalog.exists_resolutionOrder_iff.1 ⟨components, hc⟩
  refine (components_keeps K h hJ decomposes (fun a ha b hb => ?_) checked
    fun n hn => (reached n ((mem n).1 hn)).2.2).mono ?_ fun _ _ hf => hf
  · rw [mem] at ha ⊢
    exact ha.tail hb
  · rintro - e₁ ⟨h₁, beside, hJ₁, there⟩
    exact ⟨h₁, beside, hJ₁, fun n => (there n).trans
      (or_congr_left (decomposes.mem_flatten.trans (mem n)))⟩

/-- A query goes into the network with all it leads to. It is refused where the order of its callees
is, or where a component cannot be compiled; then the components before that one have gone in. -/
theorem prepareRete_keeps (h : e.Sound faithful [] []) (hJ : J e) (name : String) :
    (prepareRete name).Leads e
      (fun _ e' => e'.Sound faithful [] [] ∧ Beside e e' ∧ J e' ∧
        ∀ n, e'.InNetwork n ↔ e.catalog.Leads name n ∨ e.InNetwork n)
      (fun f e' => (f = .fault .unsettled ∧ ¬e.catalog.Calm) ∨
        e'.Sound faithful [] [] ∧ Beside e e' ∧ J e' ∧ ∃ c, f = .plan c ∧
          ((e.catalog.resolutionOrder name = .error c ∧ e' = e) ∨
          ∃ done component rest, e.catalog.resolutionOrder name = .ok (done ++ component :: rest) ∧
            (done.forM install).run.run e = (.ok ⟨⟩, e') ∧
            e.catalog.compile component = .error c)) := by
  refine leads_get ?_
  split
  · rename_i there
    have there := Houses.inNetwork_iff_contains.2 there
    exact leads_pure ⟨h, .refl e, hJ,
      fun n => ⟨.inr, fun hn => hn.elim (h.inNetwork_of_leads there) id⟩⟩
  refine Leads.bind (leads_liftPlan (fun components hc => ?_)
    fun c hc => .inr ⟨h, .refl e, hJ, c, rfl, .inl ⟨hc, rfl⟩⟩)
  refine Leads.bind ((resolved_keeps K h hJ hc).mono ?_ ?_)
  · rintro - e₁ ⟨h₁, beside, hJ₁, there⟩
    refine leads_modify ⟨h₁.settleIn, ?_, K.settleIn hJ₁, ?_⟩
    all_goals
      obtain ⟨history, hs⟩ := exists_settleIn e₁
      rw [hs]
    · exact beside.trans ⟨rfl, rfl, rfl, rfl, rfl, rfl⟩
    · exact there
  · rintro f e₁ (endless | ⟨done, component, rest, c, rfl, run, hcompile, rfl, h₁, beside, hJ₁⟩)
    · exact .inl endless
    · exact .inr ⟨h₁, beside, hJ₁, c, rfl, .inr ⟨done, component, rest, hc, run, hcompile⟩⟩

theorem prepareSearch_keeps (h : e.Sound faithful [] []) (hJ : J e) (name : String) :
    (prepareSearch name).Leads e
      (fun _ e' => e'.Sound faithful [] [] ∧ Beside e e' ∧ J e' ∧ e'.Provides name .localSearch)
      (fun f e' => Declines faithful (¬e.catalog.Calm) f e' ∧ ((∃ x, f = .fault x) ∨ J e')) := by
  refine leads_get (Leads.bind (leads_liftPlan (fun components hc => ?_)
    fun c _ => ⟨h.declines_plan c, .inr hJ⟩))
  refine Leads.bind (leads_forIn (fun _ e₁ => e₁.Sound faithful [] [] ∧ Beside e e₁ ∧ J e₁)
    ⟨h, .refl e, hJ⟩ (fun callee rest e₁ ⟨h₁, beside, hJ₁⟩ => ?_) fun e₁ ⟨h₁, beside, hJ₁⟩ => ?_)
  · refine leads_get (Leads.bind (leads_liftPlan (fun backend _ => ?_)
      fun c _ => ⟨h₁.declines_plan c, .inr hJ₁⟩))
    split
    · refine Leads.bind ((prepareRete_keeps K h₁ hJ₁ callee).mono ?_ ?_)
      · rintro - e₂ ⟨h₂, beside₂, hJ₂, -⟩
        exact leads_pure ⟨rfl, h₂, beside.trans beside₂, hJ₂⟩
      · rintro f e₂ (⟨rfl, endless⟩ | ⟨h₂, -, hJ₂, c, rfl, -⟩)
        · exact ⟨.inl ⟨rfl, beside.catalog ▸ endless⟩, .inl ⟨_, rfl⟩⟩
        · exact ⟨h₂.declines_plan c, .inr hJ₂⟩
    · exact leads_pure ⟨rfl, h₁, beside, hJ₁⟩
  · refine leads_get ?_
    split
    · exact leads_throw ⟨h₁.declines_plan _, .inr hJ₁⟩
    · rename_i none
      have resolved := Catalog.exists_resolutionOrder_iff.1 ⟨components, hc⟩
      refine leads_pure ⟨h₁, beside, hJ₁, fun n hn => ?_, beside.catalog ▸ fun n hn => (resolved n hn).2.1⟩
      rw [beside.catalog] at hn ⊢
      refine ⟨(resolved n hn).1, ?_⟩
      obtain ⟨nodes, decomposes, mem, -⟩ := Catalog.resolutionOrder_ok hc
      have found := List.find?_eq_none.1 none n (decomposes.mem_flatten.2 ((mem n).2 hn))
      rw [beside.catalog] at found
      rw [Houses.inNetwork_iff_contains]
      cases hp : e₁.productions.contains n with
      | true => exact .inl rfl
      | false => exact .inr (by simpa [hp] using found)

/-- A request to prepare a query leaves the engine sound, answered or not. It ends if no body of a
recursive query computes anything. -/
theorem prepare_keeps (h : e.Sound faithful [] []) (hJ : J e) (name : String) :
    (prepare name).Leads e (fun backend e' => e'.Sound faithful [] [] ∧ Beside e e' ∧ J e' ∧
        e'.Provides name backend)
      (fun f e' => Declines faithful (¬e.catalog.Calm) f e' ∧ ((∃ x, f = .fault x) ∨ J e')) := by
  refine Leads.bind ?_
  rw [requireLive]
  refine leads_get ?_
  split
  · exact leads_throw ⟨h.declines_disposed, .inr hJ⟩
  refine leads_pure (leads_get (Leads.bind (leads_liftPlan (fun backend _ => ?_)
    fun c _ => ⟨h.declines_plan c, .inr hJ⟩)))
  cases backend with
  | rete =>
    refine Leads.bind ((prepareRete_keeps K h hJ name).mono ?_ ?_)
    · rintro - e₁ ⟨h₁, beside, hJ₁, there⟩
      exact leads_pure ⟨h₁, beside, hJ₁, (there name).2 (.inl .refl)⟩
    · rintro f e₁ (⟨rfl, endless⟩ | ⟨h₁, -, hJ₁, c, rfl, -⟩)
      · exact ⟨.inl ⟨rfl, endless⟩, .inl ⟨_, rfl⟩⟩
      · exact ⟨h₁.declines_plan c, .inr hJ₁⟩
  | localSearch =>
    refine Leads.bind ((prepareSearch_keeps K h hJ name).mono ?_ fun _ _ hf => hf)
    rintro - e₁ h₁
    exact leads_pure h₁

end admitting

theorem resolved_sound (h : e.Sound faithful [] []) {name : String} {components : List (List String)}
    (hc : e.catalog.resolutionOrder name = .ok components) :
    (components.forM install).Leads e
      (fun _ e' => e'.Sound faithful [] [] ∧ Beside e e')
      (fun f e' => (∃ x, f = .fault x) ∨ e'.Sound faithful [] []) := by
  refine (resolved_keeps admitting_true h trivial hc).mono (fun _ _ h' => ⟨h'.1, h'.2.1⟩) ?_
  rintro f e' (⟨rfl, -⟩ | ⟨_, _, _, _, -, -, -, -, h', -⟩)
  · exact .inl ⟨_, rfl⟩
  · exact .inr h'

theorem prepareRete_declines (h : e.Sound faithful [] []) (name : String) :
    (prepareRete name).Leads e (fun _ e' => e'.Sound faithful [] [] ∧ Beside e e')
      (Declines faithful (¬e.catalog.Calm)) := by
  refine (prepareRete_keeps admitting_true h trivial name).mono (fun _ _ h' => ⟨h'.1, h'.2.1⟩) ?_
  rintro f e' (⟨rfl, endless⟩ | ⟨h', -, -, c, rfl, -⟩)
  · exact .inl ⟨rfl, endless⟩
  · exact h'.declines_plan c

theorem prepare_declines (h : e.Sound faithful [] []) (name : String) :
    (prepare name).Leads e (fun backend e' => e'.Sound faithful [] [] ∧ Beside e e' ∧
        (backend = .localSearch → e'.Unwinds name))
      (Declines faithful (¬e.catalog.Calm)) :=
  (prepare_keeps admitting_true h trivial name).mono
    (fun backend _ ⟨h', beside, _, provides⟩ => ⟨h', beside, fun hb => by
      subst hb
      exact provides.1⟩) fun _ _ hf => hf.1

end Session
end Motif
