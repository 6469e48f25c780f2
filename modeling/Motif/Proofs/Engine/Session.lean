import Motif.Engine.Preparation

set_option autoImplicit false
namespace Motif
namespace Session
variable {α β : Type} {e : Engine} {P : α → Engine → Prop} {Q : β → Engine → Prop}
  {F : Failure → Engine → Prop}

def Leads (x : Session α) (e : Engine) (P : α → Engine → Prop) (F : Failure → Engine → Prop) : Prop :=
  match x.run.run e with
  | (.ok a, e') => P a e'
  | (.error f, e') => F f e'

theorem Leads.mono {x : Session α} {P' : α → Engine → Prop} {F' : Failure → Engine → Prop}
    (h : x.Leads e P F) (hP : ∀ a e', P a e' → P' a e') (hF : ∀ f e', F f e' → F' f e') :
    x.Leads e P' F' := by
  unfold Leads at *
  split
  · rename_i hx
    rw [hx] at h
    exact hP _ _ h
  · rename_i hx
    rw [hx] at h
    exact hF _ _ h

theorem Leads.of_ok {x : Session α} (h : x.Leads e P F) {a : α} (ha : (x.run.run e).1 = .ok a) :
    P a (x.run.run e).2 := by
  rw [Leads] at h
  split at h
  · rename_i hx
    rw [hx] at ha ⊢
    cases ha
    exact h
  · rename_i hx
    rw [hx] at ha
    cases ha

theorem Leads.of_error {x : Session α} (h : x.Leads e P F) {f : Failure}
    (hf : (x.run.run e).1 = .error f) : F f (x.run.run e).2 := by
  rw [Leads] at h
  split at h
  · rename_i hx
    rw [hx] at hf
    cases hf
  · rename_i hx
    rw [hx] at hf ⊢
    cases hf
    exact h

theorem Leads.and_run {x : Session α} (h : x.Leads e P F) :
    x.Leads e (fun a e' => P a e' ∧ x.run.run e = (.ok a, e'))
      (fun f e' => F f e' ∧ x.run.run e = (.error f, e')) := by
  unfold Leads at *
  split
  · rename_i hx
    rw [hx] at h
    exact ⟨h, hx⟩
  · rename_i hx
    rw [hx] at h
    exact ⟨h, hx⟩

theorem Leads.and {x : Session α} {P' : α → Engine → Prop} {F' : Failure → Engine → Prop}
    (h : x.Leads e P F) (h' : x.Leads e P' F') :
    x.Leads e (fun a e' => P a e' ∧ P' a e') fun f e' => F f e' ∧ F' f e' := by
  unfold Leads at *
  split
  · rename_i hx
    rw [hx] at h h'
    exact ⟨h, h'⟩
  · rename_i hx
    rw [hx] at h h'
    exact ⟨h, h'⟩

theorem leads_pure {a : α} (h : P a e) : Leads (pure a) e P F := h

theorem leads_throw {f : Failure} (h : F f e) : Leads (throw f) e P F := h

theorem Leads.bind {x : Session α} {g : α → Session β}
    (h : x.Leads e (fun a e' => (g a).Leads e' Q F) F) : (x >>= g).Leads e Q F := by
  unfold Leads at *
  rw [ExceptT.run_bind, StateT.run_bind]
  rcases hx : x.run.run e with ⟨a | f, e'⟩
  · rw [hx] at h
    exact h
  · rw [hx] at h
    exact h

theorem Leads.map {x : Session α} {P : Engine → Prop} {g : α → β}
    (h : x.Leads e (fun _ e' => P e') F) : (g <$> x).Leads e (fun _ e' => P e') F := by
  rw [← bind_pure_comp]
  exact Leads.bind (h.mono (fun _ _ h => leads_pure h) fun _ _ h => h)

theorem leads_get {g : Engine → Session β} (h : (g e).Leads e Q F) : (get >>= g).Leads e Q F :=
  Leads.bind h

theorem leads_set {e' : Engine} {P : PUnit → Engine → Prop} (h : P ⟨⟩ e') :
    (set e' : Session PUnit).Leads e P F := h

theorem leads_modify {g : Engine → Engine} {P : PUnit → Engine → Prop} (h : P ⟨⟩ (g e)) :
    (modify g : Session PUnit).Leads e P F := h

theorem leads_lift {r : Except Failure α} (ok : ∀ a, r = .ok a → P a e)
    (error : ∀ f, r = .error f → F f e) : (liftM r : Session α).Leads e P F := by
  cases r with
  | ok a => exact ok a rfl
  | error f => exact error f rfl

theorem leads_liftPlan {r : Except PlanError α} (ok : ∀ a, r = .ok a → P a e)
    (error : ∀ c, r = .error c → F (.plan c) e) : (liftM (liftPlan r) : Session α).Leads e P F := by
  cases r with
  | ok a => exact ok a rfl
  | error c => exact error c rfl

/-- A loop keeps what each round of it keeps. `I` speaks of the items that are still to come. -/
theorem leads_forIn {l : List α} {g : α → PUnit → Session (ForInStep PUnit)}
    {P : PUnit → Engine → Prop} (I : List α → Engine → Prop) (start : I l e)
    (round : ∀ a rest e, I (a :: rest) e →
      (g a ⟨⟩).Leads e (fun r e' => r = .yield ⟨⟩ ∧ I rest e') F)
    (finish : ∀ e, I [] e → P ⟨⟩ e) : (forIn l ⟨⟩ g : Session PUnit).Leads e P F := by
  induction l generalizing e with
  | nil => exact finish e start
  | cons a rest ih =>
    rw [List.forIn_cons]
    refine Leads.bind ((round a rest e start).mono (fun r e' h => ?_) fun f e' h => h)
    obtain ⟨rfl, h⟩ := h
    exact ih h

theorem leads_forM {l : List α} {g : α → Session PUnit} {P : PUnit → Engine → Prop}
    (I : List α → Engine → Prop) (start : I l e)
    (round : ∀ a rest e, I (a :: rest) e → (g a).Leads e (fun _ e' => I rest e') F)
    (finish : ∀ e, I [] e → P ⟨⟩ e) : (l.forM g : Session PUnit).Leads e P F := by
  induction l generalizing e with
  | nil => exact finish e start
  | cons a rest ih =>
    rw [List.forM]
    exact Leads.bind ((round a rest e start).mono (fun _ e' h => ih h) fun f e' h => h)

theorem run_forM_append {l : List α} {a : α} {g : α → Session PUnit} {e₁ e₂ : Engine}
    (h : (l.forM g).run.run e = (.ok ⟨⟩, e₁)) (ha : (g a).run.run e₁ = (.ok ⟨⟩, e₂)) :
    ((l ++ [a]).forM g).run.run e = (.ok ⟨⟩, e₂) := by
  have split : (l ++ [a]).forM g = (do l.forM g; g a) := by
    rw [List.forM_eq_forM, List.forM_append, List.forM_cons, List.forM_nil,
      bind_pure]
  rw [split, ExceptT.run_bind, StateT.run_bind, h]
  exact ha

/-- A component is installed as it was compiled: `I` speaks of the queries that are still to get
their nodes and of the bodies that are still to be built. -/
theorem leads_install {component : List String} {P : PUnit → Engine → Prop}
    (I : List String → List (String × Compiled) → Engine → Prop)
    (there : component.all e.productions.contains → P ⟨⟩ e)
    (error : ∀ c, e.catalog.compile component = .error c → F (.plan c) e)
    (start : ∀ bodies, e.catalog.compile component = .ok bodies →
      ¬component.all e.productions.contains → I component bodies e)
    (production : ∀ name rest bodies e', I (name :: rest) bodies e' →
      ∃ q, e.catalog.query name = .ok q ∧ I rest bodies (e'.addProduction q))
    (body : ∀ name r rest e', I [] ((name, r) :: rest) e' →
      (∀ e'', e'.addBody name r = .ok e'' → I [] rest e'') ∧
        ∀ f, e'.addBody name r = .error f → F f e')
    (finish : ∀ e', I [] [] e' → P ⟨⟩ e') : (install component).Leads e P F := by
  refine leads_get ?_
  split
  · rename_i all
    exact leads_pure (there all)
  rename_i some
  refine Leads.bind (leads_liftPlan (fun bodies hbodies => ?_) error)
  refine Leads.bind (leads_forIn (fun rest e' => I rest bodies e')
    (start bodies hbodies some) (fun name rest e' hI => ?_) fun e' hI => ?_)
  · obtain ⟨q, hq, hI⟩ := production name rest bodies e' hI
    refine Leads.bind (leads_liftPlan (fun q' hq' => ?_) fun c hc => by cases hq.symm.trans hc)
    cases hq.symm.trans hq'
    exact Leads.bind (leads_modify (leads_pure ⟨rfl, hI⟩))
  refine Leads.bind (leads_forIn (fun rest e' => I [] rest e') hI (fun p rest e' hI => ?_)
    fun e' hI => leads_pure (finish e' hI))
  obtain ⟨made, failed⟩ := body p.1 p.2 rest e' hI
  exact leads_get (Leads.bind (leads_lift (fun e'' he'' =>
    Leads.bind (leads_set (leads_pure ⟨rfl, made e'' he''⟩))) failed))

end Session
end Motif
