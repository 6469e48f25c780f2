import Motif.Proofs.Engine.Unfailing
import Motif.Proofs.Search.Parallel

set_option autoImplicit false
namespace Motif
namespace Engine
variable {e e' e'' : Engine}

/-- Since `e` no listener has been told anything, and none has come or gone. -/
structure Apart (e e' : Engine) : Prop where
  subscriptions : e'.subscriptions = e.subscriptions
  nextListener : e'.nextListener = e.nextListener
  catalog : e'.catalog = e.catalog
  history : ∃ issues : List Issue, e'.history = issues.map Happening.issue ++ e.history

theorem Apart.refl (e : Engine) : Apart e e := ⟨rfl, rfl, rfl, [], rfl⟩

theorem Apart.trans (h : Apart e e') (h' : Apart e' e'') : Apart e e'' where
  subscriptions := h'.subscriptions.trans h.subscriptions
  nextListener := h'.nextListener.trans h.nextListener
  catalog := h'.catalog.trans h.catalog
  history := by
    obtain ⟨issues, hi⟩ := h.history
    obtain ⟨issues', hi'⟩ := h'.history
    exact ⟨issues' ++ issues, by rw [hi', hi, List.map_append, List.append_assoc]⟩

theorem apart_report (e : Engine) (issues : List Issue) : Apart e (e.report issues) := by
  rw [report]
  split
  · exact ⟨rfl, rfl, rfl, issues.reverse, by rw [record, List.map_reverse]⟩
  · exact .refl e

theorem apart_reportNetwork (e : Engine) : Apart e e.reportNetwork :=
  (⟨rfl, rfl, rfl, [], rfl⟩ : Apart e (e.setNetwork e.network.takeIssues.1)).trans
    (apart_report _ e.network.takeIssues.2)

theorem settleIn_unfailing (e : Engine) : e.unfailing.settleIn = e.settleIn.unfailing :=
  (unfailing_reportNetwork (e.setNetwork e.network.takeEvents.1)).symm

theorem addBody_unfailing (e : Engine) (name : String) (body : Compiled) :
    e.unfailing.addBody name body = (e.addBody name body).map unfailing := by
  have productions : e.unfailing.productions = e.productions := rfl
  have site : e.unfailing.site = e.site := rfl
  have installed : e.unfailing.installed = e.installed := rfl
  simp only [addBody, productions, site, installed]
  cases e.installed.install e.site body.expr with
  | error f => rfl
  | ok built =>
    simp only [bind, Except.bind]
    cases e.productions[name]? with
    | none => rfl
    | some production =>
      dsimp only
      cases built.1.network.connect production built.2 <;> rfl

theorem apart_addBody {name : String} {body : Compiled} (h : e.addBody name body = .ok e') :
    Apart e e' := by
  rw [addBody] at h
  obtain ⟨built, -, h⟩ := bind_ok h
  cases hp : e.productions[name]? with
  | none =>
    rw [hp] at h
    cases h
  | some production =>
    rw [hp] at h
    obtain ⟨net, -, h⟩ := bind_ok h
    cases h
    exact ⟨rfl, rfl, rfl, [], rfl⟩

end Engine

namespace Session
variable {α β : Type} {e : Engine}

open Engine

def Mutes (x y : Session α) (e : Engine) : Prop :=
  y.run.run e.unfailing = ((x.run.run e).1, (x.run.run e).2.unfailing)

theorem Mutes.bind {x y : Session α} {g k : α → Session β} (h : Mutes x y e)
    (hg : ∀ a, (x.run.run e).1 = .ok a → Mutes (g a) (k a) (x.run.run e).2) :
    Mutes (x >>= g) (y >>= k) e := by
  rw [Mutes, ExceptT.run_bind, ExceptT.run_bind, StateT.run_bind, StateT.run_bind, h]
  generalize x.run.run e = ended at hg
  obtain ⟨f | a, e'⟩ := ended
  · rfl
  · exact hg a rfl

theorem Mutes.map {x y : Session α} {g : α → β} (h : Mutes x y e) : Mutes (g <$> x) (g <$> y) e := by
  rw [← bind_pure_comp, ← bind_pure_comp]
  exact h.bind fun _ _ => rfl

theorem mutes_get {g k : Engine → Session β} (h : Mutes (g e) (k e.unfailing) e) :
    Mutes (get >>= g) (get >>= k) e := h

theorem mutes_set (e' : Engine) : Mutes (set e' : Session PUnit) (set e'.unfailing) e := rfl

theorem mutes_modify {f k : Engine → Engine} (h : k e.unfailing = (f e).unfailing) :
    Mutes (modify f : Session PUnit) (modify k) e :=
  congrArg (Prod.mk (Except.ok PUnit.unit)) h

theorem mutes_pure (a : α) : Mutes (pure a) (pure a) e := rfl

theorem mutes_lift (r : Except Failure α) : Mutes (liftM r : Session α) (liftM r) e := by
  cases r <;> rfl

structure Aloof (x y : Session α) (e : Engine) : Prop where
  mutes : Mutes x y e
  apart : Apart e (x.run.run e).2

theorem Aloof.bind {x y : Session α} {g k : α → Session β} (h : Aloof x y e)
    (hg : ∀ a, Aloof (g a) (k a) (x.run.run e).2) : Aloof (x >>= g) (y >>= k) e where
  mutes := h.mutes.bind fun a _ => (hg a).mutes
  apart := by
    rw [ExceptT.run_bind, StateT.run_bind]
    have first := h.apart
    generalize x.run.run e = ended at first hg
    obtain ⟨f | a, e'⟩ := ended
    · exact first
    · exact first.trans (hg a).apart

theorem Aloof.map {x y : Session α} {g : α → β} (h : Aloof x y e) : Aloof (g <$> x) (g <$> y) e := by
  rw [← bind_pure_comp, ← bind_pure_comp]
  exact h.bind fun _ => ⟨rfl, .refl _⟩

theorem aloof_pure (a : α) : Aloof (pure a) (pure a) e := ⟨rfl, .refl e⟩

theorem aloof_throw (f : Failure) : Aloof (throw f : Session α) (throw f) e := ⟨rfl, .refl e⟩

theorem aloof_get {g k : Engine → Session β} (h : Aloof (g e) (k e.unfailing) e) :
    Aloof (get >>= g) (get >>= k) e := ⟨h.mutes, h.apart⟩

theorem aloof_set (e' : Engine) (h : Apart e e') :
    Aloof (set e' : Session PUnit) (set e'.unfailing) e := ⟨rfl, h⟩

theorem aloof_modify {f : Engine → Engine} (h : f e.unfailing = (f e).unfailing)
    (apart : Apart e (f e)) : Aloof (modify f : Session PUnit) (modify f) e :=
  ⟨mutes_modify h, apart⟩

theorem aloof_lift (r : Except Failure α) : Aloof (liftM r : Session α) (liftM r) e := by
  cases r <;> exact ⟨rfl, .refl e⟩

theorem aloof_forIn {l : List α} {g : α → PUnit → Session (ForInStep PUnit)}
    (h : ∀ a e, Aloof (g a ⟨⟩) (g a ⟨⟩) e) :
    Aloof (forIn l ⟨⟩ g : Session PUnit) (forIn l ⟨⟩ g) e := by
  induction l generalizing e with
  | nil => exact aloof_pure _
  | cons a rest ih =>
    rw [List.forIn_cons]
    refine (h a e).bind fun step => ?_
    cases step with
    | done b => exact aloof_pure b
    | yield b => exact ih

theorem aloof_forM {l : List α} {g : α → Session PUnit} (h : ∀ a e, Aloof (g a) (g a) e) :
    Aloof (l.forM g : Session PUnit) (l.forM g) e := by
  induction l generalizing e with
  | nil => exact aloof_pure _
  | cons a rest ih =>
    rw [List.forM]
    exact (h a e).bind fun _ => ih

theorem aloof_ite {p : Prop} [Decidable p] {x y x' y' : Session α} (h : p → Aloof x x' e)
    (h' : ¬p → Aloof y y' e) : Aloof (if p then x else y) (if p then x' else y') e := by
  by_cases hp : p
  · rw [if_pos hp, if_pos hp]
    exact h hp
  · rw [if_neg hp, if_neg hp]
    exact h' hp

theorem aloof_requireLive : Aloof requireLive requireLive e :=
  aloof_get (aloof_ite (fun _ => aloof_throw _) fun _ => aloof_pure _)

theorem aloof_addProduction (q : Query) :
    Aloof (modify (·.addProduction q) : Session PUnit) (modify (·.addProduction q)) e :=
  aloof_modify rfl ⟨rfl, rfl, rfl, [], rfl⟩

theorem aloof_addBody (name : String) (body : Compiled) :
    Aloof (do set (← liftM ((← get).addBody name body)) : Session PUnit)
      (do set (← liftM ((← get).addBody name body))) e := by
  refine aloof_get ?_
  rw [addBody_unfailing]
  cases h : e.addBody name body with
  | error f => exact aloof_throw f
  | ok e' => exact aloof_set e' (apart_addBody h)

theorem aloof_install (component : List String) : Aloof (install component) (install component) e := by
  refine aloof_get (aloof_ite (fun _ => aloof_pure _) fun _ => ?_)
  refine (aloof_lift _).bind fun bodies => ?_
  refine (aloof_forIn fun name e => ?_).bind fun _ => ?_
  · exact (aloof_lift _).bind fun q => (aloof_addProduction q).bind fun _ => aloof_pure _
  · refine (aloof_forIn fun p e => ?_).bind fun _ => aloof_pure _
    have h := (aloof_addBody (e := e) p.1 p.2).bind fun _ => aloof_pure (ForInStep.yield PUnit.unit)
    simpa only [bind_assoc] using h

theorem aloof_settleIn : Aloof (modify Engine.settleIn : Session PUnit) (modify Engine.settleIn) e :=
  aloof_modify (settleIn_unfailing e) ((⟨rfl, rfl, rfl, [], rfl⟩ :
    Apart e (e.setNetwork e.network.takeEvents.1)).trans (apart_reportNetwork _))

theorem aloof_prepareRete (name : String) : Aloof (prepareRete name) (prepareRete name) e :=
  aloof_get (aloof_ite (fun _ => aloof_pure _) fun _ => (aloof_lift _).bind fun _ =>
    (aloof_forM fun component _ => aloof_install component).bind fun _ => aloof_settleIn)

theorem aloof_prepareSearch (name : String) : Aloof (prepareSearch name) (prepareSearch name) e := by
  refine aloof_get ((aloof_lift _).bind fun components => ?_)
  refine (aloof_forIn fun callee e => ?_).bind fun _ => ?_
  · refine aloof_get ((aloof_lift _).bind fun backend => aloof_ite (fun _ => ?_) fun _ => ?_)
    · exact (aloof_prepareRete callee).bind fun _ => aloof_pure _
    · exact aloof_pure _
  · have productions : ∀ e : Engine, e.unfailing.productions = e.productions := fun _ => rfl
    have catalog : ∀ e : Engine, e.unfailing.catalog = e.catalog := fun _ => rfl
    refine aloof_get ?_
    simp only [productions, catalog]
    generalize List.find? _ _ = found
    cases found with
    | some n => exact aloof_throw _
    | none => exact aloof_pure _

theorem aloof_prepare (name : String) : Aloof (prepare name) (prepare name) e := by
  refine aloof_requireLive.bind fun _ => aloof_get ((aloof_lift _).bind fun backend => ?_)
  cases backend with
  | rete => exact (aloof_prepareRete name).bind fun _ => aloof_pure _
  | localSearch => exact (aloof_prepareSearch name).bind fun _ => aloof_pure _

theorem aloof_searchPlans (r : Reference) :
    Aloof (Session.searchPlans r) (Session.searchPlans r) e := by
  have plans : e.unfailing.searchPlans = e.searchPlans := rfl
  refine aloof_get ?_
  rw [plans]
  cases e.searchPlans[r]? with
  | some ps => exact aloof_pure ps
  | none =>
    refine (aloof_lift _).bind fun ps => (Aloof.bind ?_ fun _ => aloof_pure ps)
    exact aloof_set { e with searchPlans := e.searchPlans.insert r ps } ⟨rfl, rfl, rfl, [], rfl⟩

def Muted (e : Engine) (st st' : Engine × List Issue) : Prop :=
  st' = (st.1.unfailing, st.2) ∧ Apart e st.1

theorem Aloof.asked {x y : Session α} (h : ∀ e', Apart e e' → Aloof x y e') :
    Search.Parallel (Muted e) (fun _ => True) (fun _ => True) (asked x) (asked y) := by
  rintro ⟨e', issues⟩ - ⟨rfl, apart⟩
  have aloof := h e' apart
  show Option.Rel _ (some ((x.run.run e').1, (x.run.run e').2, issues))
    (some ((y.run.run e'.unfailing).1, (y.run.run e'.unfailing).2, issues))
  rw [aloof.mutes]
  exact .some ⟨rfl, ⟨rfl, apart.trans aloof.apart⟩, fun _ _ => trivial, fun _ _ => trivial⟩

theorem aloof_searched {P : α → Prop} {x y : Search (Engine × List Issue) Failure α}
    (h : Search.Parallel (Muted e) (fun _ => True) P x y) :
    Aloof (searched x) (searched y) e := by
  have ends := h (e, []) (e.unfailing, []) ⟨rfl, .refl e⟩
  have parts : Mutes (searched x) (searched y) e ∧ Apart e ((searched x).run.run e).2 := by
    rw [Mutes]
    generalize hx : x.run.run (e, []) = r, hy : y.run.run (e.unfailing, []) = r' at ends
    cases ends with
    | none =>
      rw [searched_of_none hx, searched_of_none hy]
      exact ⟨rfl, .refl e⟩
    | @some p q ended =>
      obtain ⟨answer, e₁, issues⟩ := p
      obtain ⟨answer', st⟩ := q
      obtain rfl : answer = answer' := ended.same
      obtain ⟨rfl, apart⟩ := ended.states
      cases answer with
      | ok a =>
        rw [searched_of_ok hx, searched_of_ok hy, ← unfailing_report]
        exact ⟨rfl, apart.trans (apart_report e₁ _)⟩
      | error f =>
        rw [searched_of_error hx, searched_of_error hy]
        exact ⟨rfl, apart⟩
  exact ⟨parts.1, parts.2⟩

theorem parallel_searcher {ask : String → Backend → Binding → Session (List Tuple)}
    (h : ∀ name backend b e, Aloof (ask name backend b) (ask name backend b) e) (e : Engine) :
    (searcher ask e).Parallel (searcher ask e.unfailing) (Muted e) (fun _ => True)
      (fun _ => True) where
  graph := rfl
  ask r b _ := Aloof.asked fun e' _ => h _ _ _ e'
  report name t message := by
    rintro ⟨e', issues⟩ - ⟨rfl, apart⟩
    exact .some ⟨rfl, ⟨rfl, apart⟩, fun _ _ => trivial, fun _ _ => trivial⟩

theorem aloof_evaluateWithin (depth : Nat) (name : String) (backend : Backend) (b : Binding) :
    Aloof (evaluateWithin depth name backend b) (evaluateWithin depth name backend b) e := by
  have rete : ∀ name b (e : Engine), Aloof (do liftM (liftPlan ((← get).maintained name b)))
      (do liftM (liftPlan ((← get).maintained name b))) e := fun _ _ _ => aloof_get (aloof_lift _)
  induction depth generalizing e name backend b with
  | zero =>
    cases backend with
    | rete => exact rete name b e
    | localSearch => exact aloof_throw _
  | succ depth ih =>
    cases backend with
    | rete => exact rete name b e
    | localSearch =>
      refine (aloof_searchPlans _).bind fun plans => aloof_get (Aloof.bind ?_ fun _ => aloof_pure _)
      exact aloof_searched (Search.parallel_mapM fun p _ =>
        (parallel_searcher (fun name backend b e => ih name backend b) _).execute
          (fun _ _ _ _ => trivial) b)

theorem aloof_evaluate (name : String) (backend : Backend) (b : Binding) :
    Aloof (evaluate name backend b) (evaluate name backend b) e :=
  aloof_get (aloof_evaluateWithin _ name backend b)

theorem aloof_report (issues : List Issue) :
    Aloof (modify (·.report issues) : Session PUnit) (modify (·.report issues)) e :=
  aloof_modify (unfailing_report e issues).symm (apart_report e issues)

theorem aloof_typedTuples (q : Query) (ts : List Tuple) :
    Aloof (typedTuples q ts) (typedTuples q ts) e :=
  (aloof_report _).bind fun _ => aloof_pure _

theorem aloof_prepared (name : String) : Aloof (prepared name) (prepared name) e :=
  (aloof_prepare name).bind fun _ => aloof_get ((aloof_lift _).bind fun _ => aloof_pure _)

theorem aloof_matchesOf (q : Query) (backend : Backend) (p : PartialMatch) :
    Aloof (matchesOf q backend p) (matchesOf q backend p) e :=
  (aloof_lift _).bind fun b => aloof_requireLive.bind fun _ =>
    (aloof_evaluate q.name backend b).bind fun ts => aloof_typedTuples q ts

theorem aloof_allMatches (name : String) (p : PartialMatch) :
    Aloof (allMatches name p) (allMatches name p) e :=
  (aloof_prepared name).bind fun (q, backend) => aloof_matchesOf q backend p

theorem aloof_valuesOf (name parameter : String) (p : PartialMatch) :
    Aloof (valuesOf name parameter p) (valuesOf name parameter p) e :=
  (aloof_prepared name).bind fun (q, backend) => (aloof_lift _).bind fun _ =>
    (aloof_matchesOf q backend p).bind fun _ => aloof_pure _

theorem aloof_converted {γ : Type} (name : String) (p : PartialMatch)
    (convert : Match → Except String γ) :
    Aloof (converted name p convert) (converted name p convert) e :=
  (aloof_allMatches name p).bind fun _ =>
    (aloof_report _).bind fun _ => aloof_pure _

theorem aloof_dispose : Aloof dispose dispose e := by
  refine aloof_requireLive.bind fun _ => aloof_get ?_
  generalize (requireLive.run.run e).2 = e
  have attached : e.unfailing.subscriptions = e.subscriptions.map Subscription.unfailing := rfl
  rw [attached, List.isEmpty_map, List.length_map]
  cases e.subscriptions.isEmpty with
  | true => exact aloof_set { e with
      installed := { network := e.network.clear }, productions := ∅, producers := ∅
      searchPlans := ∅, disposed := true } ⟨rfl, rfl, rfl, [], rfl⟩
  | false => exact aloof_throw _

end Session
end Motif
