import Motif.Proofs.Engine.Mirror

/-!
Searches within searches. A query that has been prepared to be searched for leads back only to queries
in the network. So none is searched for while it is being searched for, and never are more searches
under way, each within the one before it, than there are queries.
-/
set_option autoImplicit false
namespace Motif

open Std (ExtTreeMap)

namespace Session
variable {α β : Type}

/-- Evaluates a query, but does `stop` instead of searching for a query that is being searched for, and
when `depth` more searches are under way. What is being searched for is in `chain`. -/
def evaluateOnce (stop : Session (List Tuple)) :
    Nat → List String → String → Backend → Binding → Session (List Tuple)
  | _, _, name, .rete, b => do liftPlan ((← get).maintained name b)
  | 0, _, _, .localSearch, _ => stop
  | depth + 1, chain, name, .localSearch, b =>
    if name ∈ chain then stop else searchBy (evaluateOnce stop depth (name :: chain)) name b

structure Alike (J : Engine → Prop) (P : α → Prop) (e : Engine) (x y : Session α) : Prop where
  same : x.run.run e = y.run.run e
  leads : x.Leads e (fun a e' => J e' ∧ P a) fun _ e' => J e'

section alike
variable {J : Engine → Prop} {P : α → Prop} {Q : β → Prop} {e : Engine}

theorem Alike.bind {x y : Session α} {g k : α → Session β} (h : Alike J P e x y)
    (hg : ∀ a e', J e' → P a → Alike J Q e' (g a) (k a)) : Alike J Q e (x >>= g) (y >>= k) where
  same := by
    rw [ExceptT.run_bind, ExceptT.run_bind, StateT.run_bind, StateT.run_bind, ← h.same]
    have answers := fun a => h.leads.of_ok (a := a)
    generalize x.run.run e = ended at answers
    obtain ⟨f | a, e'⟩ := ended
    · rfl
    · obtain ⟨hJ, hP⟩ := answers a rfl
      exact (hg a e' hJ hP).same
  leads := Leads.bind (h.leads.mono (fun a e' ha => (hg a e' ha.1 ha.2).leads) fun _ _ hf => hf)

theorem alike_get {g k : Engine → Session β} (h : Alike J Q e (g e) (k e)) :
    Alike J Q e (get >>= g) (get >>= k) :=
  ⟨h.same, leads_get h.leads⟩

theorem asked_alike {x y : Session α} (h : ∀ e, J e → Alike J P e x y) :
    Search.Alike (fun st : Engine × List Issue => J st.1) (fun _ => True) P (asked x) (asked y) where
  same st hJ := by
    show some ((x.run.run st.1).1, (x.run.run st.1).2, st.2) =
      some ((y.run.run st.1).1, (y.run.run st.1).2, st.2)
    rw [(h st.1 hJ).same]
  stays := by
    rintro ⟨e, issues⟩ answer ⟨e', issues'⟩ hJ hrun
    obtain ⟨-, answers, fails⟩ := (h e hJ).leads.asked hrun
    cases answer with
    | ok a => exact ⟨(answers a rfl).1, fun a' ha => Except.ok.inj ha ▸ (answers a rfl).2, nofun⟩
    | error f => exact ⟨fails f rfl, nofun, fun _ _ => trivial⟩

theorem searched_alike {x y : Search (Engine × List Issue) Failure α}
    (h : Search.Alike (fun st => J st.1) (fun _ => True) P x y) (hJ : J e)
    (report : ∀ e issues, J e → J (e.report issues)) : Alike J P e (searched x) (searched y) where
  same := searched_congr (h.same (e, []) hJ)
  leads := searched_leads
    (fun a e' issues hrun => by
      obtain ⟨hJ', answers, -⟩ := h.stays (e, []) _ _ hJ hrun
      exact ⟨report _ _ hJ', answers a rfl⟩)
    (fun f e' issues hrun => (h.stays (e, []) _ _ hJ hrun).1) hJ

end alike

structure Stocked (c : Catalog) (productions : ExtTreeMap String NodeId) (e : Engine) : Prop where
  catalog : e.catalog = c
  productions : e.productions = productions
  plans : ∀ (r : Reference) (ps : List SearchPlan), e.searchPlans[r]? = some ps →
    ∀ p ∈ ps, c.Serves r.query p

variable {c : Catalog} {productions : ExtTreeMap String NodeId} {e : Engine}

theorem Stocked.report (h : Stocked c productions e) (issues : List Issue) :
    Stocked c productions (e.report issues) := by
  rw [Engine.report]
  split
  · exact ⟨h.catalog, h.productions, h.plans⟩
  · exact h

theorem Stocked.searchPlans (h : Stocked c productions e) (r : Reference) :
    Alike (Stocked c productions) (fun ps => ∀ p ∈ ps, c.Serves r.query p) e
      (Session.searchPlans r) (Session.searchPlans r) where
  same := rfl
  leads := by
    refine leads_searchPlans (fun ps hps => ⟨h, h.plans r ps hps⟩) (fun ps hps => ?_) fun _ _ => h
    have serves : ∀ p ∈ ps, c.Serves r.query p := h.catalog ▸ Catalog.serves_searchPlans hps
    refine ⟨⟨h.catalog, h.productions, fun r' ps' hr => ?_⟩, serves⟩
    obtain ⟨rfl, rfl⟩ | hr := eq_or_of_getElem?_insert hr
    · exact serves
    · exact h.plans r' ps' hr

theorem Stocked.searchBy (h : Stocked c productions e)
    {ask ask' : String → Backend → Binding → Session (List Tuple)} {name : String} (b : Binding)
    (alike : ∀ m ∈ c.callees name, ∀ b e, Stocked c productions e →
      Alike (Stocked c productions) (fun _ => True) e
        (ask m (if productions.contains m then .rete else .localSearch) b)
        (ask' m (if productions.contains m then .rete else .localSearch) b)) :
    Alike (Stocked c productions) (fun _ => True) e (searchBy ask name b) (searchBy ask' name b) := by
  refine (h.searchPlans _).bind fun ps e h serves => ?_
  have searchers : (searcher ask e).Alike (searcher ask' e) (fun st => Stocked c productions st.1)
      (fun _ => True) (fun r => r.query ∈ c.callees name) := by
    refine ⟨rfl, fun r b hr => asked_alike fun e' h' => ?_, fun _ _ _ => Search.Stays.alike ?_⟩
    · rw [h.productions]
      exact alike r.query hr b e' h'
    · rintro st answer st' hJ hrun
      cases hrun
      exact ⟨hJ, fun _ _ => trivial, fun _ _ => trivial⟩
  have found := searched_alike
    (Search.alike_mapM fun p hp => searchers.execute (serves p hp).asks b) h fun _ _ h => h.report _
  refine alike_get (found.bind fun _ _ h _ => ?_)
  exact ⟨rfl, leads_pure ⟨h, trivial⟩⟩

theorem Stocked.lookUp (h : Stocked c productions e) (name : String) (b : Binding) :
    (do liftM (liftPlan ((← get).maintained name b)) : Session (List Tuple)).Leads e
      (fun _ e' => Stocked c productions e' ∧ True) fun _ e' => Stocked c productions e' :=
  leads_get (leads_liftPlan (fun _ _ => ⟨h, trivial⟩) fun _ _ => h)

/-- Nothing that is being searched for is searched for again, where what a query leads to is in the
network or does not lead back to itself. And there are only so many queries. -/
theorem evaluateOnce_alike (stop : Session (List Tuple)) {root : String}
    (unwinds : ∀ n, c.Leads root n →
      c.contains n = true ∧ (productions.contains n = true ∨ c.isRecursive n = false))
    {depth depth' : Nat} (le : depth ≤ depth') {chain : List String} {name : String}
    (nodup : (name :: chain).Nodup) (leads : ∀ n ∈ chain, c.Leads root n ∧ c.Leads n name)
    (hname : c.Leads root name) (enough : c.queries.size ≤ depth + chain.length) (b : Binding)
    (h : Stocked c productions e) : Alike (Stocked c productions) (fun _ => True) e
      (evaluateOnce stop depth chain name .localSearch b) (evaluateWithin depth' name .localSearch b) := by
  induction depth generalizing depth' chain name b e with
  | zero =>
    have registered : name :: chain ⊆ c.names := by
      intro n hn
      rw [Catalog.names, ExtTreeMap.mem_keys, ← ExtTreeMap.contains_iff_mem]
      rcases List.mem_cons.1 hn with rfl | hn
      · exact (unwinds n hname).1
      · exact (unwinds n (leads n hn).1).1
    have bound := (nodup.subperm registered).length_le
    rw [Catalog.names, ExtTreeMap.length_keys, List.length_cons] at bound
    omega
  | succ depth ih =>
    obtain ⟨depth', rfl⟩ : ∃ k, depth' = k + 1 := ⟨depth' - 1, by omega⟩
    rw [evaluateOnce, if_neg (List.nodup_cons.1 nodup).1, evaluateWithin]
    refine h.searchBy b fun m hm b e h => ?_
    split
    · rw [evaluateOnce, evaluateWithin]
      exact ⟨rfl, h.lookUp m b⟩
    · rename_i out
      have reached := hname.tail hm
      have once : m ∉ name :: chain := by
        intro again
        have back : c.Leads m name := by
          rcases List.mem_cons.1 again with rfl | again
          · exact .refl
          · exact (leads m again).2
        have recursive := Catalog.isRecursive_of_leads back hm
        obtain ⟨-, there | not⟩ := unwinds m reached
        · exact out there
        · rw [recursive] at not
          cases not
      refine ih (by omega) (List.nodup_cons.2 ⟨once, nodup⟩) (fun n hn => ?_) reached ?_ b h
      · rcases List.mem_cons.1 hn with rfl | hn
        · exact ⟨hname, .single hm⟩
        · exact ⟨(leads n hn).1, (leads n hn).2.tail hm⟩
      · rw [List.length_cons]
        omega

theorem run_get {g : Engine → Session α} : (get >>= g).run.run e = (g e).run.run e := rfl

theorem run_evaluate {name : String} {backend : Backend} {b : Binding} :
    (evaluate name backend b).run.run e = (evaluateWithin e.searchDepth name backend b).run.run e := by
  rw [evaluate, run_get]

section example_search

def linked : Query where
  name := "linked"
  parameters := [⟨"x", none⟩, ⟨"z", none⟩]
  bodies := [⟨["x", "z"], [.holds (.feature "edge") ["x", "z"]]⟩]
  backend := some .localSearch

def apart : Query where
  name := "apart"
  parameters := [⟨"x", none⟩, ⟨"z", none⟩]
  bodies := [⟨["x", "z"], [.holds (.feature "edge") ["x", "y"], .holds (.feature "edge") ["w", "z"],
    .lacks "linked" ["x", "z"]]⟩]
  backend := some .localSearch

def apartEngine : Engine :=
  (Engine.Call.register apart).after ((Engine.Call.register linked).after
    (Engine.start {} (({} : Model).writeAll
      [.addValue (.int 1) "edge" (.int 2), .addValue (.int 2) "edge" (.int 3)]).1))

theorem reached_apartEngine : apartEngine.Reached Engine.Any :=
  ((Engine.Reached.start {} ((Model.Reached.start {}).writeAll _)).next _ trivial id).next _ trivial id

def apartPrepared : Engine := ((prepare "apart").run.run apartEngine).2

theorem prepared_apart : (prepare "apart").run.run apartEngine = (.ok .localSearch, apartPrepared) :=
  Prod.ext (by decide +kernel) rfl

theorem reached_apartPrepared : apartPrepared.Reached Engine.Any := by
  have ended : (Engine.Call.prepare "apart").perform.run.run apartEngine = (.ok ⟨⟩, apartPrepared) := by
    show ((fun _ => PUnit.unit) <$> prepare "apart").run.run apartEngine = _
    rw [ExceptT.run_map, StateT.run_map, prepared_apart]
    rfl
  have reached := reached_apartEngine.call (.prepare "apart") trivial fun x hx => ?_
  · rwa [Engine.Call.after, ended] at reached
  · rw [Engine.Call.answer, ended] at hx
    cases hx

end example_search

/-- A query that has been prepared to be searched for is never searched for again while it is being
searched for, and neither is any query that the search asks for. Not more searches are under way, each
within the one before it, than queries are registered: whatever else were done then, it comes to the
same. So it is as long as no query is registered or put into the network, whatever the model is. -/
theorem searched_once {e₁ e₂ : Engine} (h : e.Reached Engine.Any) {name : String}
    (prepared : (prepare name).run.run e = (.ok .localSearch, e₁)) (later : e₂.Reached Engine.Any)
    (catalog : e₂.catalog = e₁.catalog) (productions : e₂.productions = e₁.productions)
    (model : Model) (stop : Session (List Tuple)) (b : Binding) :
    (evaluateOnce stop e₂.catalog.queries.size [] name .localSearch b).run.run { e₂ with model } =
      (evaluate name .localSearch b).run.run { e₂ with model } := by
  have led := prepare_declines (h.sound False.elim : e.Sound False [] []) name
  rw [Leads, prepared] at led
  obtain ⟨-, -, unwinds⟩ := led
  have sound : e₂.Sound False [] [] := later.sound False.elim
  have stocked : Stocked e₂.catalog e₂.productions { e₂ with model } :=
    ⟨rfl, rfl, fun r ps hr => (sound.plans r ps hr).2⟩
  have same : Alike (Stocked e₂.catalog e₂.productions) (fun _ => True) { e₂ with model }
      (evaluateOnce stop e₂.catalog.queries.size [] name .localSearch b)
      (evaluateWithin (e₂.catalog.queries.size + 1) name .localSearch b) := by
    refine evaluateOnce_alike stop (fun n hn => ?_) (Nat.le_succ _) (List.nodup_singleton name)
      (fun _ hn => absurd hn List.not_mem_nil) (.refl : e₂.catalog.Leads name name) (Nat.le_add_right _ _) b stocked
    rw [catalog] at hn ⊢
    rw [productions, ← Engine.Houses.inNetwork_iff_contains]
    exact unwinds rfl n hn
  rw [run_evaluate, Engine.searchDepth]
  exact same.same

theorem apart_searched_once :
    (evaluateOnce (throw .disposed) apartPrepared.catalog.queries.size [] "apart" .localSearch
        [some (.int 1), some (.int 3)]).run.run apartPrepared =
      (evaluate "apart" .localSearch [some (.int 1), some (.int 3)]).run.run apartPrepared :=
  searched_once reached_apartEngine prepared_apart reached_apartPrepared rfl rfl apartPrepared.model _ _

-- One search at a time is not enough.
example : ((evaluateOnce (throw .disposed) 1 [] "apart" .localSearch
    [some (.int 1), some (.int 3)]).run.run apartPrepared).1.isOk = false := by
  decide +kernel

end Session
end Motif
