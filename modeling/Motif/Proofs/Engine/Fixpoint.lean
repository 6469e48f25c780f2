import Motif.Proofs.Engine.Answering
import Motif.Proofs.Engine.Updating
import Motif.Proofs.Network.Exact

/-!
Requests to an engine over a positive catalog. Queries are prepared, and in between the model gets
additions. After every request the matches of every query prepared are the least that hold all that
the bodies derive from them and the model as it is then.
-/
set_option autoImplicit false
namespace Motif

open Std (ExtTreeMap)

theorem Network.saturated_empty : ({} : Network).Saturated fun _ => 0 where
  wired := wired_empty
  positive := by
    refine ⟨fun q v h => ?_, fun I l h => ?_⟩
    all_goals cases h
  settled := by
    refine ⟨fun _ => 0, rfl, fun q v h => ?_, fun q v h => ?_, fun q v h => ?_, fun I a h => ?_,
      fun q v h => ?_, fun _ _ q t h => ?_, fun q v h => ?_, fun q v h => ?_,
      fun q v p i c h => ?_, fun q R _ t h => ?_, fun task h => ?_⟩
    all_goals cases h

inductive Request
  | prepare (name : String)
  | update (writes : List Write)

namespace Request

def isAddition : Request → Bool
  | prepare _ => true
  | update writes => writes.all Write.isAddition

def written (m : Model) : Request → Model
  | prepare _ => m
  | update writes => (m.writeAll writes).1.drain.1

end Request

structure Served where
  engine : Engine
  prepared : List (String × Backend) := []

namespace Served

/-- A query for which no plan is found is not prepared. -/
def serve (s : Served) : Request → Served
  | .prepare name =>
    match (Session.prepare name).run.run s.engine with
    | (.ok backend, engine) => ⟨engine, (name, backend) :: s.prepared⟩
    | (.error _, engine) => { s with engine }
  | .update writes => { s with engine := ((Session.update writes).run.run s.engine).2 }

def start (settings : EngineSettings) (c : Catalog) (m : Model) : Served :=
  ⟨{ Engine.start settings m with catalog := c }, []⟩

structure Keeps (c : Catalog) (m : Model) (s : Served) : Prop where
  resting : s.engine.Resting
  catalog : s.engine.catalog = c
  model : s.engine.model = m
  ready : ∀ name backend, (name, backend) ∈ s.prepared → s.engine.Ready name backend

variable {settings : EngineSettings} {c : Catalog} {m : Model} {s : Served}

theorem keeps_start (settings : EngineSettings) (m : Model) (valid : c.Valid)
    (positive : c.Positive) : Keeps c m.drain.1 (start settings c m) where
  resting := by
    have none : ∀ name, ¬(start settings c m).engine.InNetwork name := by
      rintro name ⟨id, hid⟩
      cases (ExtTreeMap.getElem?_empty (a := name)).symm.trans hid
    refine ⟨⟨⟨⟨_, Network.saturated_empty⟩, fun r id h => ?_, fun q id _ h => ?_, fun e id h => ?_⟩,
      fun name h => absurd h (none name), fun name h => absurd h (none name),
      fun name id _ h => absurd ⟨id, h⟩ (none name), fun name id _ h => absurd ⟨id, h⟩ (none name)⟩,
      valid, positive, fun r ps h => ?_, rfl, rfl, rfl⟩
    · cases (ExtTreeMap.getElem?_empty (a := r)).symm.trans h
    · exact absurd ⟨id, h⟩ (none q)
    · cases h
    · cases (ExtTreeMap.getElem?_empty (a := r)).symm.trans h
  catalog := rfl
  model := rfl
  ready _ _ h := by cases h

theorem Keeps.serve (k : Keeps c m s) {r : Request} (hr : r.isAddition = true) :
    Keeps c (r.written m) (s.serve r) := by
  obtain ⟨resting, catalog, model, ready⟩ := k
  cases r with
  | prepare name =>
    have ended := Session.prepare_leads resting name
    rw [Session.Leads] at ended
    simp only [Served.serve, Request.written]
    split at ended
    · rename_i backend e' hrun
      obtain ⟨prepares, new⟩ := ended
      rw [hrun]
      refine ⟨prepares.resting, prepares.beside.catalog.trans catalog,
        prepares.beside.model.trans model, fun n b h => ?_⟩
      rcases List.mem_cons.1 h with h | h
      · cases h
        exact new
      · exact prepares.ready (ready n b h)
    · rename_i f e' hrun
      obtain ⟨prepares, -⟩ := ended
      rw [hrun]
      exact ⟨prepares.resting, prepares.beside.catalog.trans catalog,
        prepares.beside.model.trans model, fun n b h => prepares.ready (ready n b h)⟩
  | update writes =>
    have ended := Session.update_leads resting (List.all_eq_true.1 hr)
    rw [Session.Leads] at ended
    simp only [Served.serve, Request.written]
    split at ended
    · rename_i answers e' hrun
      obtain ⟨u, hm⟩ := ended
      rw [hrun]
      exact ⟨u.resting, u.catalog.trans catalog, model ▸ hm, fun n b h => u.ready (ready n b h)⟩
    · exact ended.elim

theorem Keeps.run (k : Keeps c m s) {rs : List Request} (hrs : ∀ r ∈ rs, r.isAddition = true) :
    Keeps c (rs.foldl Request.written m) (rs.foldl Served.serve s) := by
  induction rs generalizing m s with
  | nil => exact k
  | cons r rest ih =>
    exact ih (k.serve (hrs r List.mem_cons_self)) fun r' h => hrs r' (List.mem_cons_of_mem r h)

theorem reached_written {rs : List Request} (h : m.Reached) :
    (rs.foldl Request.written m).Reached := by
  induction rs generalizing m with
  | nil => exact h
  | cons r rest ih =>
    cases r with
    | prepare _ => exact ih h
    | update writes => exact ih (h.writeAll writes).drain

/-- After any requests that only add, the matches of a query prepared are its component of the least
family that is closed under all bodies over the model as it is then. The memory of a query in the
network holds them, and whatever is asked of it is answered from them. So is a query that is searched
for, if a plan is found for what is bound and holders are of the classes their features declare. -/
theorem prepared_least (settings : EngineSettings) (valid : c.Valid) (positive : c.Positive)
    (reached : m.Reached) {rs : List Request} (adds : ∀ r ∈ rs, r.isAddition = true) {name : String}
    {backend : Backend}
    (prepared : (name, backend) ∈ (rs.foldl serve (start settings c m)).prepared) :
    let e := (rs.foldl serve (start settings c m)).engine
    let model := rs.foldl Request.written m.drain.1
    (backend = .rete → ∃ memory, (e.productions[name]?).bind e.network.productionMemory? = some memory ∧
      ∀ t, t ∈ memory.distinct ↔ t ∈ c.least model.base name) ∧
    ∀ bnd : Binding, backend = .rete ∨ model.Typed → (Session.evaluate name backend bnd).Leads e
      (fun l _ => l.Nodup ∧ ∀ t, t ∈ l ↔ bnd.agrees t = true ∧ t ∈ c.least model.base name)
      (fun _ _ => backend = .localSearch) := by
  intro e model
  obtain ⟨resting, catalog, same, ready⟩ := (keeps_start settings m valid positive).run adds
  obtain ⟨there, checks⟩ := ready name backend prepared
  replace catalog : e.catalog = c := catalog
  replace same : e.model = model := same
  have least : e.catalog.least e.model.base name = c.least model.base name := by rw [catalog, same]
  refine ⟨fun hb => ?_, fun bnd hb => Session.leads_get ?_⟩
  · rw [← least]
    exact resting.exists_memory (there hb)
  cases backend with
  | rete =>
    obtain ⟨l, hl, matched⟩ := resting.maintained (there rfl) bnd
    have answered : (do liftM (liftPlan ((← get).maintained name bnd)) : Session (List Tuple)).Leads e
        (fun l _ => e.Matched name bnd l) (fun _ _ => Backend.rete = .localSearch) := by
      refine Session.leads_get (Session.leads_liftPlan (fun l' hl' => ?_) fun c hc => ?_)
      · cases hl.symm.trans hl'
        exact matched
      · cases hl.symm.trans hc
    rw [← least]
    exact answered
  | localSearch =>
    have typed : e.model.Typed := same ▸ hb.resolve_left nofun
    have reached' : e.model.Reached := same ▸ reached_written reached.drain
    refine (Session.evaluateWithin_leads (resting.vouches reached' typed) e.searchDepth resting.searches
      name .localSearch bnd).mono (fun l e' h => ?_) fun _ _ _ => rfl
    rw [← least]
    exact h.2 checks

section example_requests

def reach : Query where
  name := "reach"
  parameters := [⟨"x", none⟩, ⟨"z", none⟩]
  bodies := [⟨["x", "z"], [.holds (.feature "edge") ["x", "z"]]⟩,
    ⟨["x", "z"], [.find "reach" ["x", "y"], .find "reach" ["y", "z"]]⟩]
  backend := some .rete

def reachability : Catalog := { queries := (∅ : ExtTreeMap String Query).insert "reach" reach }

theorem eq_reach {name : String} {q : Query} (h : reachability.queries[name]? = some q) :
    name = "reach" ∧ q = reach := by
  obtain found | none := eq_or_of_getElem?_insert (m := ∅) h
  · exact found
  · cases ExtTreeMap.getElem?_empty.symm.trans none

theorem valid_reachability : reachability.Valid := by
  intro name q h
  obtain ⟨rfl, rfl⟩ := eq_reach h
  exact ⟨rfl, by decide +kernel⟩

theorem positive_reachability : reachability.Positive := by
  intro name q h
  obtain ⟨-, rfl⟩ := eq_reach h
  decide

def pathRequests : List Request :=
  [.prepare "reach",
    .update [.addValue (.int 1) "edge" (.int 2), .addValue (.int 3) "edge" (.int 4)],
    .update [.addValue (.int 2) "edge" (.int 3)]]

theorem reach_least :
    let e := (pathRequests.foldl serve (start {} reachability {})).engine
    ∃ memory, (e.productions["reach"]?).bind e.network.productionMemory? = some memory ∧
      ∀ t, t ∈ memory.distinct ↔
        t ∈ reachability.least (pathRequests.foldl Request.written ({} : Model).drain.1).base "reach" :=
  (prepared_least {} valid_reachability positive_reachability (.start {})
    (show ∀ r ∈ pathRequests, r.isAddition = true by decide +kernel)
    (show ("reach", Backend.rete) ∈ (pathRequests.foldl serve (start {} reachability {})).prepared by
      decide +kernel)).1 rfl

end example_requests

end Served
end Motif
