import Motif.Proofs.Engine.Serving

set_option autoImplicit false
namespace Motif
namespace Engine

inductive Call : Type 1
  | register (q : Query)
  | registerEvaluator (v : Evaluator)
  | registerAggregator (op : Aggregator)
  | prepare (name : String)
  | allMatches (name : String) (p : PartialMatch)
  | oneMatch (name : String) (p : PartialMatch)
  | hasMatch (name : String) (p : PartialMatch)
  | countMatches (name : String) (p : PartialMatch)
  /-- asks once more for a query that has been prepared -/
  | matchesOf (q : Query) (backend : Backend) (p : PartialMatch)
  | valuesOf (name parameter : String) (p : PartialMatch)
  | converted {α : Type} (name : String) (p : PartialMatch) (convert : Match → Except String α)
  | update (writes : List Write)
  | subscribe (name : String) (fireNow : Bool) (listener : Listener)
  | unsubscribe (id : ListenerId)
  | dispose
  | takeHistory

namespace Call

def perform : Call → Session Unit
  | register q => Session.register q
  | registerEvaluator v => modify (·.registerEvaluator v)
  | registerAggregator op => modify (·.registerAggregator op)
  | prepare name => discard (Session.prepare name)
  | allMatches name p => discard (Session.allMatches name p)
  | oneMatch name p => discard (Session.oneMatch name p)
  | hasMatch name p => discard (Session.hasMatch name p)
  | countMatches name p => discard (Session.countMatches name p)
  | matchesOf q backend p => discard (Session.matchesOf q backend p)
  | valuesOf name parameter p => discard (Session.valuesOf name parameter p)
  | converted name p convert => discard (Session.converted name p convert)
  | update writes => discard (Session.update writes)
  | subscribe name fireNow listener => discard (Session.subscribe name fireNow listener)
  | unsubscribe id => modify fun e => (e.unsubscribe id).1
  | dispose => Session.dispose
  | takeHistory => modify fun e => e.takeHistory.1

def answer (c : Call) (e : Engine) : Except Failure Unit := (c.perform.run.run e).1

def after (c : Call) (e : Engine) : Engine := (c.perform.run.run e).2

/-- The request replaces no evaluator or operator by another one of its name. -/
def Faithful (e : Engine) : Call → Prop
  | registerEvaluator v => ∀ x, e.catalog.evaluators[v.name]? = some x → x = v
  | registerAggregator op => ∀ x, e.catalog.aggregators[op.name]? = some x → x = op
  | _ => True

/-- Whether the request may have no end, as far as is known. Updates have one if no body of a recursive
query computes anything; of searches it is not said. -/
def Endless (e : Engine) : Call → Prop
  | prepare _ | update _ | subscribe .. => ¬e.catalog.Calm
  | allMatches .. | oneMatch .. | hasMatch .. | countMatches .. | matchesOf .. | valuesOf ..
  | converted .. => True
  | _ => False

variable {faithful : Prop} {e : Engine}

/-- No request leaves a sound engine otherwise, unless it has no end. -/
theorem declines (h : e.Sound faithful [] []) (c : Call) (hf : faithful → c.Faithful e) :
    c.perform.Leads e (fun _ e' => e'.Sound faithful [] []) (Declines faithful (c.Endless e)) := by
  cases c with
  | register q => exact Session.register_declines h q
  | registerEvaluator v =>
    exact Session.leads_modify (h.registered h.valid (Catalog.keeps_registerEvaluator hf))
  | registerAggregator op =>
    exact Session.leads_modify (h.registered h.valid (Catalog.keeps_registerAggregator hf))
  | prepare name =>
    exact ((Session.prepare_declines h name).mono (fun _ _ h => h.1) fun _ _ hf => hf).map
  | allMatches name p => exact (Session.allMatches_declines h name p).map
  | oneMatch name p | hasMatch name p | countMatches name p =>
    exact (Session.allMatches_declines h name p).map.map
  | matchesOf q backend p => exact (Session.matchesOf_declines h q backend p).map
  | valuesOf name parameter p => exact (Session.valuesOf_declines h name parameter p).map
  | converted name p convert => exact (Session.converted_declines h name p convert).map
  | update writes => exact (Session.update_declines h writes).map
  | subscribe name fireNow listener =>
    exact (Session.subscribe_declines h name fireNow listener).map
  | unsubscribe id => exact Session.leads_modify (h.attended _ _ h.history)
  | dispose => exact (Session.dispose_declines h).mono (fun _ _ h => h) fun _ _ hf => hf
  | takeHistory => exact Session.leads_modify (h.attended _ _ nofun)

theorem ne_fault (h : e.Sound faithful [] []) (c : Call) (hf : faithful → c.Faithful e)
    (ends : ¬c.Endless e) (x : Fault) : c.answer e ≠ .error (.fault x) := by
  intro hx
  obtain ⟨-, endless⟩ | ⟨hne, -⟩ := (c.declines h hf).of_error hx
  · exact ends endless
  · exact hne x rfl

end Call

/-- Engines that a run leads to whose requests are such as `ok` allows. A request that has no end, or
breaks a contract, ends the run. -/
inductive Reached (ok : Engine → Call → Prop) : Engine → Prop
  | start (settings : EngineSettings) {m : Model} : m.Reached → Reached ok (start settings m)
  | call {e : Engine} (c : Call) : Reached ok e → ok e c → (∀ x, c.answer e ≠ .error (.fault x)) →
      Reached ok (c.after e)

abbrev Any (_ : Engine) (_ : Call) : Prop := True

abbrev Faithfully (e : Engine) (c : Call) : Prop := c.Faithful e

variable {ok : Engine → Call → Prop} {faithful : Prop} {e : Engine}

theorem Reached.sound (h : e.Reached ok) (hf : faithful → ∀ e c, ok e c → c.Faithful e) :
    e.Sound faithful [] [] := by
  induction h with
  | start settings hm => exact sound_start settings hm
  | @call e c _ allowed ends ih =>
    have led := c.declines ih fun f => hf f e c allowed
    cases hx : c.answer e with
    | ok => exact led.of_ok hx
    | error f =>
      obtain ⟨rfl, -⟩ | ⟨-, sound⟩ := led.of_error hx
      · exact absurd hx (ends _)
      · exact sound

theorem Reached.next (h : e.Reached ok) (c : Call) (allowed : ok e c) (ends : ¬c.Endless e) :
    (c.after e).Reached ok :=
  .call c h allowed (c.ne_fault (h.sound False.elim : e.Sound False [] []) False.elim ends)

end Engine
end Motif
