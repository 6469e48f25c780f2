import Motif.Proofs.Engine.Undisturbed

/-!
Engines whose network is at rest. An engine that nothing is written to stays at rest when queries go
into its network, if none leads back to itself: each is built behind nodes that are there, and nothing
reads it before all its bodies feed it. So nothing is on its way while a body is connected, and it does
not matter in which order indexes notify their listeners.
-/
set_option autoImplicit false
namespace Motif

open Std (ExtTreeMap)

def Catalog.Straight (c : Catalog) : Prop := ∀ name, c.isRecursive name = false

namespace Catalog
variable {c : Catalog}

theorem straight_of_names (h : ∀ name ∈ c.names, c.isRecursive name = false) :
    c.Straight := by
  intro name
  refine Bool.eq_false_iff.2 fun recursive => ?_
  obtain ⟨callee, hc, -⟩ := isRecursive_iff_leads.1 recursive
  rw [h name (mem_names_of_callees hc)] at recursive
  cases recursive

theorem Straight.calm (h : c.Straight) : c.Calm := fun name _ _ recursive => by
  rw [h name] at recursive
  cases recursive

theorem Straight.not_leads (h : c.Straight) {name callee : String} (hc : callee ∈ c.callees name) :
    ¬c.Leads callee name := fun leads => by
  have := h name
  rw [isRecursive_iff_leads.2 ⟨callee, hc, leads⟩] at this
  cases this

end Catalog

namespace Engine

structure Still (c : Catalog) (m : Model) (e : Engine) : Prop where
  catalog : e.catalog = c
  model : e.model = m
  rest : ∃ val, e.network.AtRest val

variable {faithful : Prop} {e e' e'' : Engine} {component rest : List String}
  {todo : List (String × Compiled)} {name : String} {r : Compiled} {q : Query}

theorem Sound.settled {pending : List String} (h : e.Sound faithful pending todo) (hf : faithful)
    (rest : ∃ val, e.network.AtRest val) : e.installed.Settled e.site :=
  (h.mounted_of_faithful hf).settled rest

/-- While a component goes into a network at rest: it stays at rest, what is filed reads none of the
component's queries, and nothing else reads them either. -/
structure Seats (e : Engine) (component : List String) (e' : Engine) : Prop where
  settled : e'.installed.Settled e.site
  quiet : ∀ name ∈ component, ∀ id, e'.productions[name]? = some id → e'.network.receiversOf id = []
  others : ∀ name ∉ component, e'.productions[name]? = e.productions[name]?

theorem Seats.start (h : e.Sound True [] []) (rest : ∃ val, e.network.AtRest val)
    (new : ∀ n ∈ component, ¬e.InNetwork n) : Seats e component e where
  settled := h.settled trivial rest
  quiet name hn id hid := absurd ⟨id, hid⟩ (new name hn)
  others _ _ := rfl

theorem Seats.addProduction (h : Seats e component e') (sound : e'.Sound faithful rest todo)
    (hq : q.name ∈ component) :
    Seats e component (e'.addProduction q) := by
  have pushed : Network.Pushed e'.network _ _ := Network.pushed_addProduction q.name q.arity
  obtain ⟨grown, inputs, -⟩ :=
    Network.addProduction_grown h.settled.wired h.settled.rest q.name q.arity
  refine ⟨h.settled.grown grown inputs, fun name hn id hid => ?_, fun name hn => ?_⟩
  · rcases eq_or_of_productions_addProduction hid with ⟨-, rfl⟩ | hid
    · exact Network.receiversOf_eq pushed.fresh
    · exact (grown.others id (sound.lt_size hid) List.not_mem_nil).trans (h.quiet name hn id hid)
  · have other : compare q.name name ≠ .eq := fun same =>
      hn (Std.LawfulEqCmp.eq_of_compare same ▸ hq)
    exact (ExtTreeMap.getElem?_insert.trans (if_neg other)).trans (h.others name hn)

end Engine

namespace Session

open Engine
variable {e e' e'' : Engine} {component : List String} {todo : List (String × Compiled)}
  {name : String} {r : Compiled}

/-- The bodies of a component whose queries do not lead back to themselves call none of them. So they
are built where only queries from before have nodes. -/
theorem Assembles.install_eq (h : Assembles True e component [] ((name, r) :: todo) e')
    (a : Attaches e component) (straight : e.catalog.Straight) (s : Seats e component e') :
    e'.installed.install e'.site r.expr = e'.installed.install e.site r.expr ∧
      r.expr.Buildable e.site := by
  have hname := h.within _ List.mem_cons_self
  obtain ⟨q, hq, b, hb, yields⟩ := h.sound.exists_next ((h.enters.inNetwork name).2 (.inl hname))
  rw [h.enters.beside.catalog] at hq yields
  have before : ∀ n, b.Calls n → n ∉ component ∧ e.InNetwork n := by
    intro n hn
    have called := Catalog.mem_callees.2 ⟨q, hq, b, hb, hn⟩
    have outside : n ∉ component := fun hm =>
      straight.not_leads called ((a.connected n hm name).1 hname).1
    exact ⟨outside, (a.calls name hname n called).resolve_left outside⟩
  have same : ∀ n, b.Calls n → e'.site.productions[n]? = e.site.productions[n]? := fun n hn =>
    s.others n (before n hn).1
  have serves : (b.scope e.catalog).Serves e.site := Body.serves_scope e.site fun n hn => (before n hn).2
  exact ⟨Installed.install_congr h.enters.beside.catalog (congrArg Model.graph h.enters.beside.model)
    yields.wellFormed (fun n _ hn => same n hn.1) fun n _ ⟨⟨k, hk, hn, _⟩, _⟩ => same n ⟨k, hk, hn⟩,
    yields.wellFormed.buildable serves⟩

/-- A body that is built and feeds its query leaves the network at rest, as nothing reads the query. -/
theorem Assembles.seats_addBody (h : Assembles True e component [] ((name, r) :: todo) e')
    (a : Attaches e component) (straight : e.catalog.Straight) (reached : e.model.Reached)
    (new : ∀ n ∈ component, ¬e.InNetwork n) (s : Seats e component e')
    (run : e'.addBody name r = .ok e'') : Seats e component e'' := by
  have hname := h.within _ List.mem_cons_self
  have hin : e'.InNetwork name := (h.enters.inNetwork name).2 (.inl hname)
  obtain ⟨same, buildable⟩ := h.install_eq a straight s
  obtain ⟨s₁, p, hinstall, settled, bypasses, renders⟩ := s.settled.install_model reached buildable
  obtain ⟨hp, hw⟩ := renders.widthOf
  obtain ⟨id, hid⟩ := hin
  -- Neither what is installed nor the connection reads a query of the component.
  have stays : ∀ {net : Network}, Network.Bypasses e.site e'.network net → ∀ n ∈ component, ∀ id,
      e'.productions[n]? = some id → net.receiversOf id = [] := by
    intro net byp n hn i hi
    obtain ⟨q, -, hnode⟩ := h.sound.exists_node hi
    exact (byp.receivers n i q.arity (fun old => new n hn ⟨i, old⟩) hnode).trans (s.quiet n hn i hi)
  obtain ⟨q, hq, hnode⟩ := h.sound.exists_node hid
  obtain ⟨q', hq', arity⟩ := (h.sound.buildable ⟨id, hid⟩).2
  cases hq.symm.trans hq'
  have apart : id ≠ p := by
    rintro rfl
    exact new name hname ⟨id, (Network.renders_iff_shows.1 renders).productions_eq
      (Network.HasNode.exists_keeps hnode bypasses.keeps)⟩
  obtain ⟨net, hconnect, settled', grown⟩ := settled.connect
    (Network.HasNode.exists_keeps hnode bypasses.keeps) hp (hw.trans arity) apart
    (stays bypasses name hname id hid)
  have passed := bypasses.trans (grown.bypasses (List.forall_mem_singleton.2 ⟨_, renders⟩))
  rw [Engine.addBody, same, show e'.installed.install e.site r.expr = _ from hinstall] at run
  simp only [bind, Except.bind, hid, hconnect] at run
  cases run
  exact ⟨settled', stays passed, s.others⟩

/-- A component whose queries do not lead back to themselves goes into a network at rest, and it is at
rest again. -/
theorem admitting_rest {c : Catalog} (straight : c.Straight) (m : Model) :
    Admitting True (Still c m) where
  install {e component} h a hJ := by
    obtain ⟨rfl, rfl, rest⟩ := hJ
    refine leads_install (fun rest todo e' => Assembles True e component rest todo e' ∧
        (∀ n ∈ component, ¬e.InNetwork n) ∧ Seats e component e') (fun _ => ⟨rfl, rfl, rest⟩)
      (fun _ _ => .inr ⟨rfl, rfl, rest⟩) (fun bodies hbodies some => ?_)
      (fun name names todo e₁ ⟨h₁, new, s⟩ => ?_) (fun name r todo e₁ ⟨h₁, new, s⟩ => ?_)
      fun e₁ ⟨h₁, _, s⟩ => ⟨h₁.enters.beside.catalog, h₁.enters.beside.model, s.settled.rest⟩
    · have assembles := Assembles.start h a hbodies some
      have new : ∀ n ∈ component, ¬e.InNetwork n := fun n hn => (assembles.enters.fresh n hn).2
      exact ⟨assembles, new, .start h rest new⟩
    · obtain ⟨q, hq, rfl, h₂⟩ := h₁.addProduction a
      exact ⟨q, hq, h₂, new, s.addProduction h₁.sound (h₁.enters.fresh _ List.mem_cons_self).1⟩
    · obtain ⟨made, failed⟩ := h₁.addBody
      exact ⟨fun e₂ run => ⟨made e₂ run, new, h₁.seats_addBody a straight h.reached new s run⟩,
        fun f hf => .inl ⟨_, (failed f hf).1⟩⟩
  settleIn {e} hJ := by
    obtain ⟨catalog, model, val, rest⟩ := hJ
    obtain ⟨history, settled⟩ := exists_settleIn e
    rw [settled]
    exact ⟨catalog, model, val, rest.of_eq rfl rfl rfl⟩

end Session

namespace Engine

variable {c : Catalog} {m : Model} {e : Engine}

theorem Still.looking (c : Catalog) (m : Model) : Session.Looking (Still c m) where
  plans _ _ _ h := ⟨h.catalog, h.model, h.rest⟩
  report e issues h := by
    obtain ⟨history, same⟩ := exists_report e issues
    rw [same]
    exact ⟨h.catalog, h.model, h.rest⟩

theorem Still.readying (sound : e.Sound True [] []) (straight : c.Straight) (h : Still c m e) :
    Session.Readying e (Still c m) where
  toLooking := Still.looking c m
  start := h
  prepare name := by
    refine (Session.prepare_keeps (Session.admitting_rest straight m) sound h name).mono
      (fun _ _ h' => h'.2.2.1) ?_
    rintro f e' ⟨⟨-, endless⟩ | ⟨unfaulted, -⟩, kept⟩
    · exact absurd (h.catalog ▸ straight.calm) endless
    · exact kept.resolve_left fun ⟨x, hx⟩ => unfaulted x hx
  attended _ _ _ h := ⟨h.catalog, h.model, h.rest⟩

def Call.Registers : Call → Prop
  | register _ | registerEvaluator _ | registerAggregator _ => True
  | _ => False

theorem Call.still_of_registers {r : Call} (hr : r.Registers) (h : Still c m e) :
    ∃ c', Still c' m (r.after e) := by
  have kept : Session.Keeps (fun e => e.model = m ∧ ∃ val, e.network.AtRest val) r.perform := by
    cases r with
    | register q =>
      refine Session.keeps_requireLive.bind fun _ => Session.keeps_get fun e he => ?_
      split
      · exact Session.leads_throw he
      · exact Session.Leads.bind (Session.leads_liftPlan (fun _ _ => Session.leads_set he) fun _ _ => he)
    | registerEvaluator _ | registerAggregator _ => exact Session.keeps_modify fun _ he => he
    | _ => exact hr.elim
  have led := kept e ⟨h.model, h.rest⟩
  obtain ⟨model, rest⟩ : (r.after e).model = m ∧ ∃ val, (r.after e).network.AtRest val := by
    cases hx : r.answer e with
    | ok => exact led.of_ok hx
    | error f => exact led.of_error hx
  exact ⟨(r.after e).catalog, rfl, model, rest⟩

/-- Requests that register what is new or make queries ready, none of which leads back to itself.
Nothing is written to the model. -/
abbrev Afresh (e : Engine) (r : Call) : Prop :=
  r.Faithful e ∧ (r.Registers ∨ r.Readies ∧ e.catalog.Straight)

theorem Reached.still (h : e.Reached Afresh) : Still e.catalog e.model e := by
  induction h with
  | start settings _ => exact ⟨rfl, rfl, _, Network.atRest_empty⟩
  | @call e r reached allowed _ ih =>
    obtain ⟨c', still⟩ : ∃ c', Still c' e.model (r.after e) := by
      obtain registers | ⟨readies, straight⟩ := allowed.2
      · exact Call.still_of_registers registers ih
      · have sound : e.Sound True [] [] := reached.sound fun _ _ _ allowed => allowed.1
        have led := Call.leads_readies (ih.readying sound straight) readies
        refine ⟨e.catalog, ?_⟩
        cases hx : r.answer e with
        | ok => exact led.of_ok hx
        | error f => exact led.of_error hx
    exact ⟨rfl, rfl, still.rest⟩

theorem Reached.still_of_untangled (h : e.Reached Faithfully)
    (straight : ∀ name, e.InNetwork name → e.catalog.isRecursive name = false)
    (untangled : e.network.Untangled) : Still e.catalog e.model e := by
  have sound : e.Sound True [] [] := h.sound fun _ _ _ allowed => allowed
  exact ⟨rfl, rfl, sound.rests trivial
    (sound.composes.acyclic sound.regular fun name id hid => straight name ⟨id, hid⟩) untangled⟩

end Engine
end Motif
