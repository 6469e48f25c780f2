import Motif.Proofs.Engine.Fixpoint
import Motif.Proofs.Engine.Runs

/-!
Networks between requests. The inputs mirror the model, whatever has been requested, and they have
never refused a change: not of those that fill them when they are new, nor of those that rounds feed
them. What is fed comes to an end if no body of a recursive query computes anything.

What has been compiled is never out of date or half done, as long as no evaluator or operator is
replaced, and none of it asks for a column or slot that is not there. So no request breaks a contract.
-/
set_option autoImplicit false
namespace Motif
namespace Engine
variable {faithful : Prop} {e : Engine} {pending : List String} {todo : List (String × Compiled)}

/-- No change of a base relation is among the problems the network met, or the history tells of. -/
def Unrefused (e : Engine) : Prop :=
  ∀ i, i ∈ e.network.issues ∨ Happening.issue i ∈ e.history → ¬i.IsRelational

theorem Sound.unrefused (h : e.Sound faithful pending todo) : e.Unrefused := fun i hi =>
  hi.elim (h.issues i) (h.history i)

theorem Sound.memory_eq (h : e.Sound faithful pending todo) {id : NodeId} {v : Vertex} {r : Relation}
    {unique : Bool} {memory : Bag Tuple} (hv : e.network.vertices[id]? = some v)
    (hn : v.node = .input r unique memory) : memory.toMultiset = ↑(e.model.tuples r) := by
  have hid := (h.regular.wired.inputs r id).2 ⟨v, unique, memory, hv, hn⟩
  exact (Network.given_of_input hv hn).symm.trans (h.mirrors r id hid).2

theorem Call.catalog_of_prepare (h : e.Sound faithful [] []) {name : String}
    (answered : ((Call.prepare name).answer e).isOk = true) :
    ((Call.prepare name).after e).catalog = e.catalog := by
  have led : (Call.prepare name).perform.Leads e (fun _ e' => e'.catalog = e.catalog)
      (fun _ _ => True) :=
    ((Session.prepare_declines h name).mono (fun _ _ h' => h'.2.1.catalog) fun _ _ _ => trivial).map
  cases hx : (Call.prepare name).answer e with
  | ok => exact led.of_ok hx
  | error f =>
    rw [hx] at answered
    cases answered

section example_run

open Served

def reachEngine : Engine := (Call.prepare "reach").after ((Call.register reach).after (start {} {}))

def pathEngine : Engine := (Call.update
  [.addValue (.int 1) "edge" (.int 2), .addValue (.int 2) "edge" (.int 3)]).after reachEngine

theorem calm_reachability : reachability.Calm := by
  intro name q hq _
  obtain ⟨-, rfl⟩ := eq_reach hq
  decide

theorem reached_registered {ok : Engine → Call → Prop} (h : ∀ e c, c.Faithful e → ok e c) :
    ((Call.register reach).after (start {} {})).Reached ok :=
  (Reached.start {} (.start {})).next _ (h _ _ trivial) id

theorem reached_reachEngine {ok : Engine → Call → Prop} (h : ∀ e c, c.Faithful e → ok e c) :
    reachEngine.Reached ok :=
  (reached_registered h).next _ (h _ _ trivial) (not_not_intro calm_reachability)

theorem catalog_reachEngine : reachEngine.catalog = reachability :=
  Call.catalog_of_prepare (((reached_registered fun _ _ _ => trivial : Reached Any _).sound
    False.elim : Sound False _ [] [])) (by decide +kernel)

theorem reached_pathEngine {ok : Engine → Call → Prop} (h : ∀ e c, c.Faithful e → ok e c) :
    pathEngine.Reached ok :=
  (reached_reachEngine h).next _ (h _ _ trivial)
    (not_not_intro (catalog_reachEngine ▸ calm_reachability))

end example_run

/-- Whatever has been requested and however it was answered, no change waits in the model and every
input holds what the model holds of its relation. No input has refused a change, and none will: not
when queries go into the network and inputs are filled, nor in any round of a flush, whatever has been
written and whoever listens. -/
theorem inputs_mirror (h : e.Reached Any) :
    e.model.log = [] ∧
    (∀ (id : NodeId) (v : Vertex) (r : Relation) (unique : Bool) (memory : Bag Tuple),
      e.network.vertices[id]? = some v → v.node = .input r unique memory →
      memory.toMultiset = ↑(e.model.tuples r)) ∧
    e.Unrefused ∧
    (∀ (name : String) (components : List (List String)),
      e.catalog.resolutionOrder name = .ok components →
      (components.forM Session.install).Leads e (fun _ e' => e'.Unrefused)
        fun f e' => (∃ x, f = .fault x) ∨ e'.Unrefused) ∧
    ∀ (subscriptions : List Subscription) (nextListener : ListenerId) (history : List Happening)
      (ws : List Write) (e₁ : Engine) (net : Network),
      (∀ i, Happening.issue i ∈ history → ¬i.IsRelational) →
      Rounds { e with model := (e.model.writeAll ws).1, subscriptions, nextListener, history } e₁ →
      e₁.network.updateAll e₁.model.drain.2 = .ok net → ∀ i ∈ net.issues, ¬i.IsRelational := by
  have sound : e.Sound False [] [] := h.sound False.elim
  refine ⟨sound.log, fun id v r unique memory hv hn => sound.memory_eq hv hn, sound.unrefused,
    fun name components hc => ?_,
    fun subscriptions nextListener history ws e₁ net quiet rounds hnet i hi => ?_⟩
  · exact (Session.resolved_sound sound hc).mono (fun _ _ h' => h'.1.unrefused)
      fun _ _ hf => hf.imp_right Sound.unrefused
  · have attended : Sound False { e with subscriptions, nextListener, history } [] [] :=
      sound.attended _ _ quiet
    have written := (attended.written ws).of_rounds rounds
    obtain ⟨m, news, sound₁, -⟩ := id written
    obtain ⟨net', hnet', took, -⟩ | ⟨hf, -⟩ := written.updateAll
    · cases hnet.symm.trans hnet'
      obtain ⟨l, same, taken⟩ := took.issues
      rw [same] at hi
      exact (List.mem_append.1 hi).elim (taken i) (sound₁.issues i)
    · cases hnet.symm.trans hf

theorem path_mirrored : pathEngine.model.log = [] ∧
    ∀ (id : NodeId) (v : Vertex) (unique : Bool) (memory : Bag Tuple),
      pathEngine.network.vertices[id]? = some v → v.node = .input (.feature "edge") unique memory →
      memory.toMultiset = ↑(pathEngine.model.tuples (.feature "edge")) := by
  obtain ⟨log, mirrors, -⟩ := inputs_mirror (reached_pathEngine fun _ _ _ => trivial)
  exact ⟨log, fun id v unique memory => mirrors id v _ unique memory⟩

/-- As long as no body of a recursive query computes anything, all changes come to an end in any network
that a run leads to: those of base relations, one after the other, and those that start where a body
is connected to its query. So no request to prepare a query, to update or to subscribe has no end. -/
theorem cascades_end (h : e.Reached Any) (calm : e.catalog.Calm) :
    (∀ cs : List Change, (∀ c ∈ cs, c.event.tuple.length = c.relation.arity) →
      ∃ net, e.network.updateAll cs = .ok net) ∧
    (∀ (name : String) (x : Fault), ((Session.prepareRete name).run.run e).1 ≠ .error (.fault x)) ∧
    (∀ (name : String) (x : Fault), (Call.prepare name).answer e ≠ .error (.fault x)) ∧
    (∀ (ws : List Write) (x : Fault), (Call.update ws).answer e ≠ .error (.fault x)) ∧
    ∀ (name : String) (fireNow : Bool) (listener : Listener) (x : Fault),
      (Call.subscribe name fireNow listener).answer e ≠ .error (.fault x) := by
  have sound : e.Sound False [] [] := h.sound False.elim
  refine ⟨fun cs hw => ?_, fun name x hx => ?_,
    fun name => Call.ne_fault sound (.prepare name) False.elim (not_not_intro calm),
    fun ws => Call.ne_fault sound (.update ws) False.elim (not_not_intro calm),
    fun name fireNow listener =>
      Call.ne_fault sound (.subscribe name fireNow listener) False.elim (not_not_intro calm)⟩
  · refine sound.regular.exists_updateAll (fun r id hid => ?_) hw
    have width := (sound.mirrors r id hid).1.widthOf
    exact ⟨width.2, sound.ends calm width.1⟩
  · obtain ⟨-, endless⟩ | ⟨hne, -⟩ := (Session.prepareRete_declines sound name).of_error hx
    · exact endless calm
    · exact hne x rfl

theorem reach_settles : ∃ net, reachEngine.network.updateAll
    [⟨.feature "edge", ⟨.insert, [.int 1, .int 2]⟩⟩, ⟨.feature "edge", ⟨.insert, [.int 2, .int 1]⟩⟩,
      ⟨.feature "edge", ⟨.revoke, [.int 1, .int 2]⟩⟩] = .ok net :=
  (cascades_end (reached_reachEngine fun _ _ _ => trivial)
    (catalog_reachEngine ▸ calm_reachability)).1 _ (by decide)

end Engine

/-- What every node has to put out is as wide as the node. Whatever the network is told to pass on, as
long as it has the width of the node that it comes from, so has all that follows, and no step of the
cascade fails. -/
def Network.Sized (net : Network) : Prop :=
  (∀ (q : NodeId) (v : Vertex), net.vertices[q]? = some v →
    ∃ rows, net.pull q = .ok rows ∧ ∀ t ∈ rows, t.length = v.arity) ∧
  ∀ (agenda agenda' : Agenda) (net' : Network),
    (∀ t ∈ agenda, net.Concerns net.widths Set.univ t) → Cascade net agenda net' agenda' →
    ∀ t ∈ agenda', net'.Concerns net'.widths Set.univ t ∧ ∃ r, net'.step t = .ok r

theorem Network.Regular.sized {net : Network} (h : net.Regular) : net.Sized := by
  refine ⟨fun q v hv => ?_, fun agenda agenda' net' ht c => (h.cascade ht c).2⟩
  obtain ⟨rows, hrows, hw⟩ := h.pull (Array.getElem?_eq_some_iff.1 hv).1
  refine ⟨rows, hrows, fun t ht => (hw t ht).trans ?_⟩
  rw [Network.widthOf, hv]
  rfl

namespace Engine
variable {e : Engine}

/-- Every query in the network is the one that the catalog holds, fed once by the node of what each of
its bodies is compiled to, and calls only queries in the network. Every production is that of a query,
and every plan kept would be made again. A query that cannot be prepared fails before anything of its
component is built: where its callees are put in order, or where the component is compiled after those
before it have been installed. -/
theorem compiled_current (h : e.Reached Faithfully) :
    (∀ (name : String) (id : NodeId), e.productions[name]? = some id →
      ∃ (q : Query) (compiled : List Compiled) (v : Vertex), e.catalog.queries[name]? = some q ∧
        e.producers[id]? = some q ∧ e.network.vertices[id]? = some v ∧
        List.Forall₂ e.catalog.Compiles q.bodies compiled ∧
        List.Forall₂ (fun r p => e.installed.Has e.site r.expr p) compiled v.parents ∧
        ∀ p, (e.network.receiversOf p).count (.node id) = v.parents.count p) ∧
    (∀ (id : NodeId) (v : Vertex), e.network.vertices[id]? = some v → v.node.isProduction = true →
      ∃ name : String, e.productions[name]? = some id) ∧
    (∀ name, e.InNetwork name → ∀ m ∈ e.catalog.callees name, e.InNetwork m) ∧
    (∀ (r : Reference) (plans : List SearchPlan), e.searchPlans[r]? = some plans →
      e.catalog.searchPlans e.model.schema r = .ok plans) ∧
    ∀ name : String, (Session.prepareRete name).Leads e (fun _ _ => True) fun f e' =>
      f = .fault .unsettled ∨ ∃ c, f = .plan c ∧
        ((e.catalog.resolutionOrder name = .error c ∧ e' = e) ∨
        ∃ done component rest, e.catalog.resolutionOrder name = .ok (done ++ component :: rest) ∧
          (done.forM Session.install).run.run e = (.ok ⟨⟩, e') ∧
          e.catalog.compile component = .error c) := by
  have sound : e.Sound True [] [] := h.sound fun _ _ _ h => h
  refine ⟨fun name id hid => ?_, sound.owner, fun name hn m hm => ?_, fun r plans hr => ?_,
    fun name => ?_⟩
  · obtain ⟨q, compiled, hq, hproducer, bodies, v, hv, fed⟩ := sound.lodged name id hid
    obtain ⟨-, -, ps, v', hv', hbare, -⟩ := sound.exists_node hid
    cases hv.symm.trans hv'
    refine ⟨q, compiled, v, hq, hproducer, hv, ?_, fed, fun p => ?_⟩
    · have := bodies.imp fun b r yields => yields.compiles trivial
      rwa [show bodiesOf [] name = [] from rfl, List.append_nil] at this
    · exact sound.regular.wired.parents p id v hv ((Node.isFed_of_bare_eq hbare).trans rfl)
  · exact (sound.calls name hn m hm).resolve_left List.not_mem_nil
  · exact (sound.plans r plans hr).1 trivial
  · refine (Session.prepareRete_keeps Session.admitting_true sound trivial name).mono
      (fun _ _ _ => trivial) ?_
    rintro f e' (⟨rfl, -⟩ | ⟨-, -, -, refused⟩)
    · exact .inl rfl
    · exact .inr refused

theorem reach_current : ∃ (id : NodeId) (compiled : List Compiled) (v : Vertex),
    reachEngine.productions["reach"]? = some id ∧ reachEngine.network.vertices[id]? = some v ∧
    List.Forall₂ reachEngine.catalog.Compiles Served.reach.bodies compiled ∧
    List.Forall₂ (fun r p => reachEngine.installed.Has reachEngine.site r.expr p) compiled v.parents := by
  obtain ⟨id, hid⟩ : ∃ id, reachEngine.productions["reach"]? = some id :=
    Option.isSome_iff_exists.1 (by decide +kernel)
  obtain ⟨current, -⟩ := compiled_current (reached_reachEngine fun _ _ h => h)
  obtain ⟨q, compiled, v, hq, -, hv, bodies, fed, -⟩ := current "reach" id hid
  rw [catalog_reachEngine] at hq
  obtain ⟨-, rfl⟩ := Served.eq_reach hq
  exact ⟨id, compiled, v, hid, hv, bodies, fed⟩

/-- No request breaks a contract; one that fails so has no end. For no plan that is kept, or would be
made, is a slot out of range, whatever is asked and answered. What a valid body is compiled to is
well-formed and as wide as its parameters. In the network and in every round of a flush, tuples have
the widths of the nodes that they come from, and no step fails. -/
theorem contracts_kept (h : e.Reached Any) :
    (∀ (c : Call) (x : Fault), c.answer e = .error (.fault x) → x = .unsettled) ∧
    (∀ (r : Reference) (plans : List SearchPlan),
      (e.searchPlans[r]? = some plans ∨ e.catalog.searchPlans e.model.schema r = .ok plans) →
      ∀ p ∈ plans, ∀ (σ : Type) (s : Searcher σ Failure) (b : Binding),
        s.executeChecked p b = s.execute p b) ∧
    (∀ (q : Query) (b : Body) (p : Plan) (r : Compiled), q.validateBody b = .ok () →
      b.constraints.forM e.catalog.checkCall = .ok () → Compiled.ofPlan e.catalog b p = .ok r →
      r.expr.WellFormed (b.scope e.catalog) ∧ r.expr.arity = q.arity) ∧
    e.network.Sized ∧
    ∀ (subscriptions : List Subscription) (nextListener : ListenerId) (history : List Happening)
      (ws : List Write) (e₁ : Engine), (∀ i, Happening.issue i ∈ history → ¬i.IsRelational) →
      Rounds { e with model := (e.model.writeAll ws).1, subscriptions, nextListener, history } e₁ →
      e₁.network.Sized := by
  have sound : e.Sound False [] [] := h.sound False.elim
  refine ⟨fun c x hx => ?_, fun r plans hr p hp σ s b => ?_, fun q b p r valid calls compiled => ?_,
    sound.regular.sized, fun subscriptions nextListener history ws e₁ quiet rounds => ?_⟩
  · obtain ⟨he, -⟩ | ⟨hne, -⟩ := (c.declines sound False.elim).of_error hx
    · exact Failure.fault.inj he
    · exact absurd rfl (hne x)
  · refine s.executeChecked_eq (hr.elim (fun kept => ?_) fun made => ?_) b
    · exact ((sound.plans r plans kept).2 p hp).fits
    · exact (Catalog.serves_searchPlans made p hp).fits
  · obtain ⟨wellFormed, arity⟩ :=
      Compiled.wellFormed_ofPlan (Catalog.admits_scope valid calls) compiled
    exact ⟨wellFormed, arity.trans (Query.validateBody_ok valid).1⟩
  · have attended : Sound False { e with subscriptions, nextListener, history } [] [] :=
      sound.attended _ _ quiet
    obtain ⟨m, news, sound₁, -⟩ := (attended.written ws).of_rounds rounds
    exact sound₁.regular.sized

theorem path_sized : (∀ (c : Call) (x : Fault), c.answer pathEngine = .error (.fault x) → x = .unsettled) ∧
    pathEngine.network.Sized := by
  obtain ⟨answers, -, -, sized, -⟩ := contracts_kept (reached_pathEngine fun _ _ _ => trivial)
  exact ⟨answers, sized⟩

end Engine
end Motif
