import Motif.Proofs.Engine.Sound

set_option autoImplicit false
namespace Motif

open Std (ExtTreeMap)

section bodies
variable {todo todo' : List (String × Compiled)} {name : String} {r : Compiled}

theorem bodiesOf_append :
    bodiesOf (todo ++ todo') name = bodiesOf todo name ++ bodiesOf todo' name := by
  rw [bodiesOf, List.filter_append, List.map_append]
  rfl

theorem bodiesOf_cons_self : bodiesOf ((name, r) :: todo) name = r :: bodiesOf todo name := by
  simp [bodiesOf]

theorem bodiesOf_cons_of_ne {n : String} (h : n ≠ name) :
    bodiesOf ((name, r) :: todo) n = bodiesOf todo n := by
  simp [bodiesOf, Ne.symm h]

theorem bodiesOf_eq_map (h : ∀ p ∈ todo, p.1 = name) : bodiesOf todo name = todo.map Prod.snd := by
  rw [bodiesOf, List.filter_eq_self.2 fun p hp => decide_eq_true (h p hp)]

theorem bodiesOf_eq_nil (h : ∀ p ∈ todo, p.1 ≠ name) : bodiesOf todo name = [] := by
  rw [bodiesOf, List.filter_eq_nil_iff.2 fun p hp => by simpa using h p hp, List.map_nil]

end bodies

namespace Constraint
variable {rep : Variable → Variable} {k : Constraint}

@[simp] theorem isClosedWorld_rename : (k.rename rep).isClosedWorld = k.isClosedWorld := by
  cases k <;> rfl

@[simp] theorem isBinding_rename : (k.rename rep).isBinding = k.isBinding := by
  cases k <;> rfl

end Constraint

theorem Body.serves_scope {b : Body} (site : Site)
    (h : ∀ n, b.Calls n → ∃ id, site.productions[n]? = some id) : (b.scope site.catalog).Serves site where
  calls n _ hn := ⟨h n hn.1, hn.2⟩
  guarded n _ := fun ⟨⟨k, hk, hn, _⟩, registered⟩ => ⟨h n ⟨k, hk, hn⟩, registered⟩
  evaluator _ hn := hn
  operator _ hn := hn

namespace Catalog
variable {c : Catalog} {names : List String} {bodies : List (String × Compiled)} {q : Query}
  {b : Body} {r : Compiled} {faithful : Prop}

theorem compile_bodiesOf (h : c.compile names = .ok bodies) (nodup : names.Nodup) :
    (∀ name ∈ names, ∃ q, c.queries[name]? = some q ∧
      List.Forall₂ c.Compiles q.bodies (bodiesOf bodies name)) ∧
    ∀ name ∉ names, bodiesOf bodies name = [] := by
  obtain ⟨parts, hparts, h⟩ := bind_ok h
  cases h
  clear h
  induction names generalizing parts with
  | nil =>
    cases hparts
    exact ⟨nofun, fun _ _ => rfl⟩
  | cons a rest ih =>
    rw [List.mapM_cons] at hparts
    obtain ⟨part, hpart, hparts⟩ := bind_ok hparts
    obtain ⟨others, hothers, hparts⟩ := bind_ok hparts
    cases hparts
    obtain ⟨ha, nodup⟩ := List.nodup_cons.1 nodup
    obtain ⟨all, only⟩ := ih nodup others hothers
    obtain ⟨q, hq, hpart⟩ := bind_ok hpart
    have made := (forall₂_of_mapM hpart).imp fun b p hp => by
      obtain ⟨plan, hplan, hp⟩ := bind_ok hp
      obtain ⟨r, hr, hp⟩ := bind_ok hp
      exact (⟨congrArg Prod.fst (Except.ok.inj hp).symm, plan, hplan,
        congrArg Prod.snd (Except.ok.inj hp) ▸ hr⟩ : p.1 = a ∧ c.Compiles b p.2)
    have named : ∀ p ∈ part, p.1 = a := by
      intro p hp
      obtain ⟨i, hi, rfl⟩ := List.getElem_of_mem hp
      obtain ⟨len, each⟩ := List.forall₂_iff_get.1 made
      exact (each i (len ▸ hi) hi).1
    rw [List.flatten_cons]
    refine ⟨fun name hname => ?_, fun name hname => ?_⟩
    · rw [bodiesOf_append]
      rcases List.mem_cons.1 hname with rfl | hname
      · rw [bodiesOf_eq_map named, only name ha, List.append_nil]
        exact ⟨q, query_ok hq, List.forall₂_map_right_iff.2 (made.imp fun b p hp => hp.2)⟩
      · rw [bodiesOf_eq_nil fun p hp => by
          rw [named p hp]
          rintro rfl
          exact ha hname, List.nil_append]
        exact all name hname
    · rw [bodiesOf_append, only name fun hn => hname (.tail _ hn), bodiesOf_eq_nil fun p hp => by
        rw [named p hp]
        rintro rfl
        exact hname List.mem_cons_self]
      rfl

theorem admits_scope (valid : q.validateBody b = .ok ())
    (calls : b.constraints.forM c.checkCall = .ok ()) : ∀ k ∈ b.constraints, (b.scope c).Admits c k :=
  fun k hk => {
    valid := (Query.validateBody_ok valid).2 k hk
    checked := forM_ok calls hk
    calls := fun _ q hn hq => ⟨⟨k, hk, hn⟩, q, hq, rfl⟩
    guarded := fun _ q hn hc hq => ⟨⟨k, hk, hn, hc⟩, q, hq, rfl⟩
    evaluator := fun _ x hx => ⟨x, hx⟩
    operator := fun _ op _ hop => ⟨op, hop⟩
    binds := fun hb => ⟨k, hk, hb⟩ }

theorem admits_normalize (valid : q.validateBody b = .ok ())
    (calls : b.constraints.forM c.checkCall = .ok ()) :
    ∀ k ∈ b.normalize.constraints, (b.scope c).Admits c k := by
  intro k hk
  obtain ⟨⟨k', hk', rfl⟩, -⟩ := Body.mem_normalize.1 hk
  exact {
    valid := (Query.validateBody_ok (Query.validateBody_normalize valid)).2 _ hk
    checked := forM_ok (Body.checkCall_normalize calls) hk
    calls := fun name q hn hq => ⟨Body.calls_normalize ⟨_, hk, hn⟩, q, hq, rfl⟩
    guarded := fun name q hn hc hq =>
      ⟨⟨k', hk', by simpa using hn, by simpa using hc⟩, q, hq, rfl⟩
    evaluator := fun name x hx => ⟨x, hx⟩
    operator := fun name op _ hop => ⟨op, hop⟩
    binds := fun hb => ⟨k', hk', by simpa using hb⟩ }

theorem Compiles.yields (h : c.Compiles b r) (valid : q.validateBody b = .ok ())
    (calls : b.constraints.forM c.checkCall = .ok ()) : c.Yields faithful b r := by
  have ⟨p, _, hr⟩ := h
  obtain ⟨wellFormed, arity⟩ := Compiled.wellFormed_ofPlan (admits_normalize valid calls) hr
  exact {
    checked := calls
    wellFormed
    arity := arity.trans Body.length_parameters_normalize
    reads := (Compiled.readsIn_ofPlan hr).mono fun _ => Body.reads_of_normalize
    compiles := fun _ => h }

end Catalog

namespace Engine
namespace Sound
variable {faithful : Prop} {e : Engine} {pending : List String} {todo : List (String × Compiled)}
  {name : String} {q : Query} {r : Compiled} {id : NodeId}

theorem lt_size (h : e.Sound faithful pending todo) (hid : e.productions[name]? = some id) :
    id < e.network.vertices.size := by
  obtain ⟨q, -, ps, hn⟩ := h.exists_node hid
  exact hn.widthOf.1

theorem addProduction (h : e.Sound faithful (name :: pending) todo)
    (hq : e.catalog.queries[name]? = some q) (hnew : ¬e.InNetwork name)
    (bodies : List.Forall₂ (e.catalog.Yields faithful) q.bodies (bodiesOf todo name))
    (calls : ∀ m ∈ e.catalog.callees name, m ∈ name :: pending ∨ e.InNetwork m)
    (stratified : e.catalog.Stratified name) :
    (e.addProduction q).Sound faithful pending todo := by
  obtain rfl := (h.valid name q hq).1
  obtain ⟨regular, pu⟩ := h.regular.addProduction q.name q.arity
  obtain ⟨net, hnet⟩ : ∃ net, net = (e.network.addProduction q.name q.arity).1 := ⟨_, rfl⟩
  obtain ⟨e', he', catalog, model, installed, producers⟩ : ∃ e', e' = e.addProduction q ∧
      e'.catalog = e.catalog ∧ e'.model = e.model ∧
      e'.installed = { e.installed with network := net } ∧
      e'.producers = e.producers.insert e.network.vertices.size q :=
    ⟨_, rfl, rfl, rfl, hnet ▸ rfl, rfl⟩
  rw [← hnet] at regular pu
  have network : e'.network = net := congrArg Installed.network installed
  have grown : ∀ (n : String) (i : NodeId), e.productions[n]? = some i →
      e'.productions[n]? = some i := fun n i => he' ▸ productions_addProduction_of hnew
  have split : ∀ (n : String) (i : NodeId), e'.productions[n]? = some i →
      (n = q.name ∧ i = e.network.vertices.size) ∨ e.productions[n]? = some i := fun n i =>
    he' ▸ eq_or_of_productions_addProduction
  have mirrors : net.Mirrors e.model.schema e.model.held := by
    intro r' i hi
    obtain ⟨hn, given⟩ := h.mirrors r' i (((pu.inputs r' i).1 hi).resolve_right (by simp))
    refine ⟨hn.extends pu.extends, ?_⟩
    rw [pu.given fun _ => Bag.toMultiset_empty, given]
  have rest : e'.searchPlans = e.searchPlans ∧ e'.history = e.history ∧
      e'.network.issues = e.network.issues := he' ▸ ⟨rfl, rfl, rfl⟩
  rw [← he']
  constructor
  case mounted =>
    constructor
    case regular =>
      rw [installed]
      exact regular
    case inputs =>
      rw [installed, site, model]
      exact e.model.held_graph ▸ mirrors
    case productions =>
      intro n i query hi hc
      rw [show e'.site.catalog.queries = _ from congrArg Catalog.queries catalog] at hc
      rw [installed]
      rcases split n i hi with ⟨rfl, rfl⟩ | hi
      · rw [hq] at hc
        cases hc
        exact ⟨[], _, pu.fresh, rfl, rfl, rfl⟩
      · exact Network.HasNode.exists_keeps (h.mounted.productions n i query hi hc) pu.extends.keeps
    case nodes =>
      intro a i ha
      rw [installed] at ha ⊢
      rw [catalog]
      exact (h.mounted.nodes a i ha).keeps pu.extends.keeps (fun _ _ hx => hx) (fun _ _ ho => ho)
        grown
  case owner =>
    intro i v hv hprod
    rw [network] at hv
    obtain ⟨rfl, rfl⟩ | ⟨u, -, hu, hnode, -⟩ := pu.cases hv
    · exact ⟨q.name, he' ▸ productions_addProduction_self⟩
    · obtain ⟨n, hn⟩ := h.owner i u hu (hnode ▸ hprod)
      exact ⟨n, grown n i hn⟩
  case lodged =>
    intro n i hi
    rcases split n i hi with ⟨rfl, rfl⟩ | hi
    · refine ⟨q, [], catalog ▸ hq, ?_, catalog ▸ bodies, _, network ▸ pu.fresh, .nil⟩
      rw [producers, ExtTreeMap.getElem?_insert_self]
    · refine (h.lodged n i hi).transfer
        (fun q' hq' => by rw [catalog]; exact ⟨hq', fun _ _ _ hr => hr⟩) (fun q' hq' => ?_)
        (fun v hv => network ▸ pu.extends.exists_vertex hv)
        (fun key node hk => by rw [installed]; exact hk) grown
      rw [producers, ExtTreeMap.getElem?_insert, if_neg, hq']
      exact fun heq => Nat.ne_of_gt (h.lt_size hi) (Std.LawfulEqCmp.eq_of_compare heq)
  case calls =>
    intro n hn m hm
    rw [catalog] at hm
    have called := forall_inNetwork_addProduction hnew calls h.calls n (he' ▸ hn) m hm
    exact he' ▸ or_inNetwork_addProduction hnew called
  case stratified =>
    rw [catalog]
    exact he' ▸ forall_inNetwork_addProduction hnew stratified h.stratified
  case valid => exact catalog ▸ h.valid
  case plans =>
    rw [rest.1, catalog, model]
    exact h.plans
  case reached => exact model ▸ h.reached
  case log => exact model ▸ h.log
  case issues => exact rest.2.2 ▸ h.issues
  case history => exact rest.2.1 ▸ h.history
  case rests =>
    intro hf
    rw [network, hnet]
    exact (h.rests hf).addProduction h.regular.wired q.name q.arity

/-- A body that has been installed feeds its query, whose node has taken in what it is fed. -/
theorem hooked (h : e.Sound faithful pending ((name, r) :: todo))
    (hid : e.productions[name]? = some id) {p : NodeId} (has : e.installed.Has e.site r.expr p)
    {net₁ net : Network} (x : Network.Hooked e.network net₁ p id)
    (issues : net₁.issues = e.network.issues) (onward : Network.Onward net₁ net)
    (rests : faithful → net.Rests) : (e.setNetwork net).Sound faithful pending todo := by
  obtain ⟨q, -, ps, v, hv, hbare, -⟩ := h.exists_node hid
  have hprod : v.node.isProduction = true := (Node.isProduction_of_bare_eq hbare).trans rfl
  have extends₁ : Network.Extends net₁ net := .of_bare_eq onward.bare
  have keeps : Network.Keeps e.network.bare net.bare := onward.bare ▸ (x.keeps hv hprod).bare
  have parents : ∀ (i : NodeId) (u : Vertex), e.network.vertices[i]? = some u →
      ∃ u' : Vertex, net.vertices[i]? = some u' ∧ u'.parents = u.parents ++ if i = id then [p] else [] := by
    intro i u hu
    obtain ⟨u₁, hu₁, -, hpar, -⟩ := x.vertex_of hu
    obtain ⟨u', hu', same⟩ := extends₁.exists_vertex hu₁
    exact ⟨u', hu', same.trans hpar⟩
  exact {
    mounted := h.mounted.renew onward.regular keeps
      (fun r i hi => by
        obtain ⟨hn, given⟩ := h.mounted.inputs r i (x.inputs ▸ onward.gains.inputs ▸ hi)
        exact ⟨hn.keeps keeps rfl, (onward.given.trans x.given).symm ▸ given⟩)
      rfl rfl (fun _ _ _ _ hq => hq) (fun _ _ hx => hx) fun _ _ ho => ho
    owner := fun i u hu hu' => by
      obtain ⟨u₁, hu₁, same⟩ := Network.exists_vertex_of_bare_eq onward.bare hu
      obtain ⟨w, hw, hnode, -⟩ := x.cases hu₁
      exact h.owner i w hw
        (hnode ▸ (Node.isProduction_of_bare_eq (Vertex.eq_of_bare_eq same).1).symm.trans hu')
    lodged := fun n i hi => by
      obtain ⟨q, done, hq, hproducer, bodies, u, hu, fed⟩ := h.lodged n i hi
      obtain ⟨u', hu', hpar⟩ := parents i u hu
      by_cases hn : n = name
      · subst hn
        cases hid.symm.trans hi
        refine ⟨q, done ++ [r], hq, hproducer, ?_, u', hu', ?_⟩
        · rw [List.append_assoc]
          rwa [bodiesOf_cons_self] at bodies
        · rw [hpar, if_pos rfl]
          exact List.rel_append fed (.cons has .nil)
      · have apart : i ≠ id := by
          rintro rfl
          obtain ⟨q', -, ps', v', hv', hbare', -⟩ := h.exists_node hi
          cases hv.symm.trans hv'
          cases hbare.symm.trans hbare'
          exact hn rfl
        rw [bodiesOf_cons_of_ne hn] at bodies
        rw [if_neg apart, List.append_nil] at hpar
        exact ⟨q, done, hq, hproducer, bodies, u', hu', hpar ▸ fed⟩
    calls := h.calls
    stratified := h.stratified
    valid := h.valid
    plans := h.plans
    reached := h.reached
    log := h.log
    issues := fun i hi => by
      obtain ⟨l, e, hl⟩ := onward.issues
      replace hi : i ∈ net.issues := hi
      rw [e, issues] at hi
      exact (List.mem_append.1 hi).elim (hl i) (h.issues i)
    history := h.history
    rests := rests }

theorem exists_next (h : e.Sound faithful pending ((name, r) :: todo)) (hin : e.InNetwork name) :
    ∃ q, e.catalog.queries[name]? = some q ∧ ∃ b ∈ q.bodies, e.catalog.Yields faithful b r := by
  obtain ⟨id, hid⟩ := hin
  obtain ⟨q, done, hq, -, bodies, -⟩ := h.lodged name id hid
  rw [bodiesOf_cons_self] at bodies
  obtain ⟨len, all⟩ := List.forall₂_iff_get.1 bodies
  have hd : done.length < (done ++ r :: bodiesOf todo name).length := by simp
  have yields := all done.length (len ▸ hd) hd
  rw [List.get_eq_getElem, List.get_eq_getElem, List.getElem_append_right (Nat.le_refl _)] at yields
  simp only [Nat.sub_self, List.getElem_cons_zero] at yields
  exact ⟨q, hq, _, List.getElem_mem _, yields⟩

theorem buildable (h : e.Sound faithful [] ((name, r) :: todo)) (hin : e.InNetwork name) :
    r.expr.Buildable e.site ∧
      ∃ q, e.catalog.queries[name]? = some q ∧ r.expr.arity = q.arity := by
  obtain ⟨q, hq, b, mem, yields⟩ := h.exists_next hin
  have serves : (b.scope e.catalog).Serves e.site := Body.serves_scope e.site fun n hn =>
    (h.calls name hin n (Catalog.mem_callees.2 ⟨q, hq, b, mem, hn⟩)).resolve_left List.not_mem_nil
  exact ⟨yields.wellFormed.buildable serves, q, hq,
    yields.arity.trans (Query.validateBody_ok (h.valid.validateBody hq mem)).1⟩

/-- A compiled body is built and feeds its query. That ends if no body of a recursive query computes
anything. -/
theorem addBody (h : e.Sound faithful [] ((name, r) :: todo)) (hin : e.InNetwork name) :
    (∀ e', e.addBody name r = .ok e' →
      e'.Sound faithful [] todo ∧ e'.productions = e.productions ∧ Beside e e') ∧
    ∀ f, e.addBody name r = .error f → f = .fault .unsettled ∧ ¬e.catalog.Calm := by
  obtain ⟨buildable, q, hq, arity⟩ := h.buildable hin
  obtain ⟨id, hid⟩ := hin
  have lays : (Installed.mounting e.site (e.catalog.HasEvaluator faithful)
      (e.catalog.HasAggregator faithful)).Lays (e.catalog.HasEvaluator faithful)
      (e.catalog.HasAggregator faithful) := Installed.lays_mounting
    (fun r t ht => Model.length_of_mem_tuples (e.model.tuples_graph r ▸ ht))
    (fun r hr => (e.model.tuples_graph r).symm ▸ h.reached.sets.nodup_tuples hr)
    (fun name x hx _ => hx) fun name op hop _ => hop
  obtain ⟨s, p, hinstall, mounted, grows, shows⟩ := lays.install h.mounted buildable
  obtain ⟨files, has⟩ := Installed.files_of_install hinstall
  have rests : faithful → s.network.Rests := fun hf =>
    (h.mounted_of_faithful hf).install_rests
      (fun r t ht => Model.length_of_mem_tuples (e.model.tuples_graph r ▸ ht))
      (fun r hr => (e.model.tuples_graph r).symm ▸ h.reached.sets.nodup_tuples hr) buildable
      (h.rests hf) hinstall grows
  -- The expression has its node; now the node becomes a parent of the query's.
  have h₁ := h.grown mounted grows files rests
  obtain ⟨hp, hw⟩ := shows.widthOf
  obtain ⟨q', hq', ps, node⟩ := h₁.exists_node hid
  cases hq.symm.trans hq'
  have width := node.widthOf.2
  obtain ⟨v, hv, hbare, -⟩ := node
  have hprod : v.node.isProduction = true := (Node.isProduction_of_bare_eq hbare).trans rfl
  obtain ⟨net, x, regular, issues, arrives, ended⟩ := h₁.regular.connect hv hprod hp
    (hw.trans (arity.trans width.symm))
  have connected : e.addBody name r =
      (liftFault (s.network.connect id p) >>= fun network =>
        .ok { e with installed := { s with network } }) := by
    rw [Engine.addBody, hinstall]
    simp only [bind, Except.bind, hid]
    rfl
  rw [connected]
  cases hconnect : s.network.connect id p with
  | ok network =>
    refine ⟨fun e' he' => ?_, fun f hf => by cases hf⟩
    cases he'
    have onward := arrives.of_ok hconnect
    have rests' : faithful → network.Rests := fun hf =>
      (h₁.rests hf).connect h₁.regular.wired hv hprod hp (hw.trans (arity.trans width.symm)) x
        onward.bare hconnect
    exact ⟨h₁.hooked hid has x issues onward rests', rfl, rfl, rfl, rfl, rfl, rfl, rfl⟩
  | error f =>
    refine ⟨fun e' he' => by (cases he'), fun f' hf => ?_⟩
    cases hf
    refine ⟨congrArg _ (arrives.error_eq hconnect), fun calm => ?_⟩
    -- Before the new body is taken in the network need not be at rest.
    have h₂ := h₁.loosen.hooked hid has x issues (.refl regular) False.elim
    obtain ⟨network, hok⟩ := ended (h₂.ends calm (h₂.lt_size hid))
    cases hconnect.symm.trans hok

end Sound
end Engine
end Motif
