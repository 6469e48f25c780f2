import Motif.Proofs.Engine.Houses

set_option autoImplicit false
namespace Motif

open Std (ExtTreeMap)

namespace Installed
variable {site site' : Site} {s : Installed}

theorem Sound.resite (h : s.Sound site) (hc : site'.catalog = site.catalog)
    (hg : ∀ r, site'.graph.tuples r = site.graph.tuples r)
    (hp : ∀ (q : String) (id : NodeId), site.productions[q]? = some id →
      site'.productions[q]? = some id)
    (hn : ∀ (q : String) (id : NodeId) (query : Query), site'.productions[q]? = some id →
      site.productions[q]? ≠ some id → site'.catalog.queries[q]? = some query →
      ∃ ps, s.network.HasNode id (.production q ∅) ps query.arity) : s.Sound site' where
  saturated := h.saturated
  given r id hid := by
    obtain ⟨hw, hgiven⟩ := h.given r id hid
    exact ⟨hw, fun t => by rw [hg, hgiven]⟩
  productions q id query hid hq := by
    by_cases hold : site.productions[q]? = some id
    · exact h.productions q id query hold (hc ▸ hq)
    · exact hn q id query hid hold hq
  nodes a id ha := (h.nodes a id ha).keeps (.of_bare_eq rfl) hc hp

end Installed

namespace Engine

structure Beside (e e' : Engine) : Prop where
  settings : e'.settings = e.settings
  model : e'.model = e.model
  catalog : e'.catalog = e.catalog
  searchPlans : e'.searchPlans = e.searchPlans
  subscriptions : e'.subscriptions = e.subscriptions
  disposed : e'.disposed = e.disposed

theorem Beside.refl (e : Engine) : Beside e e := ⟨rfl, rfl, rfl, rfl, rfl, rfl⟩

theorem Beside.trans {e e' e'' : Engine} (h : Beside e e') (h' : Beside e' e'') : Beside e e'' :=
  ⟨h'.settings.trans h.settings, h'.model.trans h.model, h'.catalog.trans h.catalog,
    h'.searchPlans.trans h.searchPlans, h'.subscriptions.trans h.subscriptions,
    h'.disposed.trans h.disposed⟩

section addProduction
variable {e : Engine} {q : Query} {n : String} {i : NodeId}

theorem productions_addProduction_self :
    (e.addProduction q).productions[q.name]? = some e.network.vertices.size :=
  ExtTreeMap.getElem?_insert_self

theorem productions_addProduction_of (hnew : ¬e.InNetwork q.name) (hi : e.productions[n]? = some i) :
    (e.addProduction q).productions[n]? = some i := by
  have other : compare q.name n ≠ .eq := fun same =>
    hnew ⟨i, by rw [Std.LawfulEqCmp.eq_of_compare same, hi]⟩
  exact ExtTreeMap.getElem?_insert.trans ((if_neg other).trans hi)

theorem eq_or_of_productions_addProduction (hi : (e.addProduction q).productions[n]? = some i) :
    (n = q.name ∧ i = e.network.vertices.size) ∨ e.productions[n]? = some i :=
  eq_or_of_getElem?_insert hi

theorem inNetwork_addProduction (hnew : ¬e.InNetwork q.name) :
    (e.addProduction q).InNetwork n ↔ n = q.name ∨ e.InNetwork n := by
  constructor
  · rintro ⟨i, hi⟩
    exact (eq_or_of_productions_addProduction hi).imp And.left fun hi => ⟨i, hi⟩
  · rintro (rfl | ⟨i, hi⟩)
    · exact ⟨_, productions_addProduction_self⟩
    · exact ⟨i, productions_addProduction_of hnew hi⟩

theorem forall_inNetwork_addProduction (hnew : ¬e.InNetwork q.name) {P : String → Prop}
    (new : P q.name) (old : ∀ n, e.InNetwork n → P n) :
    ∀ n, (e.addProduction q).InNetwork n → P n := by
  intro n hn
  rcases (inNetwork_addProduction hnew).1 hn with rfl | hn
  · exact new
  · exact old n hn

theorem or_inNetwork_addProduction (hnew : ¬e.InNetwork q.name) {pending : List String}
    (h : n ∈ q.name :: pending ∨ e.InNetwork n) :
    n ∈ pending ∨ (e.addProduction q).InNetwork n := by
  rw [inNetwork_addProduction hnew]
  rw [List.mem_cons] at h
  tauto

end addProduction

structure Enters (e : Engine) (component rest : List String) (e' : Engine) : Prop where
  beside : Beside e e'
  nodup : rest.Nodup
  fresh : ∀ n ∈ rest, n ∈ component ∧ ¬e'.InNetwork n
  there : ∀ n, e'.InNetwork n ∨ n ∈ rest ↔ n ∈ component ∨ e.InNetwork n

namespace Enters
variable {e e' e'' : Engine} {component rest : List String} {name : String} {q : Query}

theorem start (nodup : component.Nodup) (new : ∀ n ∈ component, ¬e.InNetwork n) :
    Enters e component component e :=
  ⟨.refl e, nodup, fun n hn => ⟨hn, new n hn⟩, fun _ => Or.comm⟩

theorem called (h : Enters e component rest e')
    (calls : ∀ m ∈ e.catalog.callees name, m ∈ component ∨ e.InNetwork m) :
    ∀ m ∈ e'.catalog.callees name, m ∈ rest ∨ e'.InNetwork m := fun m hm =>
  ((h.there m).2 (calls m (h.beside.catalog ▸ hm))).symm

theorem addProduction (h : Enters e component (q.name :: rest) e') :
    Enters e component rest (e'.addProduction q) := by
  obtain ⟨hnot, nodup⟩ := List.nodup_cons.1 h.nodup
  have inNetwork := fun n => inNetwork_addProduction (n := n) (h.fresh _ List.mem_cons_self).2
  refine ⟨h.beside.trans ⟨rfl, rfl, rfl, rfl, rfl, rfl⟩, nodup, fun n hn => ?_, fun n => ?_⟩
  · obtain ⟨hc, new⟩ := h.fresh n (.tail _ hn)
    refine ⟨hc, fun hin => ?_⟩
    rcases (inNetwork n).1 hin with rfl | hin
    · exact hnot hn
    · exact new hin
  · rw [← h.there n, inNetwork, List.mem_cons, or_comm (a := n = q.name), or_assoc]

theorem addBody (h : Enters e component [] e') (beside : Beside e' e'')
    (same : e''.productions = e'.productions) : Enters e component [] e'' := by
  refine ⟨h.beside.trans beside, .nil, nofun, fun n => ?_⟩
  rw [← h.there n, InNetwork, InNetwork, same]

theorem inNetwork (h : Enters e component [] e') (n : String) :
    e'.InNetwork n ↔ n ∈ component ∨ e.InNetwork n :=
  (or_iff_left List.not_mem_nil).symm.trans (h.there n)

end Enters

namespace Houses
variable {e : Engine} {pending : List String} {todo : List (String × Compiled)} {name : String}
  {q : Query} {r : Compiled}

theorem hasParent_of_parents {net net' : Network} (k : Network.Keeps net.bare net'.bare)
    (more : NodeId → List NodeId)
    (parents : ∀ (q : NodeId) (u u' : Vertex), net.vertices[q]? = some u →
      net'.vertices[q]? = some u' → u'.parents = u.parents ++ more q)
    {id p : NodeId} (hid : id < net.vertices.size) :
    net'.HasParent id p ↔ net.HasParent id p ∨ p ∈ more id := by
  obtain ⟨v, hv⟩ : ∃ v, net.vertices[id]? = some v := ⟨_, Array.getElem?_eq_getElem hid⟩
  obtain ⟨u, hu, -⟩ := k.vertex id _ (Network.vertex_bare hv)
  obtain ⟨v', hv', -⟩ := Network.vertices_bare_eq_some.1 hu
  simp only [Network.HasParent, hv, hv', Option.some_inj, exists_eq_left', parents id v v' hv hv',
    List.mem_append]

theorem hasParent_of_extends {net net' : Network} (x : Network.Extends net net') {id p : NodeId}
    (hid : id < net.vertices.size) : net'.HasParent id p ↔ net.HasParent id p := by
  rw [hasParent_of_parents x.keeps (fun _ => []) (fun q u u' hu hu' => by
    rw [x.parents q u u' hu hu', List.append_nil]) hid]
  exact or_iff_left List.not_mem_nil

theorem lt_size (h : e.Houses pending todo) {id : NodeId} (hid : e.productions[name]? = some id) :
    id < e.network.vertices.size := by
  obtain ⟨q, -, -, ps, hn⟩ := h.exists_query hid
  exact hn.widthOf.1

/-- A query gets a node, without bodies so far. -/
theorem addProduction (h : e.Houses (name :: pending) todo) (hn : q.name = name)
    (hq : e.catalog.queries[name]? = some q) (hnew : ¬e.InNetwork name)
    (checked : e.catalog.checkCalls name = .ok ())
    (calls : ∀ m ∈ e.catalog.callees name, m ∈ name :: pending ∨ e.InNetwork m)
    (bodies : ∀ b ∈ q.bodies, ∃ r, e.catalog.Compiles b r ∧ (name, r) ∈ todo) :
    (e.addProduction q).Houses pending todo := by
  subst hn
  obtain ⟨out, hs⟩ : ∃ out, e.network.Saturated out := h.sound.saturated
  obtain ⟨enlarged, node⟩ := hs.addProduction q.name q.arity
  obtain ⟨net, hnet⟩ : ∃ net, net = (e.network.addProduction q.name q.arity).1 := ⟨_, rfl⟩
  rw [← hnet] at enlarged node
  obtain ⟨e', he'⟩ : ∃ e', e' = e.addProduction q := ⟨_, rfl⟩
  have installed : e'.installed = { e.installed with network := net } := by rw [he', hnet]; rfl
  have network : e'.network = net := congrArg Installed.network installed
  have grown : ∀ (n : String) (i : NodeId), e.productions[n]? = some i →
      e'.productions[n]? = some i := fun n i => he' ▸ productions_addProduction_of hnew
  have split : ∀ (n : String) (i : NodeId), e'.productions[n]? = some i →
      (n = q.name ∧ i = e.network.vertices.size) ∨ e.productions[n]? = some i := fun n i =>
    he' ▸ eq_or_of_productions_addProduction
  have catalog : e'.catalog = e.catalog := by rw [he']; rfl
  have model : e'.model = e.model := by rw [he']; rfl
  have renders : ∀ {expr : Algebra} {p : NodeId}, e.network.Renders e.site expr p →
      e'.network.Renders e'.site expr p := fun hr =>
    network ▸ hr.keeps enlarged.extension.keeps catalog grown
  rw [← he']
  constructor
  case sound =>
    rw [installed]
    refine (h.sound.keeps enlarged.saturated enlarged.extension.keeps (h.sound.given_of_eq
      enlarged.extension.keeps enlarged.inputs enlarged.given)).resite catalog
      (fun r => by rw [site, site, model]) grown fun n i query hi hne hquery => ?_
    obtain ⟨rfl, rfl⟩ := (split n i hi).resolve_right hne
    rw [show e'.site.catalog.queries = _ from congrArg Catalog.queries catalog, hq] at hquery
    cases hquery
    exact ⟨[], node⟩
  case checked =>
    rw [catalog]
    exact he' ▸ forall_inNetwork_addProduction hnew checked h.checked
  case calls =>
    intro n hn m hm
    rw [catalog] at hm
    have called := forall_inNetwork_addProduction hnew calls h.calls n (he' ▸ hn) m hm
    exact he' ▸ or_inNetwork_addProduction hnew called
  case fed =>
    intro n i p hi hp
    rcases split n i hi with ⟨rfl, rfl⟩ | hi
    · obtain ⟨v, hv, -, hpar, -⟩ := node
      obtain ⟨w, hw, hp⟩ := hp
      rw [network] at hw
      cases hv.symm.trans hw
      rw [hpar] at hp
      cases hp
    · rw [network, hasParent_of_extends enlarged.extension (h.lt_size hi)] at hp
      obtain ⟨q', hq', b, hb, r, hr, hrenders⟩ := h.fed n i p hi hp
      rw [catalog]
      exact ⟨q', hq', b, hb, r, hr, renders hrenders⟩
  case bodies =>
    intro n i q' hi hq' b hb
    rw [catalog] at hq' ⊢
    rcases split n i hi with ⟨rfl, rfl⟩ | hi
    · cases hq.symm.trans hq'
      obtain ⟨r, hr, hm⟩ := bodies b hb
      exact ⟨r, hr, .inl hm⟩
    · obtain ⟨r, hr, hm⟩ := h.bodies n i q' hi hq' b hb
      refine ⟨r, hr, hm.imp_right ?_⟩
      rintro ⟨p, hp, hrenders⟩
      refine ⟨p, ?_, renders hrenders⟩
      rwa [network, hasParent_of_extends enlarged.extension (h.lt_size hi)]

theorem eq_of_node (h : e.Houses pending todo) {n : String} {id : NodeId}
    (hid : e.productions[name]? = some id) (hn : e.productions[n]? = some id) : n = name := by
  obtain ⟨q, -, -, ps, v, hv, hbare, -⟩ := h.exists_query hid
  obtain ⟨q', -, -, ps', v', hv', hbare', -⟩ := h.exists_query hn
  cases hv.symm.trans hv'
  cases hbare.symm.trans hbare'
  rfl

/-- A compiled body of a query in the network is built and connected. -/
theorem addBody (h : e.Houses [] ((name, r) :: todo)) (valid : e.catalog.Valid)
    (positive : e.catalog.Positive) (hin : e.InNetwork name) (hq : e.catalog.queries[name]? = some q)
    {b : Body} (hb : b ∈ q.bodies) (hr : e.catalog.Compiles b r) :
    ∃ e', e.addBody name r = .ok e' ∧ e'.Houses [] todo ∧ e'.productions = e.productions ∧
      Beside e e' := by
  obtain ⟨id, hid⟩ := hin
  obtain ⟨q', hq', calls, -⟩ := h.exists_query hid
  cases hq.symm.trans hq'
  have width := (Query.validateBody_ok (valid.validateBody hq hb)).1
  obtain ⟨pos, arity⟩ := hr.positive e.site.Calls (valid.validateBody hq hb) (calls b hb)
    (positive name q hq b hb) fun n callee hn hc =>
      ⟨(h.calls name ⟨id, hid⟩ n (Catalog.mem_callees.2 ⟨q, hq, b, hb, hn⟩)).resolve_left
        List.not_mem_nil, callee, hc, rfl⟩
  obtain ⟨s, p, hinstall, hs, ext, renders⟩ := h.sound.install (fun r t ht =>
    Model.length_of_mem_tuples (e.model.tuples_graph r ▸ ht)) pos
  obtain ⟨out, sat⟩ := hs.saturated
  obtain ⟨hp, hw⟩ := renders.widthOf
  obtain ⟨ps, node⟩ := hs.productions name id q hid hq
  obtain ⟨hlt, hwidth⟩ := node.widthOf
  obtain ⟨v, hv, hbare, -, -⟩ := node
  obtain ⟨net, hconnect, hsat, keeps, inputs, given, parents⟩ := sat.connect hv
    (by rw [Node.isProduction_of_bare_eq hbare]; rfl) hp (by rw [hw, arity, width, hwidth])
  obtain ⟨e', he'⟩ : ∃ e' : Engine, e' = { e with installed := { s with network := net } } := ⟨_, rfl⟩
  have all := ext.keeps.trans keeps
  have kept : ∀ {expr : Algebra} {p : NodeId}, e.network.Renders e.site expr p →
      net.Renders e.site expr p := fun hr => hr.keeps all rfl fun _ _ hq => hq
  have hasParent : ∀ (i p' : NodeId), i < e.network.vertices.size →
      (net.HasParent i p' ↔ e.network.HasParent i p' ∨ i = id ∧ p' = p) := by
    intro i p' hi
    rw [hasParent_of_parents keeps _ parents (ext.lt_size hi)]
    refine or_congr (hasParent_of_extends ext hi) ?_
    split
    · rename_i hm
      simp [hm]
    · rename_i hm
      simp [hm]
  refine ⟨e', ?_, ?_, he' ▸ rfl, he' ▸ ⟨rfl, rfl, rfl, rfl, rfl, rfl⟩⟩
  · rw [Engine.addBody, hinstall]
    simp only [bind, Except.bind, hid, hconnect, he']
    rfl
  · rw [he']
    refine ⟨hs.keeps hsat keeps (hs.given_of_eq keeps inputs given), h.checked, h.calls,
      fun n i p' hi hp' => ?_, fun n i q' hi hq' b' hb' => ?_⟩
    · rcases (hasParent i p' (h.lt_size hi)).1 hp' with hp' | ⟨rfl, rfl⟩
      · obtain ⟨q', hq', b', hb', r', hr', hrenders⟩ := h.fed n i p' hi hp'
        exact ⟨q', hq', b', hb', r', hr', kept hrenders⟩
      · obtain rfl := h.eq_of_node hid hi
        exact ⟨q, hq, b, hb, r, hr, renders.keeps keeps rfl fun _ _ hq => hq⟩
    · obtain ⟨r', hr', hm⟩ := h.bodies n i q' hi hq' b' hb'
      refine ⟨r', hr', ?_⟩
      rcases hm with hm | ⟨p', hp', hrenders⟩
      · rcases List.mem_cons.1 hm with e | hm
        · cases e
          cases hid.symm.trans hi
          exact .inr ⟨p, (hasParent id p (h.lt_size hid)).2 (.inr ⟨rfl, rfl⟩),
            renders.keeps keeps rfl fun _ _ hq => hq⟩
        · exact .inl hm
      · exact .inr ⟨p', (hasParent i p' (h.lt_size hi)).2 (.inl hp'), kept hrenders⟩

end Houses
end Engine
end Motif
