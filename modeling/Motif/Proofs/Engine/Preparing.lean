import Motif.Engine.Evaluation
import Motif.Proofs.Engine.Installing
import Motif.Proofs.Engine.Session

set_option autoImplicit false
namespace Motif

open Reach (Steps)

theorem Catalog.compile_ok {c : Catalog} {names : List String} {bodies : List (String × Compiled)}
    (h : c.compile names = .ok bodies) :
    (∀ name ∈ names, ∃ q, c.queries[name]? = some q ∧
      ∀ b ∈ q.bodies, ∃ r, c.Compiles b r ∧ (name, r) ∈ bodies) ∧
    ∀ p ∈ bodies, p.1 ∈ names ∧ ∃ q, c.queries[p.1]? = some q ∧ ∃ b ∈ q.bodies, c.Compiles b p.2 := by
  obtain ⟨parts, hparts, h⟩ := bind_ok h
  cases h
  obtain ⟨all, only⟩ := exists_of_mapM hparts
  refine ⟨fun name hname => ?_, fun p hp => ?_⟩
  · obtain ⟨part, hpart, e⟩ := all name hname
    obtain ⟨q, hq, e⟩ := bind_ok e
    refine ⟨q, query_ok hq, fun b hb => ?_⟩
    obtain ⟨p, hp, e⟩ := (exists_of_mapM e).1 b hb
    obtain ⟨plan, hplan, e⟩ := bind_ok e
    obtain ⟨r, hr, e⟩ := bind_ok e
    cases e
    exact ⟨r, ⟨plan, hplan, hr⟩, List.mem_flatten.2 ⟨part, hpart, hp⟩⟩
  · obtain ⟨part, hpart, hp⟩ := List.mem_flatten.1 hp
    obtain ⟨name, hname, e⟩ := only part hpart
    obtain ⟨q, hq, e⟩ := bind_ok e
    obtain ⟨b, hb, e⟩ := (exists_of_mapM e).2 p hp
    obtain ⟨plan, hplan, e⟩ := bind_ok e
    obtain ⟨r, hr, e⟩ := bind_ok e
    cases e
    exact ⟨hname, q, query_ok hq, b, hb, plan, hplan, hr⟩

namespace Engine

def Retains (e e' : Engine) : Prop := ∀ name, e.InNetwork name → e'.InNetwork name

namespace Houses
variable {e e' : Engine} {pending : List String} {todo : List (String × Compiled)}

theorem weaken (h : e.Houses [] []) : e.Houses pending todo :=
  ⟨h.sound, h.checked, fun n hn m hm => .inr ((h.calls n hn m hm).resolve_left List.not_mem_nil),
    h.fed, fun n id q hid hq b hb =>
      let ⟨r, hr, hfed⟩ := h.bodies n id q hid hq b hb
      ⟨r, hr, .inr (hfed.resolve_left List.not_mem_nil)⟩⟩

/-- The network may become a saturated one with the same nodes and more in them, when the model has
become the one that it has been given. -/
theorem grown (h : e.Houses pending todo) (hc : e'.catalog = e.catalog)
    (hp : e'.productions = e.productions) (hn : e'.installed.nodes = e.installed.nodes)
    (x : e.network.Extends e'.network) (hs : ∃ out, e'.network.Saturated out)
    (hg : ∀ (r : Relation) (id : NodeId), e'.network.inputs[r]? = some id →
      e'.network.widthOf id = r.arity ∧ ∀ t, t ∈ e'.network.given id ↔ t ∈ e'.model.tuples r) :
    e'.Houses pending todo := by
  have kept : ∀ {expr : Algebra} {p : NodeId}, e.network.Renders e.site expr p →
      e'.network.Renders e'.site expr p := fun hr => hr.keeps x.keeps hc fun q id hq => by
    rwa [show e'.site.productions = _ from hp]
  have inNetwork : ∀ n, e'.InNetwork n ↔ e.InNetwork n := fun n => by rw [InNetwork, hp]; rfl
  constructor
  case sound =>
    refine ⟨hs, fun r id hid => ?_, fun n id q hid hq => ?_, fun a id ha => ?_⟩
    · rw [show e'.site.graph.tuples r = _ from e'.model.tuples_graph r]
      exact hg r id hid
    · rw [show e'.site.productions = _ from hp] at hid
      rw [show e'.site.catalog = _ from hc] at hq
      exact Network.HasNode.exists_keeps (h.sound.productions n id q hid hq) x.keeps
    · rw [hn] at ha
      exact kept (h.sound.nodes a id ha)
  case checked =>
    intro n hn
    rw [hc]
    exact h.checked n ((inNetwork n).1 hn)
  case calls =>
    intro n hn m hm
    rw [hc] at hm
    rw [inNetwork]
    exact h.calls n ((inNetwork n).1 hn) m hm
  case fed =>
    intro n id p hid hpar
    rw [hp] at hid
    rw [hasParent_of_extends x (h.lt_size hid)] at hpar
    obtain ⟨q, hq, b, hb, r, hr, renders⟩ := h.fed n id p hid hpar
    rw [hc]
    exact ⟨q, hq, b, hb, r, hr, kept renders⟩
  case bodies =>
    intro n id q hid hq b hb
    rw [hp] at hid
    rw [hc] at hq ⊢
    obtain ⟨r, hr, hfed⟩ := h.bodies n id q hid hq b hb
    refine ⟨r, hr, hfed.imp_right ?_⟩
    rintro ⟨p, hpar, renders⟩
    exact ⟨p, (hasParent_of_extends x (h.lt_size hid)).2 hpar, kept renders⟩

theorem inNetwork_iff_contains {name : String} :
    e.InNetwork name ↔ e.productions.contains name = true := by
  rw [InNetwork, Std.ExtTreeMap.contains_eq_isSome_getElem?, Option.isSome_iff_exists]

theorem inNetwork_of_reach (h : e.Houses [] []) {a b : String} (ha : e.InNetwork a)
    (hr : Relation.ReflTransGen (Steps e.catalog.callees) a b) : e.InNetwork b := by
  induction hr with
  | refl => exact ha
  | tail _ step ih => exact (h.calls _ ih _ step).resolve_left List.not_mem_nil

end Houses

/-- An engine between two requests: its network has taken in all that was written and stands for the
queries in it. The catalog is valid and positive, plans are those of the catalog, and nobody
listens. -/
structure Resting (e : Engine) : Prop where
  houses : e.Houses [] []
  valid : e.catalog.Valid
  positive : e.catalog.Positive
  plans : ∀ (r : Reference) (ps : List SearchPlan), e.searchPlans[r]? = some ps →
    e.catalog.searchPlans e.model.schema r = .ok ps
  log : e.model.log = []
  subscriptions : e.subscriptions = []
  live : e.disposed = false

structure Ready (e : Engine) (name : String) (backend : Backend) : Prop where
  inNetwork : backend = .rete → e.InNetwork name
  checks : e.catalog.Checks name

structure Prepares (e e' : Engine) : Prop where
  resting : e'.Resting
  beside : Beside e e'
  retains : Retains e e'

variable {e e' e'' : Engine}

theorem Resting.beside (h : e.Resting) (houses : e'.Houses [] []) (b : Beside e e') :
    e'.Resting where
  houses := houses
  valid := b.catalog ▸ h.valid
  positive := b.catalog ▸ h.positive
  plans r ps hp := by
    rw [b.searchPlans] at hp
    rw [b.catalog, b.model]
    exact h.plans r ps hp
  log := b.model ▸ h.log
  subscriptions := b.subscriptions ▸ h.subscriptions
  live := b.disposed ▸ h.live

theorem Prepares.refl (h : e.Resting) : Prepares e e := ⟨h, .refl e, fun _ hn => hn⟩

theorem Prepares.ready (p : Prepares e e') {name : String} {backend : Backend}
    (h : e.Ready name backend) : e'.Ready name backend :=
  ⟨fun hb => p.retains name (h.inNetwork hb), p.beside.catalog ▸ h.checks⟩

theorem Prepares.trans (p : Prepares e e') (p' : Prepares e' e'') : Prepares e e'' :=
  ⟨p'.resting, p.beside.trans p'.beside, fun n hn => p'.retains n (p.retains n hn)⟩

/-- The same vertices and arrangements make the same network, but for what it reports. -/
theorem Resting.same (h : e.Resting) (hn : e'.installed.nodes = e.installed.nodes)
    (hp : e'.productions = e.productions) (b : Beside e e')
    (hb : e'.network.bare = e.network.bare) (hv : e'.network.vertices = e.network.vertices)
    (ha : e'.network.arrangements = e.network.arrangements) : Prepares e e' := by
  obtain ⟨out, hs⟩ := h.houses.sound.saturated
  have inputs : e'.network.inputs = e.network.inputs :=
    (congrArg Network.inputs hb : e'.network.bare.inputs = e.network.bare.inputs)
  have given : e'.network.given = e.network.given := by
    funext q
    rw [Network.given, Network.given, hv]
  refine ⟨h.beside (h.houses.grown b.catalog hp hn (.of_bare_eq hb) ⟨out, hs.of_eq hb hv ha⟩
    fun r id hid => ?_) b, b, fun n hn => by rwa [InNetwork, hp]⟩
  have := h.houses.sound.given_of_eq (.of_bare_eq hb) inputs given r id hid
  rw [show e.site.graph.tuples r = _ from e.model.tuples_graph r] at this
  rwa [b.model]

theorem exists_report (e : Engine) (issues : List Issue) :
    ∃ history, e.report issues = { e with history } := by
  rw [report]
  split
  · exact ⟨_, rfl⟩
  · exact ⟨_, rfl⟩

theorem exists_settleIn (e : Engine) : ∃ history, e.settleIn =
    { e.setNetwork { e.network with events := [], issues := [] } with history } :=
  exists_report _ _

theorem Prepares.settleIn (h : e.Resting) : Prepares e e.settleIn := by
  obtain ⟨history, hs⟩ := exists_settleIn e
  rw [hs]
  exact h.same rfl rfl ⟨rfl, rfl, rfl, rfl, rfl, rfl⟩ rfl rfl rfl

end Engine

namespace Session

open Engine

/-- A component whose callees are in the network goes in as a whole or not at all. -/
theorem install_leads {e : Engine} {component : List String} (h : e.Houses [] [])
    (valid : e.catalog.Valid) (positive : e.catalog.Positive)
    (connected : ∀ a ∈ component, ∀ b, b ∈ component ↔ Components.Connected e.catalog.callees a b)
    (nodup : component.Nodup) (checked : ∀ n ∈ component, e.catalog.checkCalls n = .ok ())
    (calls : ∀ n ∈ component, ∀ m ∈ e.catalog.callees n, m ∈ component ∨ e.InNetwork m) :
    (install component).Leads e
      (fun _ e' => e'.Houses [] [] ∧ Beside e e' ∧ Retains e e' ∧ ∀ n ∈ component, e'.InNetwork n)
      (fun f e' => e' = e ∧ ∃ c, f = .plan c) := by
  refine leads_install (fun rest todo e' => e'.Houses rest todo ∧ Enters e component rest e' ∧
      (∀ n ∈ rest, ∃ q, e.catalog.queries[n]? = some q ∧
        ∀ b ∈ q.bodies, ∃ r, e.catalog.Compiles b r ∧ (n, r) ∈ todo) ∧
      ∀ p ∈ todo, p.1 ∈ component ∧ ∃ q, e.catalog.queries[p.1]? = some q ∧
        ∃ b ∈ q.bodies, e.catalog.Compiles b p.2)
    (fun all => ⟨h, .refl e, fun _ hn => hn, fun n hn =>
      Houses.inNetwork_iff_contains.2 (List.all_eq_true.1 all n hn)⟩)
    (fun c _ => ⟨rfl, c, rfl⟩) (fun bodies hbodies some => ?_) ?_ ?_ ?_
  · have new : ∀ n ∈ component, ¬e.InNetwork n := by
      intro n hn hin
      refine some (List.all_eq_true.2 fun m hm => Houses.inNetwork_iff_contains.1 ?_)
      exact h.inNetwork_of_reach hin ((connected n hn m).1 hm).1
    obtain ⟨compiled, listed⟩ := Catalog.compile_ok hbodies
    exact ⟨h.weaken, .start nodup new, compiled, listed⟩
  · rintro name rest todo e₁ ⟨h₁, enters, waiting, listed⟩
    obtain ⟨hname, fresh⟩ := enters.fresh name List.mem_cons_self
    obtain ⟨q, hq, hcompiled⟩ := waiting name List.mem_cons_self
    have catalog := enters.beside.catalog
    have h₂ := h₁.addProduction (valid name q hq).1 (catalog ▸ hq) fresh
      (by rw [catalog]; exact checked name hname) (enters.called (calls name hname))
      (by rwa [catalog])
    obtain rfl := (valid name q hq).1
    exact ⟨q, by rw [Catalog.query, hq], h₂, enters.addProduction, fun n hn => waiting n (.tail _ hn),
      listed⟩
  · rintro name r rest e₁ ⟨h₁, enters, -, listed⟩
    obtain ⟨hname, q, hq, b, hb, hr⟩ := listed (name, r) List.mem_cons_self
    have catalog := enters.beside.catalog
    obtain ⟨e₂, hadd, h₂, same, beside⟩ := h₁.addBody (catalog ▸ valid) (catalog ▸ positive)
      ((enters.inNetwork name).2 (.inl hname)) (catalog ▸ hq) hb (catalog ▸ hr)
    refine ⟨fun e' he' => ?_, fun f hf => by cases hadd.symm.trans hf⟩
    cases hadd.symm.trans he'
    exact ⟨h₂, enters.addBody beside same, fun _ hn => absurd hn List.not_mem_nil,
      fun p hp => listed p (.tail _ hp)⟩
  · rintro e₁ ⟨h₁, enters, -, -⟩
    exact ⟨h₁, enters.beside, fun n hn => (enters.inNetwork n).2 (.inr hn),
      fun n hn => (enters.inNetwork n).2 (.inl hn)⟩

theorem components_leads {e : Engine} {nodes : List String} {components : List (List String)}
    (h : e.Resting) (hd : Components.Decomposes e.catalog.callees nodes components)
    (closed : ∀ a ∈ nodes, ∀ b ∈ e.catalog.callees a, b ∈ nodes)
    (checked : ∀ n ∈ nodes, e.catalog.checkCalls n = .ok ()) :
    (components.forM install).Leads e
      (fun _ e' => e.Prepares e' ∧ ∀ n ∈ nodes, e'.InNetwork n)
      (fun f e' => e.Prepares e' ∧ ∃ c, f = .plan c) := by
  refine leads_forM (fun rest e₁ => e.Prepares e₁ ∧ ∃ done, components = done ++ rest ∧
      ∀ C ∈ done, ∀ n ∈ C, e₁.InNetwork n)
    ⟨.refl h, [], rfl, by simp⟩ ?_ ?_
  · rintro component rest e₁ ⟨prepares, done, rfl, there⟩
    have mem : component ∈ done ++ component :: rest := by simp
    have within : ∀ n ∈ component, n ∈ nodes := fun n hn => (hd.covers n).1 ⟨component, mem, hn⟩
    obtain ⟨resting, beside, retains⟩ := prepares
    have connected := hd.connected component mem
    rw [← beside.catalog] at connected checked closed hd
    -- What the component calls is in it or in one before it.
    have calls : ∀ n ∈ component, ∀ m ∈ e₁.catalog.callees n, m ∈ component ∨ e₁.InNetwork m := by
      intro n hn m hm
      refine (hd.mem_or_before rfl hn hm (closed n (within n hn) m hm)).imp_right ?_
      rintro ⟨D, hD, hmD⟩
      exact there D hD m hmD
    refine (install_leads resting.houses resting.valid resting.positive connected (hd.nodup mem)
      (fun n hn => checked n (within n hn)) calls).mono ?_ ?_
    · rintro - e₂ ⟨houses, beside₂, retains₂, member⟩
      refine ⟨⟨resting.beside houses beside₂, beside.trans beside₂, fun n hn =>
        retains₂ n (retains n hn)⟩, done ++ [component], by simp, fun C hC n hn => ?_⟩
      rcases List.mem_append.1 hC with hC | hC
      · exact retains₂ n (there C hC n hn)
      · rw [List.mem_singleton.1 hC] at hn
        exact member n hn
    · rintro f e₂ ⟨rfl, c, rfl⟩
      exact ⟨⟨resting, beside, retains⟩, c, rfl⟩
  · rintro e₁ ⟨prepares, done, rfl, there⟩
    refine ⟨prepares, fun n hn => ?_⟩
    obtain ⟨C, hC, hnC⟩ := (hd.covers n).2 hn
    exact there C (by simpa using hC) n hnC

theorem prepareRete_leads {e : Engine} (h : e.Resting) (name : String) :
    (prepareRete name).Leads e (fun _ e' => e.Prepares e' ∧ e'.InNetwork name)
      (fun f e' => e.Prepares e' ∧ ∃ c, f = .plan c) := by
  refine leads_get ?_
  split
  · rename_i there
    exact leads_pure ⟨.refl h, Houses.inNetwork_iff_contains.2 there⟩
  refine Leads.bind (leads_liftPlan (fun components hc => ?_) fun c _ => ⟨.refl h, c, rfl⟩)
  obtain ⟨nodes, decomposes, mem, checked⟩ := Catalog.resolutionOrder_ok hc
  refine Leads.bind ((components_leads h decomposes (fun a ha b hb => ?_) checked).mono ?_
    fun f e' hf => hf)
  · rw [mem] at ha ⊢
    exact ha.tail hb
  · rintro - e₁ ⟨prepares, there⟩
    refine leads_modify ⟨prepares.trans (.settleIn prepares.resting), ?_⟩
    exact (Prepares.settleIn prepares.resting).retains name (there name ((mem name).2 .refl))

theorem prepareSearch_leads {e : Engine} (h : e.Resting) (name : String) :
    (prepareSearch name).Leads e (fun _ e' => e.Prepares e' ∧ e.catalog.Checks name)
      (fun f e' => e.Prepares e' ∧ ∃ c, f = .plan c) := by
  refine leads_get (Leads.bind (leads_liftPlan (fun components hc => ?_)
    fun c _ => ⟨.refl h, c, rfl⟩))
  have checks : e.catalog.Checks name := by
    obtain ⟨nodes, -, mem, checked⟩ := Catalog.resolutionOrder_ok hc
    exact fun n hn => checked n ((mem n).2 hn)
  refine Leads.bind (leads_forIn (fun _ e₁ => e.Prepares e₁) (.refl h)
    (fun callee rest e₁ prepares => ?_) fun e₁ prepares => ?_)
  · refine leads_get (Leads.bind (leads_liftPlan (fun backend _ => ?_)
      fun c _ => ⟨prepares, c, rfl⟩))
    split
    · refine Leads.bind ((prepareRete_leads prepares.resting callee).mono ?_ ?_)
      · rintro - e₂ ⟨prepares₂, -⟩
        exact leads_pure ⟨rfl, prepares.trans prepares₂⟩
      · rintro f e₂ ⟨prepares₂, hf⟩
        exact ⟨prepares.trans prepares₂, hf⟩
    · exact leads_pure ⟨rfl, prepares⟩
  · refine leads_get ?_
    split
    · exact leads_throw ⟨prepares, _, rfl⟩
    · exact leads_pure ⟨prepares, checks⟩

theorem prepare_leads {e : Engine} (h : e.Resting) (name : String) :
    (prepare name).Leads e (fun backend e' => e.Prepares e' ∧ e'.Ready name backend)
      (fun f e' => e.Prepares e' ∧ ∃ c, f = .plan c) := by
  refine Leads.bind ?_
  rw [requireLive]
  refine leads_get ?_
  rw [h.live]
  refine leads_pure (leads_get (Leads.bind (leads_liftPlan (fun backend _ => ?_)
    fun c _ => ⟨.refl h, c, rfl⟩)))
  cases backend with
  | rete =>
    refine Leads.bind ((prepareRete_leads h name).mono ?_ fun f e' hf => hf)
    rintro - e₁ ⟨prepares, there⟩
    exact leads_pure ⟨prepares, fun _ => there, fun n hn =>
      prepares.resting.houses.checked n (prepares.resting.houses.inNetwork_of_reach there hn)⟩
  | localSearch =>
    refine Leads.bind ((prepareSearch_leads h name).mono ?_ fun f e' hf => hf)
    rintro - e₁ ⟨prepares, checks⟩
    exact leads_pure ⟨prepares, nofun, prepares.beside.catalog ▸ checks⟩

end Session
end Motif
