import Motif.Proofs.Network.Installation
import Motif.Proofs.Network.Mounted

/-!
Networks that are at rest if they are in order. A network may be built up and updated while some index
of it notifies nodes in the wrong order; what it holds then is not said. Since connections are never
taken back, a network in order has always been in order, and so it has come to rest after every step.
-/
set_option autoImplicit false
namespace Motif
namespace Network
variable {net net' : Network}

/-- The network is at rest, unless it has a loop or an index that notifies nodes in the wrong order. -/
def Rests (net : Network) : Prop := net.Acyclic → net.Untangled → ∃ val, net.AtRest val

theorem AtRest.of_eq {val : NodeId → Multiset Tuple} (h : net.AtRest val) (hb : net'.bare = net.bare)
    (hv : net'.vertices = net.vertices) (ha : net'.arrangements = net.arrangements) :
    net'.AtRest val := by
  have masks : net'.maskOf = net.maskOf := by rw [← maskOf_bare, hb, maskOf_bare]
  have parents : net'.parentOf = net.parentOf := by rw [← parentOf_bare, hb, parentOf_bare]
  have views : net'.viewBy val = net.viewBy val := by
    funext v side
    rw [viewBy, viewBy, parents]
  refine ⟨fun q v h' => ?_, fun q v h' => ?_, fun q v h' => ?_, fun q hq hf => ?_, fun I a h' => ?_⟩
  · rw [masks, views]
    exact h.means q v (hv ▸ h')
  · rw [masks, views]
    exact h.holds q v (hv ▸ h')
  · exact h.width q v (hv ▸ h')
  · exact h.flat q (hv ▸ hq) ((flat_of_bare_eq hb q).1 hf)
  · exact h.index I a (ha ▸ h')

theorem acyclic_of_bare_eq (hb : net'.bare = net.bare) : net'.Acyclic ↔ net.Acyclic := by
  rw [← acyclic_bare, hb, acyclic_bare]

theorem untangled_of_bare_eq (hb : net'.bare = net.bare) : net'.Untangled ↔ net.Untangled := by
  rw [← untangled_bare, hb, untangled_bare]

namespace Rests

theorem of_eq (h : net.Rests) (hb : net'.bare = net.bare) (hv : net'.vertices = net.vertices)
    (ha : net'.arrangements = net.arrangements) : net'.Rests := fun acyclic untangled => by
  obtain ⟨val, rest⟩ := h ((acyclic_of_bare_eq hb).1 acyclic) ((untangled_of_bare_eq hb).1 untangled)
  exact ⟨val, rest.of_eq hb hv ha⟩

theorem clear (net : Network) : net.clear.Rests := fun _ _ => ⟨_, atRest_empty.of_eq rfl rfl rfl⟩

theorem addProduction (h : net.Rests) (w : net.Wired) (query : String) (arity : Nat) :
    (net.addProduction query arity).1.Rests := fun acyclic untangled => by
  have prolongs := (pushed_addProduction query arity : Pushed net _ _).prolongs
  exact (addProduction_grown w (h (prolongs.acyclic acyclic) (prolongs.untangled untangled))
    query arity).1.rest

theorem connect (h : net.Rests) (w : net.Wired) {net₁ : Network} {p m : NodeId} {v : Vertex}
    (hm : net.vertices[m]? = some v) (hprod : v.node.isProduction = true)
    (hp : p < net.vertices.size) (hw : net.widthOf p = net.widthOf m) (x : Hooked net net₁ p m)
    (bare : net'.bare = net₁.bare) (run : net.connect m p = .ok net') : net'.Rests := by
  intro acyclic untangled
  rw [acyclic_of_bare_eq bare] at acyclic
  rw [untangled_of_bare_eq bare] at untangled
  have rest := h (x.prolongs.acyclic acyclic) (x.prolongs.untangled untangled)
  have fed : net₁.Feeds p m := (x.feeds_iff hp).2 (.inr ⟨rfl, rfl⟩)
  have apart : m ≠ p := fun e => acyclic m (.single (e ▸ fed))
  have below : ¬net.Below m p := fun hb => acyclic m ((x.prolongs.below hb).tail fed)
  obtain ⟨net₂, run₂, grown, -⟩ := connect_grown w rest hm hprod hp hw apart below fun net₂ x₂ w₂ => by
    -- There is one way to hook the node up.
    have same : Prolongs net₂ net₁ :=
      ⟨fun q => by rw [x₂.receiversOf hp, x.receiversOf hp],
        fun I => by rw [x₂.listenersOf, x.listenersOf]⟩
    exact flushes w₂.bare ((acyclic_bare net₂).2 (same.acyclic acyclic))
      ((untangled_bare net₂).2 (same.untangled untangled)) m
  cases run.symm.trans run₂
  exact grown.rest

end Rests

variable {s : Schema} {held held' : Relation → Multiset Tuple}

/-- A change that the relation of an input can take is passed on, and the network comes to rest. -/
theorem Regular.update_rests (h : net.Regular) (m : net.Mirrors s held) {c : Change}
    (suits : c.Suits s held) (rests : net.Rests) {p : Network × Bool}
    (run : net.update c.relation c.event = .ok p) : p.1.Rests := by
  obtain ⟨took, -⟩ := (h.update_mirrors m suits).1.of_ok run
  intro acyclic untangled
  rw [acyclic_of_bare_eq took.bare] at acyclic
  rw [untangled_of_bare_eq took.bare] at untangled
  obtain ⟨val, rest⟩ := rests acyclic untangled
  cases hid : net.inputs[c.relation]? with
  | none =>
    rw [update_of_none _ hid] at run
    cases run
    exact ⟨val, rest⟩
  | some id =>
    have width := suits.width.trans (m c.relation id hid).1.widthOf.2.symm
    obtain ⟨net', v, u, memory, -, -, run', done⟩ := rest.update h.wired hid width
      (flushes h.wired.bare ((acyclic_bare net).2 acyclic) ((untangled_bare net).2 untangled) id)
    cases run.symm.trans run'
    cases done with
    | refused issue => exact ⟨val, rest.report issue⟩
    | taken _ _ val' _ _ _ rest' => exact ⟨val', rest'⟩

theorem Regular.updateAll_rests (h : net.Regular) (m : net.Mirrors s held) {cs : List Change}
    (leads : s.Leads held cs held') (rests : net.Rests) (run : net.updateAll cs = .ok net') :
    net'.Rests := by
  induction cs generalizing net held with
  | nil =>
    cases run
    exact rests
  | cons c rest ih =>
    obtain ⟨suits, leads⟩ := leads
    obtain ⟨p, first, run⟩ := bind_ok run
    obtain ⟨took, mirrors⟩ := (h.update_mirrors m suits).1.of_ok first
    exact ih took.regular mirrors leads (h.update_rests m suits rests first) run

end Network

namespace Installed
variable {site : Site} {s s' : Installed}

theorem Mounted.settled (h : s.Mounted site (fun name x => site.catalog.evaluators[name]? = some x)
    fun name op => site.catalog.aggregators[name]? = some op) (rest : ∃ val, s.network.AtRest val) :
    s.Settled site where
  wired := h.regular.wired
  rest := rest
  given r id hid := by
    obtain ⟨node, given⟩ := h.inputs r id hid
    exact ⟨node.widthOf.2, given⟩
  productions := h.productions
  nodes e id he := Network.renders_iff_shows.2 (h.nodes e id he)

theorem Mounted.install_rests (h : s.Mounted site
      (fun name x => site.catalog.evaluators[name]? = some x)
      fun name op => site.catalog.aggregators[name]? = some op)
    (hg : ∀ r, ∀ t ∈ site.graph.tuples r, t.length = r.arity)
    (sets : ∀ r, site.graph.schema.isUnique r = true → (site.graph.tuples r).Nodup)
    {e : Algebra} (he : e.Buildable site) (rests : s.network.Rests) {id : NodeId}
    (run : s.install site e = .ok (s', id)) (grows : Network.Grows s.network s'.network) :
    s'.network.Rests := by
  intro acyclic untangled
  have prolongs := grows.extension.prolongs
  have settled := h.settled (rests (prolongs.acyclic acyclic) (prolongs.untangled untangled))
  obtain ⟨s₂, id₂, run₂, settled₂, -⟩ := (lays_settling hg sets).install settled he
  cases run.symm.trans run₂
  exact settled₂.rest

end Installed
end Motif
