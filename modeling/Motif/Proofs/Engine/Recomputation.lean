import Motif.Proofs.Engine.Still

/-!
Maintained matches are those that a recomputation gives. In a network at rest the matches of a query are
what its bodies stand for over the model and the matches of their callees. Where no query leads back to
itself there is one way for that to be. So an engine that has taken in changes has the matches that a new
engine finds over the model as it is then.
-/
set_option autoImplicit false
namespace Motif

open Std (ExtTreeMap)

namespace Algebra
variable {c : Catalog} {e : Algebra} {s : Scope}

/-- An expression stands for the same where the base relations hold the same and the queries that it
reads have the same matches. -/
theorem WellFormed.value_congr {f f' : Facts c} (h : e.WellFormed s) (holds : f'.holds = f.holds)
    (calls : ∀ name arity, s.calls name arity → f'.found name = f.found name)
    (guarded : ∀ name arity, s.guarded name arity → f'.found name = f.found name) :
    e.value f' = e.value f := by
  induction e generalizing s with
  | constant _ _ => rfl
  | input r => exact congrFun holds r
  | production q arity => rw [value, value, calls q arity h]
  | trim e _ ih | constantFilter e _ _ ih | equalityFilter e _ ih | inequalityFilter e _ _ ih
  | expression e _ _ _ ih | closure e ih => simp only [value, ih h.1 calls guarded]
  | join a _ b _ iha ihb => simp only [value, iha h.1 calls guarded, ihb h.2.1 calls guarded]
  | existence a _ b _ _ iha ihb | outerJoin a _ b _ _ iha ihb =>
    simp only [value, iha h.1 calls guarded, ihb h.2.1 guarded guarded]
  | grouping e _ _ _ ih => simp only [value, ih h.1 guarded guarded]

theorem WellFormed.fits (h : e.WellFormed s)
    (evaluators : ∀ name, s.evaluator name → ∃ x, c.evaluators[name]? = some x)
    (operators : ∀ name, s.operator name → ∃ op, c.aggregators[name]? = some op ∧ op.OrderFree) :
    e.Fits c fun _ _ => True := by
  induction e generalizing s with
  | constant _ _ | input _ => exact h
  | production _ _ => trivial
  | trim e _ ih | constantFilter e _ _ ih | equalityFilter e _ ih | inequalityFilter e _ _ ih
  | closure e ih => exact ⟨ih h.1 evaluators operators, h.2⟩
  | expression e evaluator _ _ ih =>
    obtain ⟨he, hev, hi, -⟩ := h
    exact ⟨ih he evaluators operators, evaluators evaluator hev, hi⟩
  | join a _ b _ iha ihb =>
    obtain ⟨ha, hb, hp, hq, -⟩ := h
    exact ⟨iha ha evaluators operators, ihb hb evaluators operators, hp, hq⟩
  | existence a _ b _ _ iha ihb =>
    obtain ⟨ha, hb, hp, hq, -⟩ := h
    exact ⟨iha ha evaluators operators, ihb hb evaluators operators, hp, hq⟩
  | outerJoin a _ b _ _ iha ihb =>
    obtain ⟨ha, hb, hp, hq, -, hd⟩ := h
    exact ⟨iha ha evaluators operators, ihb hb evaluators operators, hp, hq, hd⟩
  | grouping e _ operator _ ih =>
    obtain ⟨he, hop, hm, hc⟩ := h
    exact ⟨ih he evaluators operators, operators operator hop, hm, fun i hi => hm ▸ hc i hi⟩

end Algebra

@[simp] theorem Constraint.operator?_rename {rep : Variable → Variable} {k : Constraint} :
    (k.rename rep).operator? = k.operator? := by
  cases k <;> rfl

def Body.orderFreeScope (c : Catalog) (b : Body) : Scope where
  calls := (b.scope c).calls
  guarded := (b.scope c).guarded
  evaluator := (b.scope c).evaluator
  operator name := ∃ op, c.aggregators[name]? = some op ∧ op.OrderFree
  binds := (b.scope c).binds

namespace Catalog
variable {c : Catalog} {q : Query} {b : Body} {r r' : Compiled}

def OrderFree (c : Catalog) : Prop :=
  ∀ (name : String) (q : Query), c.queries[name]? = some q → ∀ b ∈ q.bodies, ∀ k ∈ b.constraints,
    ∀ operator, k.operator? = some operator → ∀ op, c.aggregators[operator]? = some op → op.OrderFree

theorem Compiles.eq (h : c.Compiles b r) (h' : c.Compiles b r') : r' = r := by
  obtain ⟨p, hp, hr⟩ := h
  obtain ⟨p', hp', hr'⟩ := h'
  cases hp.symm.trans hp'
  cases hr.symm.trans hr'
  rfl

theorem Compiles.fits (h : c.Compiles b r) (valid : q.validateBody b = .ok ())
    (calls : b.constraints.forM c.checkCall = .ok ())
    (free : ∀ k ∈ b.constraints, ∀ operator, k.operator? = some operator →
      ∀ op, c.aggregators[operator]? = some op → op.OrderFree) : r.expr.Fits c fun _ _ => True := by
  obtain ⟨p, -, hr⟩ := h
  have admits : ∀ k ∈ b.normalize.constraints, (b.orderFreeScope c).Admits c k := by
    intro k hk
    have ⟨⟨k', hk', same⟩, _⟩ := Body.mem_normalize.1 hk
    exact { admits_normalize valid calls k hk with
      operator := fun name op hn hop =>
        ⟨op, hop, free k' hk' name (by rwa [← same, Constraint.operator?_rename] at hn) op hop⟩ }
  exact (Compiled.wellFormed_ofPlan admits hr).1.fits (fun _ hx => hx) fun _ hop => hop

theorem Straight.wellFounded (h : c.Straight) : WellFounded fun m n => m ∈ c.callees n := by
  classical
  refine Subrelation.wf (r := InvImage (· < ·) fun n => (c.names.toFinset.filter (c.Leads n)).card)
    (fun {m n} hm => Finset.card_lt_card ⟨fun x hx => ?_, fun all => ?_⟩) (InvImage.wf _ Nat.lt_wfRel.wf)
  · rw [Finset.mem_filter] at hx ⊢
    exact ⟨hx.1, .head hm hx.2⟩
  · have self : n ∈ c.names.toFinset.filter (c.Leads n) :=
      Finset.mem_filter.2 ⟨List.mem_toFinset.2 (mem_names_of_callees hm), .refl⟩
    exact h.not_leads hm (Finset.mem_filter.1 (all self)).2

end Catalog

def Binding.Lists (bnd : Binding) (l : List Tuple) (S : Set Tuple) : Prop :=
  l.Nodup ∧ ∀ t, t ∈ l ↔ t ∈ S ∧ bnd.agrees t = true

theorem Binding.Lists.perm {bnd : Binding} {l l' : List Tuple} {S : Set Tuple} (h : bnd.Lists l S)
    (h' : bnd.Lists l' S) : l.Nodup ∧ l'.Perm l :=
  ⟨h.1, (List.perm_ext_iff_of_nodup h'.1 h.1).2 fun t => (h'.2 t).trans (h.2 t).symm⟩

namespace Engine
variable {c : Catalog} {e e' : Engine} {f f' : Facts c} {name : String}

/-- What the model holds, beside the matches of the queries in the network. These are what the bodies of
the queries stand for, and what is maintained of them. -/
structure Depicts (e : Engine) (f : Facts c) : Prop where
  holds : f.holds = e.model.held
  solves : ∀ name q, e.InNetwork name → c.queries[name]? = some q → ∀ t,
    t ∈ f.found name ↔ ∃ b ∈ q.bodies, ∃ r, c.Yields True b r ∧ t ∈ r.expr.value f
  maintained : ∀ name, e.InNetwork name → ∀ bnd : Binding, ∃ l, e.maintained name bnd = .ok l ∧
    bnd.Lists l (f.found name)

theorem Sound.exists_depicts (h : e.Sound True [] []) (catalog : e.catalog = c) (free : c.OrderFree)
    (rest : ∃ val, e.network.AtRest val) : ∃ f : Facts c, e.Depicts f := by
  subst catalog
  have settled := h.settled trivial rest
  obtain ⟨val, rest⟩ := rest
  obtain ⟨f, holds, found⟩ := settled.exists_facts (fun q id hid => h.exists_query ⟨id, hid⟩) rest
  refine ⟨f, funext holds, fun name q ⟨id, hid⟩ hq t => ?_, fun name ⟨id, hid⟩ bnd => ?_⟩
  · obtain ⟨q', done, hq', -, bodies, v, hv, fed⟩ := h.lodged name id hid
    cases hq.symm.trans hq'
    obtain ⟨_, -, ps, u, hu, hbare, -⟩ := h.exists_node hid
    cases hv.symm.trans hu
    -- A query puts out what any of its bodies does.
    have parents : t ∈ f.found name ↔ ∃ p ∈ v.parents, t ∈ val p := by
      rw [← Finset.mem_val, ← (found name id hid).2, rest.means id v hv, Node.output_of_bare_eq hbare,
        Network.fedBy_of_isFed ((Node.isFed_of_bare_eq hbare).trans rfl)]
      exact Multiset.mem_dedup.trans Network.mem_sum_map
    have value : ∀ b ∈ q.bodies, ∀ r p, e.catalog.Yields True b r → e.installed.Has e.site r.expr p →
        val p = r.expr.value f := by
      intro b hb r p yields has
      have renders : e.network.Renders e.site r.expr p := Network.renders_iff_shows.2
        ((h.mounted_of_faithful trivial).shows has yields.wellFormed fun _ _ hc => hc.2)
      refine rest.val_eq_value settled.wired renders
        ((yields.compiles trivial).fits (h.valid.validateBody hq hb) yields.checked (free name q hq b hb))
        (fun r id hid => ?_) fun q id hid => (found q id hid).2
      refine (settled.given r id hid).2.trans (Eq.trans ?_ (holds r).symm)
      exact congrArg _ (e.model.tuples_graph r)
    rw [show bodiesOf [] name = [] from rfl, List.append_nil] at bodies
    rw [parents]
    constructor
    · rintro ⟨p, hp, ht⟩
      obtain ⟨r, hr, has⟩ := (exists_of_forall₂ fed).2 p hp
      obtain ⟨b, hb, yields⟩ := (exists_of_forall₂ bodies).2 r hr
      exact ⟨b, hb, r, yields, value b hb r p yields has ▸ ht⟩
    · rintro ⟨b, hb, r, yields, ht⟩
      obtain ⟨r', hr', yields'⟩ := (exists_of_forall₂ bodies).1 b hb
      obtain ⟨p, hp, has⟩ := (exists_of_forall₂ fed).1 r' hr'
      obtain rfl := (yields.compiles trivial).eq (yields'.compiles trivial)
      exact ⟨p, hp, (value b hb r' p yields has).symm ▸ ht⟩
  · obtain ⟨_, -, ps, ⟨node, parents, receivers, arity⟩, hv, hbare, -⟩ := h.exists_node hid
    cases node with
    | production query memory =>
      have held : memory.toMultiset = _ := rest.holds id _ hv
      refine ⟨memory.distinct.filter bnd.agrees, ?_, memory.nodup_distinct.filter _, fun t => ?_⟩
      · rw [Engine.maintained, hid, Option.bind_some, Network.productionMemory?, hv]
      · rw [List.mem_filter, Bag.mem_distinct, held, Finset.mem_coe, ← Finset.mem_val,
          ← (found name id hid).2, rest.means id _ hv]
        exact and_congr_left fun _ => Multiset.mem_dedup.symm
    | _ => cases hbare

theorem Depicts.found_eq (h : e.Depicts f) (h' : e'.Depicts f') (sound : e.Sound True [] [])
    (sound' : e'.Sound True [] []) (catalog : e.catalog = c) (catalog' : e'.catalog = c)
    (straight : c.Straight) (content : e'.model.held = e.model.held) (hn : e.InNetwork name)
    (hn' : e'.InNetwork name) : f'.found name = f.found name := by
  induction name using straight.wellFounded.induction with
  | _ name ih =>
    obtain ⟨q, hq⟩ := sound.exists_query hn
    rw [catalog] at hq
    have called : ∀ b ∈ q.bodies, ∀ n, b.Calls n → f'.found n = f.found n := by
      intro b hb n hcalls
      have callee : n ∈ c.callees name := Catalog.mem_callees.2 ⟨q, hq, b, hb, hcalls⟩
      exact ih n callee ((sound.calls name hn n (catalog ▸ callee)).resolve_left List.not_mem_nil)
        ((sound'.calls name hn' n (catalog' ▸ callee)).resolve_left List.not_mem_nil)
    ext t
    rw [h.solves name q hn hq, h'.solves name q hn' hq]
    refine exists_congr fun b => and_congr_right fun hb => exists_congr fun r =>
      and_congr_right fun yields => ?_
    rw [yields.wellFormed.value_congr (h'.holds.trans (content.trans h.holds.symm))
      (fun n _ hc => called b hb n hc.1) fun n _ ⟨⟨k, hk, hc, _⟩, _⟩ => called b hb n ⟨k, hk, hc⟩]

/-- Of a query that is in the networks of two engines at rest the same is maintained, if their catalogs
and what their models hold are the same. -/
theorem maintained_perm (sound : e.Sound True [] []) (sound' : e'.Sound True [] [])
    (rest : ∃ val, e.network.AtRest val) (rest' : ∃ val, e'.network.AtRest val)
    (catalog : e'.catalog = e.catalog) (content : e'.model.held = e.model.held)
    (straight : e.catalog.Straight) (free : e.catalog.OrderFree) (hn : e.InNetwork name)
    (hn' : e'.InNetwork name) (bnd : Binding) :
    ∃ l l', e.maintained name bnd = .ok l ∧ e'.maintained name bnd = .ok l' ∧ l.Nodup ∧ l'.Perm l := by
  obtain ⟨f, depicts⟩ := sound.exists_depicts rfl free rest
  obtain ⟨f', depicts'⟩ := sound'.exists_depicts catalog (catalog ▸ free) rest'
  obtain ⟨l, hl, lists⟩ := depicts.maintained name hn bnd
  obtain ⟨l', hl', lists'⟩ := depicts'.maintained name hn' bnd
  rw [depicts.found_eq depicts' sound sound' rfl catalog straight content hn hn'] at lists'
  exact ⟨l, l', hl, hl', lists.perm lists'⟩

theorem maintained_recomputed (h : e.Reached Faithfully) (untangled : e.network.Untangled)
    (h' : e'.Reached Afresh) (catalog : e'.catalog = e.catalog)
    (content : e'.model.held = e.model.held) (straight : e.catalog.Straight)
    (free : e.catalog.OrderFree) (hn : e.InNetwork name) (hn' : e'.InNetwork name) (bnd : Binding) :
    ∃ l l', e.maintained name bnd = .ok l ∧ e'.maintained name bnd = .ok l' ∧ l.Nodup ∧ l'.Perm l :=
  maintained_perm (h.sound fun _ _ _ allowed => allowed) (h'.sound fun _ _ _ allowed => allowed.1)
    (h.still_of_untangled (fun name _ => straight name) untangled).rest h'.still.rest catalog content
    straight free hn hn' bnd

end Engine
end Motif
