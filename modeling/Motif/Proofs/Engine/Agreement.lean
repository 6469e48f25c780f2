import Motif.Proofs.Engine.Answering
import Motif.Proofs.Engine.Recomputation

/-!
The backends agree. Queries may have infinitely many matches for a search, which asks only for those that
agree with what is bound. So an answer is accounted for by finitely many answers to queries called, if it
follows from these whatever other matches there may be. Where no query leads back to itself, there are
matches that tell any two answers accounted for. And so are all answers: what the network maintains as
well as what a search finds.
-/
set_option autoImplicit false
namespace Motif

open Std (ExtTreeMap ExtTreeSet)

def Query.unassigned (q : Query) : Query := { q with backend := none }

namespace Asking

def Fits (a : Asking) (found : String → Finset Tuple) : Prop :=
  a.binding.Lists a.answer ↑(found a.callee.query)

def told (asked : List Asking) (query : String) : Finset Tuple :=
  ((asked.filter fun a => a.callee.query = query).flatMap answer).toFinset

variable {asked : List Asking} {query : String} {t : Tuple}

theorem mem_told : t ∈ told asked query ↔ ∃ a ∈ asked, a.callee.query = query ∧ t ∈ a.answer := by
  simp only [told, List.mem_toFinset, List.mem_flatMap, List.mem_filter, decide_eq_true_eq, and_assoc]

theorem fits_told (agree : ∀ a ∈ asked, ∀ a' ∈ asked, a'.callee.query = a.callee.query →
      ∃ S, a.binding.Lists a.answer S ∧ a'.binding.Lists a'.answer S) :
    ∀ a ∈ asked, a.Fits (told asked) := by
  intro a ha
  obtain ⟨S, lists, -⟩ := agree a ha a ha rfl
  refine ⟨lists.1, fun t => ⟨fun ht => ?_, fun ⟨ht, agrees⟩ => ?_⟩⟩
  · exact ⟨Finset.mem_coe.2 (mem_told.2 ⟨a, ha, rfl, ht⟩), ((lists.2 t).1 ht).2⟩
  · obtain ⟨a', ha', same, ht⟩ := mem_told.1 (Finset.mem_coe.1 ht)
    obtain ⟨S, lists, lists'⟩ := agree a ha a' ha' same
    exact (lists.2 t).2 ⟨((lists'.2 t).1 ht).1, agrees⟩

end Asking

@[simp] theorem Catalog.folds_rename {c : Catalog} {rep : Variable → Variable} {k : Constraint} :
    c.Folds (k.rename rep) ↔ c.Folds k := by
  cases k <;> exact Iff.rfl

theorem Catalog.folds_of_operator?_eq_none {c : Catalog} {k : Constraint} (h : k.operator? = none) :
    c.Folds k := by
  cases k with
  | count | aggregate => cases h
  | _ => trivial

namespace Catalog
variable {c c' : Catalog} {held : Relation → Multiset Tuple} {m : Model} {name : String}
  {bnd bnd' : Binding} {l l' : List Tuple} {t : Tuple} {q : Query} {b : Body}

/-- Every count is a count. An operator that a query folds matches with has a value for any values if it
has one for none. -/
def Folding (c : Catalog) : Prop :=
  ∀ (name : String) (q : Query), c.queries[name]? = some q → ∀ b ∈ q.bodies, ∀ k ∈ b.constraints,
    c.Folds k

theorem Folding.normalize (h : c.Folding) (hq : c.queries[name]? = some q) (hb : b ∈ q.bodies) :
    ∀ k ∈ b.normalize.constraints, c.Folds k := by
  intro k hk
  obtain ⟨⟨k', hk', rfl⟩, -⟩ := Body.mem_normalize.1 hk
  exact folds_rename.2 (h name q hq b hb k' hk')

theorem OrderFree.normalize (h : c.OrderFree) (hq : c.queries[name]? = some q) (hb : b ∈ q.bodies) :
    ∀ k ∈ b.normalize.constraints, ∀ operator, k.operator? = some operator →
      ∀ op, c.aggregators[operator]? = some op → op.OrderFree := by
  intro k hk
  obtain ⟨⟨k', hk', rfl⟩, -⟩ := Body.mem_normalize.1 hk
  rw [Constraint.operator?_rename]
  exact h name q hq b hb k' hk'

def Vets (c : Catalog) (name : String) : Prop :=
  ∀ n, c.Leads name n → ∀ q, c.queries[n]? = some q → ∀ b ∈ q.bodies,
    b.constraints.forM c.checkCall = .ok ()

theorem Checks.vets (h : c.Checks name) : c.Vets name := by
  intro n hn q hq
  obtain ⟨q', hq', calls⟩ := checkCalls_ok (h n hn)
  cases hq.symm.trans hq'
  exact calls

def solutions (c : Catalog) (f : Facts c) (name : String) : Set Tuple :=
  {t | ∃ q, c.queries[name]? = some q ∧ ∃ b ∈ q.bodies, t ∈ b.normalize.meaning f}

theorem Valid.length_of_mem_solutions (valid : c.Valid) {f : Facts c} (ht : t ∈ c.solutions f name)
    (hq : c.queries[name]? = some q) : t.length = q.arity := by
  obtain ⟨q', hq', b, hb, σ, -, rfl⟩ := ht
  cases hq.symm.trans hq'
  rw [List.length_map, Body.length_parameters_normalize]
  exact (Query.validateBody_ok (valid.validateBody hq hb)).1

structure Resembles (c c' : Catalog) : Prop where
  evaluators : c'.evaluators = c.evaluators
  aggregators : c'.aggregators = c.aggregators
  queries : ∀ name : String,
    (c'.queries[name]?).map Query.unassigned = (c.queries[name]?).map Query.unassigned

theorem Resembles.refl (c : Catalog) : c.Resembles c := ⟨rfl, rfl, fun _ => rfl⟩

theorem Resembles.symm (h : c.Resembles c') : c'.Resembles c :=
  ⟨h.evaluators.symm, h.aggregators.symm, fun name => (h.queries name).symm⟩

theorem Resembles.exists_query (h : c.Resembles c') (hq : c'.queries[name]? = some q) :
    ∃ backend, c.queries[name]? = some { q with backend } := by
  have same := h.queries name
  rw [hq] at same
  obtain ⟨q', hq', same⟩ := Option.map_eq_some_iff.1 same.symm
  refine ⟨q'.backend, hq'.trans (congrArg some ?_)⟩
  exact congrArg (fun x : Query => { x with backend := q'.backend }) same

theorem Resembles.mem_callees (h : c.Resembles c') {n : String} (hn : n ∈ c'.callees name) :
    n ∈ c.callees name := by
  obtain ⟨q, hq, b, hb, calls⟩ := Catalog.mem_callees.1 hn
  obtain ⟨backend, hq'⟩ := h.exists_query hq
  exact Catalog.mem_callees.2 ⟨_, hq', b, hb, calls⟩

theorem Resembles.solutions_subset (h : c.Resembles c') {f : Facts c} {f' : Facts c'}
    (holds : f'.holds = f.holds) (found : ∀ n ∈ c'.callees name, f'.found n = f.found n) :
    c'.solutions f' name ⊆ c.solutions f name := by
  rintro t ⟨q, hq, b, hb, ht⟩
  obtain ⟨backend, hq'⟩ := h.exists_query hq
  refine ⟨_, hq', b, hb, ?_⟩
  rwa [← Body.meaning_congr h.evaluators h.aggregators holds fun n hn =>
    found n (Catalog.mem_callees.2 ⟨q, hq, b, hb, Body.calls_normalize hn⟩)]

theorem Resembles.solutions_eq (h : c.Resembles c') {f : Facts c} {f' : Facts c'}
    (holds : f'.holds = f.holds) (found : ∀ n ∈ c.callees name, f'.found n = f.found n) :
    c'.solutions f' name = c.solutions f name :=
  (h.solutions_subset holds fun n hn => found n (h.mem_callees hn)).antisymm
    (h.symm.solutions_subset holds.symm fun n hn => (found n hn).symm)

theorem Resembles.straight (h : c.Resembles c') (s : c.Straight) : c'.Straight := by
  intro name
  refine Bool.eq_false_iff.2 fun recursive => ?_
  obtain ⟨callee, hc, leads⟩ := isRecursive_iff_leads.1 recursive
  exact s.not_leads (h.mem_callees hc) (Relation.ReflTransGen.mono (fun _ _ => h.mem_callees) _ _ leads)

theorem Resembles.orderFree (h : c.Resembles c') (free : c.OrderFree) : c'.OrderFree := by
  intro name q hq
  obtain ⟨backend, hq'⟩ := h.exists_query hq
  rw [h.aggregators]
  exact free name { q with backend } hq'

theorem Resembles.folding (h : c.Resembles c') (folding : c.Folding) : c'.Folding := by
  intro name q hq b hb k hk
  obtain ⟨backend, hq'⟩ := h.exists_query hq
  have folds := folding name _ hq' b hb k hk
  cases k with
  | count | aggregate => rwa [Folds, h.aggregators]
  | _ => trivial

/-- The answer follows from finitely many answers to queries called, whatever other matches these have.
And so do those answers. -/
inductive Accounted (c : Catalog) (held : Relation → Multiset Tuple) :
    String → Binding → List Tuple → Prop
  | told {name : String} {bnd : Binding} {l : List Tuple} (asked : List Asking)
    (called : ∀ a ∈ asked, a.callee.query ∈ c.callees name)
    (accounted : ∀ a ∈ asked, Accounted c held a.callee.query a.binding a.answer)
    (lists : ∀ f : Facts c, f.holds = held → (∀ a ∈ asked, a.Fits f.found) →
      bnd.Lists l (c.solutions f name)) : Accounted c held name bnd l

theorem Accounted.resembles (h : c.Accounted held name bnd l) (r : c.Resembles c') :
    c'.Accounted held name bnd l := by
  induction h with
  | told asked called _ lists ih =>
    refine .told asked (fun a ha => r.symm.mem_callees (called a ha)) ih fun f holds fits => ?_
    have widths : ∀ name q, c.queries[name]? = some q → ∀ t ∈ f.found name, t.length = q.arity := by
      intro name q hq
      obtain ⟨backend, hq'⟩ := r.symm.exists_query hq
      exact f.length_found name { q with backend } hq'
    rw [r.solutions_eq (f := ⟨f.holds, f.found, f.length_holds, widths⟩) rfl fun _ _ => rfl]
    exact lists _ holds fits

/-- There are matches of the queries called that tell both of two answers accounted for. -/
theorem Accounted.exists_facts (valid : c.Valid) (straight : c.Straight)
    (h : c.Accounted m.held name bnd l) (h' : c.Accounted m.held name bnd' l') :
    ∃ f : Facts c, bnd.Lists l (c.solutions f name) ∧ bnd'.Lists l' (c.solutions f name) := by
  induction name using straight.wellFounded.induction generalizing bnd bnd' l l' with
  | _ name ih =>
    obtain ⟨asked, called, accounted, lists⟩ := h
    obtain ⟨asked', called', accounted', lists'⟩ := h'
    have both : ∀ a ∈ asked ++ asked', a.callee.query ∈ c.callees name ∧
        c.Accounted m.held a.callee.query a.binding a.answer := by
      intro a ha
      obtain ha | ha := List.mem_append.1 ha
      · exact ⟨called a ha, accounted a ha⟩
      · exact ⟨called' a ha, accounted' a ha⟩
    -- By induction all that was answered, for either answer, can be true at once.
    have agree : ∀ a ∈ asked ++ asked', ∀ a' ∈ asked ++ asked', a'.callee.query = a.callee.query →
        ∃ f : Facts c, a.binding.Lists a.answer (c.solutions f a.callee.query) ∧
          a'.binding.Lists a'.answer (c.solutions f a.callee.query) := by
      intro a ha a' ha' same
      exact ih _ (both a ha).1 (both a ha).2 (same ▸ (both a' ha').2)
    have widths : ∀ n q, c.queries[n]? = some q → ∀ t ∈ Asking.told (asked ++ asked') n,
        t.length = q.arity := by
      intro n q hq t ht
      obtain ⟨a, ha, rfl, answered⟩ := Asking.mem_told.1 ht
      obtain ⟨f, listed, -⟩ := agree a ha a ha rfl
      exact valid.length_of_mem_solutions ((listed.2 t).1 answered).1 hq
    have fits : ∀ a ∈ asked ++ asked', a.Fits (Asking.told (asked ++ asked')) :=
      Asking.fits_told fun a ha a' ha' same =>
        (agree a ha a' ha' same).elim fun f listed => ⟨c.solutions f a.callee.query, listed⟩
    exact ⟨m.facts _ widths, lists _ rfl fun a ha => fits a (List.mem_append_left _ ha),
      lists' _ rfl fun a ha => fits a (List.mem_append_right _ ha)⟩

theorem Accounted.perm (valid : c.Valid) (straight : c.Straight) (h : c.Accounted m.held name bnd l)
    (h' : c.Accounted m.held name bnd l') : l.Nodup ∧ l'.Perm l := by
  obtain ⟨f, told, told'⟩ := h.exists_facts valid straight h'
  exact told.perm told'

end Catalog

namespace Engine
variable {faithful : Prop} {e : Engine} {name : String} {bnd : Binding} {l : List Tuple} {q : Query}
  {b : Body}

theorem Sound.exists_yields (h : e.Sound faithful [] []) (hn : e.InNetwork name)
    (hq : e.catalog.queries[name]? = some q) (hb : b ∈ q.bodies) : ∃ r, e.catalog.Yields faithful b r := by
  obtain ⟨id, hid⟩ := hn
  obtain ⟨q', done, hq', -, bodies, -⟩ := h.lodged name id hid
  cases hq.symm.trans hq'
  obtain ⟨r, -, yields⟩ := (exists_of_forall₂ bodies).1 b hb
  exact ⟨r, yields⟩

theorem Sound.vets (h : e.Sound faithful [] []) {backend : Backend} (provides : e.Provides name backend) :
    e.catalog.Vets name := by
  cases backend with
  | rete =>
    intro n hn q hq b hb
    obtain ⟨r, yields⟩ := h.exists_yields (h.inNetwork_of_leads provides hn) hq hb
    exact yields.checked
  | localSearch => exact provides.2.vets

section depicts
variable {f : Facts e.catalog} (depicts : e.Depicts f) (sound : e.Sound True [] [])
  (folding : e.catalog.Folding)
include depicts sound folding

theorem Depicts.solutions_eq (hn : e.InNetwork name) : e.catalog.solutions f name = ↑(f.found name) := by
  obtain ⟨q, hq⟩ := sound.exists_query hn
  have value : ∀ b ∈ q.bodies, ∀ r, e.catalog.Yields True b r → ∀ t,
      t ∈ r.expr.value f ↔ t ∈ b.normalize.meaning f := fun b hb r yields t =>
    (yields.compiles trivial).mem_value (sound.valid.validateBody hq hb) yields.checked
      (folding.normalize hq hb) f
  ext t
  rw [Finset.mem_coe, depicts.solves name q hn hq]
  constructor
  · rintro ⟨q', hq', b, hb, ht⟩
    cases hq.symm.trans hq'
    obtain ⟨r, yields⟩ := sound.exists_yields hn hq hb
    exact ⟨b, hb, r, yields, (value b hb r yields t).2 ht⟩
  · rintro ⟨b, hb, r, yields, ht⟩
    exact ⟨q, hq, b, hb, (value b hb r yields t).1 ht⟩

theorem Depicts.accounted (straight : e.catalog.Straight) (hn : e.InNetwork name)
    (lists : bnd.Lists l (f.found name)) : e.catalog.Accounted e.model.held name bnd l := by
  induction name using straight.wellFounded.induction generalizing bnd l with
  | _ name ih =>
    have there : ∀ n ∈ e.catalog.callees name, e.InNetwork n := fun n hc =>
      (sound.calls name hn n hc).resolve_left List.not_mem_nil
    have whole : ∀ n, Binding.Lists [] (f.found n).toList (f.found n) := fun n =>
      ⟨Finset.nodup_toList _, fun t => by simp [Binding.agrees]⟩
    refine .told ((e.catalog.callees name).map fun n => ⟨⟨n, ∅⟩, [], (f.found n).toList⟩)
      (List.forall_mem_map.2 fun n hc => hc)
      (List.forall_mem_map.2 fun n hc => ih n hc (there n hc) (whole n)) fun f' holds fits => ?_
    have found : ∀ n ∈ e.catalog.callees name, f'.found n = f.found n := by
      intro n hc
      ext t
      have fit := (fits _ (List.mem_map_of_mem hc)).2 t
      simpa [Binding.agrees] using fit.symm
    rwa [(Catalog.Resembles.refl _).solutions_eq (holds.trans depicts.holds.symm) found,
      depicts.solutions_eq sound folding hn]

end depicts

/-- What a plan for a body finds is what the body means, over any matches that fit the answers which the
search was given. -/
theorem Sound.exists_asked (h : e.Sound True [] []) (typed : e.model.Typed) (free : e.catalog.OrderFree)
    (hq : e.catalog.queries[name]? = some q) (hb : b ∈ q.bodies)
    (calls : b.constraints.forM e.catalog.checkCall = .ok ()) {p : SearchPlan}
    (gives : e.catalog.GivesPlan e.model.schema q (.ofList bnd.positions) b p) {σ ε : Type}
    {s : Searcher σ ε} {I : σ → Prop} {P : Asking → Prop} (tells : s.Tells I P)
    (graph : s.graph = e.model.graph) (report : ∀ i, (s.report i).Returns fun _ => True)
    {st st' : σ} (hI : I st) (hrun : (s.execute p bnd).run.run st = some (.ok l, st')) :
    ∃ asked : List Asking, (∀ a ∈ asked, P a ∧ a.callee.query ∈ e.catalog.callees name) ∧
      ∀ f : Facts e.catalog, (∀ a ∈ asked, a.Fits f.found) → f.holds = e.model.held →
        ∀ t, t ∈ l ↔ bnd.agrees t = true ∧ t ∈ b.normalize.meaning f := by
  obtain ⟨plan, hp, entry, fixed⟩ := gives.exists_plan
  obtain ⟨C, hC, means⟩ := SearchPlan.execute_means
    (Query.validateBody_normalize (h.valid.validateBody hq hb)) (Body.checkCall_normalize calls) h.reached
    typed entry hp graph report fixed hI hrun
    (fun operator _ _ _ _ hk => free.normalize hq hb _ hk operator rfl) tells
  refine ⟨C.filter fun a => a.callee.query ∈ e.catalog.callees name, fun a ha => ?_,
    fun f fits holds t => ?_⟩
  · obtain ⟨ha, callee⟩ := List.mem_filter.1 ha
    exact ⟨hC a ha, of_decide_eq_true callee⟩
  · have same : e.model.facts f.found f.length_found = f := by
      cases f
      cases holds
      rfl
    have listed := (means f.found f.length_found fun a ha hcall => ?_).2 t
    · rwa [same] at listed
    · have callee := Catalog.mem_callees.2 ⟨q, hq, b, hb, Body.calls_normalize hcall⟩
      exact fits a (List.mem_filter.2 ⟨ha, decide_eq_true callee⟩)

theorem Sound.vouches (h : e.Sound True [] []) (rest : ∃ val, e.network.AtRest val)
    (typed : e.model.Typed) (straight : e.catalog.Straight) (free : e.catalog.OrderFree)
    (folding : e.catalog.Folding) : e.Vouches fun name bnd l =>
      e.catalog.Vets name → e.catalog.Accounted e.model.held name bnd l where
  maintained {name bnd l} hl _ := by
    have hn := inNetwork_of_maintained hl
    obtain ⟨f, depicts⟩ := h.exists_depicts rfl free rest
    obtain ⟨l', hl', lists⟩ := depicts.maintained name hn bnd
    cases hl.symm.trans hl'
    exact depicts.accounted h folding straight hn lists
  searched {name bnd ps} hps {σ ε s I} tells graph report {ls} runs vets := by
    obtain ⟨q, hq, gives⟩ := Catalog.searchPlans_ok hps
    have lists := (List.forall₂_and_left _ ls).2 ⟨fun b hb => hb, forall₂_trans gives runs⟩
    obtain ⟨asked, hasked, found⟩ := exists_support (lists.imp fun b l ⟨hb, p, gives, st, st', hI, hrun⟩ =>
      h.exists_asked typed free hq hb (vets name .refl q hq b hb) gives tells graph report hI hrun)
    refine .told asked (fun a ha => (hasked a ha).2) (fun a ha => ?_)
      fun f holds fits => ⟨nodup_firsts _, fun t => ?_⟩
    · obtain ⟨answered, callee⟩ := hasked a ha
      exact answered fun n hn => vets n (.head callee hn)
    · rw [Binding.mem_firsts_flatten (S := fun b : Body => b.normalize.meaning f)
        ((found f fits).imp fun b l hl => hl holds), and_comm]
      refine and_congr_left fun _ => ⟨fun ht => ⟨q, hq, ht⟩, ?_⟩
      rintro ⟨q', hq', ht⟩
      cases hq.symm.trans hq'
      exact ht

end Engine

def Query.fits (q : Query) (t : Tuple) : Bool := ((q.parameters.zip t).findSome? Match.misfit?).isNone

theorem Match.map_tuple_ofTuple (q : Query) (ts : List Tuple) :
    ((ts.map (ofTuple q)).filterMap Except.toOption).map tuple = ts.filter q.fits := by
  induction ts with
  | nil => rfl
  | cons t rest ih =>
    rw [List.map_cons, List.filter_cons, ← ih, Query.fits, ofTuple]
    split
    · rename_i h
      rw [h]
      rfl
    · rename_i h
      rw [h]
      rfl

namespace Session

open Engine
variable {e : Engine}

/-- A query prepared in an engine at rest is answered with tuples accounted for, but for those with a
value that is not of the kind declared. -/
theorem allMatches_accounted (sound : e.Sound True [] []) (rest : ∃ val, e.network.AtRest val)
    (typed : e.model.Typed) (straight : e.catalog.Straight) (free : e.catalog.OrderFree)
    (folding : e.catalog.Folding) (name : String) (p : PartialMatch) :
    (allMatches name p).Leads e (fun ms _ => ∃ q bnd l, e.catalog.queries[name]? = some q ∧
      p.resolve q = .ok bnd ∧ e.catalog.Accounted e.model.held name bnd l ∧
      ms.map (·.tuple) = l.filter q.fits) fun _ _ => True := by
  refine Leads.bind (Leads.bind ((prepare_keeps (admitting_rest straight e.model) sound
    ⟨rfl, rfl, rest⟩ name).mono (fun backend e₁ h₁ => ?_) fun _ _ _ => trivial))
  obtain ⟨sound₁, -, ⟨catalog, model, rest₁⟩, provides⟩ := h₁
  refine leads_get (Leads.bind (leads_liftPlan (fun q hq => ?_) fun _ _ => trivial))
  replace hq := Catalog.query_ok hq
  obtain rfl : q.name = name := (sound₁.valid name q hq).1
  refine leads_pure (Leads.bind (leads_lift (fun bnd hbnd => Leads.bind ?_) fun _ _ => trivial))
  rw [requireLive]
  refine leads_get ?_
  split
  · exact leads_throw trivial
  refine leads_pure (Leads.bind (leads_get ?_))
  have searches : Searches e₁ e₁ := ⟨⟨_, _, rfl⟩, fun r ps hr => (sound₁.plans r ps hr).1 trivial⟩
  have vouches := sound₁.vouches rest₁ (model ▸ typed) (catalog ▸ straight) (catalog ▸ free)
    (catalog ▸ folding)
  refine (evaluateWithin_leads vouches e₁.searchDepth searches q.name backend bnd).mono
    (fun l e₂ h₂ => ?_) fun _ _ _ => trivial
  have accounted := h₂.2 (sound₁.vets provides)
  rw [catalog, model] at accounted
  exact Leads.bind (leads_modify (leads_pure ⟨q, bnd, l, catalog ▸ hq, hbnd, accounted,
    Match.map_tuple_ofTuple q l⟩))

end Session

namespace Engine
variable {e e' : Engine} {name : String} {p : PartialMatch} {ms ms' : List Match}

/-- Two engines at rest give the same matches for a query, each once, if their catalogs are the same but
for backends and what their models hold is the same. -/
theorem matches_perm (sound : e.Sound True [] []) (sound' : e'.Sound True [] [])
    (rest : ∃ val, e.network.AtRest val) (rest' : ∃ val, e'.network.AtRest val)
    (same : e.catalog.Resembles e'.catalog) (content : e'.model.held = e.model.held)
    (typed : e.model.Typed) (typed' : e'.model.Typed) (straight : e.catalog.Straight)
    (free : e.catalog.OrderFree) (folding : e.catalog.Folding)
    (answer : ((Session.allMatches name p).run.run e).1 = .ok ms)
    (answer' : ((Session.allMatches name p).run.run e').1 = .ok ms') :
    (ms.map (·.tuple)).Nodup ∧ (ms'.map (·.tuple)).Perm (ms.map (·.tuple)) := by
  obtain ⟨q, bnd, l, hq, hbnd, accounted, tuples⟩ :=
    (Session.allMatches_accounted sound rest typed straight free folding name p).of_ok answer
  obtain ⟨q', bnd', l', hq', hbnd', accounted', tuples'⟩ :=
    (Session.allMatches_accounted sound' rest' typed' (same.straight straight) (same.orderFree free)
      (same.folding folding) name p).of_ok answer'
  obtain ⟨backend, hq''⟩ := same.exists_query hq'
  cases hq.symm.trans hq''
  cases hbnd.symm.trans hbnd'
  rw [content] at accounted'
  obtain ⟨nodup, perm⟩ := accounted.perm sound.valid straight (accounted'.resembles same.symm)
  rw [tuples, tuples']
  exact ⟨nodup.filter _, perm.filter _⟩

/-- The backends agree. Whichever backends queries are assigned in two engines with the same model and
otherwise the same catalog, and whatever has been prepared in them before, a query that both answer has
the same matches. Holders must be of the classes that their features declare. No query may lead back to
itself, or fold matches with an operator that depends on their order or makes less of some matches than
of none. -/
theorem backends_agree (h : e.Reached Afresh) (h' : e'.Reached Afresh)
    (same : e.catalog.Resembles e'.catalog) (content : e'.model = e.model) (typed : e.model.Typed)
    (straight : e.catalog.Straight) (free : e.catalog.OrderFree) (folding : e.catalog.Folding)
    (answer : ((Session.allMatches name p).run.run e).1 = .ok ms)
    (answer' : ((Session.allMatches name p).run.run e').1 = .ok ms') :
    (ms.map (·.tuple)).Nodup ∧ (ms'.map (·.tuple)).Perm (ms.map (·.tuple)) :=
  matches_perm (h.sound fun _ _ _ allowed => allowed.1) (h'.sound fun _ _ _ allowed => allowed.1)
    h.still.rest h'.still.rest same (congrArg Model.held content) typed (content ▸ typed) straight free
    folding answer answer'

section example_backends

def outgoing (backend : Backend) : Query where
  name := "outgoing"
  parameters := [⟨"x", none⟩, ⟨"z", none⟩]
  bodies := [⟨["x", "z"], [.holds (.feature "edge") ["x", "z"]]⟩]
  backend := some backend

def last (backend : Backend) : Query where
  name := "last"
  parameters := [⟨"x", none⟩, ⟨"z", none⟩]
  bodies := [⟨["x", "z"], [.find "outgoing" ["x", "z"], .lacks "outgoing" ["z", "w"]]⟩]
  backend := some backend

def path : Model :=
  (({} : Model).writeAll [.addValue (.int 1) "edge" (.int 2), .addValue (.int 2) "edge" (.int 3)]).1

def lastEngine (backend : Backend) : Engine :=
  (Call.register (last backend)).after ((Call.register (outgoing backend)).after (start {} path))

theorem model_lastEngine (backend : Backend) : (lastEngine backend).model = path.drain.1 := by
  cases backend <;> rfl

theorem reached_lastEngine (backend : Backend) : (lastEngine backend).Reached Afresh :=
  ((Reached.start {} ((Model.Reached.start {}).writeAll _)).next _ ⟨trivial, .inl trivial⟩ id).next _
    ⟨trivial, .inl trivial⟩ id

theorem catalog_lastEngine (backend : Backend) : (lastEngine backend).catalog =
    { queries := ((∅ : ExtTreeMap String Query).insert "outgoing" (outgoing backend)).insert "last"
        (last backend) } := by
  cases backend <;> rfl

theorem eq_of_lastEngine {backend : Backend} {name : String} {q : Query}
    (h : (lastEngine backend).catalog.queries[name]? = some q) :
    (name = "last" ∧ q = last backend) ∨ (name = "outgoing" ∧ q = outgoing backend) := by
  rw [catalog_lastEngine] at h
  obtain found | h := eq_or_of_getElem?_insert h
  · exact .inl found
  obtain found | none := eq_or_of_getElem?_insert h
  · exact .inr found
  · cases ExtTreeMap.getElem?_empty.symm.trans none

theorem operator?_lastEngine {backend : Backend} {name : String} {q : Query}
    (h : (lastEngine backend).catalog.queries[name]? = some q) :
    ∀ b ∈ q.bodies, ∀ k ∈ b.constraints, k.operator? = none := by
  obtain ⟨-, rfl⟩ | ⟨-, rfl⟩ := eq_of_lastEngine h
  · cases backend <;> decide
  · cases backend <;> decide

theorem resembles_lastEngine :
    (lastEngine .rete).catalog.Resembles (lastEngine .localSearch).catalog := by
  rw [catalog_lastEngine, catalog_lastEngine]
  refine ⟨rfl, rfl, fun name => ?_⟩
  simp only [ExtTreeMap.getElem?_insert]
  split
  · rfl
  · split <;> rfl

theorem straight_lastEngine : (lastEngine .rete).catalog.Straight :=
  Catalog.straight_of_names (by decide +kernel)

theorem typed_path : path.drain.1.Typed := fun _ _ declared => by cases declared

theorem last_agrees {p : PartialMatch} {ms ms' : List Match}
    (answer : ((Session.allMatches "last" p).run.run (lastEngine .rete)).1 = .ok ms)
    (answer' : ((Session.allMatches "last" p).run.run (lastEngine .localSearch)).1 = .ok ms') :
    (ms.map (·.tuple)).Nodup ∧ (ms'.map (·.tuple)).Perm (ms.map (·.tuple)) := by
  have typed : (lastEngine .rete).model.Typed := model_lastEngine .rete ▸ typed_path
  have free : (lastEngine .rete).catalog.OrderFree := fun name q hq b hb k hk operator ho => by
    cases (operator?_lastEngine hq b hb k hk).symm.trans ho
  have folding : (lastEngine .rete).catalog.Folding := fun name q hq b hb k hk =>
    Catalog.folds_of_operator?_eq_none (operator?_lastEngine hq b hb k hk)
  exact backends_agree (reached_lastEngine _) (reached_lastEngine _) resembles_lastEngine
    ((model_lastEngine _).trans (model_lastEngine _).symm) typed straight_lastEngine free folding answer
    answer'

end example_backends
end Engine
end Motif
