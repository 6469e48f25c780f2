import Motif.Proofs.Algebra.Value
import Motif.Proofs.Algebra.WellFormed
import Motif.Proofs.Network.Renders

/-!
Installing whole expressions. Where single nodes can be added behind those there are, an expression
can be installed if its columns fit and the names in it are known. What its nodes put out at rest is
what the expression stands for, whichever other expressions share the nodes and indexes.
-/
set_option autoImplicit false
namespace Motif

open Std (ExtTreeMap)

/-- The columns an expression refers to are there, its parts are as wide as they are taken to be, and
its operators are registered and do not depend on the order of the values. -/
def Algebra.Fits (c : Catalog) (calls : String → Nat → Prop) : Algebra → Prop
  | constant rows arity => ∀ t ∈ rows, t.length = arity
  | input _ => True
  | production query arity => calls query arity
  | trim e mask => e.Fits c calls ∧ mask.width = e.arity
  | constantFilter e column _ => e.Fits c calls ∧ column < e.arity
  | equalityFilter e groups => e.Fits c calls ∧ ∀ g ∈ groups, ∀ i ∈ g, i < e.arity
  | inequalityFilter e left right => e.Fits c calls ∧ left < e.arity ∧ right < e.arity
  | expression e evaluator inputs _ => e.Fits c calls ∧ (∃ x, c.evaluators[evaluator]? = some x) ∧
      ∀ i ∈ inputs, i < e.arity
  | join a p b s | existence a p b s _ =>
    a.Fits c calls ∧ b.Fits c calls ∧ p.width = a.arity ∧ s.width = b.arity
  | outerJoin a p b s defaults => a.Fits c calls ∧ b.Fits c calls ∧ p.width = a.arity ∧
      s.width = b.arity ∧ s.complement.arity = defaults.arity
  | grouping e mask operator column => e.Fits c calls ∧
      (∃ op, c.aggregators[operator]? = some op ∧ op.OrderFree) ∧ mask.width = e.arity ∧
        ∀ i, column = some i → i < mask.width
  | closure e => e.Fits c calls ∧ e.arity = 2

namespace Network
variable {net : Network} {val : NodeId → Multiset Tuple} {id p q : NodeId} {n : Node} {arity : Nat}

theorem AtRest.val_of_hasNode (h : net.AtRest val) (hn : net.HasNode id n [p] arity)
    (hf : n.isFed = true) : val id = n.output net.maskOf (val p) fun _ => 0 := by
  obtain ⟨v, hv, hbare, hpar, -⟩ := hn
  rw [h.means id v hv, Node.output_of_bare_eq hbare,
    fedBy_of_isFed ((Node.isFed_of_bare_eq hbare).trans hf), hpar, List.map_singleton,
    List.sum_singleton]
  exact Node.output_of_isFed hf _ _ _ _ _

theorem AtRest.val_of_root (h : net.AtRest val) (hn : ∃ ps, net.HasNode id n ps arity)
    (hf : n.isFed = false) (hs : ∀ side, n.source side = none) :
    val id = n.output net.maskOf (net.given id) fun _ => 0 := by
  obtain ⟨ps, v, hv, hbare, -, -⟩ := hn
  rw [h.means id v hv, Node.output_of_bare_eq hbare]
  refine Node.output_congr (fun hi => ?_) fun side I hI => by rw [hs] at hI; cases hI
  rcases hi with hi | hi
  · rw [hf] at hi
    cases hi
  · have hi' : v.node.isInput = true := by
      rw [← Node.isInput_bare, hbare, Node.isInput_bare]
      exact hi
    cases hnode : v.node with
    | input r u memory => rw [fedBy_of_isInput hnode, given_of_input hv hnode]
    | _ =>
      rw [hnode] at hi'
      cases hi'

variable {pm sm : Mask} {make : IndexId → IndexId → Node}

theorem AtRest.val_of_hasPair (h : net.AtRest val) (hn : net.HasPair id make p pm q sm arity)
    (hprim : ∀ I J, (make I J).source .primary = some I)
    (hsec : ∀ I J, (make I J).source .secondary = some J) :
    ∃ I J, net.maskOf I = pm ∧ net.maskOf J = sm ∧ val id = (make I J).output net.maskOf 0
      fun side => match side with | .primary => val p | .secondary => val q := by
  obtain ⟨I, J, ⟨v, hv, hbare, -⟩, hI, hJ⟩ := hn
  refine ⟨I, J, hI.maskOf, hJ.maskOf, ?_⟩
  rw [h.means id v hv, Node.output_of_bare_eq hbare]
  have source := Node.source_of_bare_eq hbare
  obtain ⟨a, ha, rfl, -⟩ := hI
  obtain ⟨b, hb, rfl, -⟩ := hJ
  refine Node.output_congr (fun hi => ?_) fun side K _ => ?_
  · obtain ⟨hf, hi'⟩ := isFed_of_source (hprim I J)
    rw [hf, hi'] at hi
    rcases hi with hi | hi <;> cases hi
  · cases side with
    | primary => rw [viewBy_of_source ((source .primary).trans (hprim I J)), parentOf_eq ha]
    | secondary => rw [viewBy_of_source ((source .secondary).trans (hsec I J)), parentOf_eq hb]

theorem AtRest.val_of_hasGrouping {mask : Mask} {op : Aggregator} {column : Option Nat}
    (h : net.AtRest val) (hn : net.HasGrouping id p mask op column) :
    val id = groupRows mask op column (val p) := by
  obtain ⟨I, ⟨v, hv, hbare, -⟩, hI⟩ := hn
  rw [h.means id v hv, Node.output_of_bare_eq hbare]
  have source := Node.source_of_bare_eq hbare .primary
  have hmask := hI.maskOf
  obtain ⟨a, ha, rfl, -⟩ := hI
  rw [Node.output, hmask, viewBy_of_source (source.trans rfl), parentOf_eq ha]

variable {site : Site} {f : Facts site.catalog}

/-- What a node puts out is what its expression stands for, if inputs have been given what the base
relations hold and productions put out the matches of their queries. -/
theorem AtRest.val_eq_value {e : Algebra} {calls : String → Nat → Prop} (h : net.AtRest val)
    (w : net.Wired) (hr : net.Renders site e id) (he : e.Fits site.catalog calls)
    (holds : ∀ (r : Relation) (id : NodeId), net.inputs[r]? = some id → net.given id = f.holds r)
    (found : ∀ (q : String) (id : NodeId), site.productions[q]? = some id →
      val id = (f.found q).val) : val id = e.value f := by
  induction e generalizing id with
  | constant rows arity => exact h.val_of_root ⟨_, hr⟩ rfl fun side => by cases side <;> rfl
  | input r =>
    obtain ⟨unique, ps, hn⟩ := hr
    refine (h.val_of_root ⟨ps, hn⟩ rfl fun side => by cases side <;> rfl).trans ?_
    obtain ⟨v, hv, hbare, -⟩ := hn
    obtain ⟨b, memory, hnode⟩ := Node.exists_input_of_bare_eq hbare ⟨unique, ∅, rfl⟩
    exact holds r id ((w.inputs r id).2 ⟨v, b, memory, hv, hnode⟩)
  | production q arity => exact found q id hr.1
  | trim e _ ih | constantFilter e _ _ ih | equalityFilter e _ ih | inequalityFilter e _ _ ih
  | closure e ih =>
    obtain ⟨p, hp, hn⟩ := hr
    rw [h.val_of_hasNode hn rfl, ih hp he.1]
    rfl
  | expression e evaluator inputs mode ih =>
    obtain ⟨p, x, hx, hp, hn⟩ := hr
    rw [h.val_of_hasNode hn rfl, ih hp he.1, Algebra.value, hx]
    rfl
  | join a _ b _ iha ihb | existence a _ b _ _ iha ihb | outerJoin a _ b _ _ iha ihb =>
    obtain ⟨p, q, ha, hb, hn⟩ := hr
    obtain ⟨I, J, rfl, rfl, hval⟩ := h.val_of_hasPair hn (fun _ _ => rfl) fun _ _ => rfl
    rw [hval, iha ha he.1, ihb hb he.2.1]
    rfl
  | grouping e mask operator column ih =>
    obtain ⟨p, op, hop, hp, hn⟩ := hr
    obtain ⟨he, ⟨op', hop', free⟩, -⟩ := he
    cases hop.symm.trans hop'
    rw [h.val_of_hasGrouping hn, ih hp he, Algebra.value, hop]
    exact congrArg (groupRows mask · column (e.value f)) free.sorted_eq.symm

end Network

def Algebra.Buildable (site : Site) : Algebra → Prop
  | constant rows arity => ∀ t ∈ rows, t.length = arity
  | input _ => True
  | production query arity => site.Calls query arity
  | trim e mask => e.Buildable site ∧ mask.width = e.arity
  | constantFilter e column _ => e.Buildable site ∧ column < e.arity
  | equalityFilter e groups => e.Buildable site ∧ ∀ g ∈ groups, ∀ i ∈ g, i < e.arity
  | inequalityFilter e left right => e.Buildable site ∧ left < e.arity ∧ right < e.arity
  | expression e evaluator inputs _ => e.Buildable site ∧
      (∃ x, site.catalog.evaluators[evaluator]? = some x) ∧ ∀ i ∈ inputs, i < e.arity
  | join a p b q | existence a p b q _ =>
    a.Buildable site ∧ b.Buildable site ∧ p.width = a.arity ∧ q.width = b.arity
  | outerJoin a p b q defaults => a.Buildable site ∧ b.Buildable site ∧ p.width = a.arity ∧
      q.width = b.arity ∧ q.complement.arity = defaults.arity
  | grouping e mask operator column => e.Buildable site ∧
      (∃ op, site.catalog.aggregators[operator]? = some op) ∧ mask.width = e.arity ∧
        ∀ i, column = some i → i < mask.width
  | closure e => e.Buildable site ∧ e.arity = 2

theorem Algebra.Fits.buildable {site : Site} {e : Algebra}
    (h : e.Fits site.catalog site.Calls) : e.Buildable site := by
  induction e with
  | constant _ _ | input _ | production _ _ => exact h
  | trim e _ ih | constantFilter e _ _ ih | equalityFilter e _ ih | inequalityFilter e _ _ ih
  | expression e _ _ _ ih | closure e ih => exact ⟨ih h.1, h.2⟩
  | join a _ b _ iha ihb | existence a _ b _ _ iha ihb | outerJoin a _ b _ _ iha ihb =>
    exact ⟨iha h.1, ihb h.2.1, h.2.2⟩
  | grouping e _ _ _ ih =>
    obtain ⟨he, ⟨op, hop, -⟩, hm, hc⟩ := h
    exact ⟨ih he, ⟨op, hop⟩, hm, hc⟩

structure Scope.Serves (s : Scope) (site : Site) : Prop where
  calls : ∀ name arity, s.calls name arity → site.Calls name arity
  guarded : ∀ name arity, s.guarded name arity → site.Calls name arity
  evaluator : ∀ name, s.evaluator name → ∃ x, site.catalog.evaluators[name]? = some x
  operator : ∀ name, s.operator name → ∃ op, site.catalog.aggregators[name]? = some op

theorem Scope.Serves.closed {s : Scope} {site : Site} (h : s.Serves site) : s.closed.Serves site :=
  ⟨h.guarded, h.guarded, h.evaluator, h.operator⟩

theorem Algebra.WellFormed.buildable {s : Scope} {site : Site} {e : Algebra} (h : e.WellFormed s)
    (hs : s.Serves site) : e.Buildable site := by
  induction e generalizing s with
  | constant _ _ | input _ => exact h
  | production query arity => exact hs.calls query arity h
  | trim e _ ih | constantFilter e _ _ ih | equalityFilter e _ ih | inequalityFilter e _ _ ih
  | closure e ih => exact ⟨ih h.1 hs, h.2⟩
  | expression e evaluator _ _ ih =>
    obtain ⟨he, hev, hi, -⟩ := h
    exact ⟨ih he hs, hs.evaluator evaluator hev, hi⟩
  | join a _ b _ iha ihb =>
    obtain ⟨ha, hb, hp, hq, -⟩ := h
    exact ⟨iha ha hs, ihb hb hs, hp, hq⟩
  | existence a _ b _ _ iha ihb =>
    obtain ⟨ha, hb, hp, hq, -⟩ := h
    exact ⟨iha ha hs, ihb hb hs.closed, hp, hq⟩
  | outerJoin a _ b _ _ iha ihb =>
    obtain ⟨ha, hb, hp, hq, -, hd⟩ := h
    exact ⟨iha ha hs, ihb hb hs.closed, hp, hq, hd⟩
  | grouping e _ operator _ ih =>
    obtain ⟨he, hop, hm, hc⟩ := h
    exact ⟨ih he hs.closed, hs.operator operator hop, hm, fun i hi => hm ▸ hc i hi⟩

namespace Discipline
variable {site : Site}

structure Lays (D : Discipline site) (evaluators : String → Evaluator → Prop)
    (operators : String → Aggregator → Prop) : Prop where
  shows : ∀ {net : Network} {e : Algebra} {id : NodeId}, D.renders net e id ↔
    net.Shows evaluators operators site.productions e id
  evaluator : ∀ (name : String) (x : Evaluator), site.catalog.evaluators[name]? = some x →
    evaluators name x
  operator : ∀ (name : String) (op : Aggregator), site.catalog.aggregators[name]? = some op →
    operators name op
  production : ∀ {s : Installed} {q : String} {id : NodeId} {query : Query}, D.good s →
    site.productions[q]? = some id → site.catalog.queries[q]? = some query →
    ∃ ps, s.network.HasNode id (.production q ∅) ps query.arity
  constant : ∀ {s : Installed} {rows : List Tuple} {arity : Nat}, D.good s →
    (∀ t ∈ rows, t.length = arity) →
    D.Meets s (s.make (.ok (s.network.addConstant rows arity))) fun net id =>
      net.HasNode id (.constant rows) [] arity
  input : ∀ {s : Installed} (r : Relation), D.good s →
    D.Meets s (s.make (s.network.installInput site.graph r)) fun net id =>
      ∃ unique ps, net.HasNode id (.input r unique ∅) ps r.arity
  child : ∀ {s : Installed} {e : Algebra} {p : NodeId} {n : Node} {arity : Nat}, D.good s →
    D.renders s.network e p → n.isFed = true → n.isProduction = false → n.bare = n →
    n.Fits s.network.maskOf (s.network.widthOf p) arity →
    D.Meets s (s.make (s.network.addChild p n arity)) fun net id => net.HasNode id n [p] arity
  pair : ∀ {s : Installed} {e e' : Algebra} {p q : NodeId} {pm sm : Mask} {arity : Nat}
    (make : IndexId → IndexId → Node), D.good s → D.renders s.network e p →
    D.renders s.network e' q → pm.width = s.network.widthOf p → sm.width = s.network.widthOf q →
    (∀ I J, (make I J).source .primary = some I) → (∀ I J, (make I J).source .secondary = some J) →
    (∀ I J, (make I J).isStateful = false) →
    (∀ (masks : IndexId → Mask) I J, masks I = pm → masks J = sm →
      (make I J).Fits masks 0 arity) →
    D.Meets s (s.make (do
      let (net, I) ← s.network.indexFor p pm
      let (net, J) ← net.indexFor q sm
      return net.addOverIndexes (make I J) (p, I) (q, J) arity)) fun net id =>
        net.HasPair id make p pm q sm arity
  grouping : ∀ {s : Installed} {e : Algebra} {p : NodeId} {mask : Mask} (op : Aggregator)
    {column : Option Nat}, D.good s → D.renders s.network e p → mask.width = s.network.widthOf p →
    (∀ c, column = some c → c < mask.width) →
    D.Meets s (s.make (s.network.addGrouping p mask op column)) fun net id =>
      net.HasGrouping id p mask op column

variable {D : Discipline site} {evaluators : String → Evaluator → Prop}
  {operators : String → Aggregator → Prop} (L : D.Lays evaluators operators) {s : Installed}
include L

theorem Lays.childOf (h : D.good s) {e : Algebra} {p : NodeId} {n : Node} (widen : Nat → Nat)
    (hp : D.renders s.network e p) (fed : n.isFed = true) (production : n.isProduction = false)
    (bare : n.bare = n) (fits : n.Fits s.network.maskOf e.arity (widen e.arity)) :
    D.Meets s (s.make (do s.network.addChild p n (widen (← s.network.arity p)))) fun net id =>
      net.HasNode id n [p] (widen e.arity) := by
  obtain ⟨hlt, hw⟩ := D.wide hp
  obtain ⟨-, -, -, arity⟩ := Network.vertex_eq hlt
  rw [arity, hw]
  exact L.child h hp fed production bare (hw ▸ fits)

theorem Lays.pairOf (h : D.good s) {a b : Algebra} {p q : NodeId} {pm sm : Mask}
    (make : IndexId → IndexId → Node) (widen : Nat → Nat) (hp : D.renders s.network a p)
    (hq : D.renders s.network b q) (hpm : pm.width = a.arity) (hsm : sm.width = b.arity)
    (primary : ∀ I J, (make I J).source .primary = some I)
    (secondary : ∀ I J, (make I J).source .secondary = some J)
    (stateless : ∀ I J, (make I J).isStateful = false)
    (fits : ∀ (masks : IndexId → Mask) I J, masks I = pm → masks J = sm →
      (make I J).Fits masks 0 (widen a.arity)) :
    D.Meets s (s.make (do
      let width ← s.network.arity p
      let (net, I) ← s.network.indexFor p pm
      let (net, J) ← net.indexFor q sm
      return net.addOverIndexes (make I J) (p, I) (q, J) (widen width))) fun net id =>
        net.HasPair id make p pm q sm (widen a.arity) := by
  obtain ⟨hlt, hwp⟩ := D.wide hp
  obtain ⟨-, -, -, arity⟩ := Network.vertex_eq hlt
  rw [arity, hwp]
  exact L.pair make h hp hq (hpm.trans hwp.symm) (hsm.trans (D.wide hq).2.symm) primary secondary
    stateless fits

theorem Lays.install (h : D.good s) {e : Algebra} (he : e.Buildable site) :
    D.Meets s (s.install site e) fun net id => D.renders net e id := by
  induction e generalizing s with
  | production q arity =>
    obtain ⟨⟨id, hid⟩, query, hq, rfl⟩ := he
    refine ⟨s, id, ?_, h, D.refl _, L.shows.2 ⟨hid, L.production h hid hq⟩⟩
    simp only [Installed.install, hid]
  | constant rows arity => exact remember h ((L.constant h he).mono fun hn => L.shows.2 hn)
  | input r => exact remember h ((L.input r h).mono fun hn => L.shows.2 hn)
  | trim e mask ih =>
    rw [Installed.install]
    refine Discipline.child (a := .trim e mask) h (·.addTrim · mask) (ih h he.1) ?_
      fun hr hn => L.shows.2 ⟨_, L.shows.1 hr, hn⟩
    exact fun hs hp hw => L.child hs hp rfl rfl rfl ⟨he.2.trans hw.symm, rfl⟩
  | constantFilter e column value ih =>
    rw [Installed.install]
    refine Discipline.child (a := .constantFilter e column value) h
      (·.addConstantFilter · column value) (ih h he.1) ?_
      fun hr hn => L.shows.2 ⟨_, L.shows.1 hr, hn⟩
    exact fun hs hp _ => L.childOf hs id hp rfl rfl rfl ⟨he.2, rfl⟩
  | equalityFilter e groups ih =>
    rw [Installed.install]
    refine Discipline.child (a := .equalityFilter e groups) h (·.addEqualityFilter · groups)
      (ih h he.1) ?_ fun hr hn => L.shows.2 ⟨_, L.shows.1 hr, hn⟩
    exact fun hs hp _ => L.childOf hs id hp rfl rfl rfl ⟨he.2, rfl⟩
  | inequalityFilter e left right ih =>
    rw [Installed.install]
    refine Discipline.child (a := .inequalityFilter e left right) h
      (·.addInequalityFilter · left right) (ih h he.1) ?_
      fun hr hn => L.shows.2 ⟨_, L.shows.1 hr, hn⟩
    exact fun hs hp _ => L.childOf hs id hp rfl rfl rfl ⟨he.2.1, he.2.2, rfl⟩
  | expression e evaluator inputs mode ih =>
    obtain ⟨he, ⟨x, hx⟩, hi⟩ := he
    rw [Installed.install, Catalog.evaluator_of hx]
    refine Discipline.child (a := .expression e evaluator inputs mode) h
      (·.addExpression · x inputs mode) (ih h he) ?_
      fun hr hn => L.shows.2 ⟨_, x, L.evaluator _ x hx, L.shows.1 hr, hn⟩
    intro _ _ hs hp _
    cases mode with
    | check => exact L.childOf (e := e) hs id hp rfl rfl rfl ⟨hi, rfl⟩
    | bind => exact L.childOf (e := e) hs (· + 1) hp rfl rfl rfl ⟨hi, rfl⟩
  | join a pm b sm iha ihb =>
    obtain ⟨ha, hb, hpm, hsm⟩ := he
    rw [Installed.install]
    refine Discipline.pair (a := .join a pm b sm) h (·.addJoin · pm · sm) (iha h ha)
      (fun hs => ihb hs hb) ?_ fun hr hr' hn => L.shows.2 ⟨_, _, L.shows.1 hr, L.shows.1 hr', hn⟩
    intro _ _ _ hs hp hq _ _
    refine L.pairOf hs (.join · · sm.complement) (· + sm.complement.arity) hp hq hpm hsm
      (fun _ _ => rfl) (fun _ _ => rfl) (fun _ _ => rfl) fun masks I J hI hJ => ?_
    exact ⟨by rw [hJ], by rw [hI, hpm]⟩
  | existence a pm b sm negative iha ihb =>
    obtain ⟨ha, hb, hpm, hsm⟩ := he
    rw [Installed.install]
    refine Discipline.pair (a := .existence a pm b sm negative) h
      (·.addExistence · pm · sm negative) (iha h ha) (fun hs => ihb hs hb) ?_
      fun hr hr' hn => L.shows.2 ⟨_, _, L.shows.1 hr, L.shows.1 hr', hn⟩
    intro _ _ _ hs hp hq _ _
    refine L.pairOf hs (.existence · · negative) id hp hq hpm hsm (fun _ _ => rfl)
      (fun _ _ => rfl) (fun _ _ => rfl) fun masks I J hI hJ => ?_
    exact hpm.symm.trans (congrArg Mask.width hI.symm)
  | outerJoin a pm b sm defaults iha ihb =>
    obtain ⟨ha, hb, hpm, hsm, hd⟩ := he
    rw [Installed.install]
    refine Discipline.pair (a := .outerJoin a pm b sm defaults) h
      (·.addOuterJoin · pm · sm defaults) (iha h ha) (fun hs => ihb hs hb) ?_
      fun hr hr' hn => L.shows.2 ⟨_, _, L.shows.1 hr, L.shows.1 hr', hn⟩
    intro _ _ _ hs hp hq _ _
    rw [Network.addOuterJoin, if_neg (not_not_intro hd)]
    refine L.pairOf hs (.outerJoin · · sm.complement defaults) (· + sm.complement.arity) hp hq hpm
      hsm (fun _ _ => rfl) (fun _ _ => rfl) (fun _ _ => rfl) fun masks I J hI hJ => ?_
    exact ⟨by rw [hJ], hd.symm, by rw [hI, hpm, hd]⟩
  | grouping e mask operator column ih =>
    obtain ⟨he, ⟨op, hop⟩, hm, hc⟩ := he
    rw [Installed.install, Catalog.aggregator_of hop]
    refine Discipline.child (a := .grouping e mask operator column) h
      (·.addGrouping · mask op column) (ih h he) ?_
      fun hr hn => L.shows.2 ⟨_, op, L.operator _ op hop, L.shows.1 hr, hn⟩
    exact fun hs hp hw => L.grouping op hs hp (hm.trans hw.symm) hc
  | closure e ih =>
    rw [Installed.install]
    refine Discipline.child (a := .closure e) h (·.addClosure ·) (ih h he.1) ?_
      fun hr hn => L.shows.2 ⟨_, L.shows.1 hr, hn⟩
    intro _ _ hs hp hw
    obtain ⟨-, -, -, arity⟩ := Network.vertex_eq (D.wide hp).1
    rw [Network.addClosure, arity, hw, he.2]
    exact L.child hs hp rfl rfl rfl ⟨hw.trans he.2, rfl⟩

end Discipline

namespace Installed
variable {site : Site} {s s' : Installed} {e : Algebra} {id : NodeId}

def Files (s s' : Installed) : Prop :=
  ∀ (k : Nat × Algebra) (id : NodeId), s.nodes.get? k = some id → s'.nodes.get? k = some id

theorem Files.refl (s : Installed) : Files s s := fun _ _ h => h

theorem Files.trans {s'' : Installed} (h : Files s s') (h' : Files s' s'') : Files s s'' :=
  fun k id hk => h' k id (h k id hk)

def Has (site : Site) (s : Installed) : Algebra → NodeId → Prop
  | .production q _, id => site.productions[q]? = some id
  | e, id => s.nodes.get? (e.size, e) = some id

/-- An expression is installed alike where the queries that it reads have the same nodes. -/
theorem install_congr {site' : Site} (catalog : site'.catalog = site.catalog)
    (graph : site'.graph = site.graph) {sc : Scope} (he : e.WellFormed sc)
    (calls : ∀ name arity, sc.calls name arity → site'.productions[name]? = site.productions[name]?)
    (guarded : ∀ name arity, sc.guarded name arity →
      site'.productions[name]? = site.productions[name]?) : s.install site' e = s.install site e := by
  induction e generalizing s sc with
  | constant _ _ => rfl
  | input r => rw [install, install, graph]
  | production q arity => rw [install, install, calls q arity he]
  | trim e _ ih | constantFilter e _ _ ih | equalityFilter e _ ih | inequalityFilter e _ _ ih
  | closure e ih =>
    have same : ∀ s : Installed, s.install site' e = s.install site e := fun _ => ih he.1 calls guarded
    simp only [install, same]
  | expression e _ _ _ ih =>
    have same : ∀ s : Installed, s.install site' e = s.install site e := fun _ => ih he.1 calls guarded
    simp only [install, same, catalog]
  | join a _ b _ iha ihb =>
    have same : ∀ s : Installed, s.install site' a = s.install site a := fun _ => iha he.1 calls guarded
    have same' : ∀ s : Installed, s.install site' b = s.install site b := fun _ =>
      ihb he.2.1 calls guarded
    simp only [install, same, same']
  | existence a _ b _ _ iha ihb | outerJoin a _ b _ _ iha ihb =>
    have same : ∀ s : Installed, s.install site' a = s.install site a := fun _ => iha he.1 calls guarded
    have same' : ∀ s : Installed, s.install site' b = s.install site b := fun _ =>
      ihb he.2.1 guarded guarded
    simp only [install, same, same']
  | grouping e _ _ _ ih =>
    have same : ∀ s : Installed, s.install site' e = s.install site e := fun _ =>
      ih he.1 guarded guarded
    simp only [install, same, catalog]

theorem Has.mono {site' : Site} (h : s.Has site e id) (hf : s.Files s')
    (hp : ∀ (q : String) (id : NodeId), site.productions[q]? = some id →
      site'.productions[q]? = some id) : s'.Has site' e id := by
  cases e with
  | production q _ => exact hp q id h
  | _ => exact hf _ id h

theorem nodes_of_make {r : Except Fault (Network × NodeId)} (h : s.make r = .ok (s', id)) :
    s'.nodes = s.nodes := by
  cases r with
  | error f => cases h
  | ok made =>
    cases h
    rfl

theorem files_of_remember {build : Installed → Except Failure (Installed × NodeId)}
    (hb : ∀ s' id, build s = .ok (s', id) → s.Files s') (h : s.remember e build = .ok (s', id)) :
    s.Files s' ∧ s'.nodes.get? (e.size, e) = some id := by
  cases hold : s.nodes.get? (e.size, e) with
  | some id' =>
    rw [remember] at h
    simp only [hold] at h
    cases h
    exact ⟨.refl s, hold⟩
  | none =>
    rw [remember] at h
    simp only [hold] at h
    obtain ⟨⟨s₁, id'⟩, hbuild, h⟩ := bind_ok h
    cases h
    refine ⟨fun k i hk => ?_, by rw [Table.get?_set, if_pos rfl]⟩
    rw [Table.get?_set, if_neg, hb _ _ hbuild k i hk]
    rintro rfl
    cases hold.symm.trans hk

theorem files_of_install (h : s.install site e = .ok (s', id)) : s.Files s' ∧ s'.Has site e id := by
  induction e generalizing s s' id with
  | production q arity =>
    rw [install] at h
    split at h
    · next hid =>
      cases h
      exact ⟨.refl s, hid⟩
    · cases h
  | constant _ _ | input _ =>
    refine files_of_remember (fun s' id hb k i hk => ?_) h
    rw [nodes_of_make hb]
    exact hk
  | trim e _ ih | constantFilter e _ _ ih | equalityFilter e _ ih | inequalityFilter e _ _ ih
  | closure e ih =>
    refine files_of_remember (fun s' id hb k i hk => ?_) h
    obtain ⟨⟨s₁, p⟩, h₁, hb⟩ := bind_ok hb
    rw [nodes_of_make hb]
    exact (ih h₁).1 k i hk
  | expression e _ _ _ ih | grouping e _ _ _ ih =>
    refine files_of_remember (fun s' id hb k i hk => ?_) h
    obtain ⟨x, -, hb⟩ := bind_ok hb
    obtain ⟨⟨s₁, p⟩, h₁, hb⟩ := bind_ok hb
    rw [nodes_of_make hb]
    exact (ih h₁).1 k i hk
  | join a _ b _ iha ihb | existence a _ b _ _ iha ihb | outerJoin a _ b _ _ iha ihb =>
    refine files_of_remember (fun s' id hb k i hk => ?_) h
    obtain ⟨⟨s₁, p⟩, h₁, hb⟩ := bind_ok hb
    obtain ⟨⟨s₂, q⟩, h₂, hb⟩ := bind_ok hb
    rw [nodes_of_make hb]
    exact ((iha h₁).1.trans (ihb h₂).1) k i hk

end Installed
end Motif
