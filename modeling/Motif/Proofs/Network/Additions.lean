import Motif.Proofs.Network.Expansion

set_option autoImplicit false
namespace Motif
namespace Network

variable {net net' net'' : Network} {out : NodeId → Multiset Tuple}

structure Prolongs (net net' : Network) : Prop where
  receivers : ∀ q, net.receiversOf q <+: net'.receiversOf q
  listeners : ∀ I, net.listenersOf I <+: net'.listenersOf I

namespace Prolongs

theorem of_bare_eq (h : net'.bare = net.bare) : Prolongs net net' where
  receivers q := by rw [receiversOf_of_bare_eq h]
  listeners I := by rw [listenersOf_of_bare_eq h]

theorem trans (e : Prolongs net net') (e' : Prolongs net' net'') : Prolongs net net'' where
  receivers q := (e.receivers q).trans (e'.receivers q)
  listeners I := (e.listeners I).trans (e'.listeners I)

theorem feeds (h : Prolongs net net') {q n : NodeId} (hf : net.Feeds q n) : net'.Feeds q n := by
  obtain hr | ⟨I, side, hr, hl⟩ := hf
  · exact .inl ((h.receivers q).subset hr)
  · exact .inr ⟨I, side, (h.receivers q).subset hr, (h.listeners I).subset hl⟩

theorem below (h : Prolongs net net') {q n : NodeId} (hb : net.Below q n) : net'.Below q n :=
  Relation.TransGen.mono (fun _ _ => h.feeds) _ _ hb

theorem acyclic (h : Prolongs net net') (a : net'.Acyclic) : net.Acyclic := fun n hn => a n (h.below hn)

theorem untangled (h : Prolongs net net') (u : net'.Untangled) : net.Untangled := fun I =>
  ((u I).sublist (h.listeners I).sublist).imp fun apart hb => apart (h.below hb)

end Prolongs

theorem Pushed.prolongs {v : Vertex} (p : Pushed net net' v) : Prolongs net net' where
  receivers q := by
    rw [Network.receiversOf, Network.receiversOf]
    by_cases hq : q = net.vertices.size
    · rw [hq, Array.getElem?_eq_none (Nat.le_refl _)]
      exact List.nil_prefix
    · rw [p.old q hq]
      cases net.vertices[q]? with
      | none => exact List.nil_prefix
      | some u => exact List.prefix_append _ _
  listeners I := by
    rw [Network.listenersOf, Network.listenersOf, p.arrangement]
    cases net.arrangements[I]? with
    | none => exact List.nil_prefix
    | some a => exact List.prefix_append _ _

theorem Indexed.prolongs {a : Arrangement} (x : Indexed net net' a) : Prolongs net net' where
  receivers q := by
    rw [Network.receiversOf, Network.receiversOf, x.vertex]
    cases net.vertices[q]? with
    | none => exact List.nil_prefix
    | some u => exact List.prefix_append _ _
  listeners I := by
    rw [Network.listenersOf, Network.listenersOf]
    by_cases hI : I = net.arrangements.size
    · rw [hI, Array.getElem?_eq_none (Nat.le_refl _)]
      exact List.nil_prefix
    · rw [x.old I hI]

theorem Hooked.prolongs {p m : NodeId} (x : Hooked net net' p m) : Prolongs net net' where
  receivers q := by
    rw [Network.receiversOf, Network.receiversOf, x.vertex]
    cases net.vertices[q]? with
    | none => exact List.nil_prefix
    | some u => exact List.prefix_append _ _
  listeners I := by rw [x.listenersOf]

structure Extends (net net' : Network) : Prop where
  keeps : Keeps net.bare net'.bare
  parents : ∀ (q : NodeId) (v v' : Vertex), net.vertices[q]? = some v →
    net'.vertices[q]? = some v' → v'.parents = v.parents
  prolongs : Prolongs net net'

theorem Extends.of_bare_eq (h : net'.bare = net.bare) : Extends net net' := by
  refine ⟨.of_bare_eq h, fun q v v' hv hv' => ?_, .of_bare_eq h⟩
  obtain ⟨u, hu, e⟩ := exists_vertex_of_bare_eq h hv'
  cases hv.symm.trans hu
  exact (Vertex.eq_of_bare_eq e).2.1

theorem Extends.trans (e : Extends net net') (e' : Extends net' net'') : Extends net net'' := by
  refine ⟨e.keeps.trans e'.keeps, fun q v v'' hv hv'' => ?_, e.prolongs.trans e'.prolongs⟩
  obtain ⟨u, hu, -⟩ := e.keeps.vertex q _ (vertex_bare hv)
  obtain ⟨v', hv', -⟩ := vertices_bare_eq_some.1 hu
  exact (e'.parents q v' v'' hv' hv'').trans (e.parents q v v' hv hv')

theorem Extends.lt_size (e : Extends net net') {q : NodeId} (hq : q < net.vertices.size) :
    q < net'.vertices.size := by
  obtain ⟨u, hu, -⟩ := e.keeps.vertex q _ (vertex_bare (Array.getElem?_eq_getElem hq))
  obtain ⟨v, hv, -⟩ := vertices_bare_eq_some.1 hu
  exact (Array.getElem?_eq_some_iff.1 hv).1

theorem Pushed.extends {v : Vertex} (p : Pushed net net' v) : Extends net net' := by
  refine ⟨p.keeps.bare, fun q u u' hu hu' => ?_, p.prolongs⟩
  cases (p.vertex hu).symm.trans hu'
  rfl

theorem Indexed.extends {a : Arrangement} (x : Indexed net net' a) : Extends net net' := by
  refine ⟨x.keeps.bare, fun q u u' hu hu' => ?_, x.prolongs⟩
  obtain ⟨u₂, hu₂, -, hpar, -⟩ := x.cases hu'
  cases hu.symm.trans hu₂
  exact hpar

theorem HasNode.extends {id : NodeId} {n : Node} {parents : List NodeId} {arity : Nat}
    (h : net.HasNode id n parents arity) (e : Extends net net') :
    net'.HasNode id n parents arity := by
  obtain ⟨v, hv, hn, hpar, ha⟩ := h
  obtain ⟨u, hu, hn', ha', -⟩ := e.keeps.vertex id _ (vertex_bare hv)
  obtain ⟨v', hv', rfl⟩ := vertices_bare_eq_some.1 hu
  exact ⟨v', hv', hn'.trans hn, (e.parents id v v' hv hv').trans hpar, ha'.trans ha⟩

/-- A saturated network has grown to another, which has been given the same from outside. -/
structure Enlarged (net net' : Network) : Prop where
  saturated : ∃ out, net'.Saturated out
  extension : Extends net net'
  inputs : net'.inputs = net.inputs
  given : net'.given = net.given

theorem Enlarged.refl (h : net.Saturated out) : Enlarged net net :=
  ⟨⟨out, h⟩, .of_bare_eq rfl, rfl, rfl⟩

theorem Enlarged.trans (e : Enlarged net net') (e' : Enlarged net' net'') : Enlarged net net'' :=
  ⟨e'.saturated, e.extension.trans e'.extension, e'.inputs.trans e.inputs, e'.given.trans e.given⟩

theorem Positive.pushed (w : net.Wired) (pos : net.Positive) {v : Vertex} (ad : net.Admits v)
    (p : Pushed net net' v) (hpos : v.node.isPositive = true) : net'.Positive := by
  refine ⟨fun q u' hu' => ?_, fun I l hl => ?_⟩
  · obtain ⟨-, rfl⟩ | ⟨u, -, hu, hn, -⟩ := p.cases hu'
    · exact hpos
    · exact hn ▸ pos.nodes q u hu
  · rw [p.listenersOf ad.sources, List.mem_append] at hl
    rcases hl with hl | hl
    · obtain ⟨u, hu, hs⟩ := (w.listens l.1 l.2 I).1 hl
      obtain ⟨a, ha⟩ := w.exists_arrangement hu hs
      rw [p.keeps.parentOf ha]
      exact pos.forward I l hl
    · obtain ⟨side, hm, rfl⟩ := List.mem_map.1 hl
      obtain ⟨a, ha⟩ := ad.sources side I (Node.mem_sidesOf.1 hm)
      rw [p.keeps.parentOf ha, parentOf_eq ha]
      exact w.lt_size_parent ha

theorem Positive.hooked {p m : NodeId} (pos : net.Positive) (x : Hooked net net' p m) :
    net'.Positive := by
  refine ⟨fun q u' hu' => ?_, fun I l hl => ?_⟩
  · obtain ⟨u, hu, hn, -⟩ := x.cases hu'
    exact hn ▸ pos.nodes q u hu
  · rw [x.listenersOf] at hl
    rw [parentOf, x.arrangements]
    exact pos.forward I l hl

theorem Positive.indexed (w : net.Wired) (pos : net.Positive) {a : Arrangement}
    (x : Indexed net net' a) (hl : a.listeners = []) : net'.Positive := by
  refine ⟨fun q u' hu' => ?_, fun I l h => ?_⟩
  · obtain ⟨u, hu, hn, -⟩ := x.cases hu'
    exact hn ▸ pos.nodes q u hu
  · rw [x.listenersOf hl] at h
    obtain ⟨u, hu, hs⟩ := (w.listens l.1 l.2 I).1 h
    obtain ⟨b, hb⟩ := w.exists_arrangement hu hs
    rw [x.keeps.parentOf hb]
    exact pos.forward I l h

namespace Saturated

theorem of_eq (h : net.Saturated out) (hb : net'.bare = net.bare)
    (hv : net'.vertices = net.vertices) (ha : net'.arrangements = net.arrangements) :
    net'.Saturated out := by
  obtain ⟨fed, hs⟩ := h.settled
  refine ⟨h.wired.of_bare_eq hb, h.positive.of_bare_eq hb, fed, ?_⟩
  have hg : net'.given = net.given := by
    funext q
    rw [Network.given, Network.given, hv]
  rw [hb, hg]
  exact hs.of_eq hb hv ha

theorem pushed (h : net.Saturated out) {v : Vertex} (ad : net.Admits v)
    (connected : v.node.isFed = true → v.node.isProduction = false → v.parents ≠ [])
    (p : Pushed net net' v) (hpos : v.node.isPositive = true)
    (hin : v.node.isInput = true → fedBy (fun _ => 0) v = 0)
    (holds : v.node.Holds net.maskOf (fedFrom net.given out net.vertices.size v) fun _ => 0) :
    ∃ out', net'.Saturated out' := by
  obtain ⟨fed, hs⟩ := h.settled
  exact ⟨_, h.wired.pushed ad connected p, h.positive.pushed h.wired ad p hpos, _,
    Spreading.pushed h.wired h.positive hs ad p hpos hin holds⟩

theorem addConstant (h : net.Saturated out) {rows : List Tuple} {arity : Nat}
    (hw : ∀ t ∈ rows, t.length = arity) :
    Enlarged net (net.addConstant rows arity).1 ∧
      (net.addConstant rows arity).1.HasNode (net.addConstant rows arity).2 (.constant rows) []
        arity := by
  have p : Pushed net _ _ := pushed_addConstant rows arity
  exact ⟨⟨h.pushed (admits_constant hw) (fun hf => by cases hf) p rfl (fun hi => by cases hi) trivial,
    p.extends, rfl, p.given fun hi => by cases hi⟩, _, p.fresh, rfl, rfl, rfl⟩

theorem addProduction (h : net.Saturated out) (query : String) (arity : Nat) :
    Enlarged net (net.addProduction query arity).1 ∧
      (net.addProduction query arity).1.HasNode (net.addProduction query arity).2
        (.production query ∅) [] arity := by
  have p : Pushed net _ _ := pushed_addProduction query arity
  have ad : net.Admits ⟨.production query ∅, [], [], arity⟩ :=
    .root arity (fun side => by cases side <;> rfl) rfl
  exact ⟨⟨h.pushed ad (fun _ hp => by cases hp) p rfl (fun hi => by cases hi) Bag.toMultiset_empty,
    p.extends, rfl, p.given fun hi => by cases hi⟩, _, p.fresh, rfl, rfl, rfl⟩

theorem addInput (h : net.Saturated out) {r : Relation} (hr : net.inputs[r]? = none) (arity : Nat)
    (unique : Bool) :
    (∃ out', (net.addInput r arity unique).1.Saturated out') ∧
      Extends net (net.addInput r arity unique).1 ∧
      (net.addInput r arity unique).1.given = net.given ∧
      (net.addInput r arity unique).2 = net.vertices.size ∧
      (∀ r', (net.addInput r arity unique).1.inputs[r']? =
        if r = r' then some net.vertices.size else net.inputs[r']?) ∧
      (net.addInput r arity unique).1.HasNode net.vertices.size (.input r unique ∅) [] arity := by
  obtain ⟨p, hid, hin⟩ := pushed_addInput hr arity unique
  have ad : net.Admits ⟨.input r unique ∅, [], [], arity⟩ :=
    .root arity (fun side => by cases side <;> rfl) rfl
  refine ⟨h.pushed ad (fun hf => by cases hf) p rfl (fun _ => Bag.toMultiset_empty) ?_, p.extends,
    p.given fun _ => Bag.toMultiset_empty, hid, hin, _, p.fresh, rfl, rfl, rfl⟩
  rw [fedFrom, if_neg (by simp [Node.isFed]), given_size]
  exact Bag.toMultiset_empty

theorem pull_of_keeps (h : net.Saturated out) (k : Keeps net net') {p : NodeId}
    (hp : p < net.vertices.size) : ∃ rows, net'.pull p = .ok rows ∧ ∀ t, t ∈ rows ↔ t ∈ out p := by
  obtain ⟨rows, hrows, hval⟩ := h.pull hp
  obtain ⟨more, hmore⟩ := Nat.exists_eq_add_of_le k.size_le
  refine ⟨rows, ?_, hval⟩
  rw [Network.pull, hmore]
  exact k.pullWithin hrows

section hook
variable {p m : NodeId}

/-- A node with a further parent receives what that has put out, and all that follows. -/
theorem feed_hooked {fed : NodeId → Multiset Tuple} (pos : net.Positive)
    (hs : Spreading net.bare net.given net [] fed out) (x : Hooked net net' p m) (w' : net'.Wired)
    (hp : p < net.vertices.size) {rows : List Tuple} (hrows : ∀ t, t ∈ rows ↔ t ∈ out p) :
    ∃ net'' out', net'.feed m rows = .ok net'' ∧ net''.bare = net'.bare ∧ net''.Saturated out' ∧
      net''.given = net.given := by
  have pos' := (positive_bare net').2 (pos.hooked x)
  have hg := x.given
  obtain ⟨net'', fed', out', hfeed, hs', -⟩ := (hs.hooked pos x hp hrows).feed w'.bare pos'
  have hbase : ∀ q, (∀ v, net'.bare.vertices[q]? = some v → v.node.isInput = false) →
      net'.given q = 0 := fun q hq => given_of_not_input hq
  exact ⟨net'', out', hfeed, hs'.bare, hs'.saturated w'.bare pos' hbase,
    (hs'.given_eq hbase).trans hg⟩

theorem connect (h : net.Saturated out) {v : Vertex} (hv : net.vertices[m]? = some v)
    (hprod : v.node.isProduction = true) (hp : p < net.vertices.size)
    (hw : net.widthOf p = net.widthOf m) :
    ∃ net', net.connect m p = .ok net' ∧ (∃ out', net'.Saturated out') ∧
      Keeps net.bare net'.bare ∧ net'.inputs = net.inputs ∧ net'.given = net.given ∧
      ∀ (q : NodeId) (u u' : Vertex), net.vertices[q]? = some u → net'.vertices[q]? = some u' →
        u'.parents = u.parents ++ if q = m then [p] else [] := by
  obtain ⟨fed, hs⟩ := h.settled
  obtain ⟨net₁, x, -, hconnect⟩ := exists_connect (Array.getElem?_eq_some_iff.1 hv).1 hp hw
  have w₁ := x.wired h.wired hv hprod hp hw
  have k := x.keeps hv hprod
  obtain ⟨rows, hpull, hrows⟩ := h.pull_of_keeps k hp
  obtain ⟨net₂, out₂, hfeed, hbare, h₂, hgiven⟩ := feed_hooked h.positive hs x w₁ hp hrows
  refine ⟨net₂, ?_, ⟨out₂, h₂⟩, k.bare.trans (.of_bare_eq hbare),
    (congrArg Network.inputs hbare : net₂.bare.inputs = net₁.bare.inputs).trans x.inputs, hgiven,
    fun q u u' hu hu' => ?_⟩
  · rw [hconnect, hpull]
    exact hfeed
  · obtain ⟨u₁, hu₁, -, hpar, -⟩ := x.vertex_of hu
    exact ((Extends.of_bare_eq hbare).parents q u₁ u' hu₁ hu').trans hpar

end hook

def Adds (net : Network) (r : Except Fault (Network × NodeId)) (make : Network → NodeId → Prop) :
    Prop :=
  ∃ net' id, r = .ok (net', id) ∧ Enlarged net net' ∧ make net' id

section child
variable {p : NodeId}

theorem addChild (h : net.Saturated out) {n : Node} {arity : Nat} (hp : p < net.vertices.size)
    (hf : n.isFed = true) (hempty : n.bare = n) (hpos : n.isPositive = true)
    (hfits : n.Fits net.maskOf (net.widthOf p) arity) :
    Adds net (net.addChild p n arity) fun net' id => net'.HasNode id n [p] arity := by
  have ad := admits_child hp hf hfits
  obtain ⟨net₁, pu, x, -, hins, hcall⟩ := exists_addChild hp hf arity
  have hnode : net₁.HasNode net.vertices.size n [p] arity := ⟨_, pu.fresh, rfl, rfl, rfl⟩
  have conn : (⟨n, [p], [], arity⟩ : Vertex).node.isFed = true →
      (⟨n, [p], [], arity⟩ : Vertex).node.isProduction = false →
        (⟨n, [p], [], arity⟩ : Vertex).parents ≠ [] := fun _ _ => by simp
  have hi : n.isInput = false := Node.isInput_of_isFed hf
  cases hstate : n.isStateful with
  | false =>
    refine ⟨net₁, net.vertices.size, by rw [hcall, hstate]; rfl,
      ⟨h.pushed ad conn pu hpos (fun hx => ?_) (Node.holds_of_isStateful_eq_false hstate), pu.extends,
        hins, pu.given fun hx => ?_⟩, hnode⟩
    all_goals exact absurd hx (by simp [hi])
  | true =>
    -- The node stands without its parent first, fed nothing.
    have pu₀ : Pushed net (net.push n [] arity).1 ⟨n, [], [], arity⟩ :=
      pushed_push (Node.source_of_isFed hf) hi fun _ => rfl
    have ad₀ : net.Admits ⟨n, [], [], arity⟩ := .root _ (Node.source_of_isFed hf) hfits
    obtain ⟨fed, hs⟩ := h.settled
    have hfed₀ : fedFrom net.given out net.vertices.size ⟨n, [], [], arity⟩ = 0 := if_pos hf
    have hs₀ := hs.pushed h.wired h.positive ad₀ pu₀ hpos
      (fun hx => absurd hx (by simp [hi])) (by
        rw [hfed₀]
        exact Node.holds_zero hf hempty)
    rw [hfed₀, Node.output_zero hf] at hs₀
    have hsize : (net.push n [] arity).1.vertices.size = net.vertices.size + 1 := Array.size_push _
    obtain ⟨rows, hpull, hrows⟩ := h.pull_of_keeps pu.keeps hp
    obtain ⟨net₂, out₂, hfeed, hbare, h₂, hgiven⟩ := feed_hooked
      (h.positive.pushed h.wired ad₀ pu₀ hpos) hs₀ x (h.wired.pushed ad conn pu)
      (hsize ▸ Nat.lt_succ_of_lt hp) fun t => by rw [hrows, Function.update_of_ne (Nat.ne_of_lt hp)]
    have ext := pu.extends.trans (.of_bare_eq hbare)
    refine ⟨net₂, net.vertices.size, ?_, ⟨⟨out₂, h₂⟩, ext, ?_, hgiven.trans ?_⟩,
      hnode.extends (.of_bare_eq hbare)⟩
    · rw [hcall, hstate, hpull]
      simp only [bind, Except.bind, if_true, hfeed]
      rfl
    · exact (congrArg Network.inputs hbare : net₂.bare.inputs = net₁.bare.inputs).trans hins
    · exact pu₀.given fun hx => absurd hx (by simp [hi])

variable (h : net.Saturated out) (hp : p < net.vertices.size)
include h hp

theorem addTrim {mask : Mask} (hm : mask.width = net.widthOf p) :
    Adds net (net.addTrim p mask) fun net' id => net'.HasNode id (.trim mask) [p] mask.arity :=
  h.addChild hp rfl rfl rfl ⟨hm, rfl⟩

theorem addConstantFilter {column : Nat} (value : Value) (hc : column < net.widthOf p) :
    Adds net (net.addConstantFilter p column value) fun net' id =>
      net'.HasNode id (.constantFilter column value) [p] (net.widthOf p) := by
  obtain ⟨-, -, -, ha⟩ := vertex_eq hp
  rw [Network.addConstantFilter, ha]
  exact h.addChild hp rfl rfl rfl ⟨hc, rfl⟩

theorem addEqualityFilter {groups : List (List Nat)}
    (hg : ∀ g ∈ groups, ∀ c ∈ g, c < net.widthOf p) :
    Adds net (net.addEqualityFilter p groups) fun net' id =>
      net'.HasNode id (.equalityFilter groups) [p] (net.widthOf p) := by
  obtain ⟨-, -, -, ha⟩ := vertex_eq hp
  rw [Network.addEqualityFilter, ha]
  exact h.addChild hp rfl rfl rfl ⟨hg, rfl⟩

theorem addInequalityFilter {left right : Nat} (hl : left < net.widthOf p)
    (hr : right < net.widthOf p) :
    Adds net (net.addInequalityFilter p left right) fun net' id =>
      net'.HasNode id (.inequalityFilter left right) [p] (net.widthOf p) := by
  obtain ⟨-, -, -, ha⟩ := vertex_eq hp
  rw [Network.addInequalityFilter, ha]
  exact h.addChild hp rfl rfl rfl ⟨hl, hr, rfl⟩

theorem addCheck (evaluator : Evaluator) {inputs : List Nat} (hi : ∀ c ∈ inputs, c < net.widthOf p) :
    Adds net (net.addExpression p evaluator inputs .check) fun net' id =>
      net'.HasNode id (.expression { evaluator, inputs, mode := .check }) [p] (net.widthOf p) := by
  obtain ⟨-, -, -, ha⟩ := vertex_eq hp
  rw [Network.addExpression, ha]
  exact h.addChild hp rfl rfl rfl ⟨hi, rfl⟩

theorem addClosure (hw : net.widthOf p = 2) :
    Adds net (net.addClosure p) fun net' id => net'.HasNode id (.closure {}) [p] 2 := by
  obtain ⟨-, -, -, ha⟩ := vertex_eq hp
  rw [Network.addClosure, ha, hw]
  exact h.addChild hp rfl rfl rfl ⟨hw, rfl⟩

end child

section index

variable (net) in
/-- An index takes tuples of its width; if it is unique it refuses those it has. -/
theorem fill_holds {ix : Index} (rows : List Tuple) (hs : ix.Sound)
    (hw : ∀ t ∈ rows, t.length = ix.mask.width) :
    ∃ l ix', net.fill ix rows = .ok ({ net with issues := l ++ net.issues }, ix') ∧
      (∀ i ∈ l, ∃ t, i = .duplicateInsert ix.name t) ∧ ix'.Sound ∧ ix'.bare = ix.bare ∧
      ∀ t, t ∈ ix'.content ↔ t ∈ ix.content ∨ t ∈ rows := by
  induction rows generalizing net ix with
  | nil => exact ⟨[], ix, rfl, by simp, hs, rfl, by simp⟩
  | cons t rest ih =>
    by_cases hheld : ix.unique = true ∧ t ∈ ix.content
    · obtain ⟨l, ix', hfill, hl, hs', hb', hc'⟩ := ih (net.report (.duplicateInsert ix.name t)) hs
        fun u hu => hw u (by simp [hu])
      refine ⟨l ++ [.duplicateInsert ix.name t], ix', ?_, fun i hi => ?_, hs', hb', fun u => ?_⟩
      · rw [fill, hs.insert_of_mem hheld.1 hheld.2, List.append_assoc]
        exact hfill
      · exact (List.mem_append.1 hi).elim (hl i) fun hi => ⟨t, List.mem_singleton.1 hi⟩
      · rw [hc', List.mem_cons]
        refine ⟨fun hu => hu.imp_right .inr, ?_⟩
        rintro (hu | rfl | hu)
        · exact .inl hu
        · exact .inl hheld.2
        · exact .inr hu
    · obtain ⟨ix₁, transition, hup, hs₁, hb₁, hc₁, -⟩ :=
        hs.insert (hw t (by simp)) fun hu hm => hheld ⟨hu, hm⟩
      have hmask := Index.mask_eq_of_bare_eq hb₁
      have hname : ix₁.name = ix.name :=
        (congrArg Index.name hb₁ : ix₁.bare.name = ix.bare.name)
      obtain ⟨l, ix', hfill, hl, hs', hb', hc'⟩ := ih net hs₁ fun u hu => hmask ▸ hw u (by simp [hu])
      refine ⟨l, ix', ?_, hname ▸ hl, hs', hb'.trans hb₁, fun u => ?_⟩
      · rw [fill, hup]
        exact hfill
      · rw [hc', hc₁, Multiset.mem_cons, List.mem_cons]
        exact ⟨by tauto, by tauto⟩

/-- The index of a node's output by some columns is there, or is built. -/
theorem indexFor (h : net.Saturated out) {p : NodeId} (hp : p < net.vertices.size) {mask : Mask}
    (hm : mask.width = net.widthOf p) :
    ∃ net' I, net.indexFor p mask = .ok (net', I) ∧ Enlarged net net' ∧ net'.HasIndex I p mask ∧
      net'.vertices.size = net.vertices.size ∧ ∀ q, net'.widthOf q = net.widthOf q := by
  have w := h.wired
  cases hold : net.arranged.get? (p, mask) with
  | some I =>
    refine ⟨net, I, ?_, .refl h, w.arranged p mask I hold, rfl, fun _ => rfl⟩
    rw [Network.indexFor, hold]
    rfl
  | none =>
    obtain ⟨rows, hpull, hrows⟩ := h.pull hp
    obtain ⟨ix₀, hbuckets, hmask₀, -, hflat, build⟩ := exists_indexFor w hp hold hpull
    have hc₀ := Index.content_of_empty hbuckets
    obtain ⟨l, ix, hfill, -, hs, hb, hc⟩ := fill_holds net rows (Index.sound_of_empty hbuckets)
      fun t ht => by
        rw [hmask₀, hm]
        exact h.length_of_mem ((hrows t).1 ht)
    have hmask : ix.mask = mask := (Index.mask_eq_of_bare_eq hb).trans hmask₀
    have hu : ix.unique = ix₀.unique := Index.unique_eq_of_bare_eq hb
    obtain ⟨issues, hissues⟩ : ∃ issues, issues = l ++ net.issues := ⟨_, rfl⟩
    rw [← hissues] at hfill
    obtain ⟨net₁, hcall, x, -, hsize⟩ := build issues ix hfill hmask
    have same : ({ net with issues } : Network).bare = net.bare := rfl
    have h₁ : Saturated { net with issues } out := h.of_eq same rfl rfl
    have w₁ := h₁.wired
    obtain ⟨fed, hspread⟩ := h₁.settled
    refine ⟨net₁, net.arrangements.size, hcall, ⟨⟨out, x.wired w₁ hp rfl (hmask ▸ hm)
      (fun hx => (flat_of_bare_eq same p).2 (hflat (hu ▸ hx))),
      h₁.positive.indexed w₁ x rfl, fed, hspread.indexed w₁ h₁.positive x hp hs fun t => ?_⟩,
      ⟨x.extends.keeps, x.extends.parents, ⟨x.prolongs.receivers, x.prolongs.listeners⟩⟩,
      x.inputs, x.given⟩, hmask ▸ index_shape x, hsize,
      x.widthOf⟩
    rw [hc, hc₀, hrows]
    simp

theorem addOverIndexes (h : net.Saturated out) {n : Node} {p q : NodeId} {I J : IndexId}
    {pm sm : Mask} {arity : Nat} (hI : net.HasIndex I p pm) (hJ : net.HasIndex J q sm)
    (hprim : n.source .primary = some I) (hsec : n.source .secondary = some J)
    (hs : n.isStateful = false) (hpos : n.isPositive = true)
    (hfits : n.Fits net.maskOf 0 arity) :
    Enlarged net (net.addOverIndexes n (p, I) (q, J) arity).1 := by
  obtain ⟨hf, hi⟩ := isFed_of_source hprim
  have pu : Pushed net _ ⟨n, [p, q], [], arity⟩ := pushed_listen (p := p) (q := q) hprim hsec
  exact ⟨h.pushed (admits_pair hI hJ hprim hsec hfits) (fun hx => absurd hx (by simp [hf])) pu hpos
    (fun hx => absurd hx (by simp [hi])) (Node.holds_of_isStateful_eq_false hs), pu.extends, rfl,
    pu.given fun hx => absurd hx (by simp [hi])⟩

theorem addJoin (h : net.Saturated out) {p q : NodeId} {pm sm : Mask} (hp : p < net.vertices.size)
    (hq : q < net.vertices.size) (hpm : pm.width = net.widthOf p) (hsm : sm.width = net.widthOf q) :
    Adds net (net.addJoin p pm q sm) fun net' id =>
      net'.HasPair id (.join · · sm.complement) p pm q sm (net.widthOf p + sm.complement.arity) := by
  obtain ⟨net₁, I, h₁, e₁, x₁, size₁, width₁⟩ := h.indexFor hp hpm
  obtain ⟨out₁, sat₁⟩ := e₁.saturated
  obtain ⟨net₂, J, h₂, e₂, x₂, -, -⟩ := sat₁.indexFor (size₁ ▸ hq) (hsm.trans (width₁ q).symm)
  obtain ⟨out₂, sat₂⟩ := e₂.saturated
  have y₁ : net₂.HasIndex I p pm := x₁.keeps e₂.extension.keeps
  have hfits : Node.Fits net₂.maskOf 0 (net.widthOf p + sm.complement.arity)
      (.join I J sm.complement) := ⟨by rw [x₂.maskOf], by rw [y₁.maskOf, hpm]⟩
  have e₃ := sat₂.addOverIndexes y₁ x₂ (n := .join I J sm.complement) rfl rfl rfl rfl hfits
  obtain ⟨-, -, -, ha⟩ := vertex_eq hp
  refine ⟨_, _, ?_, (e₁.trans e₂).trans e₃, I, J, ⟨_, (pushed_listen rfl rfl).fresh, rfl, rfl, rfl⟩,
    y₁.keeps e₃.extension.keeps, x₂.keeps e₃.extension.keeps⟩
  rw [Network.addJoin, ha]
  simp only [bind, Except.bind, h₁, h₂]
  rfl

end index

end Saturated
end Network
end Motif
