import Motif.Proofs.Network.Construction

set_option autoImplicit false
namespace Motif

namespace Network
variable {net : Network}

theorem pull_of_keeps {net' : Network} {val : NodeId → Multiset Tuple} (w : net.Wired)
    (h : net.AtRest val) (k : Keeps net net') {p : NodeId} (hp : p < net.vertices.size) :
    ∃ rows, net'.pull p = .ok rows ∧ (↑rows : Multiset Tuple) = val p := by
  obtain ⟨rows, hrows, hval⟩ := h.pull w hp
  obtain ⟨more, hmore⟩ := Nat.exists_eq_add_of_le k.size_le
  refine ⟨rows, ?_, hval⟩
  rw [pull, hmore]
  exact k.pullWithin hrows

theorem pushed_addConstant (rows : List Tuple) (arity : Nat) :
    Pushed net (net.addConstant rows arity).1 ⟨.constant rows, [], [], arity⟩ :=
  pushed_push (fun side => by cases side <;> rfl) rfl fun hf => by cases hf

theorem admits_constant {rows : List Tuple} {arity : Nat} (hw : ∀ t ∈ rows, t.length = arity) :
    net.Admits ⟨.constant rows, [], [], arity⟩ := .root 0 (fun side => by cases side <;> rfl) hw

theorem pushed_addProduction (query : String) (arity : Nat) :
    Pushed net (net.addProduction query arity).1 ⟨.production query ∅, [], [], arity⟩ :=
  pushed_push (fun side => by cases side <;> rfl) rfl fun _ => rfl

theorem addConstant_grown (w : net.Wired) (h : ∃ val, net.AtRest val) {rows : List Tuple}
    {arity : Nat} (hw : ∀ t ∈ rows, t.length = arity) :
    Grown net (net.addConstant rows arity).1 [] ∧
      (net.addConstant rows arity).1.inputs = net.inputs ∧
      (net.addConstant rows arity).1.HasNode (net.addConstant rows arity).2 (.constant rows) []
        arity := by
  have p : Pushed net _ _ := pushed_addConstant rows arity
  exact ⟨p.grown w h (admits_constant hw) (fun hf => by cases hf) (fun _ hi => by cases hi)
    (fun _ _ => trivial) rfl, rfl, _, p.fresh, rfl, rfl, rfl⟩

theorem addProduction_grown (w : net.Wired) (h : ∃ val, net.AtRest val) (query : String)
    (arity : Nat) :
    Grown net (net.addProduction query arity).1 [] ∧
      (net.addProduction query arity).1.inputs = net.inputs ∧
      (net.addProduction query arity).1.HasNode (net.addProduction query arity).2
        (.production query ∅) [] arity := by
  have p : Pushed net _ _ := pushed_addProduction query arity
  exact ⟨p.grown w h (.root arity (fun side => by cases side <;> rfl) rfl) (fun _ hp => by cases hp)
    (fun _ hi => by cases hi) (fun _ _ => Bag.toMultiset_empty) rfl, rfl, _, p.fresh, rfl, rfl, rfl⟩

theorem addInput_of_some {r : Relation} {id : NodeId} (h : net.inputs[r]? = some id) (arity : Nat)
    (unique : Bool) : net.addInput r arity unique = (net, id) := by
  rw [addInput, h]

theorem pushed_addInput {r : Relation} (hr : net.inputs[r]? = none) (arity : Nat) (unique : Bool) :
    Pushed net (net.addInput r arity unique).1 ⟨.input r unique ∅, [], [], arity⟩ ∧
      (net.addInput r arity unique).2 = net.vertices.size ∧
      ∀ r', (net.addInput r arity unique).1.inputs[r']? =
        if r = r' then some net.vertices.size else net.inputs[r']? := by
  have hnet : net.addInput r arity unique =
      ({ (net.push (.input r unique ∅) [] arity).1 with
        inputs := net.inputs.insert r net.vertices.size }, net.vertices.size) := by
    rw [addInput, hr]
    rfl
  have hin : ∀ r', (net.addInput r arity unique).1.inputs[r']? =
      if r = r' then some net.vertices.size else net.inputs[r']? := by
    intro r'
    rw [hnet]
    refine Std.ExtTreeMap.getElem?_insert.trans ?_
    simp
  refine ⟨⟨?_, fun q hq => ?_, fun I => ?_, ?_, fun r' id => ?_⟩, by rw [hnet], hin⟩
  · rw [hnet]
    exact (vertices_push _).trans (if_pos rfl)
  · rw [hnet]
    refine ((vertices_push _).trans (if_neg hq)).trans ?_
    simp [Vertex.placesAt]
  · rw [hnet, sidesOf_eq_nil fun side => by cases side <;> rfl]
    simp [push]
  · rw [hnet]
    rfl
  · rw [hin]
    by_cases e : r = r'
    · subst e
      rw [if_pos rfl, hr]
      constructor
      · intro he
        exact .inr ⟨(Option.some.inj he).symm, unique, ∅, rfl⟩
      · rintro (he | ⟨rfl, -⟩)
        · cases he
        · rfl
    · rw [if_neg e, or_iff_left]
      rintro ⟨-, u, memory, he⟩
      exact e (Node.input.inj he).1

theorem addInput_grown (w : net.Wired) (h : ∃ val, net.AtRest val) {r : Relation}
    (hr : net.inputs[r]? = none) (arity : Nat) (unique : Bool) :
    Grown net (net.addInput r arity unique).1 [] ∧
      (net.addInput r arity unique).2 = net.vertices.size ∧
      (∀ r', (net.addInput r arity unique).1.inputs[r']? =
        if r = r' then some net.vertices.size else net.inputs[r']?) ∧
      (net.addInput r arity unique).1.receiversOf net.vertices.size = [] ∧
      (net.addInput r arity unique).1.HasNode net.vertices.size (.input r unique ∅) [] arity := by
  obtain ⟨p, hid, hin⟩ := pushed_addInput hr arity unique
  have hfresh := p.fresh
  have ad : net.Admits ⟨.input r unique ∅, [], [], arity⟩ :=
    .root arity (fun side => by cases side <;> rfl) rfl
  refine ⟨p.grown w h ad (fun hf => by cases hf)
    (fun _ _ => Bag.toMultiset_empty) (fun _ _ => rfl) ?_, hid, hin, ?_, _, hfresh, rfl,
    rfl, rfl⟩
  · rw [addInput, hr]
    rfl
  · rw [Network.receiversOf, hfresh]
    rfl

theorem vertex_eq {p : NodeId} (hp : p < net.vertices.size) : ∃ v, net.vertices[p]? = some v ∧
    net.vertex p = .ok v ∧ net.arity p = .ok (net.widthOf p) := by
  obtain ⟨v, hv⟩ : ∃ v, net.vertices[p]? = some v := ⟨_, Array.getElem?_eq_getElem hp⟩
  have hvertex : net.vertex p = .ok v := by rw [vertex, hv]
  refine ⟨v, hv, hvertex, ?_⟩
  rw [Network.arity, hvertex, widthOf, hv]
  rfl

theorem not_below_of_receiversOf_eq_nil {q n : NodeId} (h : net.receiversOf q = []) :
    ¬net.Below q n := by
  intro hb
  obtain ⟨m, hf, -⟩ := Relation.TransGen.head'_iff.1 hb
  rcases hf with hf | ⟨I, side, hI, -⟩
  · rw [h] at hf
    cases hf
  · rw [h] at hI
    cases hI

/-- A network in which a node has got a further parent comes to rest when the node has received what
that puts out. -/
theorem Hooked.feed {net' : Network} {val : NodeId → Multiset Tuple} {p m : NodeId}
    (x : Hooked net net' p m) (h : net.AtRest val) (w' : net'.Wired) (hp : p < net.vertices.size)
    (flat : ∀ q, q < net.vertices.size → net'.Flat q → (val q).Nodup) (hne : m ≠ p)
    (below : ¬net'.Below m p) (flushes : Flushes net'.bare m) {rows : List Tuple}
    (hrows : (↑rows : Multiset Tuple) = val p) :
    ∃ net'' val', net'.feed m rows = .ok net'' ∧ OnlyFailures net' net'' ∧
      net''.bare = net'.bare ∧ net''.AtRest val' ∧ net''.given = net.given := by
  obtain ⟨view, hflow⟩ := h.hooked x w' hp hrows flat
  have hslot : (net'.bare.receiversOf p)[(net.receiversOf p).length]? = some (.node m) := by
    rw [receiversOf_bare, x.receiversOf hp, if_pos rfl,
      List.getElem?_append_right (Nat.le_refl _), Nat.sub_self]
    rfl
  have below' : ¬net'.bare.Below m p := by
    rw [below_bare]
    exact below
  obtain ⟨net'', seen, view', hfeed, honly, hrest⟩ := hflow.feed w'.bare hslot hne below' flushes
  obtain ⟨val', hval'⟩ := hrest.atRest w'.bare
  refine ⟨net'', val', hfeed, honly, hrest.bare, hval', hrest.given_eq w'.bare fun q hq => ?_⟩
  refine given_eq_zero fun v hv => ?_
  obtain ⟨v', hv', hn, -⟩ := x.vertex_of hv
  exact hn ▸ isInput_eq_false_of_bare hq v' hv'

section connect
variable {net' : Network} {p m : NodeId}

theorem Hooked.feeds_iff (x : Hooked net net' p m) (hp : p < net.vertices.size) {q n : NodeId} :
    net'.Feeds q n ↔ net.Feeds q n ∨ q = p ∧ n = m := by
  have hr : ∀ R, R ∈ net'.receiversOf q ↔ R ∈ net.receiversOf q ∨ q = p ∧ R = .node m := by
    intro R
    rw [x.receiversOf hp, List.mem_append]
    split <;> simp_all
  simp only [Feeds, hr, x.listenersOf, Receiver.node.injEq, reduceCtorEq, and_false, or_false]
  exact or_right_comm

theorem Hooked.below (x : Hooked net net' p m) (hp : p < net.vertices.size) {q n : NodeId}
    (h : net'.Below q n) :
    net.Below q n ∨ (q = p ∨ net.Below q p) ∧ (n = m ∨ net.Below m n) := by
  induction h with
  | single hf =>
    rcases (x.feeds_iff hp).1 hf with hf | ⟨rfl, rfl⟩
    · exact .inl (.single hf)
    · exact .inr ⟨.inl rfl, .inl rfl⟩
  | tail _ hf ih =>
    rcases (x.feeds_iff hp).1 hf with hf | ⟨rfl, rfl⟩
    · rcases ih with hb | ⟨hq, hn⟩
      · exact .inl (.tail hb hf)
      · refine .inr ⟨hq, .inr ?_⟩
        rcases hn with rfl | hn
        · exact .single hf
        · exact .tail hn hf
    · rcases ih with hb | ⟨hq, -⟩
      · exact .inr ⟨.inr hb, .inl rfl⟩
      · exact .inr ⟨hq, .inl rfl⟩

theorem Hooked.not_below (x : Hooked net net' p m) (hp : p < net.vertices.size) (hne : m ≠ p)
    (h : ¬net.Below m p) : ¬net'.Below m p := by
  intro hb
  rcases x.below hp hb with hb | ⟨hb, -⟩
  · exact h hb
  · exact hb.elim hne h

theorem Hooked.acyclic (x : Hooked net net' p m) (hp : p < net.vertices.size) (hne : m ≠ p)
    (h : ¬net.Below m p) (a : net.Acyclic) : net'.Acyclic := by
  intro n hn
  rcases x.below hp hn with hb | ⟨rfl | hq, rfl | hn⟩
  · exact a n hb
  · exact hne rfl
  · exact h hn
  · exact h hq
  · exact h (hn.trans hq)

theorem hooked_connect : Hooked net
      (({ net with
        vertices := net.vertices.modify m fun v => { v with parents := v.parents ++ [p] } } :
          Network).addReceiver p (.node m)) p m where
  vertex q := by
    rw [vertices_addReceiver]
    simp only [Array.getElem?_modify]
    by_cases h₁ : p = q <;> by_cases h₂ : m = q
    · subst h₁
      subst h₂
      cases hq : net.vertices[m]? <;> simp
    · subst h₁
      simp [h₂, Ne.symm h₂]
    · subst h₂
      simp [h₁, Ne.symm h₁]
    · simp [h₁, h₂, Ne.symm h₁, Ne.symm h₂]
  arrangements := rfl
  arranged := rfl
  inputs := rfl

theorem exists_connect (hm : m < net.vertices.size) (hp : p < net.vertices.size)
    (hw : net.widthOf p = net.widthOf m) :
    ∃ net', Hooked net net' p m ∧ net'.issues = net.issues ∧
      net.connect m p = net'.pull p >>= net'.feed m := by
  obtain ⟨-, -, -, ha⟩ := vertex_eq hm
  obtain ⟨-, -, -, ha'⟩ := vertex_eq hp
  refine ⟨_, hooked_connect, rfl, ?_⟩
  rw [connect, ha, ha']
  simp only [bind, Except.bind, hw, ne_eq, not_true_eq_false, if_false]

theorem connect_grown (w : net.Wired) (h : ∃ val, net.AtRest val) {v : Vertex}
    (hv : net.vertices[m]? = some v) (hprod : v.node.isProduction = true)
    (hp : p < net.vertices.size) (hw : net.widthOf p = net.widthOf m) (hne : m ≠ p)
    (below : ¬net.Below m p)
    (flushes : ∀ net', Hooked net net' p m → net'.Wired → Flushes net'.bare m) :
    ∃ net', net.connect m p = .ok net' ∧ Grown net net' [p] ∧ net'.inputs = net.inputs ∧
      ∃ v', net'.vertices[m]? = some v' ∧ v'.node.bare = v.node.bare ∧
        v'.parents = v.parents ++ [p] ∧ v'.arity = v.arity := by
  obtain ⟨val, hval⟩ := h
  obtain ⟨net₁, x, hsame, hconnect⟩ := exists_connect (Array.getElem?_eq_some_iff.1 hv).1 hp hw
  have w₁ := x.wired w hv hprod hp hw
  have k := x.keeps hv hprod
  obtain ⟨rows, hpull, hrows⟩ := pull_of_keeps w hval k hp
  obtain ⟨net₂, val₂, hfeed, honly, hbare, hval₂, hgiven⟩ := x.feed hval w₁ hp
    (fun q hq hf => hval.flat q hq ((k.flat_iff w hq).1 hf)) hne (x.not_below hp hne below)
    (flushes net₁ x w₁) hrows
  refine ⟨net₂, ?_, ⟨w₁.of_bare_eq hbare, ⟨val₂, hval₂⟩, k.bare.trans (.of_bare_eq hbare),
    OnlyFailures.trans (.of_eq hsame) honly, hgiven, fun a => ?_, fun q hq hn => ?_⟩, ?_, ?_⟩
  · rw [hconnect, hpull]
    exact hfeed
  · rw [← acyclic_bare, hbare, acyclic_bare]
    exact x.acyclic hp hne below a
  · rw [receiversOf_of_bare_eq hbare, x.receiversOf hp, if_neg (by simpa using hn), List.append_nil]
  · exact (congrArg Network.inputs hbare : net₂.bare.inputs = net₁.bare.inputs).trans x.inputs
  · obtain ⟨v₁, hv₁, hn, hpar, ha⟩ := x.vertex_of hv
    obtain ⟨v₂, hv₂, e⟩ := exists_vertex_of_bare_eq hbare.symm hv₁
    obtain ⟨hn', hpar', ha'⟩ := Vertex.eq_of_bare_eq e
    refine ⟨v₂, hv₂, hn'.symm.trans (congrArg Node.bare hn), hpar'.symm.trans ?_, ha'.symm.trans ha⟩
    rw [hpar, if_pos rfl]

end connect

section child
variable {p : NodeId} {n : Node} {arity : Nat}

theorem admits_child (hp : p < net.vertices.size) (hf : n.isFed = true)
    (hfits : n.Fits net.maskOf (net.widthOf p) arity) : net.Admits ⟨n, [p], [], arity⟩ where
  receivers := rfl
  parents _ q hq := by
    rw [List.mem_singleton.1 hq]
    exact hp
  single _ := Nat.le_refl 1
  sources side I hs := by
    rw [show (⟨n, [p], [], arity⟩ : Vertex).node.source side = none from
      Node.source_of_isFed hf side] at hs
    cases hs
  fits := by
    refine ⟨net.widthOf p, hfits, fun _ q hq => ?_⟩
    rw [List.mem_singleton.1 hq]

theorem exists_addChild (hp : p < net.vertices.size) (hf : n.isFed = true) (arity : Nat) :
    ∃ net', Pushed net net' ⟨n, [p], [], arity⟩ ∧
      Hooked (net.push n [] arity).1 net' p net.vertices.size ∧ net'.issues = net.issues ∧
      net'.inputs = net.inputs ∧ net.addChild p n arity = if n.isStateful then do
          return (← net'.feed net.vertices.size (← net'.pull p), net.vertices.size)
        else .ok (net', net.vertices.size) := by
  obtain ⟨v, -, hvertex, -⟩ := vertex_eq hp
  refine ⟨_, pushed_hook hp (Node.source_of_isFed hf) hf, hooked_push hp, rfl, rfl, ?_⟩
  rw [addChild, hvertex]
  rfl

/-- A node that stands without parents has nothing to put out. -/
theorem AtRest.push {val : NodeId → Multiset Tuple} (w : net.Wired) (h : net.AtRest val)
    (hf : n.isFed = true) (hempty : n.bare = n) {width : Nat}
    (hfits : n.Fits net.maskOf width arity) :
    (net.push n [] arity).1.AtRest (Function.update val net.vertices.size 0) := by
  have pushed : Pushed net (net.push n [] arity).1 ⟨n, [], [], arity⟩ :=
    pushed_push (Node.source_of_isFed hf) (Node.isInput_of_isFed hf) fun _ => rfl
  have unfed : fedBy val ⟨n, [], [], arity⟩ = 0 := fedBy_of_isFed hf
  have rest := h.pushed w (.root _ (Node.source_of_isFed hf) hfits) pushed (fun _ => unfed)
    (unfed ▸ Node.holds_zero hf hempty)
  rwa [unfed, Node.output_zero hf] at rest

theorem AtRest.nodup_update {val : NodeId → Multiset Tuple} (w : net.Wired) (h : net.AtRest val)
    {net' : Network} (k : Keeps net net') {q : NodeId} (hq : q < net.vertices.size + 1)
    (flat : net'.Flat q) : (Function.update val net.vertices.size 0 q).Nodup := by
  rcases Nat.lt_or_ge q net.vertices.size with hlt | hge
  · rw [Function.update_of_ne (Nat.ne_of_lt hlt)]
    exact h.flat q hlt ((k.flat_iff w hlt).1 flat)
  · rw [Nat.le_antisymm (Nat.le_of_lt_succ hq) hge, Function.update_self]
    exact Multiset.nodup_zero

/-- A node behind one parent, which has received what that puts out now if it keeps tuples. -/
theorem addChild_grown (w : net.Wired) (h : ∃ val, net.AtRest val) (hp : p < net.vertices.size)
    (hf : n.isFed = true) (hprod : n.isProduction = false) (hempty : n.bare = n)
    (hfits : n.Fits net.maskOf (net.widthOf p) arity) :
    ∃ net' id, net.addChild p n arity = .ok (net', id) ∧ Grown net net' [p] ∧
      net'.inputs = net.inputs ∧ net'.HasNode id n [p] arity ∧ net'.receiversOf id = [] := by
  obtain ⟨val, hval⟩ := h
  have ad := admits_child hp hf hfits
  obtain ⟨net₁, pu, x, hsame, hins, hcall⟩ := exists_addChild hp hf arity
  have hnil : net₁.receiversOf net.vertices.size = [] := by
    rw [Network.receiversOf, pu.fresh]
    rfl
  have hnode : net₁.HasNode net.vertices.size n [p] arity := ⟨_, pu.fresh, rfl, rfl, rfl⟩
  have conn : (⟨n, [p], [], arity⟩ : Vertex).node.isFed = true →
      (⟨n, [p], [], arity⟩ : Vertex).node.isProduction = false →
        (⟨n, [p], [], arity⟩ : Vertex).parents ≠ [] := fun _ _ => by simp
  have w₁ := w.pushed ad conn pu
  cases hs : n.isStateful with
  | false =>
    refine ⟨net₁, net.vertices.size, ?_, pu.grown w ⟨val, hval⟩ ad conn (fun _ hi => ?_)
      (fun _ _ => Node.holds_of_isStateful_eq_false hs) hsame, hins, hnode, hnil⟩
    · rw [hcall, hs]
      rfl
    · rw [show (⟨n, [p], [], arity⟩ : Vertex).node.isInput = false from
        Node.isInput_of_isFed hf] at hi
      cases hi
  | true =>
    -- The node stands without its parent first, fed nothing.
    have hsize : (net.push n [] arity).1.vertices.size = net.vertices.size + 1 := Array.size_push _
    have hne : net.vertices.size ≠ p := Nat.ne_of_gt hp
    obtain ⟨rows, hpull, hrows⟩ := pull_of_keeps w hval pu.keeps hp
    have hvalp : Function.update val net.vertices.size 0 p = val p :=
      Function.update_of_ne hne.symm _ _
    obtain ⟨net₂, val₂, hfeed, honly, hbare, hval₂, hgiven⟩ :=
      x.feed (hval.push w hf hempty hfits) w₁ (hsize ▸ Nat.lt_succ_of_lt hp)
        (fun q hq flat => hval.nodup_update w pu.keeps (hsize ▸ hq) flat) hne
        (not_below_of_receiversOf_eq_nil hnil)
        (flushes_of_receiversOf_eq_nil (by rw [receiversOf_bare, hnil])) (hrows.trans hvalp.symm)
    refine ⟨net₂, net.vertices.size, ?_, ?_, ?_, hnode.keeps (.of_bare_eq hbare) hprod, ?_⟩
    · rw [hcall, hs, hpull]
      simp only [bind, Except.bind, if_true, hfeed]
      rfl
    · constructor
      case wired => exact w₁.of_bare_eq hbare
      case rest => exact ⟨val₂, hval₂⟩
      case keeps => exact pu.keeps.bare.trans (.of_bare_eq hbare)
      case failures => exact OnlyFailures.trans (.of_eq hsame) honly
      case given =>
        have unfed : (net.push n [] arity).1.given = net.given :=
          (pushed_push (Node.source_of_isFed hf) (Node.isInput_of_isFed hf) fun _ => rfl).given
            fun _ => fedBy_of_isFed hf
        exact hgiven.trans unfed
      case acyclic =>
        intro a
        rw [← acyclic_bare, hbare, acyclic_bare]
        exact pu.acyclic ad a
      case others =>
        intro q hq hn
        rw [receiversOf_of_bare_eq hbare, pu.receiversOf rfl, if_pos hq, Vertex.placesAt, if_pos hf,
          List.count_eq_zero.2 hn]
        simp
    · exact (congrArg Network.inputs hbare : net₂.bare.inputs = net₁.bare.inputs).trans hins
    · rw [receiversOf_of_bare_eq hbare, hnil]

end child

end Network
end Motif
