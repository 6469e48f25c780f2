import Motif.Proofs.Network.Building

set_option autoImplicit false
namespace Motif
namespace Network

def HasNode (net : Network) (id : NodeId) (n : Node) (parents : List NodeId) (arity : Nat) : Prop :=
  ∃ v, net.vertices[id]? = some v ∧ v.node.bare = n.bare ∧ v.parents = parents ∧ v.arity = arity

def HasIndex (net : Network) (I : IndexId) (p : NodeId) (mask : Mask) : Prop :=
  ∃ a, net.arrangements[I]? = some a ∧ a.parent = p ∧ a.index.mask = mask

/-- A network at rest has grown to another. Only the nodes in `ps` have new receivers. -/
structure Grown (net net' : Network) (ps : List NodeId) : Prop where
  wired : net'.Wired
  rest : ∃ val, net'.AtRest val
  keeps : Keeps net.bare net'.bare
  failures : OnlyFailures net net'
  given : net'.given = net.given
  acyclic : net.Acyclic → net'.Acyclic
  others : ∀ q, q < net.vertices.size → q ∉ ps → net'.receiversOf q = net.receiversOf q

variable {net net' net'' : Network}

theorem Keeps.size_le (k : Keeps net net') : net.vertices.size ≤ net'.vertices.size := by
  by_contra hn
  obtain ⟨v', hv', -⟩ := k.vertex net'.vertices.size _
    (Array.getElem?_eq_getElem (Nat.lt_of_not_le hn))
  exact Nat.lt_irrefl _ (Array.getElem?_eq_some_iff.1 hv').1

theorem Keeps.bare (k : Keeps net net') : Keeps net.bare net'.bare := by
  refine ⟨fun q u hu => ?_, fun I b hb => ?_⟩
  · obtain ⟨v, hv, rfl⟩ := vertices_bare_eq_some.1 hu
    obtain ⟨v', hv', hn, ha, hp⟩ := k.vertex q v hv
    refine ⟨v'.bare, vertex_bare hv', congrArg Node.bare hn, ha, fun hprod => hp ?_⟩
    exact (Node.isProduction_bare _).symm.trans hprod
  · obtain ⟨a, ha, rfl⟩ := arrangements_bare_eq_some.1 hb
    obtain ⟨a', ha', hp, hi⟩ := k.arrangement I a ha
    exact ⟨a'.bare, arrangement_bare ha', hp, congrArg Index.bare hi⟩

theorem Keeps.of_bare_eq (h : net'.bare = net.bare) : Keeps net.bare net'.bare := h ▸ Keeps.refl _

theorem HasNode.keeps {id : NodeId} {n : Node} {parents : List NodeId} {arity : Nat}
    (h : net.HasNode id n parents arity) (k : Keeps net.bare net'.bare)
    (hp : n.isProduction = false) : net'.HasNode id n parents arity := by
  obtain ⟨v, hv, hn, hpar, ha⟩ := h
  obtain ⟨u, hu, hn', ha', hp'⟩ := k.vertex id _ (vertex_bare hv)
  obtain ⟨v', hv', rfl⟩ := vertices_bare_eq_some.1 hu
  refine ⟨v', hv', hn'.trans hn, (hp' ?_).trans hpar, ha'.trans ha⟩
  exact (Node.isProduction_bare _).trans ((Node.isProduction_of_bare_eq hn).trans hp)

theorem HasIndex.keeps {I : IndexId} {p : NodeId} {mask : Mask} (h : net.HasIndex I p mask)
    (k : Keeps net.bare net'.bare) : net'.HasIndex I p mask := by
  obtain ⟨a, ha, rfl, rfl⟩ := h
  obtain ⟨b, hb, hp', hi⟩ := k.arrangement I _ (arrangement_bare ha)
  obtain ⟨a', ha', rfl⟩ := arrangements_bare_eq_some.1 hb
  have hm := congrArg Index.mask hi
  exact ⟨a', ha', hp', hm⟩

theorem Grown.refl (w : net.Wired) (h : ∃ val, net.AtRest val) (ps : List NodeId) :
    Grown net net ps :=
  ⟨w, h, .refl _, .of_eq rfl, rfl, id, fun _ _ _ => rfl⟩

theorem Grown.trans {ps ps' : List NodeId} (g : Grown net net' ps) (g' : Grown net' net'' ps') :
    Grown net net'' (ps ++ ps') where
  wired := g'.wired
  rest := g'.rest
  keeps := g.keeps.trans g'.keeps
  failures := g.failures.trans g'.failures
  given := g'.given.trans g.given
  acyclic h := g'.acyclic (g.acyclic h)
  others q hq hn := by
    have hle := g.keeps.size_le
    rw [size_vertices_bare, size_vertices_bare] at hle
    rw [List.mem_append, not_or] at hn
    rw [g'.others q (Nat.lt_of_lt_of_le hq hle) hn.2, g.others q hq hn.1]

theorem Grown.of_mem {ps ps' : List NodeId} (g : Grown net net' ps) (h : ∀ p ∈ ps, p ∈ ps') :
    Grown net net' ps' :=
  { g with others := fun q hq hn => g.others q hq fun hm => hn (h q hm) }

section acyclic

theorem acyclic_of_feeds {N : NodeId} (old : ∀ q n, net'.Feeds q n → net.Feeds q n ∨ n = N)
    (top : ∀ n, ¬net'.Feeds N n) (h : net.Acyclic) : net'.Acyclic := by
  have below : ∀ {q n}, net'.Below q n → n ≠ N → net.Below q n := by
    intro q n hb
    induction hb with
    | single hf => exact fun hn => .single ((old _ _ hf).resolve_right hn)
    | tail _ hf ih =>
      intro hn
      refine .tail (ih ?_) ((old _ _ hf).resolve_right hn)
      rintro rfl
      exact top _ hf
  intro n hn
  by_cases hN : n = N
  · subst hN
    obtain ⟨m, hf, -⟩ := Relation.TransGen.head'_iff.1 hn
    exact top m hf
  · exact h n (below hn hN)

theorem Pushed.acyclic {v : Vertex} (p : Pushed net net' v) (ad : net.Admits v)
    (h : net.Acyclic) : net'.Acyclic := by
  have hr := ad.receivers
  refine acyclic_of_feeds (N := net.vertices.size) (fun q n hf => ?_) (fun n hf => ?_) h
  · rcases hf with hf | ⟨I, side, hI, hl⟩
    · rcases (p.mem_receiversOf hr).1 hf with hf | ⟨-, -, -, e⟩
      · exact .inl (.inl hf)
      · exact .inr (Receiver.node.inj e)
    · rw [p.listenersOf ad.sources, List.mem_append] at hl
      rcases hl with hl | hl
      · rcases (p.mem_receiversOf hr).1 hI with hI | ⟨-, -, -, e⟩
        · exact .inl (.inr ⟨I, side, hI, hl⟩)
        · cases e
      · obtain ⟨side', -, e⟩ := List.mem_map.1 hl
        exact .inr (Prod.mk.inj e).1.symm
  · have hnil : net'.receiversOf net.vertices.size = [] := by
      rw [Network.receiversOf, p.fresh]
      exact hr
    rcases hf with hf | ⟨I, side, hI, -⟩
    · rw [hnil] at hf
      cases hf
    · rw [hnil] at hI
      cases hI

end acyclic

theorem Pushed.given {v : Vertex} (p : Pushed net net' v)
    (hin : v.node.isInput = true → fedBy (fun _ => 0) v = 0) : net'.given = net.given := by
  funext q
  by_cases hq : q = net.vertices.size
  · subst hq
    rw [given_size, Network.given, p.fresh]
    cases hn : v.node with
    | input r u memory =>
      have hz := hin (by rw [hn]; rfl)
      rw [fedBy_of_isInput hn] at hz
      simpa [hn] using hz
    | _ => simp [hn]
  · rw [Network.given, Network.given, p.old q hq]
    cases net.vertices[q]? <;> rfl

/-- A new node at rest, however it came. -/
theorem Pushed.grown {v : Vertex} (p : Pushed net net' v) (w : net.Wired)
    (h : ∃ val, net.AtRest val) (ad : net.Admits v)
    (connected : v.node.isFed = true → v.node.isProduction = false → v.parents ≠ [])
    (hin : ∀ val, v.node.isInput = true → fedBy val v = 0)
    (holds : ∀ val, net.AtRest val →
      v.node.Holds net.maskOf (fedBy val v) (net.viewBy val v))
    (same : net'.issues = net.issues) : Grown net net' v.parents := by
  obtain ⟨val, hval⟩ := h
  refine ⟨w.pushed ad connected p, ⟨_, hval.pushed w ad p (hin val) (holds val hval)⟩,
    p.keeps.bare, .of_eq same, p.given (hin _), p.acyclic ad, fun q hq hn => ?_⟩
  rw [p.receiversOf ad.receivers, if_pos hq, Vertex.placesAt, List.count_eq_zero.2 hn]
  simp

section push
variable {n : Node} {parents : List NodeId} {arity : Nat}

theorem vertices_push (q : NodeId) : (net.push n parents arity).1.vertices[q]? =
    if q = net.vertices.size then some ⟨n, parents, [], arity⟩ else net.vertices[q]? :=
  Array.getElem?_push

theorem vertices_addReceiver (p q : NodeId) (R : Receiver) :
    (net.addReceiver p R).vertices[q]? = if p = q then
      net.vertices[q]?.map fun v => { v with receivers := v.receivers ++ [R] }
    else net.vertices[q]? := Array.getElem?_modify

theorem arrangements_addListener (I J : IndexId) (l : NodeId × Side) :
    (net.addListener I l).arrangements[J]? = if I = J then
      net.arrangements[J]?.map fun a => { a with listeners := a.listeners ++ [l] }
    else net.arrangements[J]? := Array.getElem?_modify

theorem sidesOf_eq_nil {n : Node} (h : ∀ side, n.source side = none) (I : IndexId) :
    n.sidesOf I = [] := by
  simp [Node.sidesOf, h]

variable (net) in
theorem inputs_iff (hi : n.isInput = false) {r : Relation} {id : NodeId} :
    (net.inputs[r]? = some id ∨ id = net.vertices.size ∧ ∃ u memory, n = .input r u memory) ↔
      net.inputs[r]? = some id := by
  refine or_iff_left ?_
  rintro ⟨-, u, memory, rfl⟩
  cases hi

theorem pushed_push (hs : ∀ side, n.source side = none) (hi : n.isInput = false)
    (hp : n.isFed = true → parents = []) :
    Pushed net (net.push n parents arity).1 ⟨n, parents, [], arity⟩ where
  fresh := by rw [vertices_push, if_pos rfl]
  old q hq := by
    have hn : (⟨n, parents, [], arity⟩ : Vertex).placesAt net.vertices.size q = [] := by
      rw [Vertex.placesAt]
      split
      · next hf =>
        rw [show (⟨n, parents, [], arity⟩ : Vertex).parents = [] from hp hf]
        rfl
      · rfl
    rw [vertices_push, if_neg hq, hn]
    simp
  arrangement I := by
    rw [sidesOf_eq_nil hs]
    simp [push]
  arranged := rfl
  inputs _ _ := (inputs_iff net hi).symm

theorem pushed_hook {p : NodeId} (hlt : p < net.vertices.size) (hs : ∀ side, n.source side = none)
    (hf : n.isFed = true) :
    Pushed net ((net.push n [p] arity).1.addReceiver p (.node net.vertices.size))
      ⟨n, [p], [], arity⟩ where
  fresh := by rw [vertices_addReceiver, if_neg (Nat.ne_of_lt hlt), vertices_push, if_pos rfl]
  old q hq := by
    have hn : (⟨n, [p], [], arity⟩ : Vertex).placesAt net.vertices.size q =
        if p = q then [.node net.vertices.size] else [] := by
      rw [Vertex.placesAt, if_pos hf]
      by_cases h : p = q <;> simp [h]
    rw [vertices_addReceiver, vertices_push, if_neg hq, hn]
    by_cases h : p = q <;> simp [h]
  arrangement I := by
    rw [sidesOf_eq_nil hs]
    simp [push, addReceiver]
  arranged := rfl
  inputs _ _ := (inputs_iff net (Node.isInput_of_isFed hf)).symm

theorem hooked_push {p : NodeId} (hlt : p < net.vertices.size) :
    Hooked (net.push n [] arity).1
      ((net.push n [p] arity).1.addReceiver p (.node net.vertices.size)) p net.vertices.size where
  vertex q := by
    rw [vertices_addReceiver, vertices_push, vertices_push]
    by_cases hq : q = net.vertices.size
    · subst hq
      simp [Nat.ne_of_lt hlt, Nat.ne_of_gt hlt]
    · by_cases h : p = q
      · subst h
        simp [hq]
      · simp [hq, h, Ne.symm h]
  arrangements := rfl
  arranged := rfl
  inputs := rfl

theorem isFed_of_source {side : Side} {I : IndexId} (h : n.source side = some I) :
    n.isFed = false ∧ n.isInput = false := by
  cases n <;> cases side <;> first | exact ⟨rfl, rfl⟩ | cases h

theorem placesAt_of_source {side : Side} {I : IndexId} (h : n.source side = some I) (id q : NodeId) :
    (⟨n, parents, [], arity⟩ : Vertex).placesAt id q = [] := by
  rw [Vertex.placesAt, if_neg]
  rw [show (⟨n, parents, [], arity⟩ : Vertex).node = n from rfl, (isFed_of_source h).1]
  simp

theorem pushed_listen {p q : NodeId} {I J : IndexId} (hprim : n.source .primary = some I)
    (hsec : n.source .secondary = some J) :
    Pushed net (net.addOverIndexes n (p, I) (q, J) arity).1 ⟨n, [p, q], [], arity⟩ where
  fresh := by
    rw [addOverIndexes]
    exact (vertices_push _).trans (if_pos rfl)
  old r hr := by
    rw [placesAt_of_source hprim, addOverIndexes]
    refine ((vertices_push _).trans (if_neg hr)).trans ?_
    simp
  arrangement K := by
    rw [addOverIndexes]
    refine (arrangements_addListener _ _ _).trans ?_
    rw [arrangements_addListener]
    have hsides : n.sidesOf K = (if I = K then [.primary] else []) ++
        if J = K then [.secondary] else [] := by
      by_cases h₁ : I = K <;> by_cases h₂ : J = K <;>
        simp [Node.sidesOf, hprim, hsec, h₁, h₂]
    rw [show (⟨n, [p, q], [], arity⟩ : Vertex).node = n from rfl, hsides]
    have hpush : (net.push n [p, q] arity).1.arrangements = net.arrangements := rfl
    have hid : (net.push n [p, q] arity).2 = net.vertices.size := rfl
    cases ha : net.arrangements[K]? with
    | none => simp [hpush, ha]
    | some a => by_cases h₁ : I = K <;> by_cases h₂ : J = K <;> simp [hpush, hid, ha, h₁, h₂]
  arranged := rfl
  inputs _ _ := (inputs_iff net (isFed_of_source hprim).2).symm

theorem pushed_listen_one {p : NodeId} {I : IndexId} (hprim : n.source .primary = some I)
    (hsec : n.source .secondary = none) :
    Pushed net ((net.push n [p] arity).1.addListener I (net.vertices.size, .primary))
      ⟨n, [p], [], arity⟩ where
  fresh := (vertices_push _).trans (if_pos rfl)
  old r hr := by
    rw [placesAt_of_source hprim]
    refine ((vertices_push _).trans (if_neg hr)).trans ?_
    simp
  arrangement K := by
    rw [arrangements_addListener]
    have hsides : n.sidesOf K = if I = K then [.primary] else [] := by
      by_cases h₁ : I = K <;> simp [Node.sidesOf, hprim, hsec, h₁]
    rw [show (⟨n, [p], [], arity⟩ : Vertex).node = n from rfl, hsides]
    have hpush : (net.push n [p] arity).1.arrangements = net.arrangements := rfl
    cases ha : net.arrangements[K]? with
    | none => simp [hpush, ha]
    | some a => by_cases h₁ : I = K <;> simp [hpush, ha, h₁]
  arranged := rfl
  inputs _ _ := (inputs_iff net (isFed_of_source hprim).2).symm

end push

end Network
end Motif
