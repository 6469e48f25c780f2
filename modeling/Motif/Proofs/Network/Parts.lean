import Motif.Proofs.Network.Announcing

/-!
Parts of a network that send nothing out. Where what the nodes of a part put out and what its indexes
tell goes to the part alone, a propagation that starts there stays there: everything else holds what it
held, and only productions of the part announce anything.
-/
set_option autoImplicit false
namespace Motif

structure Part where
  nodes : Set NodeId
  indexes : Set IndexId

namespace Part

def Has (P : Part) : Receiver → Prop
  | .node q => q ∈ P.nodes
  | .index I => I ∈ P.indexes

def Concerns (P : Part) : Task → Prop
  | .propagate q _ => q ∈ P.nodes
  | .deliver R _ => P.Has R
  | .notify q _ _ _ => q ∈ P.nodes

end Part

def Index.idle (ix : Index) : Index := { ix with work := {} }

def Vertex.unread (v : Vertex) : Vertex := { v with receivers := [] }

def Arrangement.unread (a : Arrangement) : Arrangement :=
  { a with index := a.index.idle, listeners := [] }

theorem Vertex.eq_of_unread_eq {v v' : Vertex} (h : v'.unread = v.unread) :
    v'.node = v.node ∧ v'.parents = v.parents ∧ v'.arity = v.arity := by
  simpa [unread] using h

theorem Arrangement.eq_of_unread_eq {a a' : Arrangement} (h : a'.unread = a.unread) :
    a'.parent = a.parent ∧ a'.index.idle = a.index.idle := by
  simpa [unread] using h

namespace Network
variable {P : Part} {net net' net'' : Network}

/-- What goes out of a node or index of the part goes to the part. -/
structure Seals (net : Network) (P : Part) : Prop where
  receivers : ∀ q ∈ P.nodes, ∀ R ∈ net.receiversOf q, P.Has R
  listeners : ∀ I ∈ P.indexes, ∀ l ∈ net.listenersOf I, l.1 ∈ P.nodes

/-- Outside the part everything holds what it held, and announces nothing. -/
structure Outside (P : Part) (net net' : Network) : Prop where
  vertices : ∀ q ∉ P.nodes,
    net'.vertices[q]?.map Vertex.unread = net.vertices[q]?.map Vertex.unread
  arrangements : ∀ I ∉ P.indexes,
    net'.arrangements[I]?.map Arrangement.unread = net.arrangements[I]?.map Arrangement.unread
  events : ∃ new, net'.events = new ++ net.events ∧ ∀ ev ∈ new, ev.node ∈ P.nodes

structure SameLinks (net net' : Network) : Prop where
  receivers : net'.receiversOf = net.receiversOf
  listeners : net'.listenersOf = net.listenersOf
  nodes : net'.vertices.size = net.vertices.size
  indexes : net'.arrangements.size = net.arrangements.size
  inputs : net'.inputs = net.inputs

structure Stays (P : Part) (net net' : Network) : Prop extends Outside P net net', SameLinks net net'

theorem Outside.refl (net : Network) : Outside P net net :=
  ⟨fun _ _ => rfl, fun _ _ => rfl, [], rfl, by simp⟩

theorem Outside.trans (h : Outside P net net') (h' : Outside P net' net'') : Outside P net net'' where
  vertices q hq := (h'.vertices q hq).trans (h.vertices q hq)
  arrangements I hI := (h'.arrangements I hI).trans (h.arrangements I hI)
  events := by
    obtain ⟨new, e, hnew⟩ := h.events
    obtain ⟨new', e', hnew'⟩ := h'.events
    refine ⟨new' ++ new, by rw [e', e, List.append_assoc], fun ev hev => ?_⟩
    exact (List.mem_append.1 hev).elim (hnew' ev) (hnew ev)

theorem Seals.of_eq (seals : net.Seals P) (vertices : net'.vertices = net.vertices)
    (arrangements : net'.arrangements = net.arrangements) : net'.Seals P where
  receivers q hq R hR := seals.receivers q hq R (by rwa [receiversOf, vertices] at hR)
  listeners I hI l hl := seals.listeners I hI l (by rwa [listenersOf, arrangements] at hl)

theorem SameLinks.seals (h : SameLinks net net') (seals : net.Seals P) : net'.Seals P :=
  ⟨h.receivers ▸ seals.receivers, h.listeners ▸ seals.listeners⟩

namespace Stays

theorem refl (net : Network) : Stays P net net := ⟨.refl net, ⟨rfl, rfl, rfl, rfl, rfl⟩⟩

theorem trans (h : Stays P net net') (h' : Stays P net' net'') : Stays P net net'' :=
  ⟨h.toOutside.trans h'.toOutside, ⟨h'.receivers.trans h.receivers, h'.listeners.trans h.listeners,
    h'.nodes.trans h.nodes, h'.indexes.trans h.indexes, h'.inputs.trans h.inputs⟩⟩

theorem of_eq (vertices : net'.vertices = net.vertices)
    (arrangements : net'.arrangements = net.arrangements) (inputs : net'.inputs = net.inputs)
    (events : ∃ new, net'.events = new ++ net.events ∧ ∀ ev ∈ new, ev.node ∈ P.nodes) :
    Stays P net net' where
  vertices _ _ := by rw [vertices]
  arrangements _ _ := by rw [arrangements]
  events := events
  receivers := funext fun q => by rw [receiversOf, receiversOf, vertices]
  listeners := funext fun I => by rw [listenersOf, listenersOf, arrangements]
  nodes := by rw [vertices]
  indexes := by rw [arrangements]
  inputs := inputs

theorem modify (net : Network) {q : NodeId} (hq : q ∈ P.nodes) {f : Vertex → Vertex}
    (hf : ∀ v, (f v).receivers = v.receivers) :
    Stays P net { net with vertices := net.vertices.modify q f } where
  vertices p hp := by
    rw [Array.getElem?_modify, if_neg (ne_of_mem_of_not_mem hq hp)]
  arrangements _ _ := rfl
  events := ⟨[], rfl, by simp⟩
  receivers := funext fun p => by
    rw [receiversOf, receiversOf, Array.getElem?_modify]
    split
    · cases net.vertices[p]? with
      | none => rfl
      | some v => exact hf v
    · rfl
  listeners := rfl
  nodes := Array.size_modify
  indexes := rfl
  inputs := rfl

theorem setNode (net : Network) {q : NodeId} (hq : q ∈ P.nodes) (n : Node) :
    Stays P net (net.setNode q n) :=
  .modify net hq fun _ => rfl

theorem setIndex {I : IndexId} {a : Arrangement} {ix : Index} (ha : net.arrangements[I]? = some a)
    (h : I ∈ P.indexes ∨ ix.idle = a.index.idle) :
    Stays P net (net.setIndex I ix) where
  vertices _ _ := rfl
  arrangements J hJ := by
    rw [arrangements_setIndex]
    split
    · next e =>
      subst e
      rw [ha]
      exact congrArg some (congrArg (Arrangement.mk a.parent · []) (h.resolve_left hJ))
    · rfl
  events := ⟨[], rfl, by simp⟩
  receivers := rfl
  listeners := funext fun J => by
    rw [listenersOf, listenersOf, arrangements_setIndex]
    split
    · cases net.arrangements[J]? <;> rfl
    · rfl
  nodes := rfl
  indexes := Array.size_modify
  inputs := rfl

end Stays

section step
variable {task : Task} {more : Agenda}

theorem arrangement_of_ok {I : IndexId} {a : Arrangement} (h : net.arrangement I = .ok a) :
    net.arrangements[I]? = some a := by
  rw [arrangement] at h
  split at h
  · next ha =>
    rw [ha, Except.ok.inj h]
  · cases h

theorem mem_receiversOf {q : NodeId} {v : Vertex} {R : Receiver} (hv : net.vertices[q]? = some v)
    (hR : R ∈ v.receivers) : R ∈ net.receiversOf q := by
  rwa [receiversOf, hv]

theorem mem_listenersOf {I : IndexId} {a : Arrangement} {l : NodeId × Side}
    (ha : net.arrangements[I]? = some a) (hl : l ∈ a.listeners) : l ∈ net.listenersOf I := by
  rwa [listenersOf, ha]

theorem concerns_propagate {q : NodeId} (hq : q ∈ P.nodes) (out : List Event) :
    ∀ t ∈ out.map (Task.propagate q), P.Concerns t := by
  intro t ht
  obtain ⟨e, -, rfl⟩ := List.mem_map.1 ht
  exact hq

theorem deliverToNode_stays {q : NodeId} {e : Event} (hq : q ∈ P.nodes)
    (h : net.deliverToNode q e = .ok (net', more)) :
    Stays P net net' ∧ ∀ t ∈ more, P.Concerns t := by
  obtain ⟨v, -, h⟩ := bind_ok h
  obtain ⟨r, -, h⟩ := bind_ok h
  obtain ⟨rfl, rfl⟩ : net.answered q v.node.isProduction r = net' ∧
      r.out.map (Task.propagate q) = more := by
    cases h
    exact ⟨rfl, rfl⟩
  refine ⟨(Stays.setNode net hq r.node).trans (.of_eq vertices_answered arrangements_answered
    inputs_answered ⟨_, events_answered, fun ev hev => ?_⟩), concerns_propagate hq r.out⟩
  rw [List.mem_reverse] at hev
  split at hev
  · obtain ⟨_, -, rfl⟩ := List.mem_map.1 hev
    exact hq
  · cases hev

theorem deliverToIndex_stays {I : IndexId} {e : Event} (seals : net.Seals P) (hI : I ∈ P.indexes)
    (h : net.deliverToIndex I e = .ok (net', more)) :
    Stays P net net' ∧ ∀ t ∈ more, P.Concerns t := by
  obtain ⟨a, ha, h⟩ := bind_ok h
  obtain ⟨⟨ix, outcome⟩, -, h⟩ := bind_ok h
  have ha := arrangement_of_ok ha
  have set : Stays P net (net.setIndex I ix) := .setIndex ha (.inl hI)
  cases outcome with
  | error issue =>
    cases h
    exact ⟨set.trans (.of_eq rfl rfl rfl ⟨[], rfl, by simp⟩), by simp⟩
  | ok change =>
    cases h
    refine ⟨set, fun t ht => ?_⟩
    obtain ⟨l, hl, rfl⟩ := List.mem_map.1 ht
    exact seals.listeners I hI l (mem_listenersOf ha hl)

theorem consult_stays {id? : Option IndexId} {signature : Tuple} {bucket : Option (Bag Tuple)}
    (h : net.consult id? signature = .ok (net', bucket)) : Stays P net net' := by
  cases id? with
  | none =>
    cases h
    exact .refl net
  | some I =>
    obtain ⟨ix, hix, h⟩ := bind_ok h
    obtain ⟨a, ha, rfl⟩ := exists_of_index hix
    cases h
    exact .setIndex ha (.inr rfl)

theorem notifyNode_stays {q : NodeId} {side : Side} {e : Event} {c : IndexChange} (hq : q ∈ P.nodes)
    (h : net.notifyNode q side e c = .ok (net', more)) :
    Stays P net net' ∧ ∀ t ∈ more, P.Concerns t := by
  obtain ⟨n, -, h⟩ := bind_ok h
  obtain ⟨⟨net₁, bucket⟩, hc, h⟩ := bind_ok h
  obtain ⟨⟨n', out⟩, -, h⟩ := bind_ok h
  cases h
  exact ⟨(consult_stays hc).trans (.setNode net₁ hq n'), concerns_propagate hq out⟩

/-- What a task of the part changes and leads to is in the part. -/
theorem step_stays (seals : net.Seals P) (ht : P.Concerns task) (h : net.step task = .ok (net', more)) :
    Stays P net net' ∧ ∀ t ∈ more, P.Concerns t := by
  cases task with
  | propagate q e =>
    obtain ⟨v, hv, h⟩ := bind_ok h
    cases h
    refine ⟨.of_eq rfl rfl rfl ⟨[], rfl, by simp⟩, fun t ht' => ?_⟩
    obtain ⟨R, hR, rfl⟩ := List.mem_map.1 ht'
    exact seals.receivers q ht R (mem_receiversOf (vertex_of_ok hv) hR)
  | deliver R e =>
    cases R with
    | node q => exact deliverToNode_stays ht h
    | index I => exact deliverToIndex_stays seals ht h
  | notify q side e c => exact notifyNode_stays ht h

theorem Does.stays {agenda : Agenda} {done : List Task} (h : Does net agenda done net')
    (seals : net.Seals P) (concerns : ∀ t ∈ agenda, P.Concerns t) : Stays P net net' := by
  induction h with
  | nil net => exact .refl net
  | cons hstep _ ih =>
    obtain ⟨first, follow⟩ := step_stays seals (concerns _ List.mem_cons_self) hstep
    refine first.trans (ih (first.seals seals) fun t ht => ?_)
    exact (List.mem_append.1 ht).elim (follow t) fun ht => concerns t (List.mem_cons_of_mem _ ht)

theorem settle_stays {agenda : Agenda} (seals : net.Seals P) (concerns : ∀ t ∈ agenda, P.Concerns t)
    (h : net.settle agenda = .ok net') : Stays P net net' := by
  obtain ⟨done, does⟩ := settle_eq_ok_iff.1 h
  exact does.stays seals concerns

/-- A change of a base relation is taken in by the part that its input is in. -/
theorem update_stays {r : Relation} {e : Event} {used : Bool} (seals : net.Seals P)
    (input : ∀ q, net.inputs[r]? = some q → q ∈ P.nodes) (h : net.update r e = .ok (net', used)) :
    Stays P net net' := by
  rw [update] at h
  cases hid : net.inputs[r]? with
  | none =>
    rw [hid] at h
    cases h
    exact .refl net
  | some q =>
    have hq := input q hid
    rw [hid] at h
    obtain ⟨⟨net₁, issue?⟩, hchange, h⟩ := bind_ok h
    have changed : Stays P net net₁ := by
      obtain ⟨n, -, hchange⟩ := bind_ok hchange
      cases n with
      | input key unique memory =>
        cases hchange
        exact .setNode net hq _
      | _ =>
        cases hchange
        exact .refl net
    cases issue? with
    | some issue =>
      cases h
      exact changed.trans (.of_eq rfl rfl rfl ⟨[], rfl, by simp⟩)
    | none =>
      obtain ⟨net₂, hsettle, h⟩ := bind_ok h
      cases h
      refine changed.trans (settle_stays (changed.seals seals) (fun t ht => ?_) hsettle)
      rw [List.mem_singleton.1 ht]
      exact hq

theorem updateAll_stays {cs : List Change} (seals : net.Seals P)
    (inputs : ∀ c ∈ cs, ∀ q, net.inputs[c.relation]? = some q → q ∈ P.nodes)
    (h : net.updateAll cs = .ok net') : Stays P net net' := by
  induction cs generalizing net with
  | nil =>
    cases h
    exact .refl _
  | cons c rest ih =>
    obtain ⟨⟨net₁, used⟩, hupdate, h⟩ := bind_ok h
    have first := update_stays seals (inputs c List.mem_cons_self) hupdate
    refine first.trans (ih (first.seals seals) (fun c' hc' => ?_) h)
    rw [first.inputs]
    exact inputs c' (List.mem_cons_of_mem c hc')

end step

def downstream (net : Network) (start : Set NodeId) : Part where
  nodes := {q | ∃ p ∈ start, net.Reaches p q}
  indexes := {I | ∃ q, (∃ p ∈ start, net.Reaches p q) ∧ .index I ∈ net.receiversOf q}

theorem seals_downstream (net : Network) (start : Set NodeId) : net.Seals (net.downstream start) where
  receivers q hq R hR := by
    obtain ⟨p, hp, hr⟩ := hq
    cases R with
    | node m => exact ⟨p, hp, hr.tail (.inl hR)⟩
    | index I => exact ⟨q, ⟨p, hp, hr⟩, hR⟩
  listeners I hI l hl := by
    obtain ⟨q, ⟨p, hp, hr⟩, hR⟩ := hI
    exact ⟨p, hp, hr.tail (.inr ⟨I, l.2, hR, hl⟩)⟩

section produced

theorem Wired.apart (w : net.Wired) : net.Apart := by
  intro r id hid
  obtain ⟨v, unique, memory, hv, hn⟩ := (w.inputs r id).1 hid
  exact ⟨(Array.getElem?_eq_some_iff.1 hv).1, by rw [produces_eq hv, hn]; rfl⟩

theorem lt_size_of_produces {q : NodeId} (h : net.produces q = true) : q < net.vertices.size := by
  by_contra hq
  rw [produces, Array.getElem?_eq_none (Nat.not_lt.1 hq)] at h
  cases h

theorem update_produced {r : Relation} {e : Event} {used : Bool} (apart : net.Apart)
    (h : net.update r e = .ok (net', used)) :
    ∃ log, Alters net net' log ∧ ∀ ev ∈ log, net'.produces ev.node = true := by
  have run : net.perform (.update r e) = .ok net' := by
    rw [perform, h]
    rfl
  obtain ⟨net₁, agenda, done, hl, does⟩ := perform_eq_ok_iff.1 run
  obtain ⟨launched, quiet⟩ := launch_alters apart hl
  obtain ⟨log, alters, passed, -⟩ := does.announces (filterMap_tail_eq_nil quiet)
  refine ⟨log, launched.trans alters, fun ev hev => ?_⟩
  rw [quiet, List.nil_append] at passed
  obtain ⟨task, -, told⟩ := List.mem_filterMap.1 (passed ▸ hev)
  cases task with
  | propagate p e' =>
    obtain ⟨hp, told⟩ := Option.ite_none_right_eq_some.1 told
    cases told
    exact (alters.produces p (lt_size_of_produces hp)).trans hp
  | deliver _ _ | notify _ _ _ _ => cases told

theorem updateAll_produced {cs : List Change} (apart : net.Apart) (h : net.updateAll cs = .ok net') :
    ∃ log, Alters net net' log ∧ ∀ ev ∈ log, net'.produces ev.node = true := by
  induction cs generalizing net with
  | nil =>
    cases h
    exact ⟨[], .refl _, by simp⟩
  | cons c rest ih =>
    obtain ⟨⟨net₁, used⟩, hupdate, h⟩ := bind_ok h
    obtain ⟨log, alters, produced⟩ := update_produced apart hupdate
    obtain ⟨log', alters', produced'⟩ := ih (alters.apart apart) h
    refine ⟨log ++ log', alters.trans alters', fun ev hev => ?_⟩
    rcases List.mem_append.1 hev with hev | hev
    · have hp := produced ev hev
      exact (alters'.produces ev.node (lt_size_of_produces hp)).trans hp
    · exact produced' ev hev

end produced

end Network
end Motif
