import Motif.Network.Install
import Motif.Proofs.Network.Parts

/-!
Building onto a network. What has been built since some time is a part that sends nothing out: new
nodes and indexes read what was there, and are read by new ones alone. So whatever is built and fed to
what is new leaves all that was there as it is, in whatever state the network was.
-/
set_option autoImplicit false
namespace Motif
namespace Network

def beyond (net : Network) : Part :=
  ⟨{q | net.vertices.size ≤ q}, {I | net.arrangements.size ≤ I}⟩

structure Annexes (old net : Network) : Prop where
  nodes : old.vertices.size ≤ net.vertices.size
  indexes : old.arrangements.size ≤ net.arrangements.size
  seals : net.Seals old.beyond
  outside : Outside old.beyond old net

variable {old net net' : Network}

theorem listenersOf_of_size_le {I : IndexId} (h : net.arrangements.size ≤ I) :
    net.listenersOf I = [] := by
  rw [listenersOf, Array.getElem?_eq_none h]
  rfl

namespace Annexes

theorem refl (net : Network) : Annexes net net where
  nodes := Nat.le_refl _
  indexes := Nat.le_refl _
  seals := ⟨fun q hq => by simp [receiversOf_of_size_le hq],
    fun I hI => by simp [listenersOf_of_size_le hI]⟩
  outside := .refl net

theorem stays (h : Annexes old net) (s : Stays old.beyond net net') : Annexes old net' where
  nodes := s.nodes ▸ h.nodes
  indexes := s.indexes ▸ h.indexes
  seals := s.seals h.seals
  outside := h.outside.trans s.toOutside

theorem of_eq (h : Annexes old net) (vertices : net'.vertices = net.vertices)
    (arrangements : net'.arrangements = net.arrangements) (events : net'.events = net.events) :
    Annexes old net' where
  nodes := vertices ▸ h.nodes
  indexes := arrangements ▸ h.indexes
  seals := h.seals.of_eq vertices arrangements
  outside := h.outside.trans ⟨fun _ _ => by rw [vertices], fun _ _ => by rw [arrangements],
    [], by rw [events]; rfl, by simp⟩

theorem since (h : Annexes old net) (vertices : net'.vertices = net.vertices)
    (arrangements : net'.arrangements = net.arrangements) :
    Annexes { old with events := net'.events } net' where
  nodes := vertices ▸ h.nodes
  indexes := arrangements ▸ h.indexes
  seals := h.seals.of_eq vertices arrangements
  outside := ⟨fun q hq => vertices ▸ h.outside.vertices q hq,
    fun I hI => arrangements ▸ h.outside.arrangements I hI, [], rfl, by simp⟩

theorem push (h : Annexes old net) (n : Node) (parents : List NodeId) (arity : Nat) :
    Annexes old (net.push n parents arity).1 where
  nodes := h.nodes.trans (by simp [Network.push])
  indexes := h.indexes
  seals := by
    refine ⟨fun q hq R hR => ?_, h.seals.listeners⟩
    rw [receiversOf, vertices_push] at hR
    split at hR
    · cases hR
    · exact h.seals.receivers q hq R hR
  outside := by
    refine h.outside.trans ⟨fun q hq => ?_, fun _ _ => rfl, [], rfl, by simp⟩
    have hne : q ≠ net.vertices.size := fun e => hq (e ▸ h.nodes)
    rw [vertices_push, if_neg hne]

theorem addReceiver (h : Annexes old net) (p : NodeId) (R : Receiver) (hR : old.beyond.Has R) :
    Annexes old (net.addReceiver p R) where
  nodes := h.nodes.trans_eq Array.size_modify.symm
  indexes := h.indexes
  seals := by
    refine ⟨fun q hq R' hR' => ?_, h.seals.listeners⟩
    rw [receiversOf, vertices_addReceiver] at hR'
    split at hR'
    · cases hv : net.vertices[q]? with
      | none => simp [hv] at hR'
      | some v =>
        simp only [hv, Option.map_some, Option.elim_some, List.mem_append, List.mem_singleton] at hR'
        exact hR'.elim (fun hR' => h.seals.receivers q hq R' (mem_receiversOf hv hR'))
          fun e => e ▸ hR
    · exact h.seals.receivers q hq R' hR'
  outside := by
    refine h.outside.trans ⟨fun q _ => ?_, fun _ _ => rfl, [], rfl, by simp⟩
    rw [vertices_addReceiver]
    split
    · cases net.vertices[q]? <;> rfl
    · rfl

theorem addListener (h : Annexes old net) (I : IndexId) (l : NodeId × Side)
    (hl : l.1 ∈ old.beyond.nodes) : Annexes old (net.addListener I l) where
  nodes := h.nodes
  indexes := h.indexes.trans_eq Array.size_modify.symm
  seals := by
    refine ⟨h.seals.receivers, fun J hJ l' hl' => ?_⟩
    rw [listenersOf, arrangements_addListener] at hl'
    split at hl'
    · cases ha : net.arrangements[J]? with
      | none => simp [ha] at hl'
      | some a =>
        simp only [ha, Option.map_some, Option.elim_some, List.mem_append, List.mem_singleton] at hl'
        exact hl'.elim (fun hl' => h.seals.listeners J hJ l' (mem_listenersOf ha hl'))
          fun e => e ▸ hl
    · exact h.seals.listeners J hJ l' hl'
  outside := by
    refine h.outside.trans ⟨fun _ _ => rfl, fun J _ => ?_, [], rfl, by simp⟩
    rw [arrangements_addListener]
    split
    · cases net.arrangements[J]? <;> rfl
    · rfl

/-- A new index, with nothing listening to it so far. -/
theorem pushIndex (h : Annexes old net) (a : Arrangement) (ha : a.listeners = [])
    (arranged : Table (NodeId × Mask) IndexId) :
    Annexes old { net with arrangements := net.arrangements.push a, arranged } where
  nodes := h.nodes
  indexes := h.indexes.trans (by simp)
  seals := by
    refine ⟨h.seals.receivers, fun J hJ l hl => ?_⟩
    rw [listenersOf, Array.getElem?_push] at hl
    split at hl
    · simp [ha] at hl
    · exact h.seals.listeners J hJ l hl
  outside := by
    refine h.outside.trans ⟨fun _ _ => rfl, fun J hJ => ?_, [], rfl, by simp⟩
    have hne : J ≠ net.arrangements.size := fun e => hJ (e ▸ h.indexes)
    rw [Array.getElem?_push, if_neg hne]

theorem fill {ix ix' : Index} {rows : List Tuple} (h : Annexes old net)
    (run : net.fill ix rows = .ok (net', ix')) : Annexes old net' := by
  induction rows generalizing net ix with
  | nil =>
    cases run
    exact h
  | cons t rows ih =>
    obtain ⟨⟨ix₁, outcome⟩, -, run⟩ := bind_ok run
    cases outcome with
    | ok _ => exact ih h run
    | error issue =>
      have reported : Annexes old (net.report issue) := h.of_eq rfl rfl rfl
      exact ih reported run

theorem indexFor {p : NodeId} {mask : Mask} {I : IndexId} (h : Annexes old net)
    (run : net.indexFor p mask = .ok (net', I)) : Annexes old net' := by
  rw [Network.indexFor] at run
  split at run
  · cases run
    exact h
  · obtain ⟨_, -, run⟩ := bind_ok run
    obtain ⟨_, -, run⟩ := bind_ok run
    obtain ⟨rows, -, run⟩ := bind_ok run
    obtain ⟨⟨net₁, ix⟩, hfill, run⟩ := bind_ok run
    cases run
    have filled := h.fill hfill
    exact (filled.pushIndex { parent := p, index := ix } rfl _).addReceiver p _ filled.indexes

theorem addOverIndexes (h : Annexes old net) (n : Node) (primary secondary : NodeId × IndexId)
    (arity : Nat) : Annexes old (net.addOverIndexes n primary secondary arity).1 :=
  ((h.push n [primary.1, secondary.1] arity).addListener primary.2 (_, .primary) h.nodes).addListener
    secondary.2 (_, .secondary) h.nodes

theorem addGrouping {p : NodeId} {mask : Mask} {operator : Aggregator} {column : Option Nat}
    {id : NodeId} (h : Annexes old net) (run : net.addGrouping p mask operator column = .ok (net', id)) :
    Annexes old net' := by
  obtain ⟨⟨net₁, source⟩, hindex, run⟩ := bind_ok run
  obtain ⟨ix, -, run⟩ := bind_ok run
  obtain ⟨g, -, run⟩ := bind_ok run
  cases run
  have indexed := h.indexFor hindex
  exact (indexed.push (.grouping g) [p] (mask.arity + 1)).addListener source (_, .primary)
    indexed.nodes

theorem concerns_arrivals {P : Part} {id : NodeId} (hid : id ∈ P.nodes) (rows : List Tuple) :
    ∀ t ∈ arrivals id rows, P.Concerns t := by
  intro t ht
  obtain ⟨_, -, rfl⟩ := List.mem_map.1 ht
  exact hid

theorem launchChild {p : NodeId} {n : Node} {arity : Nat} {agenda : Agenda} (h : Annexes old net)
    (run : net.launchChild p n arity = .ok (net', agenda)) :
    Annexes old net' ∧ ∀ t ∈ agenda, old.beyond.Concerns t := by
  obtain ⟨_, -, run⟩ := bind_ok run
  have wired := (h.push n [p] arity).addReceiver p (.node _) h.nodes
  cases hs : n.isStateful with
  | true =>
    rw [hs] at run
    obtain ⟨rows, -, run⟩ := bind_ok run
    cases run
    exact ⟨wired, concerns_arrivals h.nodes rows⟩
  | false =>
    rw [hs] at run
    cases run
    exact ⟨wired, by simp⟩

theorem addInput (h : Annexes old net) (r : Relation) (arity : Nat) (unique : Bool) :
    Annexes old (net.addInput r arity unique).1 := by
  rw [Network.addInput]
  split
  · exact h
  · exact (h.push (.input r unique ∅) [] arity).of_eq rfl rfl rfl

end Annexes

/-- The call feeds nothing that the network has already. -/
def Call.Spares (old : Network) : Call → Prop
  | .connect m _ => m ∈ old.beyond.nodes
  | .update _ _ => False
  | _ => True

namespace Annexes

/-- What a call builds is built onto the network, and what it feeds is new. -/
theorem launch {c : Call} {agenda : Agenda} (h : Annexes old net) (hc : c.Spares old)
    (run : net.launch c = .ok (net', agenda)) :
    Annexes old net' ∧ ∀ t ∈ agenda, old.beyond.Concerns t := by
  cases c with
  | update r e => exact hc.elim
  | trim p mask => exact h.launchChild run
  | constantFilter _ _ _ | equalityFilter _ _ | inequalityFilter _ _ _ | uniqueness _
  | expression _ _ _ _ =>
    obtain ⟨_, -, run⟩ := bind_ok run
    exact h.launchChild run
  | closure p =>
    obtain ⟨_, -, run⟩ := bind_ok run
    split at run
    · cases run
    · exact h.launchChild run
  | connect m p =>
    obtain ⟨_, -, run⟩ := bind_ok run
    obtain ⟨_, -, run⟩ := bind_ok run
    split at run
    · cases run
    · obtain ⟨rows, -, run⟩ := bind_ok run
      cases run
      have parents : Stays old.beyond net { net with
          vertices := net.vertices.modify m fun v => { v with parents := v.parents ++ [p] } } :=
        .modify net hc fun _ => rfl
      exact ⟨(h.stays parents).addReceiver p (.node m) hc, concerns_arrivals hc rows⟩
  | input r arity unique =>
    cases run
    exact ⟨h.addInput r arity unique, by simp⟩
  | constant rows arity | production query arity =>
    cases run
    exact ⟨h.push _ _ _, by simp⟩
  | index p mask =>
    obtain ⟨_, hcall, rfl⟩ := made_of_unsettled run
    exact ⟨h.indexFor hcall, by simp⟩
  | join p pm q qm | existence p pm q qm negative =>
    obtain ⟨_, hcall, rfl⟩ := made_of_unsettled run
    obtain ⟨_, -, hcall⟩ := bind_ok hcall
    obtain ⟨⟨net₁, I⟩, h₁, hcall⟩ := bind_ok hcall
    obtain ⟨⟨net₂, J⟩, h₂, hcall⟩ := bind_ok hcall
    cases hcall
    exact ⟨((h.indexFor h₁).indexFor h₂).addOverIndexes _ _ _ _, by simp⟩
  | outerJoin p pm q qm defaults =>
    obtain ⟨_, hcall, rfl⟩ := made_of_unsettled run
    rw [addOuterJoin] at hcall
    split at hcall
    · cases hcall
    · obtain ⟨_, -, hcall⟩ := bind_ok hcall
      obtain ⟨⟨net₁, I⟩, h₁, hcall⟩ := bind_ok hcall
      obtain ⟨⟨net₂, J⟩, h₂, hcall⟩ := bind_ok hcall
      cases hcall
      exact ⟨((h.indexFor h₁).indexFor h₂).addOverIndexes _ _ _ _, by simp⟩
  | grouping p mask operator column =>
    obtain ⟨_, hcall, rfl⟩ := made_of_unsettled run
    exact ⟨h.addGrouping hcall, by simp⟩

theorem perform {c : Call} (h : Annexes old net) (hc : c.Spares old)
    (run : net.perform c = .ok net') : Annexes old net' := by
  obtain ⟨net₁, agenda, done, hl, does⟩ := perform_eq_ok_iff.1 run
  obtain ⟨built, concerns⟩ := h.launch hc hl
  exact built.stays (does.stays built.seals concerns)

theorem installInput {g : Graph} {r : Relation} {id : NodeId} (h : Annexes old net)
    (run : net.installInput g r = .ok (net', id)) : Annexes old net' := by
  cases hr : net.inputs[r]? with
  | some q =>
    simp only [Network.installInput, inputNode?, Network.addInput, hr] at run
    cases run
    exact h
  | none =>
    simp only [Network.installInput, inputNode?, hr, Option.isNone_none, if_true] at run
    obtain ⟨net₁, hall, run⟩ := bind_ok run
    cases run
    have added := h.addInput r r.arity (g.schema.isUnique r)
    refine added.stays (updateAll_stays added.seals (fun c hc q hq => ?_) hall)
    obtain ⟨t, -, rfl⟩ := List.mem_map.1 hc
    have input : (net.addInput r r.arity (g.schema.isUnique r)).1.inputs =
        net.inputs.insert r net.vertices.size := by
      simp only [Network.addInput, hr]
      rfl
    rw [input, Std.ExtTreeMap.getElem?_insert_self] at hq
    exact Option.some.inj hq ▸ h.nodes

end Annexes

section reading

def idle (net : Network) : Network :=
  { net with arrangements := net.arrangements.map fun a => { a with index := a.index.idle } }

theorem index_idle (net : Network) (I : IndexId) :
    net.idle.index I = Index.idle <$> net.index I := by
  rw [index, index, arrangement, arrangement, idle, Array.getElem?_map]
  cases net.arrangements[I]? <;> rfl

theorem pullWithin_idle (net : Network) (depth : Nat) (q : NodeId) :
    net.idle.pullWithin depth q = net.pullWithin depth q := by
  induction depth generalizing q with
  | zero => rfl
  | succ depth ih =>
    rw [pullWithin, pullWithin, show net.idle.vertex q = net.vertex q from rfl]
    cases net.vertex q with
    | error f => rfl
    | ok v =>
      simp only [bind, Except.bind, ih]
      cases v.node with
      | join p s _ | existence p s _ | outerJoin p s _ _ =>
        simp only [index_idle]
        cases net.index p <;> cases net.index s <;> rfl
      | _ => rfl

variable {P : Part}

theorem Outside.vertex (h : Outside P net net') {q : NodeId} (hq : q ∉ P.nodes) {v : Vertex}
    (hv : net.vertices[q]? = some v) :
    ∃ v', net'.vertices[q]? = some v' ∧ v'.unread = v.unread := by
  have e := h.vertices q hq
  rw [hv] at e
  exact Option.map_eq_some_iff.1 e

theorem Outside.arrangement (h : Outside P net net') {I : IndexId} (hI : I ∉ P.indexes)
    {a : Arrangement} (ha : net.arrangements[I]? = some a) :
    ∃ a', net'.arrangements[I]? = some a' ∧ a'.unread = a.unread := by
  have e := h.arrangements I hI
  rw [ha] at e
  exact Option.map_eq_some_iff.1 e

theorem Outside.productionMemory?_eq (h : Outside P net net') {q : NodeId} (hq : q ∉ P.nodes) :
    net'.productionMemory? q = net.productionMemory? q := by
  rw [productionMemory?, productionMemory?]
  cases hv : net.vertices[q]? with
  | none =>
    have e := h.vertices q hq
    rw [hv] at e
    rw [Option.map_eq_none_iff.1 e]
  | some v =>
    obtain ⟨v', hv', same⟩ := h.vertex hq hv
    rw [hv']
    obtain ⟨n, _, _, _⟩ := v
    obtain ⟨n', _, _, _⟩ := v'
    obtain rfl : n' = n := (Vertex.eq_of_unread_eq same).1
    cases n' <;> rfl

namespace Annexes

theorem notMem_nodes {q : NodeId} (h : q < old.vertices.size) : q ∉ old.beyond.nodes :=
  Nat.not_le.2 h

theorem notMem_indexes {I : IndexId} (h : I < old.arrangements.size) : I ∉ old.beyond.indexes :=
  Nat.not_le.2 h

theorem keeps (h : Annexes old net) : Keeps old.idle net.idle where
  vertex q v hv := by
    have hlt : q < old.vertices.size := (Array.getElem?_eq_some_iff.1 hv).1
    obtain ⟨v', hv', e⟩ := h.outside.vertex (notMem_nodes hlt) hv
    obtain ⟨node, parents, arity⟩ := Vertex.eq_of_unread_eq e
    exact ⟨v', hv', node, arity, fun _ => parents⟩
  arrangement I b hb := by
    rw [idle, Array.getElem?_map, Option.map_eq_some_iff] at hb
    obtain ⟨a, ha, rfl⟩ := hb
    have hlt : I < old.arrangements.size := (Array.getElem?_eq_some_iff.1 ha).1
    obtain ⟨a', ha', e⟩ := h.outside.arrangement (notMem_indexes hlt) ha
    obtain ⟨parent, index⟩ := Arrangement.eq_of_unread_eq e
    exact ⟨{ a' with index := a'.index.idle }, by rw [idle, Array.getElem?_map, ha']; rfl, parent, index⟩

theorem pull {waiting : List ProductionEvent} (h : Annexes { old with events := waiting } net)
    {q : NodeId} {rows : List Tuple} (hq : old.pull q = .ok rows) : net.pull q = .ok rows := by
  have kept : Keeps old.idle net.idle := ⟨h.keeps.vertex, h.keeps.arrangement⟩
  rw [Network.pull, ← pullWithin_idle] at hq ⊢
  obtain ⟨more, e⟩ := Nat.exists_eq_add_of_le h.nodes
  rw [e]
  exact kept.pullWithin hq

end Annexes

end reading

end Network

namespace Installed
variable {site : Site} {s s' : Installed} {id : NodeId}

theorem make_ok {r : Except Fault (Network × NodeId)} (h : s.make r = .ok (s', id)) :
    r = .ok (s'.network, id) := by
  cases r with
  | error f => cases h
  | ok made =>
    cases h
    rfl

theorem remember_keeps {I : Network → Prop} {expr : Algebra}
    {build : Installed → Except Failure (Installed × NodeId)} (hs : I s.network)
    (h : s.remember expr build = .ok (s', id))
    (built : ∀ s₁ id₁, build s = .ok (s₁, id₁) → I s₁.network) : I s'.network := by
  rw [remember] at h
  split at h
  · cases h
    exact hs
  · obtain ⟨⟨s₁, id₁⟩, hbuild, h⟩ := bind_ok h
    cases h
    exact built s₁ _ hbuild

/-- Installing an expression is built from calls that feed nothing that is there, and from filling
inputs. -/
theorem install_keeps {I : Network → Prop}
    (call : ∀ {net net' : Network} (c : Network.Call), (∀ old, c.Spares old) → I net →
      net.perform c = .ok net' → I net')
    (input : ∀ {net net' : Network} {r : Relation} {id : NodeId}, I net →
      net.installInput site.graph r = .ok (net', id) → I net')
    {e : Algebra} (hs : I s.network) (h : s.install site e = .ok (s', id)) : I s'.network := by
  have made : ∀ {s s' : Installed} {r : Except Fault (Network × NodeId)} {id : NodeId}
      (c : Network.Call), (∀ old, c.Spares old) → s.network.perform c = Prod.fst <$> r →
      I s.network → s.make r = .ok (s', id) → I s'.network := by
    intro s s' r id c hc hr hs h
    refine call c hc hs ?_
    rw [hr, make_ok h]
    rfl
  induction e generalizing s s' id with
  | production q _ =>
    rw [install] at h
    split at h
    · cases h
      exact hs
    · cases h
  | constant rows arity =>
    refine remember_keeps hs h fun s₁ id₁ hb => ?_
    exact made (.constant rows arity) (fun _ => trivial) rfl hs hb
  | input r =>
    refine remember_keeps hs h fun s₁ id₁ hb => ?_
    exact input hs (make_ok hb)
  | trim e mask ih =>
    refine remember_keeps hs h fun s₁ id₁ hb => ?_
    obtain ⟨⟨s₂, p⟩, h₂, hb⟩ := bind_ok hb
    exact made (.trim p mask) (fun _ => trivial) rfl (ih hs h₂) hb
  | constantFilter e column value ih =>
    refine remember_keeps hs h fun s₁ id₁ hb => ?_
    obtain ⟨⟨s₂, p⟩, h₂, hb⟩ := bind_ok hb
    exact made (.constantFilter p column value) (fun _ => trivial) rfl (ih hs h₂) hb
  | equalityFilter e groups ih =>
    refine remember_keeps hs h fun s₁ id₁ hb => ?_
    obtain ⟨⟨s₂, p⟩, h₂, hb⟩ := bind_ok hb
    exact made (.equalityFilter p groups) (fun _ => trivial) rfl (ih hs h₂) hb
  | inequalityFilter e left right ih =>
    refine remember_keeps hs h fun s₁ id₁ hb => ?_
    obtain ⟨⟨s₂, p⟩, h₂, hb⟩ := bind_ok hb
    exact made (.inequalityFilter p left right) (fun _ => trivial) rfl (ih hs h₂) hb
  | expression e evaluator inputs mode ih =>
    refine remember_keeps hs h fun s₁ id₁ hb => ?_
    obtain ⟨x, -, hb⟩ := bind_ok hb
    obtain ⟨⟨s₂, p⟩, h₂, hb⟩ := bind_ok hb
    exact made (.expression p x inputs mode) (fun _ => trivial) rfl (ih hs h₂) hb
  | join a pm b qm iha ihb =>
    refine remember_keeps hs h fun s₁ id₁ hb => ?_
    obtain ⟨⟨s₂, p⟩, h₂, hb⟩ := bind_ok hb
    obtain ⟨⟨s₃, q⟩, h₃, hb⟩ := bind_ok hb
    exact made (.join p pm q qm) (fun _ => trivial) rfl (ihb (iha hs h₂) h₃) hb
  | existence a pm b qm negative iha ihb =>
    refine remember_keeps hs h fun s₁ id₁ hb => ?_
    obtain ⟨⟨s₂, p⟩, h₂, hb⟩ := bind_ok hb
    obtain ⟨⟨s₃, q⟩, h₃, hb⟩ := bind_ok hb
    exact made (.existence p pm q qm negative) (fun _ => trivial) rfl (ihb (iha hs h₂) h₃) hb
  | outerJoin a pm b qm defaults iha ihb =>
    refine remember_keeps hs h fun s₁ id₁ hb => ?_
    obtain ⟨⟨s₂, p⟩, h₂, hb⟩ := bind_ok hb
    obtain ⟨⟨s₃, q⟩, h₃, hb⟩ := bind_ok hb
    exact made (.outerJoin p pm q qm defaults) (fun _ => trivial) rfl (ihb (iha hs h₂) h₃) hb
  | grouping e mask operator column ih =>
    refine remember_keeps hs h fun s₁ id₁ hb => ?_
    obtain ⟨op, -, hb⟩ := bind_ok hb
    obtain ⟨⟨s₂, p⟩, h₂, hb⟩ := bind_ok hb
    exact made (.grouping p mask op column) (fun _ => trivial) rfl (ih hs h₂) hb
  | closure e ih =>
    refine remember_keeps hs h fun s₁ id₁ hb => ?_
    obtain ⟨⟨s₂, p⟩, h₂, hb⟩ := bind_ok hb
    exact made (.closure p) (fun _ => trivial) rfl (ih hs h₂) hb

theorem install_annexes {old : Network} {e : Algebra} (hs : Network.Annexes old s.network)
    (h : s.install site e = .ok (s', id)) : Network.Annexes old s'.network :=
  install_keeps (fun _ hc hs h => hs.perform (hc old) h) (fun hs h => hs.installInput h) hs h

end Installed
end Motif
