import Motif.Proofs.Engine.Netting
import Motif.Proofs.Network.Termination
import Motif.Proofs.Network.Traces

/-!
What productions announce. A production records that a match has come or gone, and passes it on before
anything else is done, however often it is reached again in the meantime. So what it has announced is
the history of what it holds, and also what it has passed on, in cyclic networks as in others.
-/
set_option autoImplicit false
namespace Motif

open ProductionEvent

namespace Node
variable {n : Node} {e : Event}

theorem isProduction_of_receive {r : Reply} (h : n.receive e = .ok r) :
    r.node.isProduction = n.isProduction := by
  cases n with
  | input _ _ _ | constant _ | join _ _ _ | existence _ _ _ | outerJoin _ _ _ _ | grouping _ =>
    cases h
    rfl
  | trim _ | constantFilter _ _ | equalityFilter _ | expression _ =>
    obtain ⟨_, -, h⟩ := bind_ok h
    cases h
    rfl
  | inequalityFilter _ _ =>
    obtain ⟨_, -, h⟩ := bind_ok h
    obtain ⟨_, -, h⟩ := bind_ok h
    cases h
    rfl
  | closure state =>
    cases h
    rw [receiveEdge]
    repeat' split
    all_goals rfl
  | uniqueness memory | production query memory =>
    obtain ⟨memory', out, issue, hr, -⟩ := receiveCounted_counts _ _ memory e
    cases h.symm.trans (congrArg Except.ok hr)
    rfl

theorem isProduction_of_respond {n' : Node} {side : Side} {c : IndexChange}
    {bucket : Option (Bag Tuple)} {out : List Event} (h : n.respond side e c bucket = .ok (n', out)) :
    n'.isProduction = n.isProduction ∧ n'.matched = n.matched ∧
      (n.isProduction = true → out = []) := by
  cases n with
  | join _ _ _ | outerJoin _ _ _ _ | grouping _ =>
    obtain ⟨_, -, h⟩ := bind_ok h
    cases h
    exact ⟨rfl, rfl, nofun⟩
  | existence _ _ _ =>
    cases h
    exact ⟨rfl, rfl, nofun⟩
  | _ =>
    cases h
    exact ⟨rfl, rfl, fun _ => rfl⟩

end Node

namespace Network
variable {net net' net'' : Network} {log log' : List ProductionEvent}

def produces (net : Network) (p : NodeId) : Bool :=
  net.vertices[p]?.elim false fun v => v.node.isProduction

def allMatched (net : Network) : Set (NodeId × Tuple) := {s | s.2 ∈ net.matchedAt s.1}

def announcement? (net : Network) : Task → Option ProductionEvent
  | .propagate p e => if net.produces p then some ⟨p, e⟩ else none
  | _ => none

def Apart (net : Network) : Prop :=
  ∀ (r : Relation) (id : NodeId), net.inputs[r]? = some id →
    id < net.vertices.size ∧ net.produces id = false

structure Alters (net net' : Network) (log : List ProductionEvent) : Prop where
  size : net.vertices.size ≤ net'.vertices.size
  produces : ∀ p, p < net.vertices.size → net'.produces p = net.produces p
  apart : net.Apart → net'.Apart
  events : net'.events = log.reverse ++ net.events
  happens : Happens net.allMatched log net'.allMatched

namespace Alters

theorem trans (h : Alters net net' log) (h' : Alters net' net'' log') :
    Alters net net'' (log ++ log') where
  size := h.size.trans h'.size
  produces p hp := (h'.produces p (hp.trans_le h.size)).trans (h.produces p hp)
  apart ha := h'.apart (h.apart ha)
  events := by rw [h'.events, h.events, List.reverse_append, List.append_assoc]
  happens := h.happens.append h'.happens

theorem of_inputs (size : net.vertices.size ≤ net'.vertices.size)
    (produces : ∀ p, p < net.vertices.size → net'.produces p = net.produces p)
    (hi : net'.inputs = net.inputs) (he : net'.events = log.reverse ++ net.events)
    (hh : Happens net.allMatched log net'.allMatched) : Alters net net' log := by
  refine ⟨size, produces, fun ha r id hid => ?_, he, hh⟩
  rw [hi] at hid
  obtain ⟨hlt, hp⟩ := ha r id hid
  exact ⟨hlt.trans_le size, (produces id hlt).trans hp⟩

theorem of_nodes
    (hn : ∀ p : NodeId, net'.vertices[p]?.map Vertex.node = net.vertices[p]?.map Vertex.node)
    (hi : net'.inputs = net.inputs) (he : net'.events = net.events) : Alters net net' [] := by
  have bounds : ∀ p : NodeId, net'.vertices.size ≤ p ↔ net.vertices.size ≤ p := fun p => by
    rw [← Array.getElem?_eq_none_iff, ← Option.map_eq_none_iff, hn, Option.map_eq_none_iff,
      Array.getElem?_eq_none_iff]
  have size : net'.vertices.size = net.vertices.size :=
    Nat.le_antisymm ((bounds _).2 (Nat.le_refl _)) ((bounds _).1 (Nat.le_refl _))
  have same : ∀ {α : Type} (d : α) (f : Node → α) (p : NodeId),
      net'.vertices[p]?.elim d (fun v => f v.node) = net.vertices[p]?.elim d fun v => f v.node :=
    fun d f p => by
      have := congrArg (Option.elim · d f) (hn p)
      rwa [Option.elim_map, Option.elim_map] at this
  refine of_inputs size.ge (fun p _ => same false Node.isProduction p) hi he (Set.ext fun s => ?_)
  have matched : net'.matchedAt s.1 = net.matchedAt s.1 := same ∅ Node.matched s.1
  exact iff_of_eq (congrArg (s.2 ∈ ·) matched.symm)

theorem of_vertices (hv : net'.vertices = net.vertices) (hi : net'.inputs = net.inputs)
    (he : net'.events = net.events) : Alters net net' [] := of_nodes (fun _ => by rw [hv]) hi he

theorem refl (net : Network) : Alters net net [] := of_vertices rfl rfl rfl

theorem of_modify (net : Network) (id : NodeId) {f : Vertex → Vertex}
    (hf : ∀ v, (f v).node = v.node) : Alters net { net with vertices := net.vertices.modify id f } [] := by
  refine of_nodes (fun p => ?_) rfl rfl
  rw [Array.getElem?_modify]
  split
  · rw [Option.map_map]
    exact congrArg (Option.map · _) (funext hf)
  · rfl

theorem addReceiver (net : Network) (id : NodeId) (R : Receiver) :
    Alters net (net.addReceiver id R) [] := of_modify net id fun _ => rfl

theorem push (net : Network) {n : Node} (hn : n.matched = ∅) (parents : List NodeId) (arity : Nat) :
    Alters net (net.push n parents arity).1 [] := by
  have old : ∀ p : NodeId, p < net.vertices.size →
      (net.push n parents arity).1.vertices[p]? = net.vertices[p]? := fun p hp => by
    rw [Network.push, Array.getElem?_push, if_neg (Nat.ne_of_lt hp)]
  have produces : ∀ p : NodeId, p < net.vertices.size →
      (net.push n parents arity).1.produces p = net.produces p := fun p hp => by
    rw [Network.produces, old p hp]
    rfl
  have size : (net.push n parents arity).1.vertices.size = net.vertices.size + 1 :=
    Array.size_push _
  refine of_inputs (size ▸ Nat.le_succ _) produces rfl rfl (Set.ext fun s => ?_)
  have matched : (net.push n parents arity).1.matchedAt s.1 = net.matchedAt s.1 := by
    rw [matchedAt, matchedAt, Network.push, Array.getElem?_push]
    split
    · next h =>
      rw [h, Array.getElem?_eq_none (Nat.le_refl _)]
      exact hn
    · rfl
  exact iff_of_eq (congrArg (s.2 ∈ ·) matched.symm)

/-- A node answers, and the matches of its production change by what it announces. -/
theorem setNode {m : NodeId} {v : Vertex} {n : Node} (hv : net.vertices[m]? = some v)
    (hp : n.isProduction = v.node.isProduction) (hi : net'.inputs = net.inputs)
    (hvs : net'.vertices = (net.setNode m n).vertices) (he : net'.events = log.reverse ++ net.events)
    (hh : Happens net.allMatched log (net.setNode m n).allMatched) : Alters net net' log := by
  have size : net'.vertices.size = net.vertices.size := by
    rw [hvs]
    exact Array.size_modify
  have same : net'.allMatched = (net.setNode m n).allMatched := by
    simp only [allMatched, matchedAt, hvs]
  refine of_inputs size.ge (fun p _ => ?_) hi he (same ▸ hh)
  rw [Network.produces, Network.produces, hvs, vertices_setNode]
  split
  · next h =>
    subst h
    rw [hv]
    exact hp
  · rfl

end Alters

section step
variable {task : Task} {more : Agenda}

theorem vertex_of_ok {m : NodeId} {v : Vertex} (h : net.vertex m = .ok v) :
    net.vertices[m]? = some v := by
  rw [vertex] at h
  cases hv : net.vertices[m]? with
  | none =>
    rw [hv] at h
    cases h
  | some u =>
    rw [hv] at h
    rw [Except.ok.inj h]

theorem produces_eq {m : NodeId} {v : Vertex} (hv : net.vertices[m]? = some v) :
    net.produces m = v.node.isProduction := by
  rw [produces, hv]
  rfl

theorem mem_allMatched_setNode {m : NodeId} {v : Vertex} {n : Node}
    (hv : net.vertices[m]? = some v) (s : NodeId × Tuple) : s ∈ (net.setNode m n).allMatched ↔
      if m = s.1 then s.2 ∈ n.matched else s ∈ net.allMatched := by
  rw [allMatched, Set.mem_ofPred_eq, matchedAt, vertices_setNode]
  split
  · next h =>
    rw [← h, hv]
    rfl
  · rfl

theorem mem_allMatched {m : NodeId} {v : Vertex} (hv : net.vertices[m]? = some v)
    {s : NodeId × Tuple} (hs : m = s.1) : s ∈ net.allMatched ↔ s.2 ∈ v.node.matched := by
  rw [allMatched, Set.mem_ofPred_eq, matchedAt, ← hs, hv]
  rfl

theorem allMatched_setNode_of_matched {m : NodeId} {v : Vertex} {n : Node}
    (hv : net.vertices[m]? = some v) (hm : n.matched = v.node.matched) :
    (net.setNode m n).allMatched = net.allMatched := Set.ext fun s => by
  rw [mem_allMatched_setNode hv]
  split
  · next hs => rw [mem_allMatched hv hs, hm]
  · rfl

/-- What a production counts changes by what it announces. -/
theorem happens_of_counts {m : NodeId} {v : Vertex} {n : Node} {memory memory' : Bag Tuple}
    {e : Event} {out : List Event} (hv : net.vertices[m]? = some v)
    (hold : v.node.matched = memory.toMultiset.toFinset)
    (hnew : n.matched = memory'.toMultiset.toFinset) (h : Node.Counts memory memory' e out) :
    Happens net.allMatched (out.map (ProductionEvent.mk m)) (net.setNode m n).allMatched := by
  have after : ∀ s, s ∈ (net.setNode m n).allMatched ↔
      if m = s.1 then s.2 ∈ n.matched else s ∈ net.allMatched := mem_allMatched_setNode hv
  have before : ∀ s, m = s.1 → (s ∈ net.allMatched ↔ s.2 ∈ v.node.matched) :=
    fun s => mem_allMatched hv
  cases h with
  | still h =>
    refine Set.ext fun s => ?_
    rw [after]
    split
    · next hs => rw [before s hs, hold, hnew, h]
    · rfl
  | comes hd ht h | goes hd ht h =>
    refine ⟨?_, Set.ext fun s => ?_⟩
    · rw [suits_iff, before _ rfl, hold]
      simpa [hd, subject] using ht
    · rw [after, mem_apply]
      by_cases hm : m = s.1
      · rw [if_pos hm, hnew, h, before s hm, hold]
        by_cases he : e.tuple = s.2
        · simp [subject, hm, he, hd]
        · rw [if_neg fun hs => he (congrArg Prod.snd hs)]
          simp [Ne.symm he]
      · rw [if_neg hm, if_neg fun hs => hm (congrArg Prod.fst hs)]

/-- A step that makes a production announce changes lets it pass them on first, and nothing else. -/
structure Announces (net net' : Network) (more : Agenda) (log : List ProductionEvent) : Prop
    extends Alters net net' log where
  bounded : net'.vertices.size = net.vertices.size
  follows : more.filterMap net.announcement? = log
  first : more.tail.filterMap net.announcement? = []

theorem filterMap_announcement?_eq_nil
    (h : ∀ p e, .propagate p e ∈ more → net.produces p = false) :
    more.filterMap net.announcement? = [] := by
  refine List.filterMap_eq_nil_iff.2 fun t ht => ?_
  cases t with
  | propagate p e => exact if_neg (by simp [h p e ht])
  | deliver _ _ | notify _ _ _ _ => rfl

theorem filterMap_tail_eq_nil (h : more.filterMap net.announcement? = []) :
    more.tail.filterMap net.announcement? = [] :=
  List.filterMap_eq_nil_iff.2 fun t ht =>
    List.filterMap_eq_nil_iff.1 h t (List.mem_of_mem_tail ht)

theorem Alters.announces (h : Alters net net' []) (size : net'.vertices.size = net.vertices.size)
    (hm : ∀ p e, .propagate p e ∈ more → net.produces p = false) : Announces net net' more [] :=
  ⟨h, size, filterMap_announcement?_eq_nil hm,
    filterMap_tail_eq_nil (filterMap_announcement?_eq_nil hm)⟩

theorem announces_of_vertices (hv : net'.vertices = net.vertices) (hi : net'.inputs = net.inputs)
    (he : net'.events = net.events) (hm : ∀ p e, .propagate p e ∈ more → net.produces p = false) :
    Announces net net' more [] := (Alters.of_vertices hv hi he).announces (by rw [hv]) hm

theorem inputs_answered {m : NodeId} {production : Bool} {r : Reply} :
    (net.answered m production r).inputs = net.inputs := by
  rw [answered]
  cases r.issue <;> cases production <;> rfl

theorem events_announce (m : NodeId) (out : List Event) (net : Network) :
    (net.announce m out).events = (out.map (ProductionEvent.mk m)).reverse ++ net.events := by
  rw [announce]
  induction out generalizing net with
  | nil => rfl
  | cons e out ih =>
    rw [List.foldl_cons, List.map_cons, List.reverse_cons, List.append_assoc]
    exact ih { net with events := ⟨m, e⟩ :: net.events }

theorem events_answered {m : NodeId} {production : Bool} {r : Reply} :
    (net.answered m production r).events =
      (if production then r.out.map (ProductionEvent.mk m) else []).reverse ++ net.events := by
  rw [answered]
  cases r.issue <;> cases production
  all_goals first | rfl | exact events_announce m r.out _

theorem size_answered {m : NodeId} {production : Bool} {r : Reply} :
    (net.answered m production r).vertices.size = net.vertices.size := by
  rw [vertices_answered]
  exact Array.size_modify

theorem announces_of_matched {m : NodeId} {v : Vertex} {n : Node} {out : List Event}
    (hv : net.vertices[m]? = some v) (hp : n.isProduction = v.node.isProduction)
    (hm : n.matched = v.node.matched) (ho : v.node.isProduction = true → out = [])
    (hvs : net'.vertices = (net.setNode m n).vertices) (hi : net'.inputs = net.inputs)
    (he : net'.events = net.events) : Announces net net' (out.map (Task.propagate m)) [] := by
  have alters : Alters net net' [] :=
    .setNode hv hp hi hvs he (allMatched_setNode_of_matched hv hm).symm
  refine alters.announces ?_ fun p e ht => ?_
  · rw [hvs]
    exact Array.size_modify
  · obtain ⟨_, hmem, heq⟩ := List.mem_map.1 ht
    cases heq
    rw [produces_eq hv]
    refine Bool.eq_false_iff.2 fun h => ?_
    rw [ho h] at hmem
    cases hmem

theorem answered_announces_of_counts {m : NodeId} {v : Vertex} {query : String}
    {memory memory' : Bag Tuple} {e : Event} {out : List Event} {issue : Option Issue}
    (hv : net.vertices[m]? = some v) (hnode : v.node = .production query memory)
    (h : Node.Counts memory memory' e out) :
    Announces net (net.answered m true ⟨.production query memory', out, issue⟩)
      (out.map (Task.propagate m)) (out.map (ProductionEvent.mk m)) where
  toAlters := Alters.setNode hv (by rw [hnode]; rfl) inputs_answered vertices_answered
    events_answered (happens_of_counts hv (by rw [hnode]; rfl) rfl h)
  bounded := size_answered
  follows := by
    have told : net.announcement? ∘ Task.propagate m = some ∘ ProductionEvent.mk m :=
      funext fun e => if_pos ((produces_eq hv).trans (by rw [hnode]; rfl))
    rw [List.filterMap_map, told, List.filterMap_eq_map]
  first := by cases h <;> rfl

theorem deliverToNode_announces {m : NodeId} {e : Event}
    (h : net.deliverToNode m e = .ok (net', more)) : ∃ log, Announces net net' more log := by
  obtain ⟨v, hv, h⟩ := bind_ok h
  obtain ⟨r, hr, h⟩ := bind_ok h
  have hv := vertex_of_ok hv
  obtain ⟨rfl, rfl⟩ : net.answered m v.node.isProduction r = net' ∧
      r.out.map (Task.propagate m) = more := by
    cases h
    exact ⟨rfl, rfl⟩
  cases hp : v.node.isProduction with
  | false =>
    have kind := Node.isProduction_of_receive hr
    refine ⟨[], announces_of_matched hv kind ?_ (by simp [hp]) vertices_answered inputs_answered
      events_answered⟩
    rw [Node.matched_of_not_production hp, Node.matched_of_not_production (kind.trans hp)]
  | true =>
    obtain ⟨query, memory, hnode⟩ : ∃ query memory, v.node = .production query memory := by
      cases hn : v.node <;> rw [hn] at hp <;> cases hp
      exact ⟨_, _, rfl⟩
    obtain ⟨memory', out, issue, hcount, counts, -⟩ :=
      Node.receiveCounted_counts (.production query) ("production " ++ query) memory e
    obtain rfl : ⟨.production query memory', out, issue⟩ = r := by
      rw [hnode, Node.receive, hcount] at hr
      exact Except.ok.inj hr
    exact ⟨_, answered_announces_of_counts hv hnode counts⟩

theorem deliverToIndex_announces {id : IndexId} {e : Event}
    (h : net.deliverToIndex id e = .ok (net', more)) : ∃ log, Announces net net' more log := by
  obtain ⟨a, -, h⟩ := bind_ok h
  obtain ⟨⟨ix, outcome⟩, -, h⟩ := bind_ok h
  cases outcome with
  | error issue =>
    cases h
    exact ⟨[], announces_of_vertices rfl rfl rfl (by simp)⟩
  | ok change =>
    cases h
    exact ⟨[], announces_of_vertices rfl rfl rfl (by simp)⟩

theorem consult_vertices {id? : Option IndexId} {signature : Tuple} {bucket : Option (Bag Tuple)}
    (h : net.consult id? signature = .ok (net', bucket)) : net'.vertices = net.vertices ∧
      net'.inputs = net.inputs ∧ net'.events = net.events := by
  cases id? with
  | none =>
    cases h
    exact ⟨rfl, rfl, rfl⟩
  | some id =>
    obtain ⟨ix, -, h⟩ := bind_ok h
    cases h
    exact ⟨rfl, rfl, rfl⟩

theorem notifyNode_announces {m : NodeId} {side : Side} {e : Event} {c : IndexChange}
    (h : net.notifyNode m side e c = .ok (net', more)) : ∃ log, Announces net net' more log := by
  obtain ⟨n, hn, h⟩ := bind_ok h
  obtain ⟨⟨net₁, bucket⟩, hc, h⟩ := bind_ok h
  obtain ⟨⟨n', out⟩, hr, h⟩ := bind_ok h
  cases h
  obtain ⟨v, hv, hn⟩ := bind_ok hn
  cases hn
  have hv := vertex_of_ok hv
  obtain ⟨hvs, hi, he⟩ := consult_vertices hc
  obtain ⟨kind, matched, silent⟩ := Node.isProduction_of_respond hr
  refine ⟨[], announces_of_matched hv kind matched silent ?_ hi he⟩
  rw [Network.setNode, Network.setNode, hvs]

theorem step_announces (h : net.step task = .ok (net', more)) :
    ∃ log, Announces net net' more log := by
  cases task with
  | propagate p e =>
    obtain ⟨v, -, h⟩ := bind_ok h
    cases h
    exact ⟨[], announces_of_vertices rfl rfl rfl (by simp)⟩
  | deliver R e =>
    cases R with
    | node m => exact deliverToNode_announces h
    | index id => exact deliverToIndex_announces h
  | notify m side e c => exact notifyNode_announces h

theorem Announces.announcement? (h : Announces net net' more log) :
    net'.announcement? = net.announcement? := by
  have produces : ∀ p, net'.produces p = net.produces p := fun p => by
    rcases Nat.lt_or_ge p net.vertices.size with hp | hp
    · exact h.produces p hp
    · rw [Network.produces, Network.produces, Array.getElem?_eq_none hp,
        Array.getElem?_eq_none (h.bounded ▸ hp)]
  funext t
  cases t with
  | propagate p e => simp only [Network.announcement?, produces]
  | deliver _ _ | notify _ _ _ _ => rfl

/-- What is announced on the way is passed on, in the same order. Only the first task may be one that
passes a change of a production on: such a change is passed on at once. -/
theorem Does.announces {agenda : Agenda} {done : List Task} (h : Does net agenda done net')
    (first : agenda.tail.filterMap net.announcement? = []) :
    ∃ log, Alters net net' log ∧
      done.filterMap net.announcement? = agenda.filterMap net.announcement? ++ log ∧
      ∀ p e, .propagate p e ∈ done → p < net.vertices.size := by
  induction h with
  | nil net => exact ⟨[], .refl net, rfl, nofun⟩
  | @cons net net₁ net' task more rest done hstep _ ih =>
    obtain ⟨log, ann⟩ := step_announces hstep
    have same := ann.announcement?
    have rest_nil : rest.filterMap net.announcement? = [] := first
    obtain ⟨log', alters, hdone, within⟩ := ih (by
      rw [same]
      cases more with
      | nil => exact filterMap_tail_eq_nil rest_nil
      | cons t more =>
        rw [List.cons_append, List.tail_cons, List.filterMap_append, rest_nil, List.append_nil]
        exact ann.first)
    refine ⟨log ++ log', ann.toAlters.trans alters, ?_, fun p e ht => ?_⟩
    · rw [same, List.filterMap_append, ann.follows, rest_nil, List.append_nil] at hdone
      rw [← List.singleton_append, ← List.singleton_append (l := rest), List.filterMap_append,
        List.filterMap_append, hdone, rest_nil, List.append_nil]
    · rcases List.mem_cons.1 ht with rfl | ht
      · obtain ⟨v, hv, -⟩ := bind_ok hstep
        exact (Array.getElem?_eq_some_iff.1 (vertex_of_ok hv)).1
      · exact ann.bounded ▸ within p e ht

end step

section launch
variable {agenda : Agenda} {n : Node} {p : NodeId} {arity : Nat}

theorem filterMap_arrivals (id : NodeId) (rows : List Tuple) :
    (arrivals id rows).filterMap net.announcement? = [] := by
  rw [arrivals, List.filterMap_map]
  exact List.filterMap_eq_nil_iff.2 fun _ _ => rfl

theorem launchChild_alters (hn : n.matched = ∅)
    (h : net.launchChild p n arity = .ok (net', agenda)) :
    Alters net net' [] ∧ ∀ net : Network, agenda.filterMap net.announcement? = [] := by
  obtain ⟨_, -, h⟩ := bind_ok h
  have wired := (Alters.push net hn [p] arity).trans
    (.addReceiver (net.push n [p] arity).1 p (.node (net.push n [p] arity).2))
  cases hs : n.isStateful with
  | true =>
    rw [hs] at h
    obtain ⟨rows, -, h⟩ := bind_ok h
    cases h
    exact ⟨wired, fun _ => filterMap_arrivals _ rows⟩
  | false =>
    rw [hs] at h
    cases h
    exact ⟨wired, fun _ => rfl⟩

theorem fill_alters {ix ix' : Index} {rows : List Tuple} (h : net.fill ix rows = .ok (net', ix')) :
    Alters net net' [] := by
  induction rows generalizing net ix with
  | nil =>
    cases h
    exact .refl _
  | cons t rows ih =>
    obtain ⟨⟨ix₁, outcome⟩, -, h⟩ := bind_ok h
    cases outcome with
    | ok _ => exact ih h
    | error issue =>
      have reported : Alters net (net.report issue) [] := .of_vertices rfl rfl rfl
      exact reported.trans (ih h)

theorem indexFor_alters {mask : Mask} {id : IndexId} (h : net.indexFor p mask = .ok (net', id)) :
    Alters net net' [] := by
  rw [indexFor] at h
  split at h
  · cases h
    exact .refl net
  · obtain ⟨_, -, h⟩ := bind_ok h
    obtain ⟨_, -, h⟩ := bind_ok h
    obtain ⟨rows, -, h⟩ := bind_ok h
    obtain ⟨⟨net₁, ix⟩, hfill, h⟩ := bind_ok h
    cases h
    have built : Alters net₁ { net₁ with
        arrangements := net₁.arrangements.push { parent := p, index := ix }
        arranged := net₁.arranged.set (p, mask) net₁.arrangements.size } [] :=
      .of_vertices rfl rfl rfl
    exact (fill_alters hfill).trans (built.trans (.addReceiver _ p _))

theorem addOverIndexes_alters (hn : n.matched = ∅) (primary secondary : NodeId × IndexId) :
    Alters net (net.addOverIndexes n primary secondary arity).1 [] := by
  have listening : Alters (net.push n [primary.1, secondary.1] arity).1
      (net.addOverIndexes n primary secondary arity).1 [] := .of_vertices rfl rfl rfl
  exact (Alters.push net hn _ arity).trans listening

theorem addOverBoth_alters {net₁ net₂ : Network} {q : NodeId} {pm qm : Mask} {I J : IndexId}
    (hn : n.matched = ∅) (h₁ : net.indexFor p pm = .ok (net₁, I))
    (h₂ : net₁.indexFor q qm = .ok (net₂, J)) :
    Alters net (net₂.addOverIndexes n (p, I) (q, J) arity).1 [] :=
  (indexFor_alters h₁).trans ((indexFor_alters h₂).trans (addOverIndexes_alters hn (p, I) (q, J)))

theorem addGrouping_alters {mask : Mask} {operator : Aggregator} {column : Option Nat} {id : NodeId}
    (h : net.addGrouping p mask operator column = .ok (net', id)) : Alters net net' [] := by
  obtain ⟨⟨net₁, source⟩, hindex, h⟩ := bind_ok h
  obtain ⟨ix, -, h⟩ := bind_ok h
  obtain ⟨g, -, h⟩ := bind_ok h
  cases h
  have listening : Alters (net₁.push (.grouping g) [p] (mask.arity + 1)).1
      ((net₁.push (.grouping g) [p] (mask.arity + 1)).1.addListener source
        ((net₁.push (.grouping g) [p] (mask.arity + 1)).2, .primary)) [] := .of_vertices rfl rfl rfl
  exact (indexFor_alters hindex).trans ((Alters.push net₁ rfl _ _).trans listening)

theorem addInput_alters (net : Network) (r : Relation) (arity : Nat) (unique : Bool) :
    Alters net (net.addInput r arity unique).1 [] := by
  rw [addInput]
  split
  · exact .refl net
  · have pushed := Alters.push net (n := .input r unique ∅) rfl [] arity
    refine ⟨pushed.size, pushed.produces, fun ha r' id hid => ?_, pushed.events, pushed.happens⟩
    replace hid : (net.inputs.insert r net.vertices.size)[r']? = some id := hid
    rw [Std.ExtTreeMap.getElem?_insert] at hid
    split at hid
    · cases hid
      have fresh : (net.push (.input r unique ∅) [] arity).1.vertices[net.vertices.size]? =
          some ⟨.input r unique ∅, [], [], arity⟩ := Array.getElem?_push_size
      exact ⟨(Array.getElem?_eq_some_iff.1 fresh).1, produces_eq fresh⟩
    · exact pushed.apart ha r' id hid

theorem update_alters {r : Relation} {e : Event} (apart : net.Apart)
    (h : net.launch (.update r e) = .ok (net', agenda)) :
    Alters net net' [] ∧ agenda.filterMap net'.announcement? = [] := by
  rw [launch] at h
  cases hid : net.inputs[r]? with
  | none =>
    rw [hid] at h
    cases h
    exact ⟨.refl net, rfl⟩
  | some id =>
    obtain ⟨hlt, hno⟩ := apart r id hid
    have sends : Alters net net' [] →
        ∀ e, [Task.propagate id e].filterMap net'.announcement? = [] :=
      fun alters e => filterMap_announcement?_eq_nil fun p e' ht => by
        cases List.mem_singleton.1 ht
        exact (alters.produces id hlt).trans hno
    rw [hid] at h
    obtain ⟨n, hn, h⟩ := bind_ok h
    obtain ⟨v, hv, hn⟩ := bind_ok hn
    have hv := vertex_of_ok hv
    cases hn
    cases hnode : v.node with
    | input key unique memory =>
      rw [hnode] at h
      cases hc : changeMemory r unique memory e with
      | error issue =>
        simp only [hc] at h
        cases h
        exact ⟨.of_vertices rfl rfl rfl, rfl⟩
      | ok memory' =>
        simp only [hc] at h
        cases h
        have alters : Alters net (net.setNode id (.input key unique memory')) [] :=
          .setNode hv (by rw [hnode]; rfl) rfl rfl rfl
            (allMatched_setNode_of_matched hv (by rw [hnode]; rfl)).symm
        exact ⟨alters, sends alters e⟩
    | _ =>
      rw [hnode] at h
      cases h
      exact ⟨.refl _, sends (.refl _) e⟩

/-- What a call changes at once, no production announces; and none is told to pass anything on. -/
theorem launch_alters {c : Call} (apart : net.Apart) (h : net.launch c = .ok (net', agenda)) :
    Alters net net' [] ∧ agenda.filterMap net'.announcement? = [] := by
  have child : ∀ {net₀ p n arity}, n.matched = ∅ →
      net₀.launchChild p n arity = .ok (net', agenda) →
        Alters net₀ net' [] ∧ agenda.filterMap net'.announcement? = [] := fun hn h =>
    ⟨(launchChild_alters hn h).1, (launchChild_alters hn h).2 net'⟩
  cases c with
  | trim p mask => exact child rfl h
  | constantFilter _ _ _ | equalityFilter _ _ | inequalityFilter _ _ _ | uniqueness _
  | expression _ _ _ _ =>
    obtain ⟨_, -, h⟩ := bind_ok h
    exact child rfl h
  | closure p =>
    obtain ⟨_, -, h⟩ := bind_ok h
    split at h
    · cases h
    · exact child rfl h
  | connect m p =>
    obtain ⟨_, -, h⟩ := bind_ok h
    obtain ⟨_, -, h⟩ := bind_ok h
    split at h
    · cases h
    · obtain ⟨rows, -, h⟩ := bind_ok h
      cases h
      have joined := Alters.of_modify net m (f := fun v => { v with parents := v.parents ++ [p] })
        fun _ => rfl
      exact ⟨joined.trans (.addReceiver _ p _), filterMap_arrivals m rows⟩
  | update r e => exact update_alters apart h
  | input r arity unique =>
    cases h
    exact ⟨addInput_alters net r arity unique, rfl⟩
  | constant rows arity | production query arity =>
    cases h
    exact ⟨.push net rfl _ _, rfl⟩
  | index p mask =>
    obtain ⟨_, hcall, rfl⟩ := made_of_unsettled h
    exact ⟨indexFor_alters hcall, rfl⟩
  | join p pm q qm | existence p pm q qm negative =>
    obtain ⟨_, hcall, rfl⟩ := made_of_unsettled h
    obtain ⟨_, -, hcall⟩ := bind_ok hcall
    obtain ⟨⟨net₁, I⟩, h₁, hcall⟩ := bind_ok hcall
    obtain ⟨⟨net₂, J⟩, h₂, hcall⟩ := bind_ok hcall
    cases hcall
    exact ⟨addOverBoth_alters rfl h₁ h₂, rfl⟩
  | outerJoin p pm q qm defaults =>
    obtain ⟨_, hcall, rfl⟩ := made_of_unsettled h
    rw [addOuterJoin] at hcall
    split at hcall
    · cases hcall
    · obtain ⟨_, -, hcall⟩ := bind_ok hcall
      obtain ⟨⟨net₁, I⟩, h₁, hcall⟩ := bind_ok hcall
      obtain ⟨⟨net₂, J⟩, h₂, hcall⟩ := bind_ok hcall
      cases hcall
      exact ⟨addOverBoth_alters rfl h₁ h₂, rfl⟩
  | grouping p mask operator column =>
    obtain ⟨_, hcall, rfl⟩ := made_of_unsettled h
    exact ⟨addGrouping_alters hcall, rfl⟩

end launch

end Network
end Motif
