import Motif.Proofs.Confinement
import Motif.Proofs.Network.Rest

/-!
Sets of tuples, one for each node, that no propagation leaves. A propagation in any state of the
network, at rest or not, keeps what the nodes and indexes hold within these sets. It breaks no
contract and changes neither how the network is connected nor its base relations.
-/
set_option autoImplicit false
namespace Motif

structure Index.Updates (ix : Index) (e : Event) (ix' : Index)
    (outcome : Except Issue IndexChange) : Prop where
  sound : ix'.Sound
  bare : ix'.bare = ix.bare
  content : ∀ t ∈ ix'.content, t = e.tuple ∨ t ∈ ix.content
  change : ∀ c, outcome = .ok c → c.signature = ix.mask.signature e.tuple
  issue : ∀ i, outcome = .error i →
    i = .duplicateInsert ix.name e.tuple ∨ i = .missingTuple ix.name e.tuple

namespace Index
variable {ix : Index} {e : Event}

theorem Updates.refused (h : ix.Sound) {i : Issue}
    (hi : i = .duplicateInsert ix.name e.tuple ∨ i = .missingTuple ix.name e.tuple) :
    ix.Updates e ix (.error i) :=
  ⟨h, rfl, fun _ ht => .inr ht, by simp, by rintro _ ⟨⟩; exact hi⟩

theorem Sound.exists_updates (h : ix.Sound) (hw : e.tuple.length = ix.mask.width) :
    ∃ ix' outcome, ix.update e = .ok (ix', outcome) ∧ ix.Updates e ix' outcome := by
  cases hr : ix.refusal? e with
  | some issue =>
    refine ⟨ix, .error issue, h.update_of_refusal hw hr, .refused h ?_⟩
    obtain ⟨_ | _, t⟩ := e
    · simp only [refusal?, Option.ite_none_right_eq_some, Option.some.injEq] at hr
      exact .inl hr.2.symm
    · simp only [refusal?, Option.ite_none_left_eq_some, Option.some.injEq] at hr
      exact .inr hr.2.symm
  | none =>
    obtain ⟨ix', c, run, taken⟩ := h.exists_update hw hr
    refine ⟨ix', .ok c, run, taken.sound, taken.bare, fun t ht => ?_, by
      rintro _ ⟨⟩; exact taken.signature, by simp⟩
    rw [taken.content, contentAfter] at ht
    obtain ⟨_ | _, u⟩ := e
    · simpa using ht
    · exact .inr (Multiset.mem_of_mem_erase ht)

def Apart (ix : Index) : Prop := ∀ t : Tuple,
  ¬(Issue.duplicateInsert ix.name t).IsRelational ∧ ¬(Issue.missingTuple ix.name t).IsRelational

theorem Apart.of_bare_eq {ix' : Index} (h : ix.Apart) (hb : ix'.bare = ix.bare) : ix'.Apart := by
  have hn : ix'.bare.name = ix.bare.name := by rw [hb]
  rw [Apart, show ix'.name = ix.name from hn]
  exact h

theorem Updates.not_isRelational {ix' : Index} {outcome : Except Issue IndexChange}
    (h : ix.Updates e ix' outcome) (hn : ix.Apart) (i : Issue) (hi : outcome = .error i) :
    ¬i.IsRelational := by
  obtain rfl | rfl := h.issue i hi
  · exact (hn e.tuple).1
  · exact (hn e.tuple).2

end Index

namespace Network

def fedIn (dom : NodeId → Set Tuple) (v : Vertex) : Set Tuple := {t | ∃ p ∈ v.parents, t ∈ dom p}

def heldIn (net : Network) (dom : NodeId → Set Tuple) (I : IndexId) : Set Tuple :=
  dom (net.parentOf I)

def Sends (net : Network) (dom : NodeId → Set Tuple) (q : NodeId) : Prop :=
  ∀ v : Vertex, net.vertices[q]? = some v →
    v.node.Carries net.maskOf (fedIn dom v) (net.heldIn dom) (dom q)

/-- The changes passed on from the nodes of `U` do not leave the sets. -/
structure Bounds (s : Network) (dom : NodeId → Set Tuple) (U : Set NodeId) : Prop where
  wired : s.Wired
  width : ∀ q, ∀ t ∈ dom q, t.length = s.widthOf q
  sends : ∀ q ∈ U, ∀ m, s.Feeds q m → m ∈ U ∧ s.Sends dom m
  apart : ∀ (I : IndexId) (a : Arrangement), s.arrangements[I]? = some a → a.index.Apart

/-- The network is connected as `s` is and holds nothing outside the sets. -/
structure Within (s : Network) (dom : NodeId → Set Tuple) (net : Network) : Prop where
  bare : net.bare = s.bare
  nodes : ∀ (q : NodeId) (v : Vertex), net.vertices[q]? = some v →
    v.node.Confined (fedIn dom v) (dom q)
  indexes : ∀ (I : IndexId) (a : Arrangement), net.arrangements[I]? = some a →
    a.index.Sound ∧ ∀ t ∈ a.index.content, t ∈ dom a.parent

def Concerns (s : Network) (dom : NodeId → Set Tuple) (U : Set NodeId) : Task → Prop
  | .propagate q e => q ∈ U ∧ q < s.vertices.size ∧ e.tuple ∈ dom q
  | .deliver R e => ∃ q ∈ U, R ∈ s.receiversOf q ∧ e.tuple ∈ dom q
  | .notify m side e c => ∃ q ∈ U, ∃ I, .index I ∈ s.receiversOf q ∧ (m, side) ∈ s.listenersOf I ∧
      e.tuple ∈ dom q ∧ c.signature = (s.maskOf I).signature e.tuple

structure Spares (net net' : Network) (nodes : Set NodeId) (indexes : Set IndexId) : Prop where
  vertices : ∀ q ∉ nodes, net'.vertices[q]? = net.vertices[q]?
  contents : ∀ I ∉ indexes, net'.contentOf I = net.contentOf I
  issues : ∃ l, net'.issues = l ++ net.issues ∧ ∀ i ∈ l, ¬i.IsRelational

namespace Spares
variable {net net' net'' : Network} {nodes nodes' : Set NodeId} {indexes indexes' : Set IndexId}

theorem refl (net : Network) : Spares net net nodes indexes :=
  ⟨fun _ _ => rfl, fun _ _ => rfl, [], rfl, by simp⟩

theorem mono (h : Spares net net' nodes indexes) (hn : nodes ⊆ nodes') (hi : indexes ⊆ indexes') :
    Spares net net' nodes' indexes' :=
  ⟨fun q hq => h.vertices q fun hx => hq (hn hx), fun I hI => h.contents I fun hx => hI (hi hx),
    h.issues⟩

theorem trans (h : Spares net net' nodes indexes) (h' : Spares net' net'' nodes indexes) :
    Spares net net'' nodes indexes := by
  refine ⟨fun q hq => (h'.vertices q hq).trans (h.vertices q hq),
    fun I hI => (h'.contents I hI).trans (h.contents I hI), ?_⟩
  obtain ⟨l, e, hl⟩ := h.issues
  obtain ⟨l', e', hl'⟩ := h'.issues
  refine ⟨l' ++ l, by rw [e', e, List.append_assoc], fun i hi => ?_⟩
  exact (List.mem_append.1 hi).elim (hl' i) (hl i)

end Spares

section bare
variable {s net : Network} {dom : NodeId → Set Tuple}

theorem carries_bare {masks : IndexId → Mask} {fed out : Set Tuple} {held : IndexId → Set Tuple}
    (n : Node) : n.bare.Carries masks fed held out ↔ n.Carries masks fed held out := by
  cases n <;> rfl

theorem heldIn_of_bare_eq (h : net.bare = s.bare) : net.heldIn dom = s.heldIn dom := by
  funext I
  rw [heldIn, heldIn, ← parentOf_bare net, h, parentOf_bare]

theorem maskOf_of_bare_eq (h : net.bare = s.bare) : net.maskOf = s.maskOf := by
  rw [← maskOf_bare net, h, maskOf_bare]

theorem feeds_of_bare_eq (h : net.bare = s.bare) : net.Feeds = s.Feeds := by
  rw [← feeds_bare net, h, feeds_bare]

theorem size_of_bare_eq (h : net.bare = s.bare) : net.vertices.size = s.vertices.size := by
  rw [← size_vertices_bare net, h, size_vertices_bare]

theorem Sends.of_bare_eq {q : NodeId} (hs : s.Sends dom q) (h : net.bare = s.bare) :
    net.Sends dom q := by
  intro v hv
  obtain ⟨u, hu, hb⟩ := exists_vertex_of_bare_eq h hv
  obtain ⟨hn, hp, -⟩ := Vertex.eq_of_bare_eq hb
  rw [maskOf_of_bare_eq h, heldIn_of_bare_eq h, fedIn, hp, ← carries_bare, hn, carries_bare]
  exact hs u hu

end bare

variable {s net : Network} {dom : NodeId → Set Tuple} {U : Set NodeId} {e : Event} {q m : NodeId}

namespace Within

theorem wired (hB : s.Bounds dom U) (h : Within s dom net) : net.Wired :=
  hB.wired.of_bare_eq h.bare

theorem setNode (h : Within s dom net) {v : Vertex} (hv : net.vertices[m]? = some v) {n : Node}
    (hb : n.bare = v.node.bare) (hc : n.Confined (fedIn dom v) (dom m)) :
    Within s dom (net.setNode m n) := by
  refine ⟨(bare_setNode hv hb).trans h.bare, fun q u hu => ?_, h.indexes⟩
  obtain ⟨rfl, rfl⟩ | ⟨-, hu⟩ := vertex_setNode_cases hv hu
  · exact hc
  · exact h.nodes q u hu

theorem of_eq {net' : Network} (h : Within s dom net) (hv : net'.vertices = net.vertices)
    (ha : net'.arrangements = net.arrangements) (hb : net'.bare = net.bare) :
    Within s dom net' :=
  ⟨hb.trans h.bare, fun q v h' => h.nodes q v (hv ▸ h'), fun I a h' => h.indexes I a (ha ▸ h')⟩

theorem setIndex (h : Within s dom net) {I : IndexId} {a : Arrangement}
    (ha : net.arrangements[I]? = some a) {ix : Index} (hb : ix.bare = a.index.bare) (hs : ix.Sound)
    (hc : ∀ t ∈ ix.content, t ∈ dom a.parent) : Within s dom (net.setIndex I ix) := by
  refine ⟨(bare_setIndex ha hb).trans h.bare, h.nodes, fun J c hJ => ?_⟩
  rw [arrangements_setIndex] at hJ
  split at hJ
  · next e =>
    rw [← e, ha] at hJ
    cases hJ
    exact ⟨hs, hc⟩
  · exact h.indexes J c hJ

end Within

section fits
variable (hB : s.Bounds dom U) (h : Within s dom net) {v : Vertex} (hv : net.vertices[m]? = some v)
include hB h hv

theorem Within.exists_fits : ∃ width, v.node.Fits s.maskOf width v.arity ∧
    (v.node.isFed = true → ∀ t ∈ fedIn dom v, t.length = width) ∧
    ∀ (side : Side) (I : IndexId), v.node.source side = some I →
      ∀ t ∈ s.heldIn dom I, t.length = (s.maskOf I).width := by
  have w := Within.wired hB h
  obtain ⟨width, hf, hp⟩ := w.fits m v hv
  refine ⟨width, maskOf_of_bare_eq h.bare ▸ hf, fun hn t ht => ?_, fun side I hs t ht => ?_⟩
  · obtain ⟨p, hm, ht⟩ := ht
    rw [← hp hn p hm, hB.width p t ht, widthOf_of_bare_eq h.bare]
  · obtain ⟨a, ha⟩ := w.exists_arrangement hv hs
    rw [hB.width _ t ht, ← maskOf_of_bare_eq h.bare, maskOf_eq ha, w.width I a ha,
      widthOf_of_bare_eq h.bare, ← parentOf_eq ha, ← parentOf_bare s, ← h.bare, parentOf_bare]

end fits

theorem Within.deliver_node (hB : s.Bounds dom U) (h : Within s dom net) (hq : q ∈ U)
    (hr : .node m ∈ s.receiversOf q) (he : e.tuple ∈ dom q) :
    ∃ v reply, net.vertices[m]? = some v ∧ v.node.isFed = true ∧ v.node.receive e = .ok reply ∧
      v.node.Answers (fedIn dom v) (dom m) e reply ∧
      net.step (.deliver (.node m) e) =
        .ok (net.answered m v.node.isProduction reply, reply.out.map (Task.propagate m)) ∧
      Within s dom (net.answered m v.node.isProduction reply) ∧
      Spares net (net.answered m v.node.isProduction reply) {m} ∅ := by
  have w := Within.wired hB h
  have hr' : .node m ∈ net.receiversOf q := by
    rw [receiversOf_of_bare_eq h.bare]
    exact hr
  obtain ⟨v, hv, hf⟩ := w.fed q m hr'
  have hp : e.tuple ∈ fedIn dom v := ⟨q, (w.mem_receiversOf_node hv hf).1 hr', he⟩
  obtain ⟨width, hfits, hwidth, -⟩ := h.exists_fits hB hv
  have hsends := (hB.sends q hq m (.inl hr)).2.of_bare_eq h.bare v hv
  rw [maskOf_of_bare_eq h.bare] at hsends
  obtain ⟨reply, hreply, ha⟩ := Node.receive_confined hf hfits (hwidth hf _ hp) hp hsends
    (h.nodes m v hv)
  refine ⟨v, reply, hv, hf, hreply, ha, step_deliver_node hv hreply,
    (h.setNode hv ha.bare ha.confined).of_eq vertices_answered arrangements_answered bare_answered,
    fun q hq => ?_, fun I _ => ?_, _, issues_answered, fun i hi => ?_⟩
  · rw [vertices_answered, vertex_setNode_of_ne hq]
  · rw [contentOf, contentOf, arrangements_answered]
  · exact ha.issue i (Option.mem_toList.1 hi)

/-- An index that a change is delivered to tells its listeners of it, unless it refuses it. -/
theorem Within.deliver_index (hB : s.Bounds dom U) (h : Within s dom net) {I : IndexId}
    (hr : .index I ∈ s.receiversOf q) (he : e.tuple ∈ dom q) :
    ∃ net' more, net.step (.deliver (.index I) e) = .ok (net', more) ∧
      Within s dom net' ∧ net'.vertices = net.vertices ∧ Spares net net' ∅ {I} ∧
      (more = [] ∨ ∃ c : IndexChange, c.signature = (s.maskOf I).signature e.tuple ∧
        more = (s.listenersOf I).map fun l => .notify l.1 l.2 e c) := by
  have w := Within.wired hB h
  have hr' : .index I ∈ net.receiversOf q := by
    rw [receiversOf_of_bare_eq h.bare]
    exact hr
  obtain ⟨a, ha⟩ := w.indexed q I hr'
  obtain rfl := (w.mem_receiversOf_index ha).1 hr'
  have hwidth : e.tuple.length = a.index.mask.width := by
    rw [w.width I a ha, widthOf_of_bare_eq h.bare, hB.width _ _ he]
  obtain ⟨hsound, hcontent⟩ := h.indexes I a ha
  obtain ⟨ix', outcome, hup, hu⟩ := hsound.exists_updates hwidth
  have hW := h.setIndex ha hu.bare hu.sound fun t ht =>
    (hu.content t ht).elim (fun e => e ▸ he) (hcontent t)
  have contents : ∀ J ∉ ({I} : Set IndexId),
      (net.setIndex I ix').contentOf J = net.contentOf J := fun J hJ => by
    rw [contentOf_setIndex ha, if_neg fun hx => hJ hx.symm]
  have hname : a.index.Apart := by
    obtain ⟨b, hb, hbare⟩ := exists_arrangement_of_bare_eq h.bare ha
    exact (hB.apart I b hb).of_bare_eq (congrArg Arrangement.index hbare).symm
  cases outcome with
  | error issue =>
    refine ⟨(net.setIndex I ix').report issue, [], ?_, hW.of_eq rfl rfl rfl, rfl,
      ⟨fun _ _ => rfl, contents, [issue], rfl, ?_⟩, .inl rfl⟩
    · rw [step, deliverToIndex, arrangement, ha]
      simp only [bind, Except.bind, hup]
      rfl
    · simpa using hu.not_isRelational hname issue rfl
  | ok c =>
    refine ⟨net.setIndex I ix', (s.listenersOf I).map fun l => .notify l.1 l.2 e c, ?_, hW, rfl,
      ⟨fun _ _ => rfl, contents, [], rfl, by simp⟩, .inr ⟨c, ?_, rfl⟩⟩
    · have hl : s.listenersOf I = a.listeners := by
        rw [← listenersOf_of_bare_eq h.bare, listenersOf, ha]
        rfl
      rw [step, deliverToIndex, arrangement, ha, hl]
      simp only [bind, Except.bind, hup]
      rfl
    · rw [hu.change c rfl, ← maskOf_of_bare_eq h.bare, maskOf_eq ha]

/-- A node that is told of the change of an index reacts within its set. -/
theorem Within.notify (hB : s.Bounds dom U) (h : Within s dom net) {I : IndexId} {side : Side}
    {c : IndexChange} (hq : q ∈ U) (hr : .index I ∈ s.receiversOf q)
    (hl : (m, side) ∈ s.listenersOf I) (he : e.tuple ∈ dom q)
    (hc : c.signature = (s.maskOf I).signature e.tuple) :
    ∃ (v : Vertex) (net' : Network) (out : List Event),
      net.vertices[m]? = some v ∧ v.node.source side = some I ∧
      net.step (.notify m side e c) = .ok (net', out.map (Task.propagate m)) ∧
      Within s dom net' ∧ Spares net net' {m} ∅ ∧ (∀ o ∈ out, o.tuple ∈ dom m) ∧
      (v.node.steady side = true → ∀ o ∈ out, o.direction = e.direction) := by
  have w := Within.wired hB h
  have hl' : (m, side) ∈ net.listenersOf I := by
    rw [listenersOf_of_bare_eq h.bare]
    exact hl
  obtain ⟨v, hv, hs⟩ := (w.listens m side I).1 hl'
  obtain ⟨a, ha⟩ := w.exists_arrangement hv hs
  have hparent : s.parentOf I = q := by
    have hr' : .index I ∈ net.receiversOf q := by
      rw [receiversOf_of_bare_eq h.bare]
      exact hr
    rw [← parentOf_bare s, ← h.bare, parentOf_bare, parentOf_eq ha]
    exact ((w.mem_receiversOf_index ha).1 hr').symm
  obtain ⟨width, hfits, -, hview⟩ := h.exists_fits hB hv
  have hsends := (hB.sends q hq m (.inr ⟨I, side, hr, hl⟩)).2.of_bare_eq h.bare v hv
  rw [maskOf_of_bare_eq h.bare, heldIn_of_bare_eq h.bare] at hsends
  -- The index that is consulted is one that the node reads.
  obtain ⟨net₁, bucket, hconsult, hv₁, hW, hS, hbucket⟩ : ∃ net₁ bucket,
      net.consult (v.node.consults side c) c.signature = .ok (net₁, bucket) ∧
      net₁.vertices = net.vertices ∧ Within s dom net₁ ∧ Spares net net₁ ∅ ∅ ∧
      ∀ t ∈ (bucket.getD ∅).items, ∃ J, v.node.consults side c = some J ∧ t ∈ s.heldIn dom J := by
    cases hJ : v.node.consults side c with
    | none => exact ⟨net, none, rfl, rfl, h, .refl net, by simp⟩
    | some J =>
      obtain ⟨side', hJ'⟩ : ∃ side', v.node.source side' = some J := by
        obtain ⟨rfl, -, rfl⟩ | ⟨-, hJ'⟩ | ⟨-, hJ'⟩ := Node.source_of_consults hs hJ
        · exact ⟨_, hs⟩
        · exact ⟨_, hJ'⟩
        · exact ⟨_, hJ'⟩
      obtain ⟨b, hb⟩ := w.exists_arrangement hv hJ'
      obtain ⟨hsound, hcontent⟩ := h.indexes J b hb
      refine ⟨net.setIndex J (b.index.probe c.signature).1, b.index.bucket? c.signature, ?_, rfl,
        h.setIndex hb (Index.bare_probe _ _) (hsound.probe _) (by simpa using hcontent),
        ⟨fun _ _ => rfl, fun K _ => ?_, [], rfl, by simp⟩, fun t ht => ⟨J, rfl, ?_⟩⟩
      · rw [consult]
        simp only [bind, Except.bind, index_eq hb]
        rfl
      · rw [contentOf_setIndex hb]
        split
        · next e =>
          rw [← e, contentOf, hb, Index.content_probe]
          rfl
        · rfl
      · have hm : t ∈ b.index.content := by
          cases hk : b.index.bucket? c.signature with
          | none => simp [hk] at ht
          | some k =>
            rw [hk] at ht
            exact Index.mem_content.2 ⟨_, k, hk, Bag.mem_items.1 ht⟩
        rw [heldIn, ← parentOf_bare s, ← h.bare, parentOf_bare, parentOf_eq hb]
        exact hcontent t hm
  have hears : v.node.Hears s.maskOf (s.heldIn dom) side e c bucket I :=
    ⟨hs, by rw [heldIn, hparent]; exact he, hc, hview, hbucket⟩
  obtain ⟨n', out, hrespond, hreact⟩ :=
    Node.respond_confined hfits hsends (h.nodes m v hv) hears
  have hv' : net₁.vertices[m]? = some v := hv₁ ▸ hv
  have hset : Spares net₁ (net₁.setNode m n') {m} ∅ :=
    ⟨fun q hq => vertex_setNode_of_ne hq, fun _ _ => rfl, [], rfl, by simp⟩
  exact ⟨v, net₁.setNode m n', out, hv, hs, step_notify hv hconsult hrespond,
    hW.setNode hv' hreact.bare hreact.confined, (hS.mono (by simp) (by simp)).trans hset,
    hreact.out, hreact.steady⟩

end Network
end Motif
