import Motif.Proofs.Network.Ending
import Motif.Proofs.Network.Laying

set_option autoImplicit false
namespace Motif

open Std (ExtTreeMap)

namespace Node
variable {n : Node} {fed out : Set Tuple}

theorem confined_of_empty (hf : n.isFed = true) (hb : n.bare = n) : n.Confined fed out := by
  have holds : n.Holds (fun _ => Mask.identity 0) 0 fun _ => 0 := holds_zero hf hb
  cases n with
  | input _ _ _ | constant _ | grouping _ => cases hf
  | uniqueness _ | production _ _ =>
    intro t ht
    rw [show _ = (0 : Multiset Tuple) from holds] at ht
    exact absurd ht (Multiset.notMem_zero t)
  | expression x =>
    intro t u n ht
    have := (holds t).symm.trans ht
    simp at this
  | closure state => exact ⟨0, holds, by simp⟩
  | _ => trivial

theorem confined_of_source (hs : n.isStateful = false) {side : Side} {I : IndexId}
    (hI : n.source side = some I) : n.isProduction = false ∧ n.Confined fed out := by
  cases n <;> first | exact ⟨rfl, trivial⟩ | (cases hs; done) | (cases side <;> cases hI)

end Node

theorem Index.apart_of_name {ix : Index} {n : Node} {rest : String}
    (h : ix.name = n.kindName ++ rest) : ix.Apart := by
  intro t
  refine Issue.not_isRelational ?_
  rw [h]
  constructor <;> cases n <;> simp [Node.kindName] <;> split <;> simp

namespace Network
variable {net net' net'' : Network}

theorem Regular.confined_of_keeps (h : net.Regular) (k : Keeps net net') {q : NodeId} {v : Vertex}
    (hv : net'.vertices[q]? = some v) (hq : q < net.vertices.size) :
    v.node.Confined (fedIn net'.widths v) (net'.widths q) := by
  obtain ⟨u, hu⟩ : ∃ u, net.vertices[q]? = some u := ⟨_, Array.getElem?_eq_getElem hq⟩
  obtain ⟨v', hv', hn, -, hpar⟩ := k.vertex q u hu
  cases hv.symm.trans hv'
  have hc : u.node.Confined (fedIn net.widths u) (net.widths q) := h.within.nodes q u hu
  have out : net.widths q = net'.widths q := by rw [widths, widths, k.widthOf hq]
  rw [hn]
  -- The parents of a production may be others, but it does not matter what they put out.
  cases hprod : u.node.isProduction with
  | true =>
    rw [← out]
    generalize u.node = n at hc hprod
    cases n <;> first | exact hc | cases hprod
  | false =>
    refine hc.mono (fun hf t ht => ?_) (out ▸ subset_rfl)
    obtain ⟨p, hp, ht⟩ := ht
    refine ⟨p, by rw [hpar hprod]; exact hp, ?_⟩
    rw [widths, k.widthOf (h.wired.lt_size_of_mem_parents hu hf hp)]
    exact ht

/-- What an old node reads are old indexes of nodes before it. -/
theorem Regular.parentOf_lt_of_keeps (h : net.Regular) (k : Keeps net net') {m : NodeId}
    {v : Vertex} (hv : net'.vertices[m]? = some v) (hm : m < net.vertices.size)
    (hp : v.node.isProduction = false) {side : Side} {I : IndexId}
    (hs : v.node.source side = some I) : net'.parentOf I < m := by
  obtain ⟨u, hu⟩ : ∃ u, net.vertices[m]? = some u := ⟨_, Array.getElem?_eq_getElem hm⟩
  obtain ⟨v', hv', hn, -, -⟩ := k.vertex m u hu
  cases hv.symm.trans hv'
  rw [hn] at hs hp
  obtain ⟨b, hb⟩ := h.wired.exists_arrangement hu hs
  obtain ⟨a, ha, hpar, -⟩ := k.arrangement I b hb
  rw [parentOf_eq ha, hpar]
  exact h.ordered b.parent m u (.inr ⟨I, side, (h.wired.mem_receiversOf_index hb).2 rfl,
    (h.wired.listens m side I).2 ⟨u, hu, hs⟩⟩) hu hp

theorem Regular.extended (h : net.Regular) (w : net'.Wired) (k : Keeps net net')
    (nodes : ∀ (q : NodeId) (v : Vertex), net'.vertices[q]? = some v → net.vertices.size ≤ q →
      v.node.Confined (fedIn net'.widths v) (net'.widths q) ∧
        ∀ side I, v.node.source side = some I → net'.parentOf I < q)
    (indexes : ∀ (I : IndexId) (a : Arrangement), net'.arrangements[I]? = some a →
      net.arrangements.size ≤ I → a.index.Sound ∧ a.index.Apart ∧
        ∀ t ∈ a.index.content, t.length = net'.widthOf a.parent) : net'.Regular := by
  have arrangement : ∀ (I : IndexId) (a : Arrangement), net'.arrangements[I]? = some a →
      I < net.arrangements.size → ∃ b, net.arrangements[I]? = some b ∧ a.parent = b.parent ∧
        a.index = b.index := by
    intro I a ha hI
    obtain ⟨b, hb⟩ : ∃ b, net.arrangements[I]? = some b := ⟨_, Array.getElem?_eq_getElem hI⟩
    obtain ⟨a', ha', hp, hi⟩ := k.arrangement I b hb
    cases ha.symm.trans ha'
    exact ⟨b, hb, hp, hi⟩
  refine ⟨w, ⟨rfl, fun q v hv => ?_, fun I a ha => ?_⟩, fun I a ha => ?_, fun q m v hf hv hp => ?_⟩
  · rcases Nat.lt_or_ge q net.vertices.size with hq | hq
    · exact h.confined_of_keeps k hv hq
    · exact (nodes q v hv hq).1
  · rcases Nat.lt_or_ge I net.arrangements.size with hI | hI
    · obtain ⟨b, hb, hp, hi⟩ := arrangement I a ha hI
      obtain ⟨hs, hc⟩ := h.within.indexes I b hb
      rw [hi, hp, widths, k.widthOf (h.wired.lt_size_parent hb)]
      exact ⟨hs, hc⟩
    · obtain ⟨hs, -, hc⟩ := indexes I a ha hI
      exact ⟨hs, hc⟩
  · rcases Nat.lt_or_ge I net.arrangements.size with hI | hI
    · obtain ⟨b, hb, -, hi⟩ := arrangement I a ha hI
      exact hi ▸ h.apart I b hb
    · exact (indexes I a ha hI).2.1
  · rcases hf with hr | ⟨I, side, hr, hl⟩
    · obtain ⟨u, hu, hfed⟩ := w.fed q m hr
      cases hv.symm.trans hu
      obtain ⟨p, hpar, hlt⟩ := w.earlier m v hv hfed hp
      have := (w.mem_receiversOf_node hv hfed).1 hr
      rw [hpar, List.mem_singleton] at this
      exact this ▸ hlt
    · obtain ⟨u, hu, hs⟩ := (w.listens m side I).1 hl
      cases hv.symm.trans hu
      obtain ⟨a, ha⟩ := w.exists_arrangement hv hs
      rw [(w.mem_receiversOf_index ha).1 hr, ← parentOf_eq ha]
      rcases Nat.lt_or_ge m net.vertices.size with hm | hm
      · exact h.parentOf_lt_of_keeps k hv hm hp hs
      · exact (nodes m v hv hm).2 side I hs

structure Grows (net net' : Network) : Prop where
  extension : Extends net net'
  issues : ∃ l, net'.issues = l ++ net.issues ∧ ∀ i ∈ l, ¬i.IsRelational
  productions : ∀ (q : NodeId) (v : Vertex), net'.vertices[q]? = some v →
    v.node.isProduction = true → q < net.vertices.size

structure Gains (net net' : Network) : Prop extends Grows net net' where
  regular : net'.Regular
  inputs : net'.inputs = net.inputs
  given : net'.given = net.given

theorem Grows.of_bare_eq (h : net'.bare = net.bare)
    (issues : ∃ l, net'.issues = l ++ net.issues ∧ ∀ i ∈ l, ¬i.IsRelational) : Grows net net' where
  extension := .of_bare_eq h
  issues := issues
  productions _ _ hv _ := size_of_bare_eq h ▸ (Array.getElem?_eq_some_iff.1 hv).1

theorem Grows.refl (net : Network) : Grows net net := .of_bare_eq rfl ⟨[], rfl, by simp⟩

theorem Grows.trans (g : Grows net net') (g' : Grows net' net'') : Grows net net'' where
  extension := g.extension.trans g'.extension
  issues := by
    obtain ⟨l, e, hl⟩ := g.issues
    obtain ⟨l', e', hl'⟩ := g'.issues
    refine ⟨l' ++ l, by rw [e', e, List.append_assoc], fun i hi => ?_⟩
    exact (List.mem_append.1 hi).elim (hl' i) (hl i)
  productions q v hv hp := by
    have hq := g'.productions q v hv hp
    have hu : net'.vertices[q]? = some net'.vertices[q] := Array.getElem?_eq_getElem hq
    obtain ⟨v', hv', hn, -⟩ := g'.extension.keeps.vertex q _ (vertex_bare hu)
    obtain ⟨v'', hv'', rfl⟩ := vertices_bare_eq_some.1 hv'
    cases hv.symm.trans hv''
    exact g.productions q _ hu ((Node.isProduction_of_bare_eq hn).symm.trans hp)

theorem Gains.trans (g : Gains net net') (g' : Gains net' net'') : Gains net net'' where
  toGrows := g.toGrows.trans g'.toGrows
  regular := g'.regular
  inputs := g'.inputs.trans g.inputs
  given := g'.given.trans g.given

theorem Onward.gains (o : Onward net net') : Gains net net' where
  toGrows := .of_bare_eq o.bare o.issues
  regular := o.regular
  inputs := (congrArg Network.inputs o.bare : net'.bare.inputs = net.bare.inputs)
  given := o.given

theorem Gains.refl (h : net.Regular) : Gains net net := (Onward.refl h).gains

theorem Regular.pushed (h : net.Regular) {v : Vertex} (ad : net.Admits v)
    (connected : v.node.isFed = true → v.node.isProduction = false → v.parents ≠ [])
    (p : Pushed net net' v)
    (hc : v.node.Confined (fedIn net'.widths v) {t | t.length = v.arity}) : net'.Regular := by
  refine h.extended (h.wired.pushed ad connected p) p.keeps (fun q u hu hq => ?_) fun I a ha hI => ?_
  · obtain ⟨rfl, rfl⟩ | ⟨u', hne, hu', -⟩ := p.cases hu
    · refine ⟨?_, fun side I hs => ?_⟩
      · rw [show net'.widths net.vertices.size = {t | t.length = u.arity} by
          rw [widths, widthOf, p.fresh]
          rfl]
        exact hc
      · obtain ⟨a, ha⟩ := ad.sources side I hs
        obtain ⟨a', ha', hp, -⟩ := p.keeps.arrangement I a ha
        rw [parentOf_eq ha', hp]
        exact h.wired.lt_size_parent ha
    · exact absurd (Array.getElem?_eq_some_iff.1 hu').1 (Nat.not_lt.2 hq)
  · rw [p.arrangement, Option.map_eq_some_iff] at ha
    obtain ⟨b, hb, -⟩ := ha
    exact absurd (Array.getElem?_eq_some_iff.1 hb).1 (Nat.not_lt.2 hI)

theorem Pushed.grows {v : Vertex} (p : Pushed net net' v) (hp : v.node.isProduction = false)
    (issues : net'.issues = net.issues) : Grows net net' where
  extension := p.extends
  issues := ⟨[], issues, by simp⟩
  productions q u hu hprod := by
    obtain ⟨rfl, rfl⟩ | ⟨u', -, hu', -⟩ := p.cases hu
    · rw [hp] at hprod
      cases hprod
    · exact (Array.getElem?_eq_some_iff.1 hu').1

theorem Pushed.gains {v : Vertex} (p : Pushed net net' v) (h : net'.Regular)
    (hi : v.node.isInput = false) (hp : v.node.isProduction = false)
    (inputs : net'.inputs = net.inputs) (issues : net'.issues = net.issues) : Gains net net' where
  toGrows := p.grows hp issues
  regular := h
  inputs := inputs
  given := p.given fun hx => by rw [hi] at hx; cases hx

theorem Regular.hooked (h : net.Regular) {p m : NodeId} (x : Hooked net net' p m) {v : Vertex}
    (hm : net.vertices[m]? = some v) (hv : v.node.isProduction = true)
    (hp : p < net.vertices.size) (hw : net.widthOf p = net.widthOf m) : net'.Regular := by
  refine h.extended (x.wired h.wired hm hv hp hw) (x.keeps hm hv) (fun q u hu hq => ?_)
    fun I a ha hI => ?_
  · exact absurd (Array.getElem?_eq_some_iff.1 hu).1 (by rw [x.size]; exact Nat.not_lt.2 hq)
  · rw [x.arrangements] at ha
    exact absurd (Array.getElem?_eq_some_iff.1 ha).1 (Nat.not_lt.2 hI)

theorem Regular.indexed (h : net.Regular) {a : Arrangement} (x : Indexed net net' a)
    (hp : a.parent < net.vertices.size) (hl : a.listeners = [])
    (hw : a.index.mask.width = net.widthOf a.parent)
    (hu : a.index.unique = true → net.Flat a.parent) (sound : a.index.Sound)
    (apart : a.index.Apart) (hc : ∀ t ∈ a.index.content, t.length = net.widthOf a.parent) :
    net'.Regular := by
  refine h.extended (x.wired h.wired hp hl hw hu) x.keeps (fun q u hu hq => ?_) fun I b hb hI => ?_
  · obtain ⟨u', hu', -⟩ := x.cases hu
    exact absurd (Array.getElem?_eq_some_iff.1 hu').1 (Nat.not_lt.2 hq)
  · obtain ⟨rfl, rfl⟩ | hb := x.cases_arrangement hb
    · refine ⟨sound, apart, fun t ht => ?_⟩
      rw [x.widthOf]
      exact hc t ht
    · exact absurd (Array.getElem?_eq_some_iff.1 hb).1 (Nat.not_lt.2 hI)

def Supplies (net : Network) (r : Except Fault (Network × NodeId)) (make : Network → NodeId → Prop) :
    Prop :=
  ∃ net' id, r = .ok (net', id) ∧ Gains net net' ∧ make net' id

namespace Regular
variable {p q : NodeId} {n : Node} {arity : Nat} {mask : Mask}

theorem addConstant (h : net.Regular) {rows : List Tuple} (hw : ∀ t ∈ rows, t.length = arity) :
    Supplies net (.ok (net.addConstant rows arity)) fun net' id =>
      net'.HasNode id (.constant rows) [] arity := by
  have pu : Pushed net _ _ := pushed_addConstant rows arity
  have h' := h.pushed (admits_constant hw) (fun hf => by cases hf) pu hw
  exact ⟨_, _, rfl, pu.gains h' rfl rfl rfl rfl, _, pu.fresh, rfl, rfl, rfl⟩

theorem addProduction (h : net.Regular) (query : String) (arity : Nat) :
    (net.addProduction query arity).1.Regular ∧
      Pushed net (net.addProduction query arity).1 ⟨.production query ∅, [], [], arity⟩ := by
  have pu : Pushed net _ _ := pushed_addProduction query arity
  have ad : net.Admits ⟨.production query ∅, [], [], arity⟩ :=
    .root arity (fun side => by cases side <;> rfl) rfl
  exact ⟨h.pushed ad (fun _ hp => by cases hp) pu (Node.confined_of_empty rfl rfl), pu⟩

/-- A node behind one parent. If it keeps tuples it is fed what the parent puts out, which nobody
reads. -/
theorem addChild (h : net.Regular) (hp : p < net.vertices.size) (hf : n.isFed = true)
    (hprod : n.isProduction = false) (hempty : n.bare = n)
    (hfits : n.Fits net.maskOf (net.widthOf p) arity) :
    Supplies net (net.addChild p n arity) fun net' id => net'.HasNode id n [p] arity := by
  obtain ⟨net₁, pu, -, issues, inputs, hcall⟩ := exists_addChild hp hf arity
  have h₁ := h.pushed (admits_child hp hf hfits) (fun _ _ => by simp) pu
    (Node.confined_of_empty hf hempty)
  have gains := pu.gains h₁ (Node.isInput_of_isFed hf) hprod inputs issues
  have hnode : net₁.HasNode net.vertices.size n [p] arity := ⟨_, pu.fresh, rfl, rfl, rfl⟩
  have hp₁ := gains.extension.lt_size hp
  have hlt := (Array.getElem?_eq_some_iff.1 pu.fresh).1
  cases hs : n.isStateful with
  | false => exact ⟨net₁, net.vertices.size, by rw [hcall, hs]; rfl, gains, hnode⟩
  | true =>
    have quiet : net₁.receiversOf net.vertices.size = [] := by
      rw [Network.receiversOf, pu.fresh]
      rfl
    have fed : .node net.vertices.size ∈ net₁.receiversOf p :=
      (h₁.wired.mem_receiversOf_node pu.fresh hf).2 (List.mem_singleton.2 rfl)
    obtain ⟨rows, hpull, hw⟩ := h₁.pull hp₁
    obtain ⟨net₂, hfeed, onward⟩ := h₁.feed_of_ends fed (ends_of_receiversOf_eq_nil hlt quiet) hw
    refine ⟨net₂, net.vertices.size, ?_, gains.trans onward.gains,
      hnode.extends (.of_bare_eq onward.bare)⟩
    rw [hcall, hs, hpull]
    simp only [bind, Except.bind, if_true, hfeed]
    rfl

/-- The index of a node's output by some columns is there, or is built. -/
theorem indexFor (h : net.Regular) (hp : p < net.vertices.size) (hm : mask.width = net.widthOf p) :
    ∃ net' I, net.indexFor p mask = .ok (net', I) ∧ Gains net net' ∧ net'.HasIndex I p mask ∧
      net'.vertices.size = net.vertices.size ∧ ∀ q, net'.widthOf q = net.widthOf q := by
  cases hold : net.arranged.get? (p, mask) with
  | some I =>
    refine ⟨net, I, ?_, .refl h, h.wired.arranged p mask I hold, rfl, fun _ => rfl⟩
    rw [Network.indexFor, hold]
    rfl
  | none =>
    obtain ⟨rows, hpull, hw⟩ := h.pull hp
    obtain ⟨ix₀, hbuckets, hmask₀, ⟨n, rest, hname⟩, hflat, build⟩ :=
      exists_indexFor h.wired hp hold hpull
    obtain ⟨l, ix, hfill, hl, hs, hb, hc⟩ := Saturated.fill_holds net rows
      (Index.sound_of_empty hbuckets) fun t ht => by rw [hmask₀, hm, hw t ht]
    have hmask : ix.mask = mask := (Index.mask_eq_of_bare_eq hb).trans hmask₀
    have hu : ix.unique = ix₀.unique := Index.unique_eq_of_bare_eq hb
    obtain ⟨issues, hissues⟩ : ∃ issues, issues = l ++ net.issues := ⟨_, rfl⟩
    rw [← hissues] at hfill
    obtain ⟨net₁, hcall, x, same, hsize⟩ := build issues ix hfill hmask
    have h₀ : Regular { net with issues } := h.of_within (h.within.of_eq rfl rfl rfl)
    have apart : ix₀.Apart := Index.apart_of_name hname
    have flat := @flat_of_bare_eq net { net with issues } rfl p
    have h₁ : net₁.Regular := h₀.indexed x hp rfl (hmask ▸ hm)
      (fun hx => flat.2 (hflat (hu ▸ hx))) hs (apart.of_bare_eq hb)
      fun t ht => by
        rw [hc, Index.content_of_empty hbuckets] at ht
        exact hw t (ht.resolve_left (Multiset.notMem_zero t))
    refine ⟨net₁, net.arrangements.size, hcall, ⟨⟨⟨x.extends.keeps, x.extends.parents,
        ⟨x.prolongs.receivers, x.prolongs.listeners⟩⟩,
      ⟨l, same.trans hissues, fun i hi => ?_⟩, fun q v hv _ => ?_⟩, h₁, x.inputs, x.given⟩,
      hmask ▸ index_shape x, hsize, x.widthOf⟩
    · obtain ⟨t, rfl⟩ := hl i hi
      exact (apart t).1
    · exact hsize ▸ (Array.getElem?_eq_some_iff.1 hv).1

theorem pair (h : net.Regular) (make : IndexId → IndexId → Node) {pm sm : Mask}
    (hp : p < net.vertices.size) (hq : q < net.vertices.size) (hpm : pm.width = net.widthOf p)
    (hsm : sm.width = net.widthOf q) (hprim : ∀ I J, (make I J).source .primary = some I)
    (hsec : ∀ I J, (make I J).source .secondary = some J)
    (hs : ∀ I J, (make I J).isStateful = false)
    (hfits : ∀ (masks : IndexId → Mask) I J, masks I = pm → masks J = sm →
      (make I J).Fits masks 0 arity) :
    Supplies net (do
      let (net, I) ← net.indexFor p pm
      let (net, J) ← net.indexFor q sm
      return net.addOverIndexes (make I J) (p, I) (q, J) arity)
      fun net' id => net'.HasPair id make p pm q sm arity := by
  obtain ⟨net₁, I, h₁, g₁, x₁, size₁, width₁⟩ := h.indexFor hp hpm
  obtain ⟨net₂, J, h₂, g₂, hJ, -, -⟩ := g₁.regular.indexFor (size₁ ▸ hq)
    (hsm.trans (width₁ q).symm)
  have hI : net₂.HasIndex I p pm := x₁.keeps g₂.extension.keeps
  obtain ⟨hf, hi⟩ := isFed_of_source (hprim I J)
  have pu : Pushed net₂ _ ⟨make I J, [p, q], [], arity⟩ :=
    pushed_listen (p := p) (q := q) (hprim I J) (hsec I J)
  have h₃ := g₂.regular.pushed
    (admits_pair hI hJ (hprim I J) (hsec I J) (hfits _ I J hI.maskOf hJ.maskOf))
    (fun hx => absurd hx (by simp [hf])) pu (Node.confined_of_source (hs I J) (hprim I J)).2
  have hprod := (Node.confined_of_source (hs I J) (hprim I J) : _ ∧ (make I J).Confined ∅ ∅).1
  have g₃ := pu.gains h₃ hi hprod rfl rfl
  refine ⟨_, _, ?_, (g₁.trans g₂).trans g₃, I, J, ⟨_, pu.fresh, rfl, rfl, rfl⟩,
    hI.keeps g₃.extension.keeps, hJ.keeps g₃.extension.keeps⟩
  simp only [bind, Except.bind, h₁, h₂]
  rfl

/-- A node over the groups of an index, which starts with the rows of all groups. -/
theorem addGrouping (h : net.Regular) (hp : p < net.vertices.size)
    (hm : mask.width = net.widthOf p) (op : Aggregator) {column : Option Nat}
    (hc : ∀ c, column = some c → c < mask.width) :
    Supplies net (net.addGrouping p mask op column) fun net' id =>
      net'.HasGrouping id p mask op column := by
  obtain ⟨net₁, I, hindex, g₁, hI, -, -⟩ := h.indexFor hp hm
  obtain ⟨a, ha, hpar, rfl⟩ := hI
  obtain ⟨sound, hw⟩ := g₁.regular.within.indexes I a ha
  obtain ⟨groups, hgroups, hget⟩ := exists_groups sound op I hc
  have hI : net₁.HasIndex I p a.index.mask := ⟨a, ha, hpar, rfl⟩
  have pu : Pushed net₁ _ ⟨.grouping ⟨I, op, column, groups⟩, [p], [], a.index.mask.arity + 1⟩ :=
    pushed_listen_one rfl rfl
  have h₂ := g₁.regular.pushed (admits_grouping hI hc) nofun pu fun s v hv => by
    -- A group with a value is not empty, so its signature is that of a tuple.
    rw [hget, Aggregator.groupValue] at hv
    split at hv
    · cases hv
    · next hne =>
      obtain ⟨t, ht⟩ := Multiset.exists_mem_of_ne_zero hne
      obtain ⟨hc, hs⟩ := Multiset.mem_filter.1 ht
      rw [Set.mem_ofPred_eq, List.length_append, ← hs, Mask.length_signature (sound.width hc)]
      rfl
  have g₂ := pu.gains h₂ rfl rfl rfl rfl
  refine ⟨_, net₁.vertices.size, ?_, g₁.trans g₂, I, ⟨_, pu.fresh, rfl, rfl, rfl⟩,
    hI.keeps g₂.extension.keeps⟩
  rw [Network.addGrouping, hindex]
  simp only [bind, Except.bind, index_eq ha, hgroups]
  rfl

end Regular
end Network
end Motif
