import Motif.Proofs.Network.Indexing
import Motif.Proofs.Network.Saturated

set_option autoImplicit false
namespace Motif
namespace Network

variable {net net' : Network}

section keeps
variable (k : Keeps net net')
include k

variable {v v' : Vertex}
  (sources : ∀ side I, v.node.source side = some I → ∃ a, net.arrangements[I]? = some a)
  (hn : v'.node = v.node)
include sources hn

theorem Keeps.reading : net'.reading v' = net.reading v := by
  funext side
  rw [Network.reading, Network.reading, hn]
  cases hs : v.node.source side with
  | none => rfl
  | some I =>
    obtain ⟨a, ha⟩ := sources side I hs
    exact k.contentOf ha

theorem Keeps.output (fed : Multiset Tuple) :
    v'.node.output net'.maskOf fed (net'.reading v') =
      v.node.output net.maskOf fed (net.reading v) := by
  rw [k.reading sources hn, hn]
  refine Node.output_masks_congr fun side I hs => ?_
  obtain ⟨a, ha⟩ := sources side I hs
  exact k.maskOf ha

theorem Keeps.holds {fed : Multiset Tuple} {view : Side → Multiset Tuple} :
    v'.node.Holds net'.maskOf fed view ↔ v.node.Holds net.maskOf fed view := by
  rw [hn]
  refine Node.holds_masks_congr fun side I hs => ?_
  obtain ⟨a, ha⟩ := sources side I hs
  exact k.maskOf ha

end keeps

theorem Pushed.output {v : Vertex} (p : Pushed net net' v) (w : net.Wired) {q : NodeId}
    {u u' : Vertex} (hu : net.vertices[q]? = some u) (hn : u'.node = u.node) (F : Multiset Tuple) :
    u'.node.output net'.bare.maskOf F (net'.reading u') =
      u.node.output net.bare.maskOf F (net.reading u) := by
  rw [maskOf_bare, maskOf_bare]
  exact p.keeps.output (fun _ _ => w.exists_arrangement hu) hn F

theorem Closed.of_grown {s s' : Network} {base base' : NodeId → Multiset Tuple}
    {M : NodeId → Set Tuple} (pos : s.Positive)
    (hv : ∀ (q : NodeId) (v : Vertex), s.vertices[q]? = some v → ∃ v' : Vertex,
      s'.vertices[q]? = some v' ∧ v'.node = v.node ∧ ∀ p ∈ v.parents, p ∈ v'.parents)
    (hs : ∀ (q : NodeId) (v : Vertex) side I, s.vertices[q]? = some v →
      v.node.source side = some I → s'.maskOf I = s.maskOf I ∧ s'.parentOf I = s.parentOf I)
    (hb : ∀ (q : NodeId) (v : Vertex), s.vertices[q]? = some v → base' q = base q)
    (h : s'.Closed base' M) : s.Closed base M := by
  intro q v hvq val le t ht
  obtain ⟨v', hv', hn, hp⟩ := hv q v hvq
  refine h q v' hv' val le t ?_
  have view : s'.viewBy val v' = s.viewBy val v := by
    funext side
    exact viewBy_congr hn (fun side I hI => congrArg val (hs q v side I hvq hI).2) side
  rw [hn, view, Node.output_masks_congr fun side I hI => (hs q v side I hvq hI).1]
  refine Node.output_mono (pos.nodes q v hvq) (fun u hu => ?_) (fun _ _ hu => hu) ht
  rw [fedFrom] at hu ⊢
  rw [hn]
  by_cases hf : v.node.isFed = true
  · rw [if_pos hf, mem_sum_map] at hu ⊢
    exact hu.imp fun p hm => ⟨hp p hm.1, hm.2⟩
  · rw [if_neg hf] at hu ⊢
    rw [hb q v hvq]
    exact hu

theorem Closed.of_keeps (w : net.Wired) (pos : net.Positive) (k : Keeps net net')
    (hp : ∀ (q : NodeId) (v v' : Vertex), net.vertices[q]? = some v →
      net'.vertices[q]? = some v' → v'.parents = v.parents)
    (hg : net'.given = net.given) {M : NodeId → Set Tuple}
    (hM : net'.bare.Closed net'.given M) : net.bare.Closed net.given M := by
  rw [closed_bare] at hM ⊢
  refine hM.of_grown pos (fun q v hv => ?_) (fun q v side I hv hs => ?_) fun q v _ => by rw [hg]
  · obtain ⟨v', hv', hn, -⟩ := k.vertex q v hv
    exact ⟨v', hv', hn, fun p hm => hp q v v' hv hv' ▸ hm⟩
  · obtain ⟨a, ha⟩ := w.exists_arrangement hv hs
    exact ⟨k.maskOf ha, k.parentOf ha⟩

namespace Spreading
variable {fed out : NodeId → Multiset Tuple}

theorem mem_output_join {masks : IndexId → Mask} {v : Vertex} {p i : IndexId} {c : Mask}
    (hn : v.node = .join p i c) {a b : Tuple} (ha : a ∈ net.contentOf p) (hb : b ∈ net.contentOf i)
    (hab : (masks i).signature b = (masks p).signature a) (F : Multiset Tuple) :
    a ++ c.signature b ∈ v.node.output masks F (net.reading v) := by
  have hp : net.reading v .primary = net.contentOf p := reading_of_source (by rw [hn]; rfl)
  have hi : net.reading v .secondary = net.contentOf i := reading_of_source (by rw [hn]; rfl)
  rw [hn]
  exact mem_naturalJoin.2 ⟨a, hp ▸ ha, b, hi ▸ hb, hab, rfl⟩

theorem length_of_mem_output (h : Spreading net.bare net.given net [] fed out) {v : Vertex}
    (ad : net.Admits v) {t : Tuple}
    (ht : t ∈ v.node.output net.maskOf (fedFrom net.given out net.vertices.size v) (net.reading v)) :
    t.length = v.arity := by
  obtain ⟨width, hfits, hw⟩ := ad.fits
  refine Node.length_of_mem_output hfits (fun hk x hx => ?_) (fun side I hs x hx => ?_) t ht
  · rcases hk with hf | hi
    · obtain ⟨r, hr, hm⟩ := (mem_fedFrom hf).1 hx
      rw [← hw hf r hr, Network.widthOf]
      obtain ⟨u, hu⟩ := h.vertex_of_mem hm
      rw [hu]
      exact h.width r u hu x hm
    · obtain ⟨r, b, memory, hn⟩ := Node.exists_input hi
      rw [fedFrom, if_neg (by simp [hn, Node.isFed]), given_eq_zero fun u hu => ?_] at hx
      · cases hx
      · exact absurd (Array.getElem?_eq_some_iff.1 hu).1 (Nat.lt_irrefl _)
  · rw [reading_of_source hs] at hx
    obtain ⟨a, ha⟩ := ad.sources side I hs
    rw [contentOf_eq ha] at hx
    rw [maskOf_eq ha]
    exact (h.index I a ha).1.width hx

section pushed
variable {v : Vertex} {more : Multiset Tuple} (w : net.Wired) (pos : net.Positive)
  (h : Spreading net.bare net.given net [] fed out) (ad : net.Admits v) (p : Pushed net net' v)
include h

theorem lt_size_of_mem {q : NodeId} {t : Tuple} (ht : t ∈ out q) : q < net.vertices.size := by
  obtain ⟨u, hu⟩ := h.vertex_of_mem ht
  exact (Array.getElem?_eq_some_iff.1 hu).1

theorem mem_update_of_mem {q : NodeId} {t : Tuple} (ht : t ∈ out q) :
    t ∈ Function.update out net.vertices.size more q := by
  rw [Function.update_of_ne (Nat.ne_of_lt (h.lt_size_of_mem ht))]
  exact ht

include w ad p

include pos in
/-- A family that is closed with a further node was closed before, and holds also what that node makes
of what its parents have put out. -/
theorem mem_of_closed_pushed (hpos : v.node.isPositive = true)
    (hg : net'.given = net.given) {M : NodeId → Set Tuple}
    (hM : net'.bare.Closed net'.given M) :
    ∀ q, ∀ t ∈ Function.update out net.vertices.size (v.node.output net.maskOf
      (fedFrom net.given out net.vertices.size v) (net.reading v)) q, t ∈ M q := by
  have k := p.keeps
  have below : ∀ q, ∀ t ∈ out q, t ∈ M q := by
    refine h.least M (Closed.of_keeps w pos k (fun r u u' hu hu' => ?_) hg hM)
    obtain ⟨rfl, -⟩ | ⟨u₂, -, hu₂, -, hpar, -⟩ := p.cases hu'
    · exact absurd (Array.getElem?_eq_some_iff.1 hu).1 (Nat.lt_irrefl _)
    · cases hu.symm.trans hu₂
      exact hpar
  intro q t ht
  by_cases hq : q ≠ net.vertices.size
  · rw [Function.update_of_ne hq] at ht
    exact below q t ht
  obtain rfl := not_not.1 hq
  rw [Function.update_self] at ht
  rw [closed_bare] at hM
  refine hM _ v p.fresh out below t ?_
  rw [hg]
  rw [← k.output ad.sources rfl] at ht
  refine Node.output_mono hpos (fun _ hx => hx) (fun side x hx => ?_) ht
  rw [k.reading ad.sources rfl] at hx
  cases hs : v.node.source side with
  | none => simp [Network.reading, hs] at hx
  | some I =>
    obtain ⟨a, ha⟩ := ad.sources side I hs
    rw [reading_of_source hs, contentOf_eq ha] at hx
    rw [viewBy_of_source hs, k.parentOf ha, parentOf_eq ha]
    exact (h.index I a ha).2 x hx

theorem got_of_pushed {q : NodeId} {R : Receiver} (hR : R ∈ net'.receiversOf q)
    {t : Tuple} (ht : t ∈ Function.update out net.vertices.size more q) :
    t ∈ net'.got (Function.update fed net.vertices.size
      (fedFrom net.given out net.vertices.size v)) R := by
  rw [p.mem_receiversOf ad.receivers] at hR
  rcases hR with hR | ⟨hq, hf, hpar, rfl⟩
  · have hq : q ≠ net.vertices.size := by
      rintro rfl
      rw [receiversOf_of_size_le (Nat.le_refl _)] at hR
      cases hR
    rw [Function.update_of_ne hq] at ht
    have hg : t ∈ net.got fed R := by
      simpa using h.reached q R (by rwa [receiversOf_bare]) t ht
    cases R with
    | node m =>
      obtain ⟨u, hu, -⟩ := w.fed q m hR
      rw [Network.got, Function.update_of_ne (Nat.ne_of_lt (Array.getElem?_eq_some_iff.1 hu).1)]
      exact hg
    | index I =>
      obtain ⟨a, ha⟩ := w.indexed q I hR
      rw [Network.got, p.keeps.contentOf ha]
      exact hg
  · rw [Function.update_of_ne (Nat.ne_of_lt hq)] at ht
    rw [Network.got, Function.update_self, mem_fedFrom hf]
    exact ⟨q, hpar, ht⟩

include pos in
/-- A further node that has been fed what its parents have put out, and puts out what it makes of
it. -/
theorem pushed (hpos : v.node.isPositive = true)
    (hin : v.node.isInput = true → fedBy (fun _ => 0) v = 0)
    (holds : v.node.Holds net.maskOf (fedFrom net.given out net.vertices.size v) fun _ => 0) :
    Spreading net'.bare net'.given net' []
      (Function.update fed net.vertices.size (fedFrom net.given out net.vertices.size v))
      (Function.update out net.vertices.size (v.node.output net.maskOf
        (fedFrom net.given out net.vertices.size v) (net.reading v))) := by
  have hg : net'.given = net.given := p.given hin
  have newOutput : ∀ F, v.node.output net'.bare.maskOf F (net'.reading v) =
      v.node.output net.maskOf F (net.reading v) := fun F => by
    rw [maskOf_bare]
    exact p.keeps.output ad.sources rfl F
  constructor
  case bare => rfl
  case due => exact fun _ hx => by cases hx
  case holds =>
    intro q u' hu'
    rw [maskOf_bare]
    obtain ⟨rfl, rfl⟩ | ⟨u, hq, hu, hn, -⟩ := p.cases hu'
    · rw [Function.update_self]
      exact (p.keeps.holds ad.sources rfl).2 holds
    · rw [Function.update_of_ne hq]
      exact (p.keeps.holds (fun _ _ => w.exists_arrangement hu) hn).2
        (maskOf_bare net ▸ h.holds q u hu)
  case given =>
    intro q u' hu' hf
    rw [hg]
    obtain ⟨rfl, rfl⟩ | ⟨u, hq, hu, hn, -⟩ := p.cases hu'
    · rw [Function.update_self, fedFrom, if_neg (by simp [hf])]
    · rw [Function.update_of_ne hq]
      exact h.given q u hu (hn ▸ hf)
  case taken =>
    intro q u' hu' hf t ht
    obtain ⟨rfl, rfl⟩ | ⟨u, hq, hu, hn, hpar, -⟩ := p.cases hu'
    · rw [Function.update_self] at ht
      exact ((mem_fedFrom hf).1 ht).imp fun r hr => ⟨hr.1, h.mem_update_of_mem hr.2⟩
    · rw [Function.update_of_ne hq] at ht
      exact hpar ▸ (h.taken q u hu (hn ▸ hf) t ht).imp fun r hr => ⟨hr.1, h.mem_update_of_mem hr.2⟩
  case index =>
    intro I a' ha'
    rw [p.arrangement, Option.map_eq_some_iff] at ha'
    obtain ⟨a, ha, rfl⟩ := ha'
    exact ⟨(h.index I a ha).1, fun t ht => h.mem_update_of_mem ((h.index I a ha).2 t ht)⟩
  case width =>
    intro q u' hu' t ht
    obtain ⟨rfl, rfl⟩ | ⟨u, hq, hu, -, -, harity⟩ := p.cases hu'
    · rw [Function.update_self] at ht
      exact h.length_of_mem_output ad ht
    · rw [Function.update_of_ne hq] at ht
      rw [harity]
      exact h.width q u hu t ht
  case least => exact fun M hM => mem_of_closed_pushed w pos h ad p hpos hg hM
  case made =>
    intro q u' hu' t ht
    obtain ⟨rfl, rfl⟩ | ⟨u, hq, hu, hn, -⟩ := p.cases hu'
    · rw [Function.update_self] at ht ⊢
      rw [newOutput]
      exact ht
    · rw [Function.update_of_ne hq] at ht ⊢
      rw [p.output w hu hn]
      exact h.made q u hu t ht
  case makes =>
    intro q u' hu' hs t ht
    obtain ⟨rfl, rfl⟩ | ⟨u, hq, hu, hn, -⟩ := p.cases hu'
    · rw [Function.update_self, newOutput] at ht
      rw [Function.update_self]
      exact ht
    · rw [Function.update_of_ne hq, p.output w hu hn] at ht
      exact h.mem_update_of_mem (h.makes q u hu (hn ▸ hs) t ht)
  case joins =>
    intro q u' P i c hu' hn a ha b hb hab
    left
    obtain ⟨rfl, rfl⟩ | ⟨u, hq, hu, hnode, -⟩ := p.cases hu'
    · rw [Function.update_self, ← newOutput]
      exact mem_output_join hn ha hb hab _
    · rw [Function.update_of_ne hq]
      refine (h.mem_out_iff ((positive_bare net).2 pos) hu).2 ?_
      rw [← p.output w hu hnode]
      exact mem_output_join hn ha hb hab _
  case reached =>
    intro q R hR t ht
    rw [receiversOf_bare] at hR
    exact .inl (got_of_pushed w h ad p hR ht)

end pushed

/-- The nodes and what they read stay. They may have got further parents and receivers, and there may
be further indexes. -/
structure Rewired (net net' : Network) : Prop where
  old : ∀ (q : NodeId) (u' : Vertex), net'.vertices[q]? = some u' → ∃ u, net.vertices[q]? = some u ∧
    u'.node = u.node ∧ u'.arity = u.arity ∧ ∀ r ∈ u.parents, r ∈ u'.parents
  kept : ∀ (q : NodeId) (u : Vertex), net.vertices[q]? = some u → ∃ u', net'.vertices[q]? = some u' ∧
    u'.node = u.node ∧ ∀ r ∈ u.parents, r ∈ u'.parents
  read : ∀ (q : NodeId) (u : Vertex) side I, net.vertices[q]? = some u → u.node.source side = some I →
    net'.maskOf I = net.maskOf I ∧ net'.parentOf I = net.parentOf I ∧
      net'.contentOf I = net.contentOf I
  given : net'.given = net.given

theorem Rewired.output (x : Rewired net net') {q : NodeId} {u u' : Vertex}
    (hu : net.vertices[q]? = some u) (hn : u'.node = u.node) (F : Multiset Tuple) :
    u'.node.output net'.bare.maskOf F (net'.reading u') =
      u.node.output net.bare.maskOf F (net.reading u) := by
  have reading : net'.reading u' = net.reading u := by
    funext side
    rw [Network.reading, Network.reading, hn]
    cases hs : u.node.source side with
    | none => rfl
    | some I => exact (x.read q u side I hu hs).2.2
  rw [maskOf_bare, maskOf_bare, reading, hn]
  exact Node.output_masks_congr fun side I hs => (x.read q u side I hu hs).1

/-- What is left to show when a network is rewired is what its indexes hold and who is still to
receive what. -/
theorem rewired {agenda : Agenda} (pos : net.Positive)
    (h : Spreading net.bare net.given net [] fed out) (x : Rewired net net')
    (index : ∀ (I : IndexId) (a : Arrangement), net'.arrangements[I]? = some a →
      a.index.Sound ∧ ∀ t ∈ a.index.content, t ∈ out a.parent)
    (reached : ∀ q R, R ∈ net'.receiversOf q → ∀ t ∈ out q,
      t ∈ net'.got fed R ∨ .deliver R ⟨.insert, t⟩ ∈ agenda)
    (due : ∀ task ∈ agenda, net'.bare.Due net' out task) :
    Spreading net'.bare net'.given net' agenda fed out := by
  constructor
  case bare => rfl
  case index => exact index
  case due => exact due
  case reached =>
    intro q R hR t ht
    rw [receiversOf_bare] at hR
    exact (reached q R hR t ht).imp_right .inr
  case holds =>
    intro q u' hu'
    obtain ⟨u, hu, hn, -⟩ := x.old q u' hu'
    have hold := h.holds q u hu
    rw [maskOf_bare] at hold ⊢
    rw [hn]
    exact (Node.holds_masks_congr fun side I hs => (x.read q u side I hu hs).1).2 hold
  case given =>
    intro q u' hu' hf
    obtain ⟨u, hu, hn, -⟩ := x.old q u' hu'
    rw [x.given]
    exact h.given q u hu (hn ▸ hf)
  case taken =>
    intro q u' hu' hf t ht
    obtain ⟨u, hu, hn, -, hpar⟩ := x.old q u' hu'
    exact (h.taken q u hu (hn ▸ hf) t ht).imp fun r hr => hr.imp_left (hpar r)
  case width =>
    intro q u' hu' t ht
    obtain ⟨u, hu, -, harity, -⟩ := x.old q u' hu'
    rw [harity]
    exact h.width q u hu t ht
  case least =>
    intro M hM q t ht
    refine h.least M ?_ q t ht
    rw [closed_bare] at hM ⊢
    refine hM.of_grown pos x.kept (fun r u side I hu hs => ?_) fun _ _ _ => by rw [x.given]
    obtain ⟨hm, hp, -⟩ := x.read r u side I hu hs
    exact ⟨hm, hp⟩
  case made =>
    intro q u' hu' t ht
    obtain ⟨u, hu, hn, -⟩ := x.old q u' hu'
    rw [x.output hu hn]
    exact h.made q u hu t ht
  case makes =>
    intro q u' hu' hs t ht
    obtain ⟨u, hu, hn, -⟩ := x.old q u' hu'
    rw [x.output hu hn] at ht
    exact h.makes q u hu (hn ▸ hs) t ht
  case joins =>
    intro q u' P i c hu' hn y hy z hz hyz
    left
    obtain ⟨u, hu, hnode, -⟩ := x.old q u' hu'
    refine (h.mem_out_iff ((positive_bare net).2 pos) hu).2 ?_
    rw [← x.output hu hnode]
    exact mem_output_join hn hy hz hyz _

theorem indexed (w : net.Wired) (pos : net.Positive)
    (h : Spreading net.bare net.given net [] fed out) {a : Arrangement} (x : Indexed net net' a)
    (hp : a.parent < net.vertices.size) (hs : a.index.Sound)
    (hc : ∀ t, t ∈ a.index.content ↔ t ∈ out a.parent) :
    Spreading net'.bare net'.given net' [] fed out := by
  have k := x.keeps
  have same : Rewired net net' := by
    refine ⟨fun q u' hu' => ?_, fun q u hu => ?_, fun q u side I hu hs => ?_, x.given⟩
    · obtain ⟨u, hu, hn, hpar, harity⟩ := x.cases hu'
      exact ⟨u, hu, hn, harity, fun r hr => hpar ▸ hr⟩
    · obtain ⟨u', hu', hn, hpar, -⟩ := x.vertex_of hu
      exact ⟨u', hu', hn, fun r hr => hpar ▸ hr⟩
    · obtain ⟨b, hb⟩ := w.exists_arrangement hu hs
      exact ⟨k.maskOf hb, k.parentOf hb, k.contentOf hb⟩
  refine rewired pos h same (fun I b hb => ?_) (fun q R hR t ht => .inl ?_) fun _ hx => by cases hx
  · obtain ⟨rfl, rfl⟩ | hb := x.cases_arrangement hb
    · exact ⟨hs, fun t ht => (hc t).1 ht⟩
    · exact h.index I b hb
  · rw [x.receiversOf hp, List.mem_append] at hR
    rcases hR with hR | hR
    · have hgot : t ∈ net.got fed R := by
        simpa using h.reached q R (by rwa [receiversOf_bare]) t ht
      cases R with
      | node m => exact hgot
      | index I =>
        obtain ⟨b, hb⟩ := w.indexed q I hR
        rw [Network.got, k.contentOf hb]
        exact hgot
    · split at hR
      · next e =>
        rw [List.mem_singleton.1 hR, Network.got, contentOf_eq x.fresh, hc, ← e]
        exact ht
      · cases hR

theorem hooked {p m : NodeId} (pos : net.Positive)
    (h : Spreading net.bare net.given net [] fed out) (x : Hooked net net' p m)
    (hp : p < net.vertices.size) {rows : List Tuple} (hrows : ∀ t, t ∈ rows ↔ t ∈ out p) :
    Spreading net'.bare net'.given net' (rows.map fun t => .deliver (.node m) ⟨.insert, t⟩) fed
      out := by
  have content : net'.contentOf = net.contentOf := by
    funext I
    rw [Network.contentOf, Network.contentOf, x.arrangements]
  have same : Rewired net net' := by
    refine ⟨fun q u' hu' => ?_, fun q u hu => ?_, fun q u side I hu hs => ?_, x.given⟩
    · obtain ⟨u, hu, hn, hpar, harity⟩ := x.cases hu'
      exact ⟨u, hu, hn, harity, fun r hr => hpar ▸ List.mem_append_left _ hr⟩
    · obtain ⟨u', hu', hn, hpar, -⟩ := x.vertex_of hu
      exact ⟨u', hu', hn, fun r hr => hpar ▸ List.mem_append_left _ hr⟩
    · rw [x.maskOf, Network.parentOf, Network.parentOf, x.arrangements, content]
      exact ⟨rfl, rfl, rfl⟩
  refine rewired pos h same (fun I b hb => ?_) (fun q R hR t ht => ?_) fun task hx => ?_
  · rw [x.arrangements] at hb
    exact h.index I b hb
  · rw [x.receiversOf hp, List.mem_append] at hR
    rcases hR with hR | hR
    · have hgot : t ∈ net.got fed R := by
        simpa using h.reached q R (by rwa [receiversOf_bare]) t ht
      refine .inl ?_
      cases R with
      | node m => exact hgot
      | index I =>
        rw [Network.got, content]
        exact hgot
    · split at hR
      · next e =>
        subst e
        rw [List.mem_singleton.1 hR]
        exact .inr (List.mem_map.2 ⟨t, (hrows t).2 ht, rfl⟩)
      · cases hR
  · obtain ⟨t, ht, rfl⟩ := List.mem_map.1 hx
    refine ⟨rfl, p, ?_, (hrows t).1 ht⟩
    rw [receiversOf_bare, x.receiversOf hp, if_pos rfl]
    exact List.mem_append_right _ (List.mem_singleton.2 rfl)

end Spreading
end Network
end Motif
