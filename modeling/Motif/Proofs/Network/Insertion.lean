import Motif.Proofs.Network.Spreading

set_option autoImplicit false
namespace Motif

theorem Leads.eq_add {w : Nat} {flat : Prop} {m m' : Multiset Tuple} {es : List Event}
    (h : Leads w flat m es m') (hd : ∀ e ∈ es, e.direction = .insert) :
    m' = m + ↑(es.map Event.tuple) ∧ ∀ e ∈ es, e.tuple.length = w := by
  induction es generalizing m with
  | nil =>
    cases h
    simp
  | cons e rest ih =>
    obtain ⟨suits, h⟩ := h
    obtain ⟨rfl, hw⟩ := ih h fun e he => hd e (by simp [he])
    refine ⟨?_, fun e' he' => ?_⟩
    · rw [Event.apply_of_insert (hd e (by simp)), Event.rest_of_insert (hd e (by simp)),
        List.map_cons, ← Multiset.cons_coe, Multiset.add_cons, Multiset.cons_add]
    · rcases List.mem_cons.1 he' with rfl | he'
      · exact suits.width
      · exact hw e' he'

theorem Index.Sound.insert_of_mem {ix : Index} {t : Tuple} (h : ix.Sound) (hu : ix.unique = true)
    (ht : t ∈ ix.content) : ix.insert t = .ok (ix, .error (.duplicateInsert ix.name t)) := by
  have hc : (ix.bucket (ix.mask.signature t)).contains t = true :=
    Bag.contains_iff_mem.2 ((h.mem_bucket_iff t).2 ht)
  simp [Index.insert, Mask.project_eq (h.width ht), bind, Except.bind, hu, hc, pure, Except.pure]

namespace Node

theorem receiveCounted_direction {rebuild : Bag Tuple → Node} {index : String} {memory : Bag Tuple}
    {e : Event} (hd : e.direction = .insert) :
    ∀ x ∈ (receiveCounted rebuild index memory e).out, x.direction = .insert := by
  intro x hx
  rw [receiveCounted] at hx
  split at hx
  · rw [List.mem_singleton.1 hx, hd]
  · cases hx
  · cases hx

theorem receive_direction {n : Node} {e : Event} {width : Nat} {flat : Prop} {fed : Multiset Tuple}
    {masks : IndexId → Mask} {view : Side → Multiset Tuple} {arity : Nat} {reply : Reply}
    (hs : e.Suits width flat fed) (hf : n.Fits masks width arity) (hh : n.Holds masks fed view)
    (hr : n.receive e = .ok reply) (hd : e.direction = .insert) :
    ∀ x ∈ reply.out, x.direction = .insert := by
  intro x hx
  cases n with
  | trim mask =>
    rw [receive, Mask.project_eq (hs.width.trans hf.1.symm)] at hr
    cases hr
    rw [List.mem_singleton.1 hx]
    exact hd
  | constantFilter column value =>
    obtain ⟨hc, rfl⟩ := hf
    rw [← hs.width] at hc
    rw [receive, Tuple.column_eq hc] at hr
    cases hr
    dsimp only at hx
    split at hx
    · rw [List.mem_singleton.1 hx, hd]
    · cases hx
  | equalityFilter groups =>
    obtain ⟨hc, rfl⟩ := hf
    rw [receive, Tuple.agreeIn_eq fun g hg c h => hs.width ▸ hc g hg c h] at hr
    cases hr
    dsimp only at hx
    split at hx
    · rw [List.mem_singleton.1 hx, hd]
    · cases hx
  | inequalityFilter left right =>
    obtain ⟨hl, hc, rfl⟩ := hf
    rw [← hs.width] at hl hc
    rw [receive, Tuple.column_eq hl, Tuple.column_eq hc] at hr
    cases hr
    dsimp only at hx
    split at hx
    · cases hx
    · rw [List.mem_singleton.1 hx, hd]
  | expression y =>
    obtain ⟨y', issue, hy, -⟩ := expression_receive_eq hs hf.1 hh
    rw [receive, hy] at hr
    cases hr
    obtain ⟨u, -, rfl⟩ := List.mem_map.1 hx
    exact hd
  | closure state =>
    obtain ⟨d, t⟩ := e
    cases hd
    cases hr
    rw [receiveEdge] at hx
    split at hx
    · obtain ⟨p, -, rfl⟩ := List.mem_map.1 hx
      rfl
    · cases hx
  | uniqueness memory | production query memory =>
    cases hr
    exact receiveCounted_direction hd x hx
  | _ =>
    cases hr
    cases hx

theorem nodup_output_of_isProduction {n : Node} (h : n.isProduction = true) (masks : IndexId → Mask)
    (fed : Multiset Tuple) (view : Side → Multiset Tuple) : (n.output masks fed view).Nodup := by
  cases n <;> cases h
  exact Multiset.nodup_dedup _

theorem mem_of_mem_previousView {bucket : Option (Bag Tuple)} {G : Multiset Tuple} {shared : Bool}
    {t u : Tuple} (hb : Finds bucket G) (hu : u ∈ previousView bucket shared ⟨.insert, t⟩) :
    u ∈ G := by
  rw [← hb.tuples]
  cases shared with
  | false => exact hu
  | true =>
    have hm : u ∈ ((bucket.getD ∅).remove t).toMultiset := hu
    rw [Bag.toMultiset_remove] at hm
    exact Multiset.mem_of_mem_erase hm

theorem mem_previousView {bucket : Option (Bag Tuple)} {G : Multiset Tuple} {shared : Bool}
    {t u : Tuple} (hb : Finds bucket G) (hu : u ∈ G) (hne : shared = true → t ≠ u) :
    u ∈ previousView bucket shared ⟨.insert, t⟩ := by
  rw [← hb.tuples] at hu
  cases shared with
  | false => exact hu
  | true =>
    have hm : u ∈ ((bucket.getD ∅).remove t).toMultiset := by
      rw [Bag.toMultiset_remove]
      exact (Multiset.mem_erase_of_ne (hne rfl).symm).2 hu
    exact hm

end Node

namespace Network

/-- How far the work on a task is from its end, as long as no node puts out what it has not put out
before. The next node is further on, and a production passes on only what it has not passed on. -/
def rank (s : Network) : Task → Nat
  | .propagate q _ => 3 * (s.vertices.size - q) + 2
  | .deliver (.node m) _ =>
    if s.vertices[m]?.any fun v => v.node.isProduction then 0 else 3 * (s.vertices.size - m) + 3
  | .deliver (.index I) _ => 3 * (s.vertices.size - s.parentOf I) + 1
  | .notify m _ _ _ => 3 * (s.vertices.size - m) + 3

theorem lt_of_earlier {n q m : Nat} (hq : q < n) (h : q < m) :
    3 * (n - m) + 3 < 3 * (n - q) + 1 := by
  omega

theorem rank_deliver {s : Network} {m : NodeId} {v : Vertex} {e : Event}
    (hv : s.vertices[m]? = some v) : s.rank (.deliver (.node m) e) =
      if v.node.isProduction then 0 else 3 * (s.vertices.size - m) + 3 := by
  rw [rank, hv]
  rfl

def Advances (s : Network) (base : NodeId → Multiset Tuple) (net : Network) (task : Task)
    (rest : Agenda) (out : NodeId → Multiset Tuple) : Prop :=
  ∃ net' more fed' out', net.step task = .ok (net', more) ∧
    Spreading s base net' (more ++ rest) fed' out' ∧ (∀ q, ∀ t ∈ out q, t ∈ out' q) ∧
    ((∀ x ∈ more, s.rank x < s.rank task) ∨ ∃ q t, t ∉ out q ∧ t ∈ out' q)

theorem Due.mono {s net net' : Network} {out out' : NodeId → Multiset Tuple} {task : Task}
    (h : s.Due net out task) (hc : ∀ I, ∀ u ∈ net.contentOf I, u ∈ net'.contentOf I)
    (le : ∀ q, ∀ t ∈ out q, t ∈ out' q) : s.Due net' out' task := by
  cases task with
  | propagate q e => exact ⟨h.1, le q _ h.2⟩
  | deliver R e => exact ⟨h.1, h.2.imp fun q hq => hq.imp_right (le q _)⟩
  | notify m side e c =>
    obtain ⟨hd, I, hl, hm, hs⟩ := h
    exact ⟨hd, I, hl, hc I _ hm, hs⟩

namespace Spreading
variable {s net : Network} {base fed out : NodeId → Multiset Tuple} {rest : Agenda}

theorem awaits_mono {agenda agenda' : Agenda} (h : ∀ n side e c, .notify n side e c ∈ agenda →
      .notify n side e c ∈ agenda') {q : NodeId} {p i : IndexId} {a b : Tuple}
    (hw : s.Awaits agenda q p i a b) : s.Awaits agenda' q p i a b := by
  obtain ⟨c, hc, hn⟩ := hw
  exact ⟨c, hc, hn.imp (fun hp => ⟨h _ _ _ _ hp.1, hp.2⟩) (h _ _ _ _)⟩

theorem propagate {q : NodeId} {e : Event} (w : s.Wired)
    (h : Spreading s base net (.propagate q e :: rest) fed out) :
    s.Advances base net (.propagate q e) rest out := by
  obtain ⟨hd, ht⟩ : e.direction = .insert ∧ e.tuple ∈ out q := h.due (.propagate q e) (by simp)
  obtain ⟨v, hv⟩ := h.vertex_of_mem ht
  have hstep : net.step (.propagate q e) = .ok ({ net with propagated := net.propagated + 1 },
      (s.receiversOf q).map (Task.deliver · e)) := by
    rw [Network.step, Network.vertex, hv, h.receivers hv]
    rfl
  have spreading : Spreading s base net
      ((s.receiversOf q).map (Task.deliver · e) ++ rest) fed out := by
    refine ⟨h.bare, h.holds, h.given, h.taken, h.index, h.width, h.least, h.made, h.makes, ?_, ?_,
      ?_⟩
    · intro q' v' p i c hv' hn a ha b hb hs
      exact (h.joins q' v' p i c hv' hn a ha b hb hs).imp_right (awaits_mono fun _ _ _ _ hm =>
        List.mem_append_right _ (by simpa using hm))
    · intro q' R hR t ht'
      rcases h.reached q' R hR t ht' with hg | hp | hp
      · exact .inl hg
      · rcases List.mem_cons.1 hp with he | hp
        · cases he
          exact .inr (.inr (List.mem_append_left _ (List.mem_map.2 ⟨R, hR, rfl⟩)))
        · exact .inr (.inl (List.mem_append_right _ hp))
      · refine .inr (.inr (List.mem_append_right _ ?_))
        simpa using hp
    · intro x hx
      rcases List.mem_append.1 hx with hx | hx
      · obtain ⟨R, hR, rfl⟩ := List.mem_map.1 hx
        exact ⟨hd, q, hR, ht⟩
      · exact h.due x (by simp [hx])
  refine ⟨_, _, fed, out, hstep, spreading.of_eq rfl rfl rfl,
    fun _ _ ht => ht, .inl fun x hx => ?_⟩
  obtain ⟨R, hR, rfl⟩ := List.mem_map.1 hx
  have hq : q < s.vertices.size := (Array.getElem?_eq_some_iff.1 (h.vertex hv)).1
  cases R with
  | node m =>
    obtain ⟨u, hu, hf⟩ := w.fed q m hR
    rw [rank_deliver hu, rank]
    by_cases hp : u.node.isProduction = true
    · rw [if_pos hp]
      omega
    · obtain ⟨p, hpar, hlt⟩ := w.earlier m u hu hf (by simpa using hp)
      obtain rfl : q = p := by
        have hm := (w.mem_receiversOf_node hu hf).1 hR
        rwa [hpar, List.mem_singleton] at hm
      rw [if_neg hp]
      exact (lt_of_earlier hq hlt).trans (Nat.lt_succ_self _)
  | index I =>
    obtain ⟨a, ha⟩ := w.indexed q I hR
    rw [rank, rank, parentOf_eq ha, ← (w.mem_receiversOf_index ha).1 hR]
    omega

theorem mem_update_add {m q : NodeId} {tuples : List Tuple} {t : Tuple} :
    t ∈ Function.update out m (out m + ↑tuples) q ↔ t ∈ out q ∨ (q = m ∧ t ∈ tuples) := by
  by_cases hq : q = m
  · subst hq
    rw [Function.update_self, Multiset.mem_add, Multiset.mem_coe, eq_self, true_and]
  · rw [Function.update_of_ne hq, eq_false hq, false_and, or_false]

/-- What a node has been given has grown to `more`, from its parents or from outside. It keeps that
now as `n'`, and makes `tuples` of it besides what it has put out. -/
structure Gains (s net : Network) (base base' fed out : NodeId → Multiset Tuple) (m : NodeId)
    (v : Vertex) (n' : Node) (more : Multiset Tuple) (tuples : List Tuple) : Prop where
  bare : n'.bare = v.node.bare
  holds : n'.Holds s.maskOf more fun _ => 0
  others : ∀ q, q ≠ m → base' q = base q
  grown : ∀ t ∈ fed m, t ∈ more
  supplied : ∀ t ∈ base m, t ∈ base' m
  given : v.node.isFed = false → more = base' m
  taken : v.node.isFed = true → ∀ t ∈ more, ∃ p ∈ v.parents, t ∈ out p
  width : ∀ t ∈ tuples, t.length = v.arity
  made : ∀ t ∈ tuples, t ∈ v.node.output s.maskOf more (net.reading v)
  makes : v.node.source .primary = none →
    ∀ t ∈ v.node.output s.maskOf more (net.reading v), t ∈ out m ∨ t ∈ tuples

/-- The tasks that are no longer on the agenda have given the node what it now has, and have it put
out the pairs it was still to be told of. -/
structure Leaves (s net : Network) (agenda rest : Agenda) (m : NodeId) (v : Vertex)
    (more : Multiset Tuple) (tuples : List Tuple) : Prop where
  left : ∀ x ∈ rest, x ∈ agenda
  joins : ∀ (q : NodeId) (p i : IndexId) (a b : Tuple), s.Awaits agenda q p i a b →
    s.Awaits rest q p i a b ∨ (q = m ∧ ∀ c : Mask, v.node = .join p i c →
      a ∈ net.contentOf p → b ∈ net.contentOf i →
      (s.maskOf i).signature b = (s.maskOf p).signature a → a ++ c.signature b ∈ tuples)
  reached : ∀ R t, .deliver R ⟨.insert, t⟩ ∈ agenda →
    .deliver R ⟨.insert, t⟩ ∈ rest ∨ (R = .node m ∧ t ∈ more)
  passed : ∀ q e, .propagate q e ∈ agenda → .propagate q e ∈ rest

section
variable {m : NodeId} {v : Vertex} {n' : Node} {more : Multiset Tuple} {tuples : List Tuple}
  {base' : NodeId → Multiset Tuple} {agenda : Agenda}

namespace Gains
variable (g : Gains s net base base' fed out m v n' more tuples)
include g

theorem more_le : ∀ t ∈ more, t ∈ fedFrom base' out m v := by
  intro t ht
  cases hf : v.node.isFed with
  | true => exact (mem_fedFrom hf).2 (g.taken hf t ht)
  | false =>
    rw [fedFrom, if_neg (by simp [hf])]
    exact g.given hf ▸ ht

theorem base_le (q : NodeId) : ∀ t ∈ base q, t ∈ base' q := by
  by_cases hq : q = m
  · exact hq ▸ g.supplied
  · rw [g.others q hq]
    exact fun _ ht => ht

theorem output (F : Multiset Tuple) :
    n'.output s.maskOf F (net.reading { v with node := n' }) =
      v.node.output s.maskOf F (net.reading v) := by
  have reading : net.reading { v with node := n' } = net.reading v := by
    funext side
    rw [Network.reading, Network.reading,
      show Node.source _ side = _ from Node.source_of_bare_eq g.bare side]
  rw [reading]
  exact Node.output_of_bare_eq g.bare _ _

theorem join_of_eq {p i : IndexId} {c : Mask} (hn : n' = .join p i c) : v.node = .join p i c := by
  have hb := g.bare
  rw [hn] at hb
  cases hv : v.node <;> rw [hv] at hb <;> cases hb
  rfl

end Gains

theorem Leaves.joined (l : Leaves s net agenda rest m v more tuples)
    (h : Spreading s base net agenda fed out) (hv : net.vertices[m]? = some v) {new : Agenda}
    {q : NodeId} {u : Vertex} {p i : IndexId} {c : Mask} {a b : Tuple}
    (hu : net.vertices[q]? = some u) (hn : u.node = .join p i c) (ha : a ∈ net.contentOf p)
    (hb : b ∈ net.contentOf i) (hs : (s.maskOf i).signature b = (s.maskOf p).signature a) :
    a ++ c.signature b ∈ Function.update out m (out m + ↑tuples) q ∨
      s.Awaits (new ++ rest) q p i a b := by
  rcases h.joins q u p i c hu hn a ha b hb hs with ht | hw
  · exact .inl (mem_update_add.2 (.inl ht))
  · rcases l.joins q p i a b hw with hw | ⟨rfl, hm⟩
    · exact .inr (awaits_mono (fun _ _ _ _ hx => List.mem_append_right _ hx) hw)
    · cases hv.symm.trans hu
      exact .inl (mem_update_add.2 (.inr ⟨rfl, hm c hn ha hb hs⟩))

theorem Leaves.got (l : Leaves s net agenda rest m v more tuples)
    (h : Spreading s base net agenda fed out) (grown : ∀ t ∈ fed m, t ∈ more) {q : NodeId}
    {R : Receiver} {t : Tuple} (hR : R ∈ s.receiversOf q) (ht : t ∈ out q) :
    t ∈ net.got (Function.update fed m more) R ∨ .propagate q ⟨.insert, t⟩ ∈ rest ∨
      .deliver R ⟨.insert, t⟩ ∈ rest := by
  rcases h.reached q R hR t ht with hg | hp | hp
  · refine .inl ?_
    cases R with
    | index I => exact hg
    | node m' =>
      rw [Network.got]
      by_cases hm : m' = m
      · subst hm
        rw [Function.update_self]
        exact grown t hg
      · rw [Function.update_of_ne hm]
        exact hg
  · exact .inr (.inl (l.passed _ _ hp))
  · rcases l.reached R t hp with hp | ⟨rfl, hm⟩
    · exact .inr (.inr hp)
    · refine .inl ?_
      rw [Network.got, Function.update_self]
      exact hm

/-- A node that has been given more puts what it makes of it on the way to its receivers. -/
theorem setNode (pos : s.Positive) (h : Spreading s base net agenda fed out)
    (hv : net.vertices[m]? = some v) (g : Gains s net base base' fed out m v n' more tuples)
    (l : Leaves s net agenda rest m v more tuples) :
    Spreading s base' (net.setNode m n')
      (tuples.map (fun t => .propagate m ⟨.insert, t⟩) ++ rest) (Function.update fed m more)
      (Function.update out m (out m + ↑tuples)) := by
  have le : ∀ q, ∀ t ∈ out q, t ∈ Function.update out m (out m + ↑tuples) q := fun _ _ ht =>
    mem_update_add.2 (.inl ht)
  constructor
  case bare => exact (bare_setNode hv g.bare).trans h.bare
  case holds =>
    intro q u hu
    obtain ⟨rfl, rfl⟩ | ⟨hq, hu⟩ := vertex_setNode_cases hv hu
    · rw [Function.update_self]
      exact g.holds
    · rw [Function.update_of_ne hq]
      exact h.holds q u hu
  case given =>
    intro q u hu hf
    obtain ⟨rfl, rfl⟩ | ⟨hq, hu⟩ := vertex_setNode_cases hv hu
    · rw [Function.update_self]
      exact g.given ((Node.isFed_of_bare_eq g.bare).symm.trans hf)
    · rw [Function.update_of_ne hq, g.others q hq]
      exact h.given q u hu hf
  case taken =>
    intro q u hu hf t ht
    obtain ⟨rfl, rfl⟩ | ⟨hq, hu⟩ := vertex_setNode_cases hv hu
    · rw [Function.update_self] at ht
      have hf := (Node.isFed_of_bare_eq g.bare).symm.trans hf
      exact (g.taken hf t ht).imp fun p hp => ⟨hp.1, le p t hp.2⟩
    · rw [Function.update_of_ne hq] at ht
      exact (h.taken q u hu hf t ht).imp fun p hp => ⟨hp.1, le p t hp.2⟩
  case index =>
    exact fun I a ha => ⟨(h.index I a ha).1, fun t ht => le _ t ((h.index I a ha).2 t ht)⟩
  case width =>
    intro q u hu t ht
    obtain ⟨rfl, rfl⟩ | ⟨hq, hu⟩ := vertex_setNode_cases hv hu
    · exact (mem_update_add.1 ht).elim (h.width q v hv t) fun ht => g.width t ht.2
    · exact h.width q u hu t ((mem_update_add.1 ht).resolve_right fun e => hq e.1)
  case least =>
    intro M hM q t ht
    have below := h.least M (hM.of_le pos g.base_le)
    rcases mem_update_add.1 ht with hold | ⟨rfl, hnew⟩
    · exact below q t hold
    · exact h.mem_of_closed pos hM below hv g.more_le (h.reading_le v) (g.made t hnew)
  case made =>
    intro q u hu t ht
    obtain ⟨rfl, rfl⟩ | ⟨hq, hu⟩ := vertex_setNode_cases hv hu
    · rw [Function.update_self]
      refine (g.output more).symm ▸ ?_
      rcases mem_update_add.1 ht with ht | ⟨-, ht⟩
      · exact Node.output_mono (h.positive pos hv) g.grown (fun _ _ hm => hm) (h.made q v hv t ht)
      · exact g.made t ht
    · rw [Function.update_of_ne hq]
      exact h.made q u hu t ((mem_update_add.1 ht).resolve_right fun e => hq e.1)
  case makes =>
    intro q u hu hs t ht
    obtain ⟨rfl, rfl⟩ | ⟨hq, hu⟩ := vertex_setNode_cases hv hu
    · rw [Function.update_self] at ht ⊢
      have ht : t ∈ v.node.output s.maskOf more (net.reading v) := g.output more ▸ ht
      exact Multiset.mem_add.2 (g.makes ((Node.source_of_bare_eq g.bare _).symm.trans hs) t ht)
    · rw [Function.update_of_ne hq] at ht
      exact le q t (h.makes q u hu hs t ht)
  case joins =>
    intro q u p i c hu hn a ha b hb hs
    obtain ⟨rfl, rfl⟩ | ⟨-, hu⟩ := vertex_setNode_cases hv hu
    · exact l.joined h hv hv (g.join_of_eq hn) ha hb hs
    · exact l.joined h hv hu hn ha hb hs
  case reached =>
    intro q R hR t ht
    rcases mem_update_add.1 ht with hold | ⟨rfl, hnew⟩
    · exact (l.got h g.grown hR hold).imp_right
        (Or.imp (List.mem_append_right _) (List.mem_append_right _))
    · exact .inr (.inl (List.mem_append_left _ (List.mem_map.2 ⟨t, hnew, rfl⟩)))
  case due =>
    intro x hx
    rcases List.mem_append.1 hx with hx | hx
    · obtain ⟨t, ht, rfl⟩ := List.mem_map.1 hx
      exact ⟨rfl, mem_update_add.2 (.inr ⟨rfl, ht⟩)⟩
    · exact Due.mono (h.due x (l.left x hx)) (fun _ _ hu => hu) le

end

theorem exists_fits (w : s.Wired) {agenda : Agenda} (h : Spreading s base net agenda fed out)
    {m : NodeId} {v : Vertex} (hv : net.vertices[m]? = some v) (hf : v.node.isFed = true) :
    ∃ width, v.node.Fits s.maskOf width v.arity ∧ (∀ t ∈ fed m, t.length = width) ∧
      ∀ q, .node m ∈ s.receiversOf q → q ∈ v.parents ∧ ∀ t ∈ out q, t.length = width := by
  obtain ⟨width, hfits, hp⟩ := w.fits m _ (h.vertex hv)
  have hf' : v.bare.node.isFed = true := (Node.isFed_bare _).trans hf
  have lengths : ∀ p ∈ v.parents, ∀ t ∈ out p, t.length = width := by
    intro p hpar t ht
    obtain ⟨u, hu⟩ := h.vertex_of_mem ht
    have hw := hp hf' p hpar
    rw [widthOf, h.vertex hu] at hw
    exact (h.width p u hu t ht).trans hw
  refine ⟨width, (Node.fits_bare _).1 hfits, fun t ht => ?_, fun q hq => ?_⟩
  · obtain ⟨p, hpar, hm⟩ := h.taken m v hv hf t ht
    exact lengths p hpar t hm
  · have hpar : q ∈ v.parents := (w.mem_receiversOf_node (h.vertex hv) hf').1 hq
    exact ⟨hpar, lengths q hpar⟩

/-- What a node makes besides is closer to its end on the way out than the delivery it came from. Only
a production is no further on, and it makes nothing that it has put out before. -/
theorem closer_or_fresh {agenda : Agenda} (h : Spreading s base net agenda fed out) {m : NodeId}
    {v : Vertex} (hv : net.vertices[m]? = some v) {e : Event} {more : Multiset Tuple}
    {tuples : List Tuple} (hadd : v.node.output s.maskOf more (net.reading v) =
      v.node.output s.maskOf (fed m) (net.reading v) + ↑tuples) :
    (∀ t ∈ tuples, s.rank (.propagate m ⟨.insert, t⟩) < s.rank (.deliver (.node m) e)) ∨
      ∃ t ∈ tuples, t ∉ out m := by
  by_cases hprod : v.node.isProduction = true
  · have nodup := Node.nodup_output_of_isProduction hprod s.maskOf more (net.reading v)
    rw [hadd] at nodup
    have apart := (Multiset.nodup_add.1 nodup).2.2
    cases tuples with
    | nil => exact .inl fun _ hm => by cases hm
    | cons t tuples =>
      refine .inr ⟨t, by simp, fun hout => ?_⟩
      exact Multiset.disjoint_left.1 apart (h.made m v hv t hout) (by simp)
  · refine .inl fun t _ => ?_
    have hbareprod : ¬v.bare.node.isProduction = true := fun hx =>
      hprod ((Node.isProduction_bare _).symm.trans hx)
    rw [rank_deliver (h.vertex hv), if_neg hbareprod, rank]
    exact Nat.lt_succ_self _

/-- A tuple delivered to a node is there, and what the node makes of it is on its way. -/
theorem deliver_node {m : NodeId} {e : Event} (w : s.Wired) (pos : s.Positive)
    (h : Spreading s base net (.deliver (.node m) e :: rest) fed out) :
    s.Advances base net (.deliver (.node m) e) rest out := by
  obtain ⟨hd, q, hR, ht⟩ : e.direction = .insert ∧
    ∃ q, Receiver.node m ∈ s.receiversOf q ∧ e.tuple ∈ out q :=
      h.due (.deliver (.node m) e) (by simp)
  obtain ⟨v₀, hv₀, hf⟩ := w.fed q m hR
  obtain ⟨v, hv, rfl⟩ := h.exists_vertex hv₀
  have hf : v.node.isFed = true := (Node.isFed_bare _).symm.trans hf
  obtain ⟨width, hfits, hwidth, source⟩ := h.exists_fits w hv hf
  obtain ⟨hpar, hlen⟩ := source q hR
  have hs : e.Suits width False (fed m) :=
    ⟨hlen _ ht, fun _ hx => hx.elim, fun hr => by rw [hd] at hr; cases hr⟩
  obtain ⟨reply, hreply, hbare, hholds, hleads, -⟩ :=
    Node.receive_replies s.uniqueOf hs hwidth (fun hx => hx.elim) hf hfits (h.holds m v hv)
  have inserts := Node.receive_direction hs hfits (h.holds m v hv) hreply hd
  obtain ⟨hadd, hlength⟩ := hleads.eq_add inserts
  have noSource : v.node.source .primary = none := Node.source_of_isFed hf _
  have any : ∀ fed' view, v.node.output s.maskOf fed' view =
      v.node.output s.maskOf fed' fun _ => 0 := fun _ _ =>
    Node.output_of_source_eq_none (h.positive pos hv) noSource
  rw [Event.apply_of_insert hd, Event.rest_of_insert hd] at hadd hholds
  obtain ⟨tuples, htuples⟩ : ∃ l, l = reply.out.map Event.tuple := ⟨_, rfl⟩
  rw [← htuples] at hadd
  have gains : Gains s net base base fed out m v reply.node (e.tuple ::ₘ fed m) tuples := {
    bare := hbare
    holds := hholds
    others := fun _ _ => rfl
    grown := fun t hm => Multiset.mem_cons_of_mem hm
    supplied := fun _ hm => hm
    given := fun hx => by rw [hf] at hx; cases hx
    taken := fun _ t hm => by
      rcases Multiset.mem_cons.1 hm with rfl | hm
      · exact ⟨q, hpar, ht⟩
      · exact h.taken m v hv hf t hm
    width := fun t hm => by
      rw [htuples] at hm
      obtain ⟨x, hx, rfl⟩ := List.mem_map.1 hm
      exact hlength x hx
    made := fun t hm => by
      rw [any, hadd]
      exact Multiset.mem_add.2 (.inr hm)
    makes := fun _ t hm => by
      rw [any, hadd] at hm
      refine (Multiset.mem_add.1 hm).imp (fun hm => ?_) id
      rw [← any] at hm
      exact h.makes m v hv noSource t hm }
  have leaves : Leaves s net (.deliver (.node m) e :: rest) rest m v (e.tuple ::ₘ fed m) tuples := {
    left := fun _ hx => List.mem_cons_of_mem _ hx
    joins := fun q' p i a b hw => .inl (awaits_mono (fun _ _ _ _ hm => by simpa using hm) hw)
    reached := fun R t he => by
      refine (List.mem_cons.1 he).symm.imp_right fun e => ?_
      cases e
      exact ⟨rfl, Multiset.mem_cons_self _ _⟩
    passed := fun _ _ he => by simpa using he }
  have spreading := h.setNode pos hv gains leaves
  have tasks : reply.out.map (Task.propagate m) =
      tuples.map fun t => .propagate m ⟨.insert, t⟩ := by
    rw [htuples, List.map_map]
    refine List.map_congr_left fun x hx => ?_
    obtain ⟨d, t⟩ := x
    obtain rfl : d = .insert := inserts _ hx
    rfl
  have hadd' : v.node.output s.maskOf (e.tuple ::ₘ fed m) (net.reading v) =
      v.node.output s.maskOf (fed m) (net.reading v) + ↑tuples := by
    rw [any, hadd, ← any _ (net.reading v)]
  refine ⟨_, _, _, _, step_deliver_node hv hreply,
    tasks ▸ spreading.of_eq bare_answered vertices_answered arrangements_answered,
    fun p u hu => mem_update_add.2 (.inl hu), ?_⟩
  rcases h.closer_or_fresh hv hadd' with closer | ⟨t, hm, hout⟩
  · refine .inl fun x hx => ?_
    rw [tasks] at hx
    obtain ⟨t, hm, rfl⟩ := List.mem_map.1 hx
    exact closer t hm
  · exact .inr ⟨m, t, hout, mem_update_add.2 (.inr ⟨rfl, hm⟩)⟩

theorem mem_contentOf_setIndex {I J : IndexId} {a : Arrangement} {ix : Index} {t u : Tuple}
    (ha : net.arrangements[I]? = some a) (hc : ix.content = t ::ₘ a.index.content) :
    u ∈ (net.setIndex I ix).contentOf J ↔ u ∈ net.contentOf J ∨ (I = J ∧ u = t) := by
  rw [contentOf_setIndex ha]
  by_cases hJ : I = J
  · subst hJ
    rw [if_pos rfl, hc, contentOf_eq ha, Multiset.mem_cons, eq_self, true_and, or_comm]
  · rw [if_neg hJ, eq_false hJ, false_and, or_false]

theorem arrangements_setIndex_self {I : IndexId} {a : Arrangement}
    (ha : net.arrangements[I]? = some a) :
    (net.setIndex I a.index).arrangements = net.arrangements := by
  refine Array.ext_getElem? fun J => ?_
  rw [arrangements_setIndex]
  split
  · next e =>
    subst e
    rw [ha]
    rfl
  · rfl

section taking
variable {I : IndexId} {a : Arrangement} {ix : Index} {t : Tuple} {c : IndexChange}
  (ha : net.arrangements[I]? = some a) (hc : ix.content = t ::ₘ a.index.content)
include ha hc

theorem mem_reading_setIndex {v : Vertex} {side : Side} {u : Tuple} (hu : u ∈ net.reading v side) :
    u ∈ (net.setIndex I ix).reading v side := by
  cases hn : v.node.source side with
  | none => simp [Network.reading, hn] at hu
  | some J =>
    rw [reading_of_source hn] at hu ⊢
    exact (mem_contentOf_setIndex ha hc).2 (.inl hu)

variable (w : s.Wired) (h : Spreading s base net (.deliver (.index I) ⟨.insert, t⟩ :: rest) fed out)
  (hsig : c.signature = a.index.mask.signature t)
include w h hsig

theorem joined_setIndex {q : NodeId} {v : Vertex} {p i : IndexId} {k : Mask}
    (hv : net.vertices[q]? = some v) (hn : v.node = .join p i k) {x y : Tuple}
    (hx : x ∈ (net.setIndex I ix).contentOf p) (hy : y ∈ (net.setIndex I ix).contentOf i)
    (hxy : (s.maskOf i).signature y = (s.maskOf p).signature x) :
    x ++ k.signature y ∈ out q ∨ s.Awaits
      ((s.listenersOf I).map (fun l => .notify l.1 l.2 ⟨.insert, t⟩ c) ++ rest) q p i x y := by
  rw [← h.mask ha] at hsig
  have listens : ∀ side J, v.node.source side = some J → (q, side) ∈ s.listenersOf J :=
    fun side J hJ => (w.listens q side J).2
      ⟨_, h.vertex hv, (Node.source_bare v.node side).trans hJ⟩
  have told : ∀ side, (q, side) ∈ s.listenersOf I → Task.notify q side ⟨.insert, t⟩ c ∈
      (s.listenersOf I).map (fun l => Task.notify l.1 l.2 ⟨.insert, t⟩ c) ++ rest :=
    fun side hm => List.mem_append_left _ (List.mem_map.2 ⟨_, hm, rfl⟩)
  by_cases hlast : I = i ∧ y = t
  · obtain ⟨rfl, rfl⟩ := hlast
    refine .inr ⟨c, hsig.trans hxy, .inr (told _ (listens .secondary I ?_))⟩
    rw [hn]
    rfl
  · have hy' := ((mem_contentOf_setIndex ha hc).1 hy).resolve_right hlast
    rcases (mem_contentOf_setIndex ha hc).1 hx with hx' | ⟨rfl, rfl⟩
    · exact (h.joins q v p i k hv hn x hx' y hy' hxy).imp_right (awaits_mono fun _ _ _ _ hm =>
        List.mem_append_right _ (by simpa using hm))
    · refine .inr ⟨c, hsig, .inl ⟨told _ (listens .primary I ?_), ?_⟩⟩
      · rw [hn]
        rfl
      · rintro rfl rfl
        exact hlast ⟨rfl, rfl⟩

/-- An index that has taken a tuple in has its listeners told of it. -/
theorem setIndex (pos : s.Positive) (ht : t ∈ out a.parent) (hb : ix.bare = a.index.bare)
    (hs : ix.Sound) :
    Spreading s base (net.setIndex I ix)
      ((s.listenersOf I).map (fun l => .notify l.1 l.2 ⟨.insert, t⟩ c) ++ rest) fed out := by
  have grown : ∀ J, ∀ u ∈ net.contentOf J, u ∈ (net.setIndex I ix).contentOf J := fun J u hu =>
    (mem_contentOf_setIndex ha hc).2 (.inl hu)
  have taken : t ∈ (net.setIndex I ix).contentOf I := (mem_contentOf_setIndex ha hc).2 (.inr ⟨rfl, rfl⟩)
  constructor
  case bare => exact (bare_setIndex ha hb).trans h.bare
  case holds => exact h.holds
  case given => exact h.given
  case taken => exact h.taken
  case width => exact h.width
  case least => exact h.least
  case index =>
    intro J b hJ
    rw [arrangements_setIndex] at hJ
    by_cases e : I = J
    · subst e
      rw [if_pos rfl, ha] at hJ
      cases hJ
      refine ⟨hs, fun u hu => ?_⟩
      rw [hc] at hu
      rcases Multiset.mem_cons.1 hu with rfl | hu
      · exact ht
      · exact (h.index I a ha).2 u hu
    · rw [if_neg e] at hJ
      exact h.index J b hJ
  case made =>
    exact fun q v hv u hu => Node.output_mono (h.positive pos hv) (fun _ hm => hm)
      (fun _ _ => mem_reading_setIndex ha hc) (h.made q v hv u hu)
  case makes =>
    intro q v hv hn u hu
    refine h.makes q v hv hn u ?_
    rw [Node.output_of_source_eq_none (h.positive pos hv) hn]
    exact hu
  case joins =>
    exact fun q v p i k hv hn x hx y hy hxy => joined_setIndex ha hc w h hsig hv hn hx hy hxy
  case reached =>
    intro q R hR u hu
    rcases h.reached q R hR u hu with hg | hp | hp
    · refine .inl ?_
      cases R with
      | node m => exact hg
      | index J => exact grown J u hg
    · exact .inr (.inl (List.mem_append_right _ (by simpa using hp)))
    · rcases List.mem_cons.1 hp with e | hp
      · cases e
        exact .inl taken
      · exact .inr (.inr (List.mem_append_right _ hp))
  case due =>
    intro x hx
    rcases List.mem_append.1 hx with hx | hx
    · obtain ⟨l, hl, rfl⟩ := List.mem_map.1 hx
      exact ⟨rfl, I, hl, taken, hsig.trans (by rw [h.mask ha])⟩
    · exact Due.mono (h.due x (by simp [hx])) grown fun _ _ hu => hu

end taking

/-- A tuple delivered to an index is in it, and its listeners are to be told if it was taken in. -/
theorem deliver_index {I : IndexId} {e : Event} (w : s.Wired) (pos : s.Positive)
    (h : Spreading s base net (.deliver (.index I) e :: rest) fed out) :
    s.Advances base net (.deliver (.index I) e) rest out := by
  obtain ⟨hd, q, hR, ht⟩ : e.direction = .insert ∧
    ∃ q, Receiver.index I ∈ s.receiversOf q ∧ e.tuple ∈ out q :=
      h.due (.deliver (.index I) e) (by simp)
  obtain ⟨d, t⟩ := e
  cases hd
  obtain ⟨b, hb⟩ := w.indexed q I hR
  obtain ⟨a, ha, rfl⟩ := h.exists_arrangement hb
  obtain rfl : q = a.parent := (w.mem_receiversOf_index hb).1 hR
  obtain ⟨v, hv⟩ := h.vertex_of_mem ht
  have hwidth : t.length = a.index.mask.width := by
    have hw := w.width I _ hb
    rw [show a.bare.parent = a.parent from rfl, widthOf, h.vertex hv] at hw
    exact (h.width _ v hv t ht).trans hw.symm
  have hlisteners : s.listenersOf I = a.listeners := by
    rw [listenersOf, hb]
    rfl
  by_cases hheld : a.index.unique = true ∧ t ∈ a.index.content
  · have step : net.step (.deliver (.index I) ⟨.insert, t⟩) = .ok ((net.setIndex I a.index).report
        (.duplicateInsert a.index.name t), []) := by
      rw [Network.step, deliverToIndex, Network.arrangement, ha]
      simp only [bind, Except.bind, Index.update,
        (h.index I a ha).1.insert_of_mem hheld.1 hheld.2]
      rfl
    have spreading : Spreading s base net rest fed out := by
      refine ⟨h.bare, h.holds, h.given, h.taken, h.index, h.width, h.least, h.made, h.makes, ?_, ?_,
        fun x hx => h.due x (by simp [hx])⟩
      · intro q v p i k hv hn x hx y hy hxy
        exact (h.joins q v p i k hv hn x hx y hy hxy).imp_right (awaits_mono fun _ _ _ _ hm => by
          simpa using hm)
      · intro q R hR u hu
        rcases h.reached q R hR u hu with hg | hp | hp
        · exact .inl hg
        · exact .inr (.inl (by simpa using hp))
        · rcases List.mem_cons.1 hp with e | hp
          · cases e
            refine .inl ?_
            rw [got, contentOf_eq ha]
            exact hheld.2
          · exact .inr (.inr hp)
    exact ⟨_, [], fed, out, step, spreading.of_eq (bare_setIndex ha rfl) rfl
      (arrangements_setIndex_self ha), fun _ _ hu => hu, .inl (by simp)⟩
  · obtain ⟨ix', transition, hup, hsound, hbare, hcont, -⟩ :=
      (h.index I a ha).1.insert hwidth fun hu hm => hheld ⟨hu, hm⟩
    have step : net.step (.deliver (.index I) ⟨.insert, t⟩) = .ok (net.setIndex I ix',
        (s.listenersOf I).map fun l => .notify l.1 l.2 ⟨.insert, t⟩
          ⟨a.index.mask.signature t, transition⟩) := by
      rw [Network.step, deliverToIndex, Network.arrangement, ha, hlisteners]
      simp only [bind, Except.bind, Index.update, hup]
      rfl
    refine ⟨_, _, fed, out, step, setIndex ha hcont w h rfl pos ht hbare hsound, fun _ _ hu => hu,
      .inl fun x hx => ?_⟩
    obtain ⟨l, hl, rfl⟩ := List.mem_map.1 hx
    have hlt : a.parent < s.vertices.size := (Array.getElem?_eq_some_iff.1 (h.vertex hv)).1
    have hforward := pos.forward I l hl
    rw [parentOf_eq hb] at hforward
    rw [rank, rank, parentOf_eq hb]
    exact lt_of_earlier hlt hforward

theorem consult {agenda : Agenda} (h : Spreading s base net agenda fed out) {J : IndexId}
    {b : Arrangement} (hb : net.arrangements[J]? = some b) (sig : Tuple) :
    ∃ net' bucket, net.consult (some J) sig = .ok (net', bucket) ∧
      net'.vertices = net.vertices ∧ net'.contentOf = net.contentOf ∧
      Spreading s base net' agenda fed out ∧
      Finds bucket (group (s.maskOf J) (net.contentOf J) sig) := by
  have content : (net.setIndex J (b.index.probe sig).1).contentOf = net.contentOf := by
    funext I
    rw [contentOf_setIndex hb]
    split
    · next e => rw [← e, contentOf_eq hb, Index.content_probe]
    · rfl
  refine ⟨net.setIndex J (b.index.probe sig).1, b.index.bucket? sig, ?_, rfl, content,
    h.congr (bare_setIndex hb (Index.bare_probe _ _)) rfl content fun I a ha => ?_, ?_⟩
  · rw [Network.consult, Network.index, Network.arrangement, hb]
    rfl
  · rw [arrangements_setIndex] at ha
    split at ha
    · next e =>
      subst e
      rw [hb] at ha
      cases ha
      exact (h.index J b hb).1.probe sig
    · exact (h.index I a ha).1
  · rw [h.mask hb, contentOf_eq hb]
    exact (h.index J b hb).1.finds sig

structure Pairs (s net : Network) (p i : IndexId) (k : Mask) (side : Side) (t : Tuple)
    (tuples : List Tuple) : Prop where
  sound : ∀ u ∈ tuples, ∃ a ∈ net.contentOf p, ∃ b ∈ net.contentOf i,
    (s.maskOf i).signature b = (s.maskOf p).signature a ∧ a ++ k.signature b = u
  primary : side = .primary → ∀ b ∈ net.contentOf i,
    (s.maskOf i).signature b = (s.maskOf p).signature t → (p = i → t ≠ b) →
      t ++ k.signature b ∈ tuples
  secondary : side = .secondary → ∀ a ∈ net.contentOf p,
    (s.maskOf i).signature t = (s.maskOf p).signature a → a ++ k.signature t ∈ tuples

section pairs
variable {agenda : Agenda} {m : NodeId} {v : Vertex} {p i : IndexId} {k : Mask} {t : Tuple}
  {c : IndexChange}

section step
variable (w : s.Wired) (h : Spreading s base net agenda fed out) (hv : net.vertices[m]? = some v)
  (hn : v.node = .join p i k)
include w h hv

theorem arrangement_of_source {side : Side} {J : IndexId} (hJ : v.node.source side = some J) :
    ∃ b, net.arrangements[J]? = some b := by
  obtain ⟨b, hb⟩ := w.exists_arrangement (h.vertex hv) ((Node.source_bare v.node side).trans hJ)
  exact (h.exists_arrangement hb).imp fun _ ha => ha.1

omit w hv in
theorem length_of_mem_content {J : IndexId} {u : Tuple} (hu : u ∈ net.contentOf J) :
    u.length = (s.maskOf J).width := by
  obtain ⟨b, hb, hm, -⟩ := h.mem_content hu
  rw [h.mask hb]
  exact (h.index J b hb).1.width hm

include hn

theorem complement_of_join : k = (s.maskOf i).complement := by
  obtain ⟨width, hfits, -⟩ := w.fits m _ (h.vertex hv)
  rw [show v.bare.node = v.node.bare from rfl, hn] at hfits
  exact hfits.1

theorem notify_primary (ht : t ∈ net.contentOf p) (hsig : c.signature = (s.maskOf p).signature t) :
    ∃ net' tuples, net.step (.notify m .primary ⟨.insert, t⟩ c) = .ok (net'.setNode m v.node,
        tuples.map fun u => .propagate m ⟨.insert, u⟩) ∧
      net'.vertices = net.vertices ∧ Spreading s base net' agenda fed out ∧
      Pairs s net' p i k .primary t tuples := by
  have source : v.node.source .secondary = some i := by rw [hn]; rfl
  obtain ⟨b, hb⟩ := arrangement_of_source w h hv source
  obtain ⟨net', bucket, hconsult, hvertices, hcontent, h', hfinds⟩ := h.consult hb c.signature
  rw [hsig, ← hcontent] at hfinds
  rw [← hcontent] at ht
  have found : ∀ u ∈ Node.previousView bucket (decide (p = i)) ⟨.insert, t⟩,
      u ∈ net'.contentOf i ∧ (s.maskOf i).signature u = (s.maskOf p).signature t := fun u hu =>
    mem_group.1 (Node.mem_of_mem_previousView hfinds hu)
  refine ⟨net', (Node.previousView bucket (decide (p = i)) ⟨.insert, t⟩).map fun u =>
    t ++ k.signature u, ?_, hvertices, h', ⟨?_, ?_, by simp⟩⟩
  · have hconsults : v.node.consults .primary c = some i := by rw [hn]; rfl
    have hrespond : v.node.respond .primary ⟨.insert, t⟩ c bucket = .ok (v.node,
        ((Node.previousView bucket (decide (p = i)) ⟨.insert, t⟩).map fun u =>
          t ++ k.signature u).map (Event.mk .insert)) := by
      rw [hn, Node.respond, Node.respondJoin, Node.mapM_combine_right .insert fun u hu => by
        rw [complement_of_join w h hv hn]
        exact length_of_mem_content h' (found u hu).1]
      rfl
    rw [step_notify hv (hconsults ▸ hconsult) hrespond, List.map_map]
    rfl
  · intro u hu
    obtain ⟨b, hb, rfl⟩ := List.mem_map.1 hu
    exact ⟨t, ht, b, (found b hb).1, (found b hb).2, rfl⟩
  · intro _ b hb hsb hne
    refine List.mem_map.2 ⟨b, Node.mem_previousView hfinds (mem_group.2 ⟨hb, hsb⟩) ?_, rfl⟩
    exact fun hp => hne (of_decide_eq_true hp)

theorem notify_secondary (ht : t ∈ net.contentOf i)
    (hsig : c.signature = (s.maskOf i).signature t) :
    ∃ net' tuples, net.step (.notify m .secondary ⟨.insert, t⟩ c) = .ok (net'.setNode m v.node,
        tuples.map fun u => .propagate m ⟨.insert, u⟩) ∧
      net'.vertices = net.vertices ∧ Spreading s base net' agenda fed out ∧
      Pairs s net' p i k .secondary t tuples := by
  have source : v.node.source .primary = some p := by rw [hn]; rfl
  obtain ⟨b, hb⟩ := arrangement_of_source w h hv source
  obtain ⟨net', bucket, hconsult, hvertices, hcontent, h', hfinds⟩ := h.consult hb c.signature
  rw [hsig, ← hcontent] at hfinds
  rw [← hcontent] at ht
  have found : ∀ u, u ∈ (bucket.getD ∅).items ↔ u ∈ net'.contentOf p ∧
      (s.maskOf p).signature u = (s.maskOf i).signature t := fun u => by
    rw [Bag.mem_items, hfinds.tuples, mem_group]
  refine ⟨net', (bucket.getD ∅).items.map fun u => u ++ k.signature t, ?_, hvertices, h',
    ⟨?_, by simp, ?_⟩⟩
  · have hconsults : v.node.consults .secondary c = some p := by rw [hn]; rfl
    have hrespond : v.node.respond .secondary ⟨.insert, t⟩ c bucket = .ok (v.node,
        ((bucket.getD ∅).items.map fun u => u ++ k.signature t).map (Event.mk .insert)) := by
      rw [hn, Node.respond, Node.respondJoin, Node.mapM_combine_left _ .insert (by
        rw [complement_of_join w h hv hn]
        exact length_of_mem_content h' ht)]
      rfl
    rw [step_notify hv (hconsults ▸ hconsult) hrespond, List.map_map]
    rfl
  · intro u hu
    obtain ⟨a, ha, rfl⟩ := List.mem_map.1 hu
    obtain ⟨hm, hsa⟩ := (found a).1 ha
    exact ⟨a, hm, t, ht, hsa.symm, rfl⟩
  · intro _ a ha hsa
    exact List.mem_map.2 ⟨a, (found a).2 ⟨ha, hsa.symm⟩, rfl⟩

theorem notify_step {side : Side} {I : IndexId} (hs : v.node.source side = some I)
    (ht : t ∈ net.contentOf I) (hsig : c.signature = (s.maskOf I).signature t) :
    ∃ net' tuples, net.step (.notify m side ⟨.insert, t⟩ c) = .ok (net'.setNode m v.node,
        tuples.map fun u => .propagate m ⟨.insert, u⟩) ∧
      net'.vertices = net.vertices ∧ Spreading s base net' agenda fed out ∧
      Pairs s net' p i k side t tuples := by
  rw [hn] at hs
  cases side with
  | primary =>
    obtain rfl : p = I := Option.some.inj hs
    exact notify_primary w h hv hn ht hsig
  | secondary =>
    obtain rfl : i = I := Option.some.inj hs
    exact notify_secondary w h hv hn ht hsig

end step

/-- The pairs that a notice is about are in the answer to it, and no others are awaited any less. -/
theorem Pairs.leaves {side : Side} {tuples : List Tuple} {more : Multiset Tuple}
    (pairs : Pairs s net p i k side t tuples) (hn : v.node = .join p i k) :
    Leaves s net (.notify m side ⟨.insert, t⟩ c :: rest) rest m v more tuples where
  left _ hx := List.mem_cons_of_mem _ hx
  reached _ _ he := .inl (by simpa using he)
  passed _ _ he := by simpa using he
  joins q p' i' a b hw := by
    obtain ⟨c', hc', hm⟩ := hw
    by_cases hrest : s.Awaits rest q p' i' a b
    · exact .inl hrest
    have htask : (Task.notify q .primary ⟨.insert, a⟩ c' = .notify m side ⟨.insert, t⟩ c ∧
        (p' = i' → a ≠ b)) ∨
        Task.notify q .secondary ⟨.insert, b⟩ c' = .notify m side ⟨.insert, t⟩ c := by
      refine hm.imp (fun hp => ⟨?_, hp.2⟩) fun hp => ?_
      · exact (List.mem_cons.1 hp.1).resolve_right fun hx => hrest ⟨c', hc', .inl ⟨hx, hp.2⟩⟩
      · exact (List.mem_cons.1 hp).resolve_right fun hx => hrest ⟨c', hc', .inr hx⟩
    rcases htask with ⟨he, hne⟩ | he
    · cases he
      refine .inr ⟨rfl, fun k' hk' ha hb hab => ?_⟩
      cases hn.symm.trans hk'
      exact pairs.primary rfl b hb hab hne
    · cases he
      refine .inr ⟨rfl, fun k' hk' ha hb hab => ?_⟩
      cases hn.symm.trans hk'
      exact pairs.secondary rfl a ha hab

theorem Pairs.made {side : Side} {tuples : List Tuple} (pairs : Pairs s net p i k side t tuples)
    (hn : v.node = .join p i k) (F : Multiset Tuple) :
    ∀ u ∈ tuples, u ∈ v.node.output s.maskOf F (net.reading v) := by
  intro u hu
  rw [hn]
  refine mem_naturalJoin.2 ?_
  rw [reading_of_source (I := p) (by rw [hn]; rfl), reading_of_source (I := i) (by rw [hn]; rfl)]
  exact pairs.sound u hu

end pairs

/-- A join that has been told of a tuple puts the pairs of the tuple on the way to its receivers. -/
theorem notify {m : NodeId} {side : Side} {e : Event} {c : IndexChange} (w : s.Wired)
    (pos : s.Positive) (h : Spreading s base net (.notify m side e c :: rest) fed out) :
    s.Advances base net (.notify m side e c) rest out := by
  obtain ⟨hd, I, hl, ht, hsig⟩ : e.direction = .insert ∧ ∃ I, (m, side) ∈ s.listenersOf I ∧
    e.tuple ∈ net.contentOf I ∧ c.signature = (s.maskOf I).signature e.tuple :=
      h.due (.notify m side e c) (by simp)
  obtain ⟨d, t⟩ := e
  cases hd
  obtain ⟨v₀, hv₀, hs⟩ := (w.listens m side I).1 hl
  obtain ⟨v, hv, rfl⟩ := h.exists_vertex hv₀
  replace hs : v.node.source side = some I := (Node.source_bare v.node side).symm.trans hs
  obtain ⟨p, i, k, hn⟩ := Node.eq_join_of_source (h.positive pos hv) hs
  obtain ⟨net', tuples, step, hvertices, h', pairs⟩ := notify_step w h hv hn hs ht hsig
  have hv' : net'.vertices[m]? = some v := hvertices ▸ hv
  have made := pairs.made hn (fed m)
  have width : ∀ u ∈ tuples, u.length = v.arity := by
    intro u hu
    obtain ⟨width, hfits, -⟩ := w.fits m _ (h.vertex hv)
    refine Node.length_of_mem_output ((Node.fits_bare _).1 hfits) (fun hf => ?_)
      (fun sd J hJ t ht => ?_) u (made u hu)
    · rw [hn] at hf
      rcases hf with hf | hf <;> cases hf
    · rw [reading_of_source hJ] at ht
      exact length_of_mem_content h' ht
  have gains : Gains s net' base base fed out m v v.node (fed m) tuples := {
    bare := rfl
    holds := h.holds m v hv
    others := fun _ _ => rfl
    grown := fun _ hm => hm
    supplied := fun _ hm => hm
    given := h.given m v hv
    taken := h.taken m v hv
    width
    made
    makes := fun hx => by
      rw [hn] at hx
      cases hx }
  refine ⟨_, _, _, _, step, h'.setNode pos hv' gains (pairs.leaves hn),
    fun q u hu => mem_update_add.2 (.inl hu), .inl fun x hx => ?_⟩
  obtain ⟨u, -, rfl⟩ := List.mem_map.1 hx
  exact Nat.lt_succ_self _

theorem advances {task : Task} (w : s.Wired) (pos : s.Positive)
    (h : Spreading s base net (task :: rest) fed out) : s.Advances base net task rest out := by
  cases task with
  | propagate q e => exact h.propagate w
  | deliver R e =>
    cases R with
    | node m => exact h.deliver_node w pos
    | index I => exact h.deliver_index w pos
  | notify m side e c => exact h.notify w pos

end Spreading
end Network
end Motif
