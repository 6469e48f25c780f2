import Motif.Proofs.Network.Requests

set_option autoImplicit false
namespace Motif

open Std (ExtTreeMap)

namespace Network
variable {net : Network}

variable (net) in
theorem fill_eq {ix : Index} (rows : List Tuple) (hs : ix.Sound)
    (hw : ∀ t ∈ rows, t.length = ix.mask.width)
    (hn : ix.unique = true → (ix.content + ↑rows).Nodup) :
    ∃ ix', net.fill ix rows = .ok (net, ix') ∧ ix'.Sound ∧ ix'.bare = ix.bare ∧
      ix'.content = ix.content + ↑rows := by
  induction rows generalizing ix with
  | nil => exact ⟨ix, rfl, hs, rfl, by simp⟩
  | cons t rest ih =>
    have split : ix.content + ↑(t :: rest) = t ::ₘ ix.content + (↑rest : Multiset Tuple) := by
      rw [← Multiset.cons_coe, Multiset.add_cons, Multiset.cons_add]
    have suits : (⟨.insert, t⟩ : Event).Suits ix.mask.width (ix.unique = true) ix.content := by
      refine Event.suits_insert.2 ⟨hw t (by simp), fun hu hm => ?_⟩
      have := hn hu
      rw [split, Multiset.cons_add, Multiset.nodup_cons] at this
      exact this.1 (Multiset.mem_add.2 (.inl hm))
    obtain ⟨ix₁, transition, hupdate, hs₁, hb₁, hc₁, -⟩ := hs.update suits
    have hmask := Index.mask_eq_of_bare_eq hb₁
    have hunique := Index.unique_eq_of_bare_eq hb₁
    rw [Event.apply_insert] at hc₁
    obtain ⟨ix', hfill, hs', hb', hc'⟩ := ih hs₁ (fun u hu => hmask ▸ hw u (by simp [hu]))
      fun hu => by
        rw [hc₁, ← split]
        exact hn (hunique ▸ hu)
    have hinsert : ix.insert t = .ok (ix₁, .ok ⟨ix.mask.signature t, transition⟩) := hupdate
    refine ⟨ix', ?_, hs', hb'.trans hb₁, ?_⟩
    · rw [fill, hinsert]
      exact hfill
    · rw [hc', hc₁, split]

theorem Indexed.feeds_iff {net' : Network} {a : Arrangement} (x : Indexed net net' a)
    (hp : a.parent < net.vertices.size) (hl : a.listeners = []) {q n : NodeId} :
    net'.Feeds q n ↔ net.Feeds q n := by
  have hr : ∀ R, R ∈ net'.receiversOf q ↔ R ∈ net.receiversOf q ∨
      q = a.parent ∧ R = .index net.arrangements.size := by
    intro R
    rw [x.receiversOf hp, List.mem_append]
    split <;> simp_all
  have hnone : ∀ side, (n, side) ∉ net.listenersOf net.arrangements.size := by
    intro side hm
    rw [Network.listenersOf, Array.getElem?_eq_none (Nat.le_refl _)] at hm
    cases hm
  simp only [Feeds, hr, x.listenersOf hl, reduceCtorEq, and_false, or_false, Receiver.index.injEq]
  apply or_congr_right
  constructor
  · rintro ⟨I, side, hI | ⟨-, rfl⟩, h⟩
    · exact ⟨I, side, hI, h⟩
    · exact absurd h (hnone side)
  · rintro ⟨I, side, hI, h⟩
    exact ⟨I, side, .inl hI, h⟩

theorem index_shape {net' : Network} {a : Arrangement} (x : Indexed net net' a) :
    net'.HasIndex net.arrangements.size a.parent a.index.mask := ⟨a, x.fresh, rfl, rfl⟩

theorem indexed_push {p : NodeId} {mask : Mask} {ix : Index} (hm : ix.mask = mask) :
    Indexed net (({ net with
      arrangements := net.arrangements.push { parent := p, index := ix }
      arranged := net.arranged.set (p, mask) net.arrangements.size } : Network).addReceiver p
        (.index net.arrangements.size)) { parent := p, index := ix } where
  vertex q := by
    rw [vertices_addReceiver]
    by_cases h : p = q
    · simp [h]
    · simp [h, Ne.symm h]
  fresh := (Array.getElem?_push).trans (if_pos rfl)
  old I hI := (Array.getElem?_push).trans (if_neg hI)
  arranged := by rw [← hm]; rfl
  inputs := rfl

theorem exists_indexFor (w : net.Wired) {p : NodeId} (hp : p < net.vertices.size) {mask : Mask}
    (hold : net.arranged.get? (p, mask) = none) {rows : List Tuple} (hpull : net.pull p = .ok rows) :
    ∃ ix₀ : Index, ix₀.buckets = ∅ ∧ ix₀.mask = mask ∧
      (∃ (n : Node) (rest : String), ix₀.name = n.kindName ++ rest) ∧
      (ix₀.unique = true → net.Flat p) ∧
      ∀ issues ix, net.fill ix₀ rows = .ok ({ net with issues }, ix) → ix.mask = mask →
        ∃ net', net.indexFor p mask = .ok (net', net.arrangements.size) ∧
          Indexed { net with issues } net' { parent := p, index := ix } ∧ net'.issues = issues ∧
          net'.vertices.size = net.vertices.size := by
  obtain ⟨v, -, hvertex, -⟩ := vertex_eq hp
  obtain ⟨unique, hunique⟩ := w.producesSetWithin hp hp
  have hset : net.producesSet p = .ok unique := hunique
  have hnode : net.node p = .ok v.node := by
    rw [node, hvertex]
    rfl
  refine ⟨{ name := v.node.kindName ++ "#" ++ toString p ++ mask.text, mask, unique }, rfl, rfl,
    ⟨v.node, "#" ++ toString p ++ mask.text, by simp only [String.append_assoc]⟩, fun hu => ?_,
    fun issues ix hfill hmask => ⟨_, ?_, indexed_push hmask, rfl, Array.size_modify⟩⟩
  · obtain rfl : unique = true := hu
    exact ⟨_, hunique⟩
  · rw [indexFor, hold]
    simp only [bind, Except.bind, hset, hnode, hpull, hfill]
    rfl

/-- The index of a node's output by some columns is there, or is built. -/
theorem indexFor_grown (w : net.Wired) (h : ∃ val, net.AtRest val) {p : NodeId}
    (hp : p < net.vertices.size) {mask : Mask} (hm : mask.width = net.widthOf p) :
    ∃ net' I, net.indexFor p mask = .ok (net', I) ∧ Grown net net' [p] ∧
      net'.inputs = net.inputs ∧ net'.HasIndex I p mask ∧
      net'.vertices.size = net.vertices.size ∧ ∀ q, net'.widthOf q = net.widthOf q := by
  cases hold : net.arranged.get? (p, mask) with
  | some I =>
    refine ⟨net, I, ?_, .refl w h [p], rfl, w.arranged p mask I hold, rfl, fun _ => rfl⟩
    rw [indexFor, hold]
    rfl
  | none =>
    obtain ⟨val, hval⟩ := h
    obtain ⟨rows, hpull, hrows⟩ := hval.pull w hp
    obtain ⟨ix₀, hbuckets, hmask₀, -, hflat, build⟩ := exists_indexFor w hp hold hpull
    have hc₀ := Index.content_of_empty hbuckets
    obtain ⟨ix, hfill, hs, hb, hc⟩ := fill_eq net rows (Index.sound_of_empty hbuckets)
      (fun t ht => by
        rw [hmask₀, hm]
        exact hval.width_of_mem hp t (hrows ▸ ht))
      (fun hu => by
        rw [hc₀, zero_add, hrows]
        exact hval.flat p hp (hflat hu))
    have hmask : ix.mask = mask := (Index.mask_eq_of_bare_eq hb).trans hmask₀
    have hu : ix.unique = ix₀.unique := Index.unique_eq_of_bare_eq hb
    obtain ⟨net₁, hcall, x, hsame, hsize⟩ := build net.issues ix hfill hmask
    have hfeeds : net₁.Feeds = net.Feeds := by
      funext q n
      exact propext (x.feeds_iff hp rfl)
    refine ⟨net₁, net.arrangements.size, hcall, ⟨x.wired w hp rfl (hmask ▸ hm)
      (fun hx => hflat (hu ▸ hx)), ⟨val, hval.indexed w x hs ?_⟩, x.keeps.bare, .of_eq hsame,
      x.given, fun a => ?_, fun q hq hn => ?_⟩, x.inputs, hmask ▸ index_shape x, hsize, x.widthOf⟩
    · rw [hc, hc₀, zero_add, hrows]
    · rw [Acyclic, Below, hfeeds]
      exact a
    · rw [x.receiversOf hp, if_neg (by simpa using hn), List.append_nil]

theorem indexFor_both (w : net.Wired) (h : ∃ val, net.AtRest val) {p q : NodeId}
    (hp : p < net.vertices.size) (hq : q < net.vertices.size) {pm sm : Mask}
    (hpm : pm.width = net.widthOf p) (hsm : sm.width = net.widthOf q) :
    ∃ net₁ I net₂ J, net.indexFor p pm = .ok (net₁, I) ∧ net₁.indexFor q sm = .ok (net₂, J) ∧
      Grown net net₂ [p, q] ∧ net₂.inputs = net.inputs ∧ net₂.HasIndex I p pm ∧
      net₂.HasIndex J q sm := by
  obtain ⟨net₁, I, h₁, g₁, i₁, x₁, size₁, width₁⟩ := indexFor_grown w h hp hpm
  obtain ⟨net₂, J, h₂, g₂, i₂, x₂, -, -⟩ := indexFor_grown g₁.wired g₁.rest (size₁ ▸ hq)
    (hsm.trans (width₁ q).symm)
  exact ⟨net₁, I, net₂, J, h₁, h₂, g₁.trans g₂, i₂.trans i₁, x₁.keeps g₂.keeps, x₂⟩

theorem HasIndex.maskOf {I : IndexId} {p : NodeId} {mask : Mask} (h : net.HasIndex I p mask) :
    net.maskOf I = mask := by
  obtain ⟨a, ha, -, hm⟩ := h
  rw [maskOf_eq ha, hm]

theorem admits_pair {n : Node} {p q : NodeId} {I J : IndexId} {pm sm : Mask} {arity : Nat}
    (hI : net.HasIndex I p pm) (hJ : net.HasIndex J q sm) (hprim : n.source .primary = some I)
    (hsec : n.source .secondary = some J) (hfits : n.Fits net.maskOf 0 arity) :
    net.Admits ⟨n, [p, q], [], arity⟩ := by
  have hf : (⟨n, [p, q], [], arity⟩ : Vertex).node.isFed ≠ true := by
    simp [(isFed_of_source hprim).1]
  refine ⟨rfl, fun hx => absurd hx hf, fun hx => absurd hx hf, fun side K hk => ?_, 0, hfits,
    fun hx => absurd hx hf⟩
  cases side with
  | primary =>
    obtain ⟨a, ha, -⟩ := hI
    exact ⟨a, Option.some.inj (hprim.symm.trans hk) ▸ ha⟩
  | secondary =>
    obtain ⟨a, ha, -⟩ := hJ
    exact ⟨a, Option.some.inj (hsec.symm.trans hk) ▸ ha⟩

theorem addOverIndexes_grown (w : net.Wired) (h : ∃ val, net.AtRest val) {n : Node}
    {p q : NodeId} {I J : IndexId} {pm sm : Mask} {arity : Nat} (hI : net.HasIndex I p pm)
    (hJ : net.HasIndex J q sm) (hprim : n.source .primary = some I)
    (hsec : n.source .secondary = some J) (hs : n.isStateful = false)
    (hfits : n.Fits net.maskOf 0 arity) :
    Grown net (net.addOverIndexes n (p, I) (q, J) arity).1 [p, q] ∧
      (net.addOverIndexes n (p, I) (q, J) arity).1.inputs = net.inputs ∧
      (net.addOverIndexes n (p, I) (q, J) arity).1.HasNode
        (net.addOverIndexes n (p, I) (q, J) arity).2 n [p, q] arity ∧
      (net.addOverIndexes n (p, I) (q, J) arity).1.receiversOf
        (net.addOverIndexes n (p, I) (q, J) arity).2 = [] := by
  obtain ⟨hf, hi⟩ := isFed_of_source hprim
  have pu : Pushed net _ ⟨n, [p, q], [], arity⟩ := pushed_listen (p := p) (q := q) hprim hsec
  have hid : (net.addOverIndexes n (p, I) (q, J) arity).2 = net.vertices.size := rfl
  refine ⟨pu.grown w h (admits_pair hI hJ hprim hsec hfits) (fun hx => absurd hx (by simp [hf]))
    (fun _ hx => absurd hx (by simp [hi])) (fun _ _ => Node.holds_of_isStateful_eq_false hs) rfl, rfl,
    ⟨_, pu.fresh, rfl, rfl, rfl⟩, ?_⟩
  rw [Network.receiversOf, hid, pu.fresh]
  rfl

def Yields (net : Network) (r : Except Fault (Network × NodeId)) (ps : List NodeId)
    (make : Network → NodeId → Prop) : Prop :=
  ∃ net' id, r = .ok (net', id) ∧ Grown net net' ps ∧ net'.inputs = net.inputs ∧
    net'.receiversOf id = [] ∧ make net' id

def HasPair (net : Network) (id : NodeId) (make : IndexId → IndexId → Node) (p : NodeId) (pm : Mask)
    (q : NodeId) (sm : Mask) (arity : Nat) : Prop :=
  ∃ I J, net.HasNode id (make I J) [p, q] arity ∧ net.HasIndex I p pm ∧ net.HasIndex J q sm

theorem pair_yields (w : net.Wired) (h : ∃ val, net.AtRest val) (make : IndexId → IndexId → Node)
    {p q : NodeId} {pm sm : Mask} {arity : Nat} (hp : p < net.vertices.size)
    (hq : q < net.vertices.size) (hpm : pm.width = net.widthOf p) (hsm : sm.width = net.widthOf q)
    (hprim : ∀ I J, (make I J).source .primary = some I)
    (hsec : ∀ I J, (make I J).source .secondary = some J)
    (hs : ∀ I J, (make I J).isStateful = false)
    (hfits : ∀ (masks : IndexId → Mask) I J, masks I = pm → masks J = sm →
      (make I J).Fits masks 0 arity) :
    net.Yields (do
      let (net, I) ← net.indexFor p pm
      let (net, J) ← net.indexFor q sm
      return net.addOverIndexes (make I J) (p, I) (q, J) arity) [p, q]
      fun net' id => net'.HasPair id make p pm q sm arity := by
  obtain ⟨net₁, I, net₂, J, h₁, h₂, g, i, hI, hJ⟩ := indexFor_both w h hp hq hpm hsm
  obtain ⟨g', i', hn, hnil⟩ := addOverIndexes_grown g.wired g.rest hI hJ (hprim I J) (hsec I J)
    (hs I J) (hfits _ I J hI.maskOf hJ.maskOf)
  refine ⟨_, _, ?_, (g.trans g').of_mem (by simp), i'.trans i, hnil, I, J, hn, hI.keeps g'.keeps,
    hJ.keeps g'.keeps⟩
  simp only [bind, Except.bind, h₁, h₂]
  rfl

theorem addJoin_yields (w : net.Wired) (h : ∃ val, net.AtRest val) {p q : NodeId} {pm sm : Mask}
    (hp : p < net.vertices.size) (hq : q < net.vertices.size) (hpm : pm.width = net.widthOf p)
    (hsm : sm.width = net.widthOf q) :
    net.Yields (net.addJoin p pm q sm) [p, q] fun net' id =>
      net'.HasPair id (.join · · sm.complement) p pm q sm
        (net.widthOf p + sm.complement.arity) := by
  obtain ⟨-, -, -, ha⟩ := vertex_eq hp
  rw [addJoin, ha]
  refine pair_yields w h (.join · · sm.complement) hp hq hpm hsm (fun _ _ => rfl)
    (fun _ _ => rfl) (fun _ _ => rfl) ?_
  intro masks I J hI hJ
  exact ⟨by rw [hJ], by rw [hI, hpm]⟩

theorem addExistence_yields (w : net.Wired) (h : ∃ val, net.AtRest val) {p q : NodeId}
    {pm sm : Mask} (hp : p < net.vertices.size) (hq : q < net.vertices.size)
    (hpm : pm.width = net.widthOf p) (hsm : sm.width = net.widthOf q) (negative : Bool) :
    net.Yields (net.addExistence p pm q sm negative) [p, q] fun net' id =>
      net'.HasPair id (.existence · · negative) p pm q sm (net.widthOf p) := by
  obtain ⟨-, -, -, ha⟩ := vertex_eq hp
  rw [addExistence, ha]
  refine pair_yields w h (.existence · · negative) hp hq hpm hsm (fun _ _ => rfl)
    (fun _ _ => rfl) (fun _ _ => rfl) ?_
  intro masks I J hI hJ
  exact (by rw [hI, hpm] : net.widthOf p = (masks I).width)

theorem addOuterJoin_yields (w : net.Wired) (h : ∃ val, net.AtRest val) {p q : NodeId}
    {pm sm : Mask} (hp : p < net.vertices.size) (hq : q < net.vertices.size)
    (hpm : pm.width = net.widthOf p) (hsm : sm.width = net.widthOf q) {defaults : Tuple}
    (hd : sm.complement.arity = defaults.arity) :
    net.Yields (net.addOuterJoin p pm q sm defaults) [p, q] fun net' id =>
      net'.HasPair id (.outerJoin · · sm.complement defaults) p pm q sm
        (net.widthOf p + sm.complement.arity) := by
  obtain ⟨-, -, -, ha⟩ := vertex_eq hp
  rw [addOuterJoin, ha]
  simp only [hd, ne_eq, not_true_eq_false, if_false]
  refine pair_yields w h (.outerJoin · · sm.complement defaults) hp hq hpm hsm (fun _ _ => rfl)
    (fun _ _ => rfl) (fun _ _ => rfl) ?_
  intro masks I J hI hJ
  exact ⟨by rw [hJ], hd.symm, by rw [hI, hpm, hd]⟩

section grouping

/-- The groups that a new node starts with: those of the buckets that have a value. -/
theorem foldBuckets_eq {f : Tuple → Option Value} {op : Aggregator} {column : Option Nat}
    {source : IndexId} {es : List (Tuple × Bag Tuple)} {groups : ExtTreeMap Tuple Value}
    (hf : ∀ e ∈ es, ∀ gs, (⟨source, op, column, gs⟩ : Grouping).fold (some e.2) = .ok (f e.1))
    (hk : (es.map Prod.fst).Nodup) (hg : ∀ e ∈ es, groups[e.1]? = none) :
    ∃ groups', foldBuckets ⟨source, op, column, groups⟩ es = .ok ⟨source, op, column, groups'⟩ ∧
      ∀ s : Tuple, groups'[s]? = if s ∈ es.map Prod.fst then f s else groups[s]? := by
  induction es generalizing groups with
  | nil => exact ⟨groups, rfl, by simp⟩
  | cons e rest ih =>
    rw [List.map_cons, List.nodup_cons] at hk
    rw [foldBuckets, hf e (by simp)]
    simp only [bind, Except.bind]
    cases hv : f e.1 with
    | none =>
      obtain ⟨groups', hfold, hget⟩ := ih (fun e' he => hf e' (by simp [he])) hk.2
        fun e' he => hg e' (by simp [he])
      refine ⟨groups', hfold, fun s => ?_⟩
      rw [hget, List.map_cons]
      by_cases hs : s = e.1
      · subst hs
        simp [hk.1, hv, hg e (by simp)]
      · simp only [List.mem_cons, hs, false_or]
    | some v =>
      have hfresh : ∀ e' ∈ rest, (groups.insert e.1 v)[e'.1]? = none := by
        intro e' he
        have hne : e.1 ≠ e'.1 := fun h => hk.1 (h ▸ List.mem_map_of_mem he)
        rw [ExtTreeMap.getElem?_insert]
        simp [hne, hg e' (by simp [he])]
      obtain ⟨groups', hfold, hget⟩ := ih (fun e' he => hf e' (by simp [he])) hk.2 hfresh
      refine ⟨groups', hfold, fun s => ?_⟩
      rw [hget, ExtTreeMap.getElem?_insert, List.map_cons]
      by_cases hs : s = e.1
      · subst hs
        simp [hk.1, hv]
      · have hne : compare e.1 s ≠ .eq := fun h => hs (Std.LawfulEqCmp.eq_of_compare h).symm
        simp only [List.mem_cons, hs, false_or, if_neg hne]

def HasGrouping (net : Network) (id : NodeId) (p : NodeId) (mask : Mask) (op : Aggregator)
    (column : Option Nat) : Prop :=
  ∃ I, net.HasNode id (.grouping { source := I, operator := op, column }) [p] (mask.arity + 1) ∧
    net.HasIndex I p mask

/-- A node over the groups of an index can start with the rows of all groups. -/
theorem exists_groups {ix : Index} (sound : ix.Sound) (op : Aggregator) {column : Option Nat}
    (I : IndexId) (hc : ∀ c, column = some c → c < ix.mask.width) : ∃ groups,
    foldBuckets ⟨I, op, column, ∅⟩ ix.buckets.toList = .ok ⟨I, op, column, groups⟩ ∧
      ∀ s : Tuple, groups[s]? = op.groupValue column (group ix.mask ix.content s) := by
  have hfold : ∀ e ∈ ix.buckets.toList, ∀ gs,
      (⟨I, op, column, gs⟩ : Grouping).fold (some e.2) =
        .ok (op.groupValue column (group ix.mask ix.content e.1)) := by
    intro e he gs
    have hb : ix.bucket? e.1 = some e.2 := ExtTreeMap.mem_toList_iff_getElem?_eq_some.1 he
    have finds := sound.finds e.1
    rw [hb] at finds
    exact Node.fold_eq (g := ⟨I, op, column, gs⟩) (fun t ht => sound.width ht) hc finds
  have keys : (ix.buckets.toList.map Prod.fst).Nodup := by
    rw [ExtTreeMap.map_fst_toList_eq_keys]
    exact ExtTreeMap.nodup_keys
  obtain ⟨groups, hgroups, hget⟩ := foldBuckets_eq
    (f := fun s => op.groupValue column (group ix.mask ix.content s)) hfold keys
    fun _ _ => ExtTreeMap.getElem?_empty
  refine ⟨groups, hgroups, fun s => ?_⟩
  rw [hget]
  split
  · rfl
  · next hs =>
    have hb : ix.bucket? s = none := by
      rw [ExtTreeMap.map_fst_toList_eq_keys, ExtTreeMap.mem_keys,
        ← ExtTreeMap.isSome_getElem?_iff_mem, Option.not_isSome_iff_eq_none] at hs
      exact hs
    rw [(sound.finds s).none.1 hb, Aggregator.groupValue, if_pos rfl]
    simp

theorem admits_grouping {g : Grouping} {p : NodeId} {mask : Mask} (hI : net.HasIndex g.source p mask)
    (hc : ∀ c, g.column = some c → c < mask.width) :
    net.Admits ⟨.grouping g, [p], [], mask.arity + 1⟩ where
  receivers := rfl
  parents hf := nomatch hf
  single hf := nomatch hf
  sources side J hs := by
    obtain ⟨a, ha, -⟩ := hI
    cases side with
    | primary => exact ⟨a, Option.some.inj hs ▸ ha⟩
    | secondary => cases hs
  fits := ⟨0, by rw [Node.Fits, hI.maskOf]; exact ⟨hc, rfl⟩, nofun⟩

theorem addGrouping_yields (w : net.Wired) (h : ∃ val, net.AtRest val) {p : NodeId} {mask : Mask}
    (hp : p < net.vertices.size) (hm : mask.width = net.widthOf p) (op : Aggregator)
    {column : Option Nat} (hc : ∀ c, column = some c → c < mask.width) :
    net.Yields (net.addGrouping p mask op column) [p] fun net' id =>
      net'.HasGrouping id p mask op column := by
  obtain ⟨net₁, I, hindex, g, i, hI, -, -⟩ := indexFor_grown w h hp hm
  obtain ⟨a, ha, hpar, hmask⟩ := hI
  obtain ⟨val, hval⟩ := g.rest
  obtain ⟨groups, hgroups, hholds⟩ := exists_groups (hval.index I a ha).1 op I
    (fun c hcol => hmask ▸ hc c hcol)
  rw [hmask] at hholds
  have pu : Pushed net₁ _ ⟨.grouping ⟨I, op, column, groups⟩, [p], [], mask.arity + 1⟩ :=
    pushed_listen_one rfl rfl
  have grown := pu.grown g.wired g.rest (admits_grouping ⟨a, ha, hpar, hmask⟩ hc) nofun
    (fun _ hx => nomatch hx) (fun val' hval' => ?_) rfl
  · refine ⟨_, net₁.vertices.size, ?_, (g.trans grown).of_mem (by simp), i, ?_, I,
      ⟨_, pu.fresh, rfl, rfl, rfl⟩, HasIndex.keeps ⟨a, ha, hpar, hmask⟩ grown.keeps⟩
    · rw [addGrouping, hindex]
      simp only [bind, Except.bind, index_eq ha, hgroups]
      rfl
    · rw [Network.receiversOf, pu.fresh]
      rfl
  · intro s
    have hview : net₁.viewBy val' ⟨.grouping ⟨I, op, column, groups⟩, [p], [], mask.arity + 1⟩
        .primary = a.index.content := by
      rw [viewBy_of_source (I := I) rfl, parentOf_eq ha]
      exact (hval'.index I a ha).2.symm
    rw [hview, maskOf_eq ha, hmask]
    exact hholds s

end grouping

section children
variable {p : NodeId}

theorem addChild_yields (w : net.Wired) (h : ∃ val, net.AtRest val) {n : Node} {arity : Nat}
    (hp : p < net.vertices.size) (hf : n.isFed = true) (hprod : n.isProduction = false)
    (hempty : n.bare = n) (hfits : n.Fits net.maskOf (net.widthOf p) arity) :
    net.Yields (net.addChild p n arity) [p] fun net' id => net'.HasNode id n [p] arity := by
  obtain ⟨net', id, hcall, g, i, hn, hnil⟩ := addChild_grown w h hp hf hprod hempty hfits
  exact ⟨net', id, hcall, g, i, hnil, hn⟩

variable (w : net.Wired) (h : ∃ val, net.AtRest val) (hp : p < net.vertices.size)
include w h hp

theorem addTrim_yields {mask : Mask} (hm : mask.width = net.widthOf p) :
    net.Yields (net.addTrim p mask) [p] fun net' id =>
      net'.HasNode id (.trim mask) [p] mask.arity :=
  addChild_yields w h hp rfl rfl rfl ⟨hm, rfl⟩

theorem addConstantFilter_yields {column : Nat} (value : Value) (hc : column < net.widthOf p) :
    net.Yields (net.addConstantFilter p column value) [p] fun net' id =>
      net'.HasNode id (.constantFilter column value) [p] (net.widthOf p) := by
  obtain ⟨-, -, -, ha⟩ := vertex_eq hp
  rw [addConstantFilter, ha]
  exact addChild_yields w h hp rfl rfl rfl ⟨hc, rfl⟩

theorem addEqualityFilter_yields {groups : List (List Nat)}
    (hg : ∀ g ∈ groups, ∀ c ∈ g, c < net.widthOf p) :
    net.Yields (net.addEqualityFilter p groups) [p] fun net' id =>
      net'.HasNode id (.equalityFilter groups) [p] (net.widthOf p) := by
  obtain ⟨-, -, -, ha⟩ := vertex_eq hp
  rw [addEqualityFilter, ha]
  exact addChild_yields w h hp rfl rfl rfl ⟨hg, rfl⟩

theorem addInequalityFilter_yields {left right : Nat} (hl : left < net.widthOf p)
    (hr : right < net.widthOf p) :
    net.Yields (net.addInequalityFilter p left right) [p] fun net' id =>
      net'.HasNode id (.inequalityFilter left right) [p] (net.widthOf p) := by
  obtain ⟨-, -, -, ha⟩ := vertex_eq hp
  rw [addInequalityFilter, ha]
  exact addChild_yields w h hp rfl rfl rfl ⟨hl, hr, rfl⟩

theorem addExpression_yields (evaluator : Evaluator) {inputs : List Nat} (mode : ExpressionMode)
    (hi : ∀ c ∈ inputs, c < net.widthOf p) :
    net.Yields (net.addExpression p evaluator inputs mode) [p] fun net' id =>
      net'.HasNode id (.expression { evaluator, inputs, mode }) [p]
        (match mode with | .check => net.widthOf p | .bind => net.widthOf p + 1) := by
  obtain ⟨-, -, -, ha⟩ := vertex_eq hp
  rw [addExpression, ha]
  exact addChild_yields w h hp rfl rfl rfl ⟨hi, by cases mode <;> rfl⟩

theorem addClosure_yields (hw : net.widthOf p = 2) :
    net.Yields (net.addClosure p) [p] fun net' id => net'.HasNode id (.closure {}) [p] 2 := by
  obtain ⟨-, -, -, ha⟩ := vertex_eq hp
  rw [addClosure, ha, hw]
  exact addChild_yields w h hp rfl rfl rfl ⟨hw, rfl⟩

theorem addUniqueness_yields :
    net.Yields (net.addUniqueness p) [p] fun net' id =>
      net'.HasNode id (.uniqueness ∅) [p] (net.widthOf p) := by
  obtain ⟨-, -, -, ha⟩ := vertex_eq hp
  rw [addUniqueness, ha]
  exact addChild_yields w h hp rfl rfl rfl rfl

end children

end Network
end Motif
