import Motif.Proofs.Network.Rest

set_option autoImplicit false
namespace Motif

open Std (ExtTreeMap)

namespace Index
variable {p s : Index} {c : Mask} {d : Tuple}

def tuples (ix : Index) : List Tuple := ix.buckets.toList.flatMap fun e => e.2.items

theorem coe_tuples (ix : Index) : (↑ix.tuples : Multiset Tuple) = ix.content := rfl

theorem Sound.signature_of_mem {ix : Index} (h : ix.Sound) {e : Tuple × Bag Tuple}
    (he : e ∈ ix.buckets.toList) {t : Tuple} (ht : t ∈ e.2.items) :
    t ∈ ix.content ∧ t.length = ix.mask.width ∧ ix.mask.signature t = e.1 := by
  have hb := ExtTreeMap.mem_toList_iff_getElem?_eq_some.1 he
  exact ⟨mem_content.2 ⟨_, _, hb, ht⟩, h.filed _ _ hb t (Bag.mem_items.1 ht)⟩

theorem Sound.mapM_buckets (h : p.Sound) {f : Tuple × Bag Tuple → Except Fault (List Tuple)}
    {rows : Tuple → List Tuple}
    (hf : ∀ e ∈ p.buckets.toList, (∀ t ∈ e.2.items, p.mask.signature t = e.1) →
      f e = .ok (e.2.items.flatMap rows)) :
    (do return (← p.buckets.toList.mapM f).flatten : Except Fault (List Tuple)) =
      .ok (p.tuples.flatMap rows) := by
  rw [mapM_ok fun e he => hf e he fun t ht => (h.signature_of_mem he ht).2.2, tuples,
    List.flatMap_assoc]
  simp [bind, Except.bind, pure, Except.pure, List.flatMap_def]

theorem mapM_combine_pairs {l l' : List Tuple} (h : ∀ b ∈ l', b.length = c.width) :
    (do return (← l.mapM fun a => l'.mapM fun b => c.combine a b).flatten :
      Except Fault (List Tuple)) = .ok (l.flatMap fun a => l'.map fun b => a ++ c.signature b) := by
  rw [mapM_ok (g := fun a => l'.map fun b => a ++ c.signature b) fun a _ =>
    mapM_ok fun b hb => Mask.combine_eq (h b hb)]
  simp [bind, Except.bind, pure, Except.pure, List.flatMap_def]

theorem Sound.coe_bucket (h : s.Sound) (a : Tuple) :
    (↑(s.bucket (p.mask.signature a)).items : Multiset Tuple) =
      partners p.mask s.mask s.content a := h.bucket_eq_filter _

theorem Sound.bucket?_eq_none (h : s.Sound) (a : Tuple) :
    s.bucket? (p.mask.signature a) = none ↔ partners p.mask s.mask s.content a = 0 :=
  (h.bucket?_eq_none_iff _).trans group_eq_zero_iff.symm

theorem joinWith_eq (hp : p.Sound) (hs : s.Sound) :
    ∃ rows, p.joinWith s s.mask.complement = .ok rows ∧ (↑rows : Multiset Tuple) =
      naturalJoin p.mask s.mask s.mask.complement p.content s.content := by
  refine ⟨p.tuples.flatMap fun a => (s.bucket (p.mask.signature a)).items.map fun b =>
    a ++ s.mask.complement.signature b, ?_, ?_⟩
  · refine hp.mapM_buckets fun e he hsig => ?_
    have same : (e.2.items.flatMap fun a => (s.bucket (p.mask.signature a)).items.map fun b =>
        a ++ s.mask.complement.signature b) = e.2.items.flatMap fun a =>
          (s.bucket e.1).items.map fun b => a ++ s.mask.complement.signature b :=
      List.flatMap_congr fun a ha => by rw [hsig a ha]
    rw [same, bucket]
    cases hb : s.bucket? e.1 with
    | none =>
      simp
    | some partners =>
      exact mapM_combine_pairs fun b hm => (hs.filed _ _ hb b (Bag.mem_items.1 hm)).1
  · rw [← Multiset.coe_bind, coe_tuples, naturalJoin]
    refine Multiset.bind_congr fun a _ => ?_
    rw [← hs.coe_bucket, Multiset.map_coe]

def besideBucket (s : Index) (d sig a : Tuple) : List Tuple :=
  match s.bucket? sig with
  | none => [a ++ d]
  | some partners => partners.items.map fun b => a ++ s.mask.complement.signature b

theorem outerJoinWith_eq (hp : p.Sound) (hs : s.Sound) :
    ∃ rows, p.outerJoinWith s s.mask.complement d = .ok rows ∧ (↑rows : Multiset Tuple) =
      leftJoin p.mask s.mask s.mask.complement d p.content s.content := by
  refine ⟨p.tuples.flatMap fun a => s.besideBucket d (p.mask.signature a) a, ?_, ?_⟩
  · refine hp.mapM_buckets fun e he hsig => ?_
    have same : (e.2.items.flatMap fun a => s.besideBucket d (p.mask.signature a) a) =
        e.2.items.flatMap (s.besideBucket d e.1) :=
      List.flatMap_congr fun a ha => by rw [hsig a ha]
    rw [same, show s.besideBucket d e.1 = fun a => s.besideBucket d e.1 a from rfl]
    simp only [besideBucket]
    cases hb : s.bucket? e.1 with
    | none => simp [List.map_eq_flatMap]
    | some partners =>
      exact mapM_combine_pairs fun b hm => (hs.filed _ _ hb b (Bag.mem_items.1 hm)).1
  · rw [← Multiset.coe_bind, coe_tuples, leftJoin]
    refine Multiset.bind_congr fun a _ => ?_
    have hz := hs.bucket?_eq_none (p := p) a
    rw [besideBucket, outerRows, ← hs.coe_bucket, bucket]
    cases hb : s.bucket? (p.mask.signature a) with
    | none => simp
    | some b =>
      have hn : (↑b.items : Multiset Tuple) ≠ 0 := by
        have hc := hs.coe_bucket (p := p) a
        rw [bucket, hb] at hc
        exact fun hx => by simpa [hb] using hz.2 (hc ▸ hx)
      rw [Option.getD_some, if_neg hn, Multiset.map_coe]

/-- Pairs whose signatures agree make different rows, whatever columns the masks repeat or reorder. So
a join of indexes without repetitions puts out no row twice, and neither does an outer join, as a tuple
beside the defaults has no partner. -/
theorem row_tells_pair (m n : Mask) :
    Set.InjOn (fun x : Tuple × Tuple => n.complement.combine x.1 x.2)
      {x | x.1.length = m.width ∧ x.2.length = n.width ∧ m.project x.1 = n.project x.2} ∧
    ∀ p s : Index, p.Sound → s.Sound → p.mask = m → s.mask = n →
      p.content.Nodup → s.content.Nodup →
      (∃ rows, p.joinWith s n.complement = .ok rows ∧ rows.Nodup) ∧
      ∀ defaults, ∃ rows, p.outerJoinWith s n.complement defaults = .ok rows ∧ rows.Nodup := by
  constructor
  · rintro ⟨a, b⟩ ⟨ha, hb, hab⟩ ⟨a', b'⟩ ⟨ha', hb', hab'⟩ row
    dsimp only at ha hb hab ha' hb' hab' row
    rw [Mask.project_eq ha, Mask.project_eq hb, Except.ok.injEq] at hab
    rw [Mask.project_eq ha', Mask.project_eq hb', Except.ok.injEq] at hab'
    rw [Mask.combine_eq (m := n.complement) hb, Mask.combine_eq (m := n.complement) hb',
      Except.ok.injEq] at row
    obtain ⟨rfl, rfl⟩ := Mask.pair_eq_of_append_eq ha ha' hb hb' hab hab' row
    rfl
  · rintro p s hp hs rfl rfl dp ds
    have wp : ∀ a ∈ p.content, a.length = p.mask.width := fun a ha => hp.width ha
    have ws : ∀ b ∈ s.content, b.length = s.mask.width := fun b hb => hs.width hb
    constructor
    · obtain ⟨rows, run, same⟩ := joinWith_eq hp hs
      exact ⟨rows, run, Multiset.coe_nodup.1 (same ▸ nodup_naturalJoin dp ds wp ws)⟩
    · intro d
      obtain ⟨rows, run, same⟩ := outerJoinWith_eq (d := d) hp hs
      exact ⟨rows, run, Multiset.coe_nodup.1 (same ▸ nodup_leftJoin dp ds wp ws)⟩

theorem row_tells_pair_reordered :
    let m : Mask := ⟨[1, 1, 0], 2, by decide⟩
    let n : Mask := ⟨[2, 2, 0], 3, by decide⟩
    let a : Tuple := [.int 1, .int 2]
    let b : Tuple := [.int 1, .null, .int 2]
    let b' : Tuple := [.int 1, .bool true, .int 2]
    m.project a = n.project b ∧ m.project a = n.project b' ∧
      n.complement.combine a b ≠ n.complement.combine a b' ∧
      ∃ p s : Index, p.Sound ∧ s.Sound ∧ p.mask = m ∧ s.mask = n ∧
        p.content = {a} ∧ s.content = {b', b} ∧
        (∃ rows, p.joinWith s n.complement = .ok rows ∧ rows.Nodup) ∧
        ∃ rows, p.outerJoinWith s n.complement [.null] = .ok rows ∧ rows.Nodup := by
  intro m n a b b'
  obtain ⟨tells, once⟩ := row_tells_pair m n
  have pair : m.project a = n.project b := by decide
  have pair' : m.project a = n.project b' := by decide
  have differ : n.complement.combine a b ≠ n.complement.combine a b' := fun row =>
    have ne : (a, b) ≠ (a, b') := by decide
    ne (@tells (a, b) ⟨rfl, rfl, pair⟩ (a, b') ⟨rfl, rfl, pair'⟩ row)
  -- the indexes, tuple by tuple
  let p₀ : Index := { name := "p", mask := m, unique := false }
  let s₀ : Index := { name := "s", mask := n, unique := false }
  obtain ⟨p, -, -, sp, bp, cp, -⟩ := (@sound_of_empty p₀ rfl).insert (t := a) rfl nofun
  obtain ⟨s₁, -, -, ss₁, bs₁, cs₁, -⟩ := (@sound_of_empty s₀ rfl).insert (t := b) rfl nofun
  have ms₁ : s₁.mask = n := mask_eq_of_bare_eq bs₁
  have us₁ : s₁.unique = false := unique_eq_of_bare_eq bs₁
  obtain ⟨s, -, -, ss, bs, cs, -⟩ := ss₁.insert (t := b') (ms₁ ▸ rfl) (by simp [us₁])
  have mp : p.mask = m := mask_eq_of_bare_eq bp
  have ms : s.mask = n := (mask_eq_of_bare_eq bs).trans ms₁
  rw [@content_of_empty p₀ rfl] at cp
  rw [@content_of_empty s₀ rfl] at cs₁
  rw [cs₁] at cs
  have dp : p.content.Nodup := by simp [cp]
  have ds : s.content.Nodup := by
    rw [cs]
    decide
  obtain ⟨joins, outer⟩ := once p s sp ss mp ms dp ds
  exact ⟨pair, pair', differ, p, s, sp, ss, mp, ms, cp, cs, joins, outer [.null]⟩

theorem existingIn_eq (hp : p.Sound) (hs : s.Sound) (negative : Bool) :
    (↑(p.existingIn s negative) : Multiset Tuple) =
      matching p.mask s.mask negative p.content s.content := by
  have list : p.existingIn s negative = p.tuples.filter fun a =>
      decide ¬(s.bucket? (p.mask.signature a)).isSome = negative := by
    rw [existingIn, tuples, List.filter_flatMap]
    refine List.flatMap_congr fun e he => ?_
    have same : (e.2.items.filter fun a =>
        decide ¬(s.bucket? (p.mask.signature a)).isSome = negative) = e.2.items.filter fun _ =>
          decide ¬(s.bucket? e.1).isSome = negative :=
      List.filter_congr fun a ha => by rw [(hp.signature_of_mem he ha).2.2]
    rw [same]
    by_cases h : (s.bucket? e.1).isSome = negative <;> simp [h]
  rw [list, ← Multiset.filter_coe, coe_tuples, matching]
  refine Multiset.filter_congr fun a _ => ?_
  rw [← hs.bucket?_eq_none (p := p)]
  cases s.bucket? (p.mask.signature a) <;> cases negative <;> simp

end Index

theorem coe_groups {g : Grouping} {m : Mask} {S : Multiset Tuple}
    (h : ∀ s : Tuple, g.groups[s]? = g.operator.groupValue g.column (group m S s)) :
    (↑(g.groups.toList.map fun e => e.1 ++ [e.2]) : Multiset Tuple) =
      groupRows m g.operator g.column S := by
  have keys : (g.groups.toList.map Prod.fst).Nodup := by
    rw [ExtTreeMap.map_fst_toList_eq_keys]
    exact ExtTreeMap.nodup_keys
  have nodup : (g.groups.toList.map fun e => e.1 ++ [e.2]).Nodup := by
    refine (List.Nodup.of_map Prod.fst keys).map_on fun e he e' he' heq => ?_
    exact Prod.ext (List.append_inj' heq rfl).1 (List.singleton_inj.1 (List.append_inj' heq rfl).2)
  refine (Multiset.Nodup.ext (Multiset.coe_nodup.2 nodup) (nodup_groupRows S)).2 fun t => ?_
  rw [Multiset.mem_coe, List.mem_map, mem_groupRows]
  constructor
  · rintro ⟨⟨s, v⟩, he, rfl⟩
    rw [ExtTreeMap.mem_toList_iff_getElem?_eq_some, h] at he
    exact ⟨s, v, he, rfl⟩
  · rintro ⟨s, v, hv, rfl⟩
    exact ⟨(s, v), ExtTreeMap.mem_toList_iff_getElem?_eq_some.2 ((h s).trans hv), rfl⟩

theorem filterMap_eq_sum (f : Tuple → Option Tuple) (m : Multiset Tuple) :
    m.filterMap f = (m.map fun t => (↑(f t).toList : Multiset Tuple)).sum := by
  induction m using Multiset.induction with
  | empty => rfl
  | cons t m ih =>
    rw [Multiset.map_cons, Multiset.sum_cons, ← ih]
    cases h : f t with
    | none => rw [Multiset.filterMap_cons_none _ _ h, Option.toList_none, Multiset.coe_nil, zero_add]
    | some u =>
      rw [Multiset.filterMap_cons_some f _ _ h, Option.toList_some, Multiset.coe_singleton,
        Multiset.singleton_add]

theorem coe_flatten_replicate (n : Nat) (l : List Tuple) :
    (↑(List.replicate n l).flatten : Multiset Tuple) = n • (↑l : Multiset Tuple) := by
  induction n with
  | zero => simp
  | succ n ih =>
    rw [List.replicate_succ, List.flatten_cons, ← Multiset.coe_add, ih, succ_nsmul, add_comm]

theorem coe_cache {cache : ExtTreeMap Tuple (Option Tuple × Nat)} {f : Tuple → Option Tuple}
    {m : Multiset Tuple} (h : ∀ t : Tuple, cache[t]? = if t ∈ m then some (f t, m.count t) else none) :
    (↑(cache.toList.flatMap fun e => List.flatten (List.replicate e.2.2 e.2.1.toList)) :
      Multiset Tuple) = m.filterMap f := by
  have keys : (↑cache.keys : Multiset Tuple) = m.dedup := by
    refine (Multiset.Nodup.ext (Multiset.coe_nodup.2 ExtTreeMap.nodup_keys)
      (Multiset.nodup_dedup m)).2 fun t => ?_
    rw [Multiset.mem_coe, ExtTreeMap.mem_keys, ← ExtTreeMap.isSome_getElem?_iff_mem, h,
      Multiset.mem_dedup]
    split <;> simp_all
  have values : (cache.toList.flatMap fun e => List.flatten (List.replicate e.2.2 e.2.1.toList)) =
      cache.keys.flatMap fun t => List.flatten (List.replicate (m.count t) (f t).toList) := by
    rw [← ExtTreeMap.map_fst_toList_eq_keys, List.flatMap_map]
    refine List.flatMap_congr fun e he => ?_
    rw [ExtTreeMap.mem_toList_iff_getElem?_eq_some, h] at he
    split at he
    · rw [← Option.some.inj he]
    · cases he
  rw [values, ← Multiset.coe_bind, keys, filterMap_eq_sum, Finset.sum_multiset_map_count]
  simp only [coe_flatten_replicate]
  rfl

namespace Network
variable {net : Network} {val : NodeId → Multiset Tuple}

/-- What is found when a node is read: what it keeps of the tuples `fed`, the only parent of a node
that keeps nothing of them, and the indexes it looks into, which hold `view`. -/
structure Legible (net : Network) (depth : Nat) (v : Vertex) (fed : Multiset Tuple)
    (view : Side → Multiset Tuple) (width : Nat) : Prop where
  fits : v.node.Fits net.maskOf width v.arity
  holds : v.node.Holds net.maskOf fed view
  parent : v.node.isFed = true → v.node.isStateful = false → ∃ p rows, v.parent = .ok p ∧
    net.pullWithin depth p = .ok rows ∧ (↑rows : Multiset Tuple) = fed ∧
      ∀ t ∈ rows, t.length = width
  source : ∀ side I, v.node.source side = some I → ∃ ix, net.index I = .ok ix ∧ ix.Sound ∧
    ix.content = view side ∧ ix.mask = net.maskOf I

theorem Legible.pullWithin {depth width : Nat} {v : Vertex} {fed : Multiset Tuple}
    {view : Side → Multiset Tuple} (h : net.Legible depth v fed view width) {q : NodeId}
    (hv : net.vertices[q]? = some v) :
    ∃ rows, net.pullWithin (depth + 1) q = .ok rows ∧
      (↑rows : Multiset Tuple) = v.node.output net.maskOf fed view := by
  obtain ⟨hfits, holds, parent, source⟩ := h
  have hvertex : net.vertex q = .ok v := by rw [vertex, hv]
  rw [Network.pullWithin, hvertex]
  simp only [bind, Except.bind]
  obtain ⟨n, parents, receivers, arity⟩ := v
  cases n with
  | input r u memory => exact ⟨_, rfl, holds⟩
  | constant rows => exact ⟨_, rfl, rfl⟩
  | trim mask =>
    obtain ⟨p, rows, hp, hrows, hfed, hw⟩ := parent rfl rfl
    refine ⟨rows.map mask.signature, ?_, ?_⟩
    · simp only [hp, hrows]
      exact mapM_ok fun t ht => Mask.project_eq ((hw t ht).trans hfits.1.symm)
    · rw [← hfed]
      rfl
  | constantFilter column value =>
    obtain ⟨p, rows, hp, hrows, hfed, hw⟩ := parent rfl rfl
    refine ⟨rows.filter fun t => decide (t[column]? = some value), ?_, ?_⟩
    · simp only [hp, hrows]
      refine filterM_ok fun t ht => ?_
      rw [Tuple.column_eq (by rw [hw t ht]; exact hfits.1)]
      simp [pure, Except.pure, hw t ht, hfits.1]
    · rw [← hfed, ← Multiset.filter_coe]
      rfl
  | equalityFilter groups =>
    obtain ⟨p, rows, hp, hrows, hfed, hw⟩ := parent rfl rfl
    refine ⟨rows.filter fun t => decide (t.equalIn groups), ?_, ?_⟩
    · simp only [hp, hrows]
      exact filterM_ok fun t ht => Tuple.agreeIn_eq fun g hg c hc => hw t ht ▸ hfits.1 g hg c hc
    · rw [← hfed, ← Multiset.filter_coe]
      rfl
  | inequalityFilter left right =>
    obtain ⟨p, rows, hp, hrows, hfed, hw⟩ := parent rfl rfl
    refine ⟨rows.filter fun t => decide (t[left]? ≠ t[right]?), ?_, ?_⟩
    · simp only [hp, hrows]
      refine filterM_ok fun t ht => ?_
      have hl : left < t.length := hw t ht ▸ hfits.1
      have hr : right < t.length := hw t ht ▸ hfits.2.1
      rw [Tuple.column_eq hl, Tuple.column_eq hr, List.getElem?_eq_getElem hl,
        List.getElem?_eq_getElem hr]
      simp [pure, Except.pure]
    · rw [← hfed, ← Multiset.filter_coe]
      rfl
  | expression x => exact ⟨_, rfl, coe_cache holds⟩
  | join p s complement =>
    obtain ⟨ip, hip, sp, cp, mp⟩ := source .primary p rfl
    obtain ⟨is, his, ss, cs, ms⟩ := source .secondary s rfl
    obtain ⟨rows, hrows, hcoe⟩ := Index.joinWith_eq sp ss
    obtain ⟨rfl, -⟩ := hfits
    rw [ms] at hrows
    refine ⟨rows, ?_, ?_⟩
    · simp only [hip, his]
      exact hrows
    · rw [hcoe, mp, ms, cp, cs]
      rfl
  | existence p s negative =>
    obtain ⟨ip, hip, sp, cp, mp⟩ := source .primary p rfl
    obtain ⟨is, his, ss, cs, ms⟩ := source .secondary s rfl
    refine ⟨ip.existingIn is negative, ?_, ?_⟩
    · simp only [hip, his]
      rfl
    · rw [Index.existingIn_eq sp ss, mp, ms, cp, cs]
      rfl
  | outerJoin p s complement defaults =>
    obtain ⟨ip, hip, sp, cp, mp⟩ := source .primary p rfl
    obtain ⟨is, his, ss, cs, ms⟩ := source .secondary s rfl
    obtain ⟨rows, hrows, hcoe⟩ := Index.outerJoinWith_eq (d := defaults) sp ss
    obtain ⟨rfl, -⟩ := hfits
    rw [ms] at hrows
    refine ⟨rows, ?_, ?_⟩
    · simp only [hip, his]
      exact hrows
    · rw [hcoe, mp, ms, cp, cs]
      rfl
  | grouping g => exact ⟨_, rfl, coe_groups holds⟩
  | closure state => exact ⟨_, rfl, Closure.Represents.pairs holds⟩
  | uniqueness memory | production _ memory =>
    refine ⟨memory.distinct, rfl, ?_⟩
    rw [Bag.coe_distinct, show memory.toMultiset = _ from holds]
    rfl

theorem AtRest.index_source (w : net.Wired) (h : net.AtRest val) {q : NodeId} {v : Vertex}
    (hv : net.vertices[q]? = some v) {side : Side} {I : IndexId}
    (hs : v.node.source side = some I) :
    ∃ ix, net.index I = .ok ix ∧ ix.Sound ∧ ix.content = net.viewBy val v side ∧
      ix.mask = net.maskOf I := by
  obtain ⟨a, ha⟩ := w.exists_arrangement hv hs
  refine ⟨a.index, index_eq ha, (h.index I a ha).1, ?_, (maskOf_eq ha).symm⟩
  rw [viewBy_of_source hs, parentOf_eq ha]
  exact (h.index I a ha).2

theorem AtRest.width_of_mem (h : net.AtRest val) {p : NodeId}
    (hp : p < net.vertices.size) : ∀ t ∈ val p, t.length = net.widthOf p := by
  obtain ⟨v, hv⟩ : ∃ v, net.vertices[p]? = some v := ⟨_, Array.getElem?_eq_getElem hp⟩
  have e : net.widthOf p = v.arity := by
    rw [widthOf, hv]
    rfl
  exact e ▸ h.width p v hv

/-- A network at rest is read without failure, and every node has what it puts out. -/
theorem AtRest.pullWithin (w : net.Wired) (h : net.AtRest val) {depth : Nat} {q : NodeId}
    (hq : q < net.vertices.size) (hd : q < depth) :
    ∃ rows, net.pullWithin depth q = .ok rows ∧ (↑rows : Multiset Tuple) = val q := by
  induction depth generalizing q with
  | zero => exact absurd hd (Nat.not_lt_zero q)
  | succ depth ih =>
    obtain ⟨v, hv⟩ : ∃ v, net.vertices[q]? = some v := ⟨_, Array.getElem?_eq_getElem hq⟩
    obtain ⟨width, hfits, hparents⟩ := w.fits q v hv
    rw [h.means q v hv]
    refine Legible.pullWithin ⟨hfits, h.holds q v hv, fun hf hs => ?_,
      fun _ _ => h.index_source w hv⟩ hv
    obtain ⟨p, hpar, hlt⟩ := w.earlier q v hv hf (Node.isProduction_of_isStateful_eq_false hs)
    obtain ⟨rows, hrows, hval⟩ := ih (hlt.trans hq) (Nat.lt_of_lt_of_le hlt (Nat.le_of_lt_succ hd))
    refine ⟨p, rows, by rw [Vertex.parent, hpar], hrows, ?_, fun t ht => ?_⟩
    · rw [fedBy_of_isFed hf, hpar, hval]
      simp
    · rw [← hparents hf p (by simp [hpar])]
      exact h.width_of_mem (hlt.trans hq) t (hval ▸ ht)

theorem AtRest.pull (w : net.Wired) (h : net.AtRest val) {q : NodeId}
    (hq : q < net.vertices.size) :
    ∃ rows, net.pull q = .ok rows ∧ (↑rows : Multiset Tuple) = val q :=
  h.pullWithin w hq hq

end Network
end Motif
