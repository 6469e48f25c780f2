import Motif.Proofs.Network.Reading
import Motif.Proofs.Pairing

/-!
The delta rule of the nodes over indexes. When an index takes a change and the nodes that read it are
told of it, on the primary side first, each puts out the difference between what it held before and
what it holds now. An outer join and a grouping take rows away before they bring others, so that in
between no row stands beside the one that replaces it.
-/
set_option autoImplicit false
namespace Motif

theorem Mask.eq_of_project {m : Mask} {t s : Tuple} (h : m.project t = .ok s) :
    t.length = m.width ∧ m.signature t = s := by
  have width : t.length = m.width := by
    rw [Mask.project, Mask.project?] at h
    by_contra hn
    rw [if_neg hn] at h
    cases h
  exact ⟨width, Except.ok.inj ((Mask.project_eq width).symm.trans h)⟩

theorem Index.Sound.suits {ix ix' : Index} {e : Event} {change : IndexChange} (h : ix.Sound)
    (hu : ix.update e = .ok (ix', .ok change)) :
    e.Suits ix.mask.width (ix.unique = true) ix.content := by
  obtain ⟨d, t⟩ := e
  cases d with
  | insert =>
    obtain ⟨s, hs, hu⟩ := bind_ok (x := ix.mask.project t) hu
    obtain ⟨width, rfl⟩ := Mask.eq_of_project hs
    dsimp only at hu
    split at hu
    · cases hu
    · rename_i taken
      refine Event.suits_insert.2 ⟨width, fun unique hm => taken ?_⟩
      rw [unique, Bool.true_and, Bag.contains_iff_mem, h.mem_bucket_iff]
      exact hm
  | revoke =>
    obtain ⟨s, hs, hu⟩ := bind_ok (x := ix.mask.project t) hu
    obtain ⟨width, rfl⟩ := Mask.eq_of_project hs
    dsimp only at hu
    split at hu
    · rename_i there
      rw [Bag.contains_iff_mem, h.mem_bucket_iff] at there
      exact Event.suits_revoke.2 ⟨width, there⟩
    · cases hu

namespace Event

def balance (es : List Event) (t : Tuple) : Int :=
  es.count ⟨.insert, t⟩ - es.count ⟨.revoke, t⟩

theorem balance_cons (e : Event) (es : List Event) (t : Tuple) :
    balance (e :: es) t = balance [e] t + balance es t := by
  simp only [balance, List.count_cons, List.count_nil]
  omega

theorem Suits.count {e : Event} {w : Nat} {flat : Prop} {m : Multiset Tuple} (h : e.Suits w flat m)
    (t : Tuple) : ((e.apply m).count t : Int) = m.count t + balance [e] t := by
  obtain ⟨d, u⟩ := e
  cases d with
  | insert =>
    rw [apply_insert, Multiset.count_cons, balance, List.count_singleton, List.count_singleton]
    by_cases ht : t = u <;> simp [ht, Ne.symm]
  | revoke =>
    have there : 0 < m.count u := Multiset.count_pos.2 (h.revoke rfl)
    rw [apply_revoke, balance, List.count_singleton, List.count_singleton]
    by_cases ht : t = u
    · subst ht
      rw [Multiset.count_erase_self]
      simp
      omega
    · rw [Multiset.count_erase_of_ne ht]
      simp [Ne.symm ht]

end Event

theorem Leads.balance {w : Nat} {flat : Prop} {m m' : Multiset Tuple} {es : List Event}
    (h : Leads w flat m es m') (t : Tuple) : Event.balance es t = m'.count t - m.count t := by
  induction es generalizing m with
  | nil =>
    cases h
    exact (sub_self _).symm
  | cons e rest ih =>
    rw [Event.balance_cons, ih h.2, h.1.count]
    omega

namespace Node

def sidesOn (n : Node) (I : IndexId) : List Side :=
  [.primary, .secondary].filter fun side => n.source side = some I

def reading (n : Node) (content : IndexId → Multiset Tuple) (side : Side) : Multiset Tuple :=
  (n.source side).elim 0 content

structure Orderly {α : Type} [DecidableEq α] (P : Multiset α → Prop) (row : α → Tuple)
    (before after : Multiset α) (outs : List (List Event)) : Prop where
  revokesFirst : ∀ out ∈ outs, RevokesFirst out
  throughout : ∃ moves : List (Direction × α),
    outs.flatten = moves.map (fun x => ⟨x.1, row x.2⟩) ∧ Throughout P before moves after

/-- What the node puts out, notification by notification, is what its output changes by. -/
structure Accounts (masks : IndexId → Mask) (arity : Nat) (n n' : Node)
    (view view' : Side → Multiset Tuple) (outs : List (List Event)) : Prop where
  bare : n'.bare = n.bare
  leads : Leads arity False (n.output masks 0 view) outs.flatten (n.output masks 0 view')
  outerJoin : ∀ p s c d, n = .outerJoin p s c d → Orderly Unmixed (Pairing.row c d)
    (pairings (masks p) (masks s) (view .primary) (view .secondary))
    (pairings (masks p) (masks s) (view' .primary) (view' .secondary)) outs
  grouping : ∀ g, n = .grouping g → ∃ g', n' = .grouping g' ∧
    Orderly Single groupEntry ↑g.groups.toList ↑g'.groups.toList outs

variable {masks : IndexId → Mask} {arity : Nat} {n n' n'' : Node}
  {view view' view'' : Side → Multiset Tuple} {outs outs' : List (List Event)}

section orderly
variable {α : Type} [DecidableEq α] {P : Multiset α → Prop} {row : α → Tuple} {k k' k'' : Multiset α}

theorem Orderly.nil (h : P k) : Orderly P row k k [] := ⟨List.forall_mem_nil _, [], rfl, h, rfl⟩

theorem Orderly.single {out : List Event} (h : Swaps row k k' out)
    (closed : ∀ k k' : Multiset α, k ≤ k' → P k' → P k) (hk : P k) (hk' : P k') :
    Orderly P row k k' [out] := by
  refine ⟨List.forall_mem_singleton.2 h.revokesFirst, ?_⟩
  rw [List.flatten_singleton]
  exact h.throughout closed hk hk'

theorem Orderly.trans (h : Orderly P row k k' outs) (h' : Orderly P row k' k'' outs') :
    Orderly P row k k'' (outs ++ outs') := by
  obtain ⟨moves, ho, through⟩ := h.throughout
  obtain ⟨moves', ho', through'⟩ := h'.throughout
  refine ⟨List.forall_mem_append.2 ⟨h.revokesFirst, h'.revokesFirst⟩, moves ++ moves', ?_,
    through.trans through'⟩
  rw [List.flatten_append, ho, ho', List.map_append]

end orderly

namespace Accounts

theorem nil : Accounts masks arity n n view view [] where
  bare := rfl
  leads := Leads.refl _
  outerJoin _ _ _ _ _ := .nil (unmixed_pairings _ _)
  grouping g hg := ⟨g, hg, .nil (single_toList _)⟩

theorem trans (h : Accounts masks arity n n' view view' outs)
    (h' : Accounts masks arity n' n'' view' view'' outs') :
    Accounts masks arity n n'' view view'' (outs ++ outs') where
  bare := h'.bare.trans h.bare
  leads := by
    have later := h'.leads
    rw [output_of_bare_eq h.bare, output_of_bare_eq h.bare] at later
    rw [List.flatten_append]
    exact h.leads.trans later
  outerJoin := by
    rintro p s c d rfl
    have bare := h.bare
    obtain rfl : n' = .outerJoin p s c d := by cases n' <;> simp_all [Node.bare]
    exact (h.outerJoin p s c d rfl).trans (h'.outerJoin p s c d rfl)
  grouping := by
    intro g hg
    obtain ⟨g', hg', first⟩ := h.grouping g hg
    obtain ⟨g'', hg'', later⟩ := h'.grouping g' hg'
    exact ⟨g'', hg'', first.trans later⟩

end Accounts
end Node

namespace Network

def notifyAll (net : Network) (m : NodeId) (e : Event) (change : IndexChange) :
    List Side → Except Fault (Network × List Agenda)
  | [] => .ok (net, [])
  | side :: rest => do
    let (net, agenda) ← net.notifyNode m side e change
    let (net, agendas) ← notifyAll net m e change rest
    return (net, agenda :: agendas)

structure Attends (masks : IndexId → Mask) (content : IndexId → Multiset Tuple)
    (view : Side → Multiset Tuple) (m : NodeId) (v : Vertex) (net : Network) : Prop where
  maskOf : net.maskOf = masks
  vertex : net.vertices[m]? = some v
  reads : (v.node.source .primary).isSome
  fits : ∃ width, v.node.Fits masks width v.arity
  holds : v.node.Holds masks 0 view
  widths : v.node.Widths masks view
  source : ∀ side I, v.node.source side = some I →
    ∃ ix, net.index I = .ok ix ∧ ix.Sound ∧ ix.content = content I ∧ ix.mask = masks I

theorem exists_depth {net : Network} {m : NodeId} {v : Vertex} (hv : net.vertices[m]? = some v) :
    ∃ depth, net.vertices.size = depth + 1 := by
  obtain ⟨hm, -⟩ := Array.getElem?_eq_some_iff.1 hv
  exact Nat.exists_eq_add_one.2 (Nat.zero_lt_of_lt hm)

namespace Attends
variable {masks : IndexId → Mask} {content : IndexId → Multiset Tuple}
  {view : Side → Multiset Tuple} {m : NodeId} {v : Vertex} {net : Network}

theorem pull (h : Attends masks content view m v net)
    (told : ∀ side I, v.node.source side = some I → view side = content I) :
    ∃ rows, net.pull m = .ok rows ∧ (↑rows : Multiset Tuple) = v.node.output masks 0 view := by
  obtain ⟨width, fits⟩ := h.fits
  have unfed : v.node.isFed = true → False := fun hf => by
    have := h.reads
    rw [Node.source_of_isFed hf] at this
    cases this
  obtain ⟨depth, hd⟩ := exists_depth h.vertex
  have legible : net.Legible depth v 0 view width := by
    refine ⟨h.maskOf ▸ fits, h.maskOf ▸ h.holds, fun hf => (unfed hf).elim, fun side I hs => ?_⟩
    obtain ⟨ix, hi, sound, hc, hm⟩ := h.source side I hs
    exact ⟨ix, hi, sound, hc.trans (told side I hs).symm, h.maskOf ▸ hm⟩
  rw [Network.pull, hd, ← h.maskOf]
  exact legible.pullWithin h.vertex

theorem setIndex (h : Attends masks content view m v net) {I : IndexId} {ix ix' : Index}
    (hi : net.index I = .ok ix) (bare : ix'.bare = ix.bare) (sound : ix'.Sound) :
    Attends masks (Function.update content I ix'.content) view m v (net.setIndex I ix') := by
  obtain ⟨a, ha, rfl⟩ := exists_of_index hi
  have same : (net.setIndex I ix').maskOf = masks := by
    rw [← maskOf_bare, bare_setIndex ha bare, maskOf_bare, h.maskOf]
  have now : ∀ J b, net.arrangements[J]? = some b → (net.setIndex I ix').index J =
      .ok (if I = J then ix' else b.index) := by
    intro J b hb
    have held : (net.setIndex I ix').arrangements[J]? = _ := arrangements_setIndex
    rw [hb] at held
    by_cases hIJ : I = J
    · rw [if_pos hIJ] at held ⊢
      exact index_eq held
    · rw [if_neg hIJ] at held ⊢
      exact index_eq held
  refine ⟨same, h.vertex, h.reads, h.fits, h.holds, h.widths, fun side J hs => ?_⟩
  obtain ⟨ix, hJ, sound', content', mask⟩ := h.source side J hs
  obtain ⟨b, hb, rfl⟩ := exists_of_index hJ
  refine ⟨_, now J b hb, ?_⟩
  by_cases hIJ : I = J
  · subst hIJ
    cases ha.symm.trans hb
    rw [if_pos rfl, Function.update_self]
    exact ⟨sound, rfl, (Index.mask_eq_of_bare_eq bare).trans mask⟩
  · rw [if_neg hIJ, Function.update_of_ne (Ne.symm hIJ)]
    exact ⟨sound', content', mask⟩

theorem contentOf (h : Attends masks content view m v net) {side : Side} {I : IndexId}
    (hs : v.node.source side = some I) : net.contentOf I = content I := by
  obtain ⟨ix, hi, -, hc, -⟩ := h.source side I hs
  obtain ⟨a, ha, rfl⟩ := exists_of_index hi
  exact (contentOf_eq ha).trans hc

theorem consult (h : Attends masks content view m v net) {id? : Option IndexId} (signature : Tuple)
    (hid : ∀ J, id? = some J → ∃ side, v.node.source side = some J) :
    ∃ net' bucket, net.consult id? signature = .ok (net', bucket) ∧
      Attends masks content view m v net' ∧
      ∀ J, id? = some J → Finds bucket (group (masks J) (content J) signature) := by
  cases id? with
  | none => exact ⟨net, none, rfl, h, fun J hJ => nomatch hJ⟩
  | some J =>
    obtain ⟨side, hs⟩ := hid J rfl
    obtain ⟨ix, hi, sound, hc, hm⟩ := h.source side J hs
    have kept := h.setIndex hi (Index.bare_probe ix signature) (sound.probe signature)
    rw [Index.content_probe, hc, Function.update_eq_self] at kept
    refine ⟨net.setIndex J (ix.probe signature).1, ix.bucket? signature, ?_, kept, ?_⟩
    · rw [Network.consult, hi]
      rfl
    · rintro _ ⟨⟩
      rw [← hm, ← hc]
      exact sound.finds signature

/-- A node that is told of a change of an index on one side answers with the change of its output. -/
theorem notify (h : Attends masks content view m v net) {side : Side} {e : Event}
    {change : IndexChange} {I : IndexId}
    (told : v.node.Told masks (fun _ => false) side e change view I)
    (ahead : ∀ J, v.node.consults side change = some J →
      content J = v.node.consulted side e view) :
    ∃ net' n' out, net.notifyNode m side e change = .ok (net', out.map (Task.propagate m)) ∧
      Attends masks content (onSide side (e.apply (view side)) view) m { v with node := n' } net' ∧
      Node.Accounts masks v.arity v.node n' view (onSide side (e.apply (view side)) view) [out] := by
  obtain ⟨width, fits⟩ := h.fits
  obtain ⟨net₁, bucket, hconsult, h₁, found⟩ := h.consult change.signature fun J hJ => by
    rcases Node.source_of_consults told.source hJ with ⟨-, -, rfl⟩ | ⟨-, hs⟩ | ⟨-, hs⟩
    · exact ⟨side, told.source⟩
    · exact ⟨_, hs⟩
    · exact ⟨_, hs⟩
  have finds : ∀ J, v.node.consults side change = some J → Finds bucket
      (group (masks J) (v.node.consulted side e view) change.signature) :=
    fun J hJ => ahead J hJ ▸ found J hJ
  obtain ⟨n', out, respond, bare, holds, leads⟩ :=
    Node.respond_responds False fits h.holds told finds
  replace leads : Leads v.arity False _ _ _ := leads.weaken False.elim
  refine ⟨net₁.setNode m n', n', out, step_notify h.vertex hconsult respond, ?_, ?_⟩
  · constructor
    case maskOf => rw [← maskOf_bare, bare_setNode h₁.vertex bare, maskOf_bare, h₁.maskOf]
    case vertex => exact vertex_setNode h₁.vertex
    case reads =>
      rw [Node.source_of_bare_eq bare]
      exact h.reads
    case fits =>
      refine ⟨width, ?_⟩
      rw [← Node.fits_bare, bare, Node.fits_bare]
      exact fits
    case holds => exact holds
    case widths =>
      intro t J hJ
      rw [Node.source_of_bare_eq bare] at hJ
      by_cases ht : t = side
      · subst ht
        rw [onSide_self]
        cases told.source.symm.trans hJ
        exact (Leads.single told.suits).width_right (h.widths t _ hJ)
      · rw [onSide_of_ne ht]
        exact h.widths t J hJ
    case source => exact fun t J hJ => h₁.source t J ((Node.source_of_bare_eq bare t).symm.trans hJ)
  · refine ⟨bare, (List.flatten_singleton (l := out)).symm ▸ leads, fun p s c d hn => ?_, fun g hg => ?_⟩
    · rw [hn] at fits told finds respond
      exact .single (Node.swaps_outerJoin fits told finds respond) Unmixed.mono
        (unmixed_pairings _ _) (unmixed_pairings _ _)
    · rw [hg] at respond
      obtain ⟨⟨g', out'⟩, hr, he⟩ := bind_ok respond
      cases he
      exact ⟨g', rfl, .single (Node.swaps_grouping hr) Single.mono (single_toList _)
        (single_toList _)⟩

end Attends

structure Takes (mask : Mask) (e : Event) (change : IndexChange) (S : Multiset Tuple) : Prop where
  suits : e.Suits mask.width False S
  signature : change.signature = mask.signature e.tuple
  transition : change.transition = true ↔ ∀ u ∈ e.rest S, mask.signature u ≠ mask.signature e.tuple

section notifications
variable {masks : IndexId → Mask} {content after : IndexId → Multiset Tuple}
  {view : Side → Multiset Tuple} {m : NodeId} {v : Vertex} {net : Network} {e : Event}
  {change : IndexChange} {I : IndexId}

theorem notifyAll_append {sides sides' : List Side} {net net' net'' : Network}
    {agendas agendas' : List Agenda} (h : net.notifyAll m e change sides = .ok (net', agendas))
    (h' : net'.notifyAll m e change sides' = .ok (net'', agendas')) :
    net.notifyAll m e change (sides ++ sides') = .ok (net'', agendas ++ agendas') := by
  induction sides generalizing net agendas with
  | nil =>
    cases h
    exact h'
  | cons side rest ih =>
    obtain ⟨⟨net₁, agenda⟩, first, h⟩ := bind_ok h
    obtain ⟨⟨net₂, others⟩, later, h⟩ := bind_ok h
    cases h
    rw [List.cons_append, notifyAll, first]
    change (net₁.notifyAll m e change (rest ++ sides') >>= fun r => pure (r.1, agenda :: r.2)) = _
    rw [ih later]
    rfl

theorem reading_eq {n : Node} {side : Side} {J : IndexId} (h : n.source side = some J)
    (content : IndexId → Multiset Tuple) : n.reading content side = content J := by
  rw [Node.reading, h]
  rfl

/-- One side is told, if it reads the index. The primary side is told while the secondary one is still
to be told, and the secondary side when the primary one has been told. -/
theorem Attends.notifyOn (side : Side) (h : Attends masks after view m v net)
    (taken : Takes (masks I) e change (content I))
    (hafter : after = Function.update content I (e.apply (content I)))
    (here : view side = v.node.reading content side)
    (there : ∀ o, o ≠ side → view o = v.node.reading (if side = .primary then content else after) o) :
    ∃ net' n' outs, net.notifyAll m e change ([side].filter fun side => v.node.source side = some I) =
        .ok (net', outs.map fun out : List Event => out.map (Task.propagate m)) ∧
      Attends masks after (onSide side (v.node.reading after side) view) m { v with node := n' } net' ∧
      Node.Accounts masks v.arity v.node n' view (onSide side (v.node.reading after side) view) outs := by
  by_cases hs : v.node.source side = some I
  · rw [reading_eq hs] at here ⊢
    have now : after I = e.apply (view side) := by rw [hafter, Function.update_self, here]
    have told : v.node.Told masks (fun _ => false) side e change view I := by
      refine ⟨hs, ?_, taken.signature, ?_, h.widths, fun _ _ _ => nofun, ?_⟩
      · rw [here]
        exact ⟨taken.suits.width, fun _ => nofun, taken.suits.revoke⟩
      · rw [here]
        exact taken.transition
      · rintro rfl hsec
        rw [there .secondary (by simp), if_pos rfl, reading_eq hsec, here]
    obtain ⟨net', n', out, hn, attends, accounts⟩ := h.notify told fun J hJ => by
      rcases Node.source_of_consults hs hJ with ⟨rfl, hsec, rfl⟩ | ⟨rfl, hsec⟩ | ⟨rfl, hprim⟩
      · rw [Node.consulted_primary_of_none hsec, now]
      · rw [Node.consulted_primary_of_some hsec, hs, there .secondary (by simp), if_pos rfl,
          reading_eq hsec, hafter]
        by_cases hJI : J = I
        · rw [if_pos (by rw [hJI]), hJI, Function.update_self]
        · rw [if_neg fun hx => hJI (Option.some.inj hx).symm, Function.update_of_ne hJI]
      · rw [Node.consulted_secondary, there .primary (by simp), if_neg (by simp),
          reading_eq hprim]
    refine ⟨net', n', [out], ?_, now ▸ attends, now ▸ accounts⟩
    rw [List.filter_singleton, decide_eq_true hs]
    change Network.notifyAll net m e change [side] = _
    rw [notifyAll, hn]
    rfl
  · have same : v.node.reading after side = view side := by
      rw [here, Node.reading, Node.reading]
      cases hJ : v.node.source side with
      | none => rfl
      | some J =>
        rw [hafter]
        exact Function.update_of_ne (fun hx => hs (hJ.trans (congrArg some hx))) _ _
    rw [same, onSide_eta]
    refine ⟨net, v.node, [], ?_, h, .nil⟩
    rw [List.filter_singleton, decide_eq_false hs]
    rfl

theorem Attends.notifyAll (h : Attends masks after (v.node.reading content) m v net)
    (taken : Takes (masks I) e change (content I))
    (hafter : after = Function.update content I (e.apply (content I))) :
    ∃ net' n' outs, net.notifyAll m e change (v.node.sidesOn I) =
        .ok (net', outs.map fun out : List Event => out.map (Task.propagate m)) ∧
      Attends masks after (v.node.reading after) m { v with node := n' } net' ∧
      Node.Accounts masks v.arity v.node n' (v.node.reading content) (v.node.reading after) outs := by
  obtain ⟨net₁, n₁, outs, first, h₁, accounts⟩ :=
    h.notifyOn .primary taken hafter rfl fun _ _ => rfl
  have source := Node.source_of_bare_eq accounts.bare
  have reading : ∀ content, n₁.reading content = v.node.reading content := fun content =>
    funext fun side => by rw [Node.reading, Node.reading, source]
  obtain ⟨net₂, n₂, outs', later, h₂, accounts'⟩ := h₁.notifyOn .secondary taken hafter
    (by rw [reading]; rfl) fun o ho => by
      cases o with
      | primary =>
        rw [reading]
        rfl
      | secondary => exact absurd rfl ho
  dsimp only at later h₂ accounts'
  have all : onSide .secondary (v.node.reading after .secondary)
      (onSide .primary (v.node.reading after .primary) (v.node.reading content)) =
        v.node.reading after := by
    funext side
    cases side <;> rfl
  rw [reading, all] at h₂ accounts'
  refine ⟨net₂, n₂, outs ++ outs', ?_, h₂, accounts.trans accounts'⟩
  rw [List.map_append]
  have sides : v.node.sidesOn I = ([.primary].filter fun side => v.node.source side = some I) ++
      [.secondary].filter fun side => n₁.source side = some I := by
    simp only [source]
    exact List.filter_append [Side.primary] [Side.secondary]
  rw [sides]
  exact notifyAll_append first later

end notifications

/-- The node reads indexes, and what it keeps of them is up to date: the groups of a grouping are the
folds of the buckets. -/
structure Reads (net : Network) (m : NodeId) (v : Vertex) : Prop where
  vertex : net.vertices[m]? = some v
  reads : (v.node.source .primary).isSome
  fits : ∃ width, v.node.Fits net.maskOf width v.arity
  sound : ∀ side I, v.node.source side = some I → ∃ ix, net.index I = .ok ix ∧ ix.Sound
  folded : ∀ g, v.node = .grouping g → ∀ ix, net.index g.source = .ok ix →
    ∀ s : Tuple, g.fold (ix.bucket? s) = .ok g.groups[s]?

def pairingsOf (net : Network) (p s : IndexId) : Multiset Pairing :=
  pairings (net.maskOf p) (net.maskOf s) (net.contentOf p) (net.contentOf s)

/-- Where a node is told of a change that an index has taken, its answers account for the difference
between what it is read as before and what it is read as then. -/
structure Delta (net net' : Network) (m : NodeId) (n n' : Node) (outs : List (List Event))
    (before after : List Tuple) : Prop where
  pull_before : net.pull m = .ok before
  pull_after : net'.pull m = .ok after
  balance : ∀ t, Event.balance outs.flatten t =
    (↑after : Multiset Tuple).count t - (↑before : Multiset Tuple).count t
  /-- the rows of an outer join come of pairings, and no primary tuple is ever held both with a
  partner and without any -/
  outerJoin : ∀ p s c d, n = .outerJoin p s c d →
    (net.pairingsOf p s).map (Pairing.row c d) = ↑before ∧
    (net'.pairingsOf p s).map (Pairing.row c d) = ↑after ∧
    Node.Orderly Unmixed (Pairing.row c d) (net.pairingsOf p s) (net'.pairingsOf p s) outs
  /-- the rows of a grouping come of its groups, and no signature ever has two of them -/
  grouping : ∀ g, n = .grouping g → ∃ g', n' = .grouping g' ∧
    g.groups.toList.map groupEntry = before ∧ g'.groups.toList.map groupEntry = after ∧
    Node.Orderly Single groupEntry ↑g.groups.toList ↑g'.groups.toList outs

section delta
variable {masks : IndexId → Mask} {content : IndexId → Multiset Tuple}
  {view : Side → Multiset Tuple} {net : Network} {m : NodeId} {v : Vertex}

theorem holds_grouping_iff {g : Grouping} {masks : IndexId → Mask} {fed : Multiset Tuple}
    {view : Side → Multiset Tuple} {ix : Index} (sound : ix.Sound) (hm : ix.mask = masks g.source)
    (hc : ix.content = view .primary) (hg : ∀ c, g.column = some c → c < (masks g.source).width) :
    (Node.grouping g).Holds masks fed view ↔
      ∀ s : Tuple, g.fold (ix.bucket? s) = .ok g.groups[s]? := by
  refine forall_congr' fun s => ?_
  rw [← hm, ← hc, Node.fold_eq (fun _ => sound.width) (hm ▸ hg) (sound.finds s), Except.ok.injEq]
  exact eq_comm

theorem Reads.attends (h : net.Reads m v) :
    Attends net.maskOf net.contentOf (v.node.reading net.contentOf) m v net := by
  have source : ∀ side I, v.node.source side = some I → ∃ ix, net.index I = .ok ix ∧ ix.Sound ∧
      ix.content = net.contentOf I ∧ ix.mask = net.maskOf I := by
    intro side I hs
    obtain ⟨ix, hi, sound⟩ := h.sound side I hs
    obtain ⟨a, ha, rfl⟩ := exists_of_index hi
    exact ⟨a.index, hi, sound, (contentOf_eq ha).symm, (maskOf_eq ha).symm⟩
  have widths : v.node.Widths net.maskOf (v.node.reading net.contentOf) := by
    intro side I hs
    obtain ⟨ix, -, sound, hc, hm⟩ := source side I hs
    rw [reading_eq hs, ← hc, ← hm]
    exact fun t ht => sound.width ht
  refine ⟨rfl, h.vertex, h.reads, h.fits, ?_, widths, source⟩
  obtain ⟨width, fits⟩ := h.fits
  have reads := h.reads
  cases hn : v.node with
  | grouping g =>
    obtain ⟨ix, hi, sound, hc, hm⟩ := source .primary g.source (hn ▸ rfl)
    rw [hn] at fits
    exact (holds_grouping_iff sound hm hc fits.1).2 (h.folded g hn ix hi)
  | join | existence | outerJoin => trivial
  | _ =>
    rw [hn] at reads
    cases reads

theorem reads_of_attends (h : Attends masks content (v.node.reading content) m v net) :
    net.Reads m v := by
  refine ⟨h.vertex, h.reads, h.maskOf ▸ h.fits, fun side I hs => ?_, fun g hg ix hi => ?_⟩
  · obtain ⟨ix, hi, sound, -⟩ := h.source side I hs
    exact ⟨ix, hi, sound⟩
  · have hs : v.node.source .primary = some g.source := hg ▸ rfl
    obtain ⟨ix', hi', sound, hc, hm⟩ := h.source .primary g.source hs
    cases hi.symm.trans hi'
    obtain ⟨width, fits⟩ := h.fits
    have holds := h.holds
    rw [hg] at fits holds
    exact (holds_grouping_iff sound hm hc fits.1).1 holds

theorem AtRest.reads {val : NodeId → Multiset Tuple} (w : net.Wired) (h : net.AtRest val)
    (hv : net.vertices[m]? = some v) (hr : (v.node.source .primary).isSome) : net.Reads m v := by
  obtain ⟨width, fits, -⟩ := w.fits m v hv
  refine ⟨hv, hr, ⟨width, fits⟩, fun side I hs => ?_, fun g hg ix hi => ?_⟩
  · obtain ⟨ix, hi, sound, -⟩ := h.index_source w hv hs
    exact ⟨ix, hi, sound⟩
  · have hs : v.node.source .primary = some g.source := hg ▸ rfl
    obtain ⟨ix', hi', sound, hc, hm⟩ := h.index_source w hv hs
    cases hi.symm.trans hi'
    have holds := h.holds m v hv
    rw [hg] at fits holds
    exact (holds_grouping_iff sound hm hc fits.1).1 holds

theorem pull_grouping {g : Grouping} (hv : net.vertices[m]? = some v) (hg : v.node = .grouping g) :
    net.pull m = .ok (g.groups.toList.map groupEntry) := by
  obtain ⟨depth, hd⟩ := exists_depth hv
  rw [pull, hd, pullWithin, Network.vertex, hv]
  simp only [bind, Except.bind, hg]
  rfl

/-- The delta rule. A node over indexes that is told of a change of one of them, on the primary side
first if it reads the index on both, puts out what its output changes by. -/
theorem Reads.delta_rule (h : net.Reads m v) {side : Side} {I : IndexId} {ix ix' : Index} {e : Event}
    {change : IndexChange} (hI : v.node.source side = some I) (hi : net.index I = .ok ix)
    (hu : ix.update e = .ok (ix', .ok change)) :
    ∃ net' n' outs before after, (net.setIndex I ix').notifyAll m e change (v.node.sidesOn I) =
        .ok (net', outs.map fun out : List Event => out.map (Task.propagate m)) ∧
      net'.Reads m { v with node := n' } ∧ Delta net net' m v.node n' outs before after := by
  have start := h.attends
  obtain ⟨ix₀, hi₀, sound, hc, hm⟩ := start.source side I hI
  cases hi.symm.trans hi₀
  have suits := sound.suits hu
  obtain ⟨ix₁, transition, hu₁, sound', bare, content', htrans⟩ := sound.update suits
  cases hu.symm.trans hu₁
  have taken : Takes (net.maskOf I) e ⟨ix.mask.signature e.tuple, transition⟩ (net.contentOf I) := by
    rw [← hm, ← hc]
    exact ⟨⟨suits.width, fun _ => nofun, suits.revoke⟩, rfl, htrans⟩
  have updated := start.setIndex hi bare sound'
  rw [content', hc] at updated
  obtain ⟨now, hnow⟩ : ∃ now, now = Function.update net.contentOf I (e.apply (net.contentOf I)) :=
    ⟨_, rfl⟩
  rw [← hnow] at updated
  obtain ⟨net', n', outs, notified, told, accounts⟩ := updated.notifyAll taken hnow
  obtain ⟨before, pull_before, hbefore⟩ := start.pull fun _ _ hs => reading_eq hs _
  have source := Node.source_of_bare_eq accounts.bare
  obtain ⟨after, pull_after, hafter⟩ := told.pull fun side _ hs =>
    reading_eq ((source side).symm.trans hs) _
  replace hafter : (↑after : Multiset Tuple) = v.node.output net.maskOf 0 _ :=
    hafter.trans (Node.output_of_bare_eq accounts.bare _ _)
  have content : ∀ side J, v.node.source side = some J → net'.contentOf J = now J :=
    fun side J hJ => told.contentOf ((source side).trans hJ)
  have reading : n'.reading now = v.node.reading now :=
    funext fun side => by rw [Node.reading, Node.reading, source]
  refine ⟨net', n', outs, before, after, notified, reads_of_attends (reading ▸ told), pull_before,
    pull_after, fun t => ?_, ?_, ?_⟩
  · rw [hbefore, hafter]
    exact accounts.leads.balance t
  · intro p s c d hn
    have orderly := accounts.outerJoin p s c d hn
    have rows : ∀ view, v.node.output net.maskOf 0 view = leftJoin (net.maskOf p) (net.maskOf s) c d
        (view .primary) (view .secondary) := fun view => by rw [hn]; rfl
    rw [hn] at content
    rw [hbefore, hafter, rows, rows, hn, pairingsOf, pairingsOf, told.maskOf,
      content .primary p rfl, content .secondary s rfl, map_row_pairings, map_row_pairings]
    rw [hn] at orderly
    exact ⟨rfl, rfl, orderly⟩
  · intro g hg
    obtain ⟨g', rfl, orderly⟩ := accounts.grouping g hg
    refine ⟨g', rfl, ?_, ?_, orderly⟩
    · exact Except.ok.inj ((pull_grouping h.vertex hg).symm.trans pull_before)
    · exact Except.ok.inj ((pull_grouping told.vertex rfl).symm.trans pull_after)

def fans : Network :=
  let starts : Mask := @Mask.ofFins 2 [⟨0, Nat.zero_lt_two⟩]
  { vertices := #[{
      node := .outerJoin 0 0 starts.complement [.null], parents := [], arity := 3 }]
    arrangements := #[{ parent := 0, index := { name := "starts", mask := starts, unique := true } }] }

theorem reads_fans : fans.Reads 0 ⟨.outerJoin 0 0 (@Mask.ofFins 2 [0]).complement [.null], [], [], 3⟩ where
  vertex := rfl
  reads := rfl
  fits := ⟨0, rfl, rfl, rfl⟩
  sound side I hs := by
    obtain rfl : 0 = I := by cases side <;> exact Option.some.inj hs
    exact ⟨_, rfl, Index.sound_of_empty rfl⟩
  folded _ h := nomatch h

theorem fans_delta : ∃ ix ix' change, fans.index 0 = .ok ix ∧
    ix.update ⟨.insert, [.int 1, .int 2]⟩ = .ok (ix', .ok change) ∧
    ∃ net' n' outs before after, (fans.setIndex 0 ix').notifyAll 0 ⟨.insert, [.int 1, .int 2]⟩ change
        [.primary, .secondary] =
          .ok (net', outs.map fun out : List Event => out.map (Task.propagate 0)) ∧
      net'.Reads 0 ⟨n', [], [], 3⟩ ∧
      Delta fans net' 0 (.outerJoin 0 0 (@Mask.ofFins 2 [0]).complement [.null]) n' outs before after :=
  ⟨_, _, _, rfl, rfl, reads_fans.delta_rule (rfl : Node.source _ .primary = some 0) rfl rfl⟩

end delta
end Network
end Motif
