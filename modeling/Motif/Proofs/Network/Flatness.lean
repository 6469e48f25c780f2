import Motif.Proofs.Network.Reading

set_option autoImplicit false
namespace Motif
namespace Network

/-- The second network has the nodes and indexes of the first, with what they hold; there may be
more, and they may have more receivers and listeners. -/
structure Keeps (net net' : Network) : Prop where
  vertex : ∀ (q : NodeId) (v : Vertex), net.vertices[q]? = some v → ∃ v' : Vertex,
    net'.vertices[q]? = some v' ∧ v'.node = v.node ∧ v'.arity = v.arity ∧
      (v.node.isProduction = false → v'.parents = v.parents)
  arrangement : ∀ (I : IndexId) (a : Arrangement), net.arrangements[I]? = some a →
    ∃ a' : Arrangement, net'.arrangements[I]? = some a' ∧ a'.parent = a.parent ∧
      a'.index = a.index

variable {net net' : Network}

theorem Keeps.index (k : Keeps net net') {I : IndexId} {ix : Index} (h : net.index I = .ok ix) :
    net'.index I = .ok ix := by
  obtain ⟨a, ha, rfl⟩ := exists_of_index h
  obtain ⟨a', ha', -, e⟩ := k.arrangement I a ha
  rw [index_eq ha', e]

theorem Keeps.bothUnique (k : Keeps net net') {p s : IndexId} {b : Bool} (h : (do
    if (← net.index p).unique then return (← net.index s).unique else return false) =
      (.ok b : Except Fault Bool)) : (do
    if (← net'.index p).unique then return (← net'.index s).unique else return false) =
      (.ok b : Except Fault Bool) := by
  obtain ⟨ip, hp, h⟩ := bind_ok h
  rw [k.index hp]
  simp only [bind, Except.bind]
  split at h
  · next hu =>
    rw [if_pos hu]
    obtain ⟨is, hs, h⟩ := bind_ok h
    rw [k.index hs]
    exact h
  · next hu =>
    rw [if_neg hu]
    exact h

theorem firstHas_mono {f g : NodeId → Except Fault Bool} (h : ∀ p b, f p = .ok b → g p = .ok b)
    {ps : List NodeId} {b : Bool} (hb : firstHas f ps = .ok b) : firstHas g ps = .ok b := by
  cases ps with
  | nil => exact hb
  | cons p rest => exact h p b hb

/-- What a network says about a node it says with more fuel, and when it has grown. -/
theorem Keeps.producesSetWithin (k : Keeps net net') {depth : Nat} {q : NodeId} {b : Bool}
    (h : net.producesSetWithin depth q = .ok b) (more : Nat) :
    net'.producesSetWithin (depth + more) q = .ok b := by
  induction depth generalizing q b with
  | zero => cases h
  | succ depth ih =>
    have first : ∀ {ps : List NodeId} {b : Bool},
        firstHas (net.producesSetWithin depth) ps = .ok b →
          firstHas (net'.producesSetWithin (depth + more)) ps = .ok b :=
      fun hb => firstHas_mono (fun p b => ih) hb
    rw [Nat.add_right_comm, Network.producesSetWithin]
    rw [Network.producesSetWithin] at h
    cases hv : net.vertices[q]? with
    | none =>
      rw [Network.vertex, hv] at h
      cases h
    | some v =>
      rw [Network.vertex, hv] at h
      obtain ⟨v', hv', hn, -, hp⟩ := k.vertex q v hv
      rw [Network.vertex, hv']
      simp only [bind, Except.bind] at h ⊢
      rw [hn]
      cases hk : v.node with
      | trim mask =>
        rw [hk] at h hp
        rw [hp rfl]
        by_cases hm : mask.isIdentity = true
        · simp only [hm, if_true] at h ⊢
          exact first h
        · simp only [hm] at h ⊢
          exact h
      | constantFilter _ _ | equalityFilter _ | inequalityFilter _ _ | expression _ =>
        rw [hk] at h hp
        rw [hp rfl]
        exact first h
      | join p s _ | outerJoin p s _ _ =>
        rw [hk] at h
        exact k.bothUnique h
      | existence p _ _ =>
        rw [hk] at h
        obtain ⟨ix, hi, h⟩ := bind_ok (x := net.index p) h
        simp only [k.index hi]
        exact h
      | _ =>
        rw [hk] at h
        exact h

theorem Keeps.refl (net : Network) : Keeps net net :=
  ⟨fun _ v hv => ⟨v, hv, rfl, rfl, fun _ => rfl⟩, fun _ a ha => ⟨a, ha, rfl, rfl⟩⟩

theorem Keeps.trans {net'' : Network} (k : Keeps net net') (k' : Keeps net' net'') :
    Keeps net net'' := by
  refine ⟨fun q v hv => ?_, fun I a ha => ?_⟩
  · obtain ⟨v', hv', hn, ha, hp⟩ := k.vertex q v hv
    obtain ⟨v'', hv'', hn', ha', hp'⟩ := k'.vertex q v' hv'
    exact ⟨v'', hv'', hn'.trans hn, ha'.trans ha, fun hx => (hp' (hn ▸ hx)).trans (hp hx)⟩
  · obtain ⟨a', ha', hp, hi⟩ := k.arrangement I a ha
    obtain ⟨a'', ha'', hp', hi'⟩ := k'.arrangement I a' ha'
    exact ⟨a'', ha'', hp'.trans hp, hi'.trans hi⟩

theorem Wired.producesSetWithin (w : net.Wired) {depth : Nat} {q : NodeId}
    (hq : q < net.vertices.size) (hd : q < depth) :
    ∃ b, net.producesSetWithin depth q = .ok b := by
  induction depth generalizing q with
  | zero => exact absurd hd (Nat.not_lt_zero q)
  | succ depth ih =>
    obtain ⟨v, hv⟩ : ∃ v, net.vertices[q]? = some v := ⟨_, Array.getElem?_eq_getElem hq⟩
    rw [Network.producesSetWithin, Network.vertex, hv]
    simp only [bind, Except.bind]
    have first : v.node.isFed = true → v.node.isProduction = false →
        ∃ b, firstHas (net.producesSetWithin depth) v.parents = .ok b := by
      intro hf hp
      obtain ⟨p, hpar, hlt⟩ := w.earlier q v hv hf hp
      rw [hpar]
      exact ih (hlt.trans hq) (Nat.lt_of_lt_of_le hlt (Nat.le_of_lt_succ hd))
    have both : ∀ p s : IndexId, v.node.source .primary = some p →
        v.node.source .secondary = some s → ∃ b, (do
          if (← net.index p).unique then return (← net.index s).unique else return false) =
            (.ok b : Except Fault Bool) := by
      intro p s hp hs
      obtain ⟨a, ha⟩ := w.exists_arrangement hv hp
      obtain ⟨a', ha'⟩ := w.exists_arrangement hv hs
      rw [index_eq ha, index_eq ha']
      cases hu : a.index.unique <;> simp [bind, Except.bind, hu, pure, Except.pure]
    cases hn : v.node with
    | trim mask =>
      by_cases hm : mask.isIdentity = true
      · simp only [hm, if_true]
        exact first (by rw [hn]; rfl) (by rw [hn]; rfl)
      · simp only [hm]
        exact ⟨false, rfl⟩
    | constantFilter _ _ | equalityFilter _ | inequalityFilter _ _ | expression _ =>
      exact first (by rw [hn]; rfl) (by rw [hn]; rfl)
    | join p s _ | outerJoin p s _ _ => exact both p s (by rw [hn]; rfl) (by rw [hn]; rfl)
    | existence p s _ =>
      obtain ⟨a, ha⟩ := w.exists_arrangement hv
        (show v.node.source .primary = some p by rw [hn]; rfl)
      simp only [index_eq ha]
      exact ⟨_, rfl⟩
    | _ => exact ⟨_, rfl⟩

theorem Keeps.flat_iff (w : net.Wired) (k : Keeps net net') {q : NodeId}
    (hq : q < net.vertices.size) : net'.Flat q ↔ net.Flat q := by
  constructor
  · rintro ⟨depth, h⟩
    obtain ⟨b, hb⟩ := w.producesSetWithin hq (Nat.lt_succ_self q)
    have hb' := k.producesSetWithin hb depth
    have h' := (Keeps.refl net').producesSetWithin h (q + 1)
    rw [Nat.add_comm] at h'
    rw [hb'] at h'
    cases h'
    exact ⟨_, hb⟩
  · rintro ⟨depth, h⟩
    exact ⟨depth, k.producesSetWithin h 0⟩

theorem Keeps.flat {net net' : Network} (k : Keeps net net') {q : NodeId} (h : net.Flat q) :
    net'.Flat q := by
  obtain ⟨depth, h⟩ := h
  exact ⟨depth, k.producesSetWithin h 0⟩

/-- What a node of a network has put out, a network that has grown still reads. -/
theorem Keeps.pullWithin (k : Keeps net net') {depth more : Nat} {q : NodeId} {rows : List Tuple}
    (h : net.pullWithin depth q = .ok rows) : net'.pullWithin (depth + more) q = .ok rows := by
  induction depth generalizing q rows with
  | zero => cases h
  | succ depth ih =>
    rw [Network.pullWithin] at h
    obtain ⟨v, hv, h⟩ := bind_ok h
    have hv₀ : net.vertices[q]? = some v := by
      rw [Network.vertex] at hv
      split at hv
      · next hx =>
        cases hv
        exact hx
      · cases hv
    obtain ⟨v', hv', hn, -, hp⟩ := k.vertex q v hv₀
    have hvertex : net'.vertex q = .ok v' := by rw [Network.vertex, hv']
    -- A node that reads its parent reads the same of it.
    have parent : ∀ {f : List Tuple → Except Fault (List Tuple)}, v.node.isProduction = false →
        (do f (← net.pullWithin depth (← v.parent))) = .ok rows →
          (do f (← net'.pullWithin (depth + more) (← v'.parent))) = .ok rows := by
      intro f hprod hf
      obtain ⟨p, hpar, hf⟩ := bind_ok hf
      obtain ⟨l, hl, hf⟩ := bind_ok hf
      have hpar' : v'.parent = .ok p := by
        rw [← hpar, Vertex.parent, Vertex.parent, hp hprod]
      rw [hpar']
      simp only [bind, Except.bind, ih hl, hf]
    have both : ∀ {p s : IndexId} {f : Index → Index → Except Fault (List Tuple)},
        (do f (← net.index p) (← net.index s)) = .ok rows →
          (do f (← net'.index p) (← net'.index s)) = .ok rows := by
      intro p s f hf
      obtain ⟨ip, hip, hf⟩ := bind_ok hf
      obtain ⟨is, his, hf⟩ := bind_ok hf
      rw [k.index hip, k.index his]
      exact hf
    rw [Nat.add_right_comm, Network.pullWithin, hvertex]
    simp only [bind, Except.bind]
    rw [hn]
    cases hk : v.node with
    | trim _ | constantFilter _ _ | equalityFilter _ | inequalityFilter _ _ =>
      rw [hk] at h parent
      exact parent rfl h
    | join p s _ | existence p s _ | outerJoin p s _ _ =>
      rw [hk] at h
      exact both h
    | _ =>
      rw [hk] at h
      exact h

end Network
end Motif
