import Mathlib.Data.Finset.Card
import Motif.Proofs.Network.Steps

/-!
In an untangled network without cycles every propagation ends, and when it has ended nothing is on
its way. The induction is over the nodes strictly below the one whose changes are passed on: a node
is told of an index when all that an earlier listener makes of the same change has come to rest.
-/
set_option autoImplicit false
namespace Motif
namespace Network

inductive Settles : Network → Agenda → Network → Prop where
  | nil (net : Network) : Settles net [] net
  | cons {net net₁ net₂ net' : Network} {task : Task} {more rest : Agenda} :
      net.step task = .ok (net₁, more) → Settles net₁ more net₂ → Settles net₂ rest net' →
      Settles net (task :: rest) net'

namespace Settles
variable {net net₁ net' : Network} {agenda agenda' : Agenda}

theorem append (h : Settles net agenda net₁) (h' : Settles net₁ agenda' net') :
    Settles net (agenda ++ agenda') net' := by
  induction h with
  | nil => exact h'
  | cons hstep hmore _ _ ih => exact .cons hstep hmore (ih h')

theorem settle?_append (h : Settles net agenda net') (rest : Agenda) :
    net.settle? (agenda ++ rest) = net'.settle? rest := by
  induction h generalizing rest with
  | nil => rfl
  | cons hstep _ _ ihm ihr =>
    rw [List.cons_append, settle?.eq_def]
    dsimp only
    rw [hstep]
    dsimp only
    rw [ihm, ihr]

theorem settle_eq (h : Settles net agenda net') : net.settle agenda = .ok net' := by
  have := h.settle?_append []
  rw [List.append_nil, settle?.eq_1 net'] at this
  rw [settle, this]
  rfl

end Settles

def Leaves (s : Network) (base : NodeId → Multiset Tuple) (net : Network) (agenda : Agenda)
    (lag : NodeId → Nat → List Event) (due : NodeId → Side → Option IndexNotice) : Prop :=
  ∃ net' seen view, Settles net agenda net' ∧ OnlyFailures net net' ∧
    Flowing s base net' lag due seen view

variable {s net : Network} {base : NodeId → Multiset Tuple} {lag : NodeId → Nat → List Event}
  {due : NodeId → Side → Option IndexNotice} {seen : NodeId → Nat → Multiset Tuple}
  {view : NodeId → Side → Multiset Tuple}

theorem Leaves.refl (h : Flowing s base net lag due seen view) : Leaves s base net [] lag due :=
  ⟨net, seen, view, .nil net, .of_eq rfl, h⟩

theorem Leaves.cons {task : Task} {net₁ : Network} {more rest : Agenda}
    {lag' : NodeId → Nat → List Event} {due' : NodeId → Side → Option IndexNotice}
    (hstep : net.step task = .ok (net₁, more)) (ho : OnlyFailures net net₁)
    (h : Leaves s base net₁ more lag due)
    (h' : ∀ net' seen view, Flowing s base net' lag due seen view →
      Leaves s base net' rest lag' due') : Leaves s base net (task :: rest) lag' due' := by
  obtain ⟨net₂, seen, view, hs, ho₂, hf⟩ := h
  obtain ⟨net₃, seen', view', hs', ho₃, hf'⟩ := h' net₂ seen view hf
  exact ⟨net₃, seen', view', .cons hstep hs hs', ho.trans (ho₂.trans ho₃), hf'⟩

def Still (lag : NodeId → Nat → List Event) (due : NodeId → Side → Option IndexNotice)
    (m : NodeId) : Prop :=
  (lag m = fun _ => []) ∧ ∀ side, due m side = none

/-- If nothing is on its way below a node, the changes it has put out can be passed on, and then
nothing is again. -/
def Flushes (s : Network) (n : NodeId) : Prop :=
  n < s.vertices.size → ∀ base net lag due seen view es,
    Flowing s base net (Function.update lag n fun _ => es) due seen view →
    (∀ m, s.Below n m → Still lag due m) →
    Leaves s base net (es.map (Task.propagate n)) (Function.update lag n fun _ => []) due

def dueTo (ls : List (NodeId × Side)) (notice : IndexNotice)
    (due : NodeId → Side → Option IndexNotice) : NodeId → Side → Option IndexNotice :=
  fun q side => if (q, side) ∈ ls then some notice else due q side

/-- The listeners of an index are notified one after the other, each when the one before has come to
rest. -/
theorem notify_all (w : s.Wired) {I : IndexId} {e : Event} {c : IndexChange}
    (ls : List (NodeId × Side)) (hls : ∀ l ∈ ls, l ∈ s.listenersOf I) (nodup : ls.Nodup)
    (order : ls.Pairwise fun l l' => l.1 = l'.1 → l.2 = .primary)
    (whole : ∀ n, (n, .primary) ∈ ls → (n, .secondary) ∈ s.listenersOf I → (n, .secondary) ∈ ls)
    (apart : ls.Pairwise fun l l' => ¬s.Below l.1 l'.1) (flushes : ∀ l ∈ ls, Flushes s l.1)
    (still : ∀ l ∈ ls, Still lag due l.1 ∧ ∀ m, s.Below l.1 m → Still lag due m)
    (h : Flowing s base net lag (dueTo ls (e, c) due) seen view) :
    Leaves s base net (ls.map fun l => .notify l.1 l.2 e c) lag due := by
  induction ls generalizing net seen view with
  | nil =>
    have hd : dueTo [] (e, c) due = due := by
      funext q side
      exact if_neg (by simp)
    exact .refl (hd ▸ h)
  | cons l rest ih =>
    obtain ⟨n, side⟩ := l
    obtain ⟨hstill, hbelow⟩ := still (n, side) (by simp)
    rw [List.pairwise_cons] at order apart
    rw [List.nodup_cons] at nodup
    have hd : dueTo ((n, side) :: rest) (e, c) due n side = some (e, c) := if_pos (by simp)
    -- A second side that reads the same index is behind by the same notice if it comes later.
    have other : ∀ o J, o ≠ side → (n, o) ∈ s.listenersOf J →
        dueTo ((n, side) :: rest) (e, c) due n o =
          if J = I ∧ side = .primary then some (e, c) else none := by
      intro o J ho hJ
      have here : (n, o) ∈ rest ↔ J = I ∧ side = .primary := by
        constructor
        · intro hm
          obtain ⟨v, hv, hs⟩ := (w.listens n o J).1 hJ
          obtain ⟨v', hv', hs'⟩ := (w.listens n o I).1 (hls _ (by simp [hm]))
          cases hv.symm.trans hv'
          exact ⟨Option.some.inj (hs.symm.trans hs'), order.1 _ hm rfl⟩
        · rintro ⟨rfl, rfl⟩
          have ho : o = .secondary := by cases o <;> simp_all
          subst ho
          have := whole n (by simp) hJ
          simpa using this
      have hne : (n, o) ≠ (n, side) := fun e => ho (Prod.mk.inj e).2
      rw [dueTo]
      simp only [List.mem_cons, hne, false_or, here, hstill.2 o]
    obtain ⟨net₁, out, view₁, hstep, honly, h₁⟩ :=
      h.notify w (hls _ (by simp)) hd other hstill.1
    have hdue : (fun q t => if q = n ∧ t = side then none else
        dueTo ((n, side) :: rest) (e, c) due q t) = dueTo rest (e, c) due := by
      funext q t
      by_cases hq : q = n ∧ t = side
      · obtain ⟨rfl, rfl⟩ := hq
        simp [dueTo, nodup.1, hstill.2]
      · rw [if_neg hq]
        simp [dueTo, Prod.ext_iff, hq]
    rw [hdue] at h₁
    have hquiet : ∀ m, s.Below n m → Still lag (dueTo rest (e, c) due) m := fun m hm =>
      ⟨(hbelow m hm).1, fun t => by
        rw [dueTo, if_neg fun hx => apart.1 _ hx hm]
        exact (hbelow m hm).2 t⟩
    obtain ⟨v, hv, -⟩ := (w.listens n side I).1 (hls _ (by simp))
    have hflush := flushes (n, side) (by simp) (Array.getElem?_eq_some_iff.1 hv).1 base net₁ lag _
      seen view₁ out h₁ hquiet
    rw [← hstill.1, Function.update_eq_self] at hflush
    refine Leaves.cons hstep honly hflush fun net₂ seen₂ view₂ h₂ => ?_
    refine ih (fun l hl => hls l (by simp [hl])) nodup.2 order.2 (fun q hq hs => ?_) apart.2
      (fun l hl => flushes l (by simp [hl])) (fun l hl => still l (by simp [hl])) h₂
    have hm := whole q (by simp [hq]) hs
    rcases List.mem_cons.1 hm with he | hm
    · cases he
      exact absurd (order.1 _ hq rfl) (by simp)
    · exact hm

/-- A change is delivered to one receiver after the other, each when the one before has come to
rest. -/
theorem deliver_all (w : s.Wired) (acyclic : s.Acyclic) (untangled : s.Untangled) {n : NodeId}
    {e : Event} {es : List Event} (flushes : ∀ m, s.Feeds n m → Flushes s m)
    (still : ∀ m, s.Below n m → Still lag due m) (rs : List Receiver) (k : Nat)
    (hrs : rs = (s.receiversOf n).drop k)
    (h : Flowing s base net (Function.update lag n fun j => if j < k then es else e :: es) due seen
      view) :
    Leaves s base net (rs.map (Task.deliver · e)) (Function.update lag n fun _ => es) due := by
  induction rs generalizing k net seen view with
  | nil =>
    have hk := List.drop_eq_nil_iff.1 hrs.symm
    refine .refl (h.congr_lag fun q j hj => ?_)
    by_cases hq : q = n
    · subst hq
      rw [Function.update_self, Function.update_self, if_pos (Nat.lt_of_lt_of_le hj hk)]
    · rw [Function.update_of_ne hq, Function.update_of_ne hq]
  | cons R rest ih =>
    have hR : (s.receiversOf n)[k]? = some R := by
      rw [← List.head?_drop, ← hrs]
      rfl
    have hrest : rest = (s.receiversOf n).drop (k + 1) := by
      rw [← List.tail_drop, ← hrs]
      rfl
    obtain ⟨lag₀, hlag₀⟩ : ∃ f, f = Function.update lag n fun j => if j < k then es else e :: es :=
      ⟨_, rfl⟩
    have hl : lag₀ n k = e :: es := by simp [hlag₀]
    have hpassed : atSlot n k es lag₀ =
        Function.update lag n fun j => if j < k + 1 then es else e :: es := by
      funext q j
      by_cases hq : q = n
      · subst hq
        by_cases hj : j = k
        · simp [atSlot, hj]
        · rw [atSlot, if_neg fun e => hj e.2, hlag₀, Function.update_self, Function.update_self]
          exact if_congr (by omega) rfl rfl
      · simp [atSlot, hlag₀, hq]
    have hbelow : ∀ m, s.Below n m → lag₀ m = lag m := fun m hm => by
      rw [hlag₀, Function.update_of_ne]
      rintro rfl
      exact acyclic _ hm
    rw [← hlag₀] at h
    obtain ⟨lag₁, hlag₁⟩ : ∃ f, f = Function.update lag n fun j =>
      if j < k + 1 then es else e :: es := ⟨_, rfl⟩
    rw [← hlag₁] at hpassed
    have hstill : ∀ m, s.Below n m → Still lag₁ due m := fun m hm => by
      refine ⟨?_, (still m hm).2⟩
      rw [hlag₁, Function.update_of_ne]
      · exact (still m hm).1
      · rintro rfl
        exact acyclic _ hm
    have next : ∀ net' seen view, Flowing s base net' lag₁ due seen view →
        Leaves s base net' (rest.map (Task.deliver · e)) (Function.update lag n fun _ => es) due :=
      fun net' seen view h' => ih (k + 1) hrest (hlag₁ ▸ h')
    cases R with
    | node m =>
      have hfeeds : s.Feeds n m := .inl (List.mem_of_getElem? hR)
      have hm : s.Below n m := .single hfeeds
      obtain ⟨net₁, out, seen₁, hstep, honly, h₁⟩ := h.deliver_node w hR hl
        (fun hx => acyclic n (hx ▸ hm)) ((hbelow m hm).trans (still m hm).1)
      rw [hpassed] at h₁
      obtain ⟨v, hv, -⟩ := w.fed n m (List.mem_of_getElem? hR)
      have hflush := flushes m hfeeds (Array.getElem?_eq_some_iff.1 hv).1 base net₁ lag₁ due seen₁
        view out h₁ fun m' hm' =>
        hstill m' (hm.trans hm')
      rw [← (hstill m hm).1, Function.update_eq_self] at hflush
      exact Leaves.cons hstep honly hflush next
    | index I =>
      have hmem := List.mem_of_getElem? hR
      have feeds : ∀ l ∈ s.listenersOf I, s.Feeds n l.1 := fun l hl' => .inr ⟨I, l.2, hmem, hl'⟩
      obtain ⟨net₁, change, seen₁, hstep, honly, h₁⟩ := h.deliver_index w hR hl
        fun l hl' => (still l.1 (.single (feeds l hl'))).2 l.2
      rw [hpassed] at h₁
      have hall := notify_all w (s.listenersOf I) (fun _ hl' => hl') (w.nodup I) (w.order I)
        (fun _ _ hs => hs) (untangled I) (fun l hl' => flushes l.1 (feeds l hl'))
        (fun l hl' => ⟨hstill l.1 (.single (feeds l hl')), fun m hm =>
          hstill m (.head (feeds l hl') hm)⟩) h₁
      exact Leaves.cons hstep honly hall next

theorem flushes_of_feeds (w : s.Wired) (acyclic : s.Acyclic) (untangled : s.Untangled) {n : NodeId}
    (flushes : ∀ m, s.Feeds n m → Flushes s m) : Flushes s n := by
  intro hn base net lag due seen view es h still
  induction es generalizing net seen view with
  | nil => exact .refl h
  | cons e es ih =>
    obtain ⟨v, hv, -⟩ := h.exists_vertex (Array.getElem?_eq_getElem hn)
    have hstep : net.step (.propagate n e) = .ok ({ net with propagated := net.propagated + 1 },
        (s.receiversOf n).map (Task.deliver · e)) := by
      rw [Network.step, Network.vertex, hv, h.receiversOf hv]
      rfl
    have next : Flowing s base { net with propagated := net.propagated + 1 }
        (Function.update lag n fun _ => e :: es) due seen view := h.of_eq rfl rfl rfl
    have hd := deliver_all w acyclic untangled flushes still (s.receiversOf n) 0 rfl next
    exact Leaves.cons hstep (.of_eq rfl) hd fun _ _ _ h' => ih _ _ _ h'

theorem flushes (w : s.Wired) (acyclic : s.Acyclic) (untangled : s.Untangled) (n : NodeId) :
    Flushes s n := by
  classical
  obtain ⟨height, hheight⟩ : ∃ k, ((Finset.range s.vertices.size).filter fun m =>
    s.Below n m).card = k := ⟨_, rfl⟩
  induction height using Nat.strong_induction_on generalizing n with
  | _ height ih =>
    refine flushes_of_feeds w acyclic untangled fun m hm => ?_
    by_cases hsize : m < s.vertices.size
    · refine ih _ ?_ m rfl
      rw [← hheight]
      refine Finset.card_lt_card ((Finset.ssubset_iff_of_subset fun q hq => ?_).2 ⟨m, ?_, ?_⟩)
      · rw [Finset.mem_filter] at hq ⊢
        exact ⟨hq.1, .head hm hq.2⟩
      · exact Finset.mem_filter.2 ⟨Finset.mem_range.2 hsize, .single hm⟩
      · exact fun hx => acyclic m (Finset.mem_filter.1 hx).2
    · exact fun hx => absurd hx hsize

end Network
end Motif
