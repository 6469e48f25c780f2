import Mathlib.Data.List.Forall2
import Motif.Proofs.Algebra.OfPlan
import Motif.Proofs.Model
import Motif.Proofs.Search.Frames
import Motif.Search.Run

set_option autoImplicit false
namespace Motif

open Std (ExtTreeSet)

namespace Search
variable {σ ε α β : Type}

/-- From every state the search ends, without breaking off, and what it answers has the property. -/
def Returns (x : Search σ ε α) (P : α → Prop) : Prop :=
  ∀ st, ∃ a st', x.run.run st = some (.ok a, st') ∧ P a

theorem Returns.mono {x : Search σ ε α} {P Q : α → Prop} (h : x.Returns P) (hPQ : ∀ a, P a → Q a) :
    x.Returns Q := fun st =>
  let ⟨a, st', e, ha⟩ := h st
  ⟨a, st', e, hPQ a ha⟩

theorem returns_pure {a : α} {P : α → Prop} (h : P a) :
    Returns (pure a : Search σ ε α) P := fun st => ⟨a, st, rfl, h⟩

theorem Returns.bind {x : Search σ ε α} {g : α → Search σ ε β} {P : α → Prop} {Q : β → Prop}
    (hx : x.Returns P) (hg : ∀ a, P a → (g a).Returns Q) : (x >>= g).Returns Q := by
  intro st
  obtain ⟨a, st', ex, ha⟩ := hx st
  obtain ⟨b, st'', eg, hb⟩ := hg a ha st'
  refine ⟨b, st'', ?_, hb⟩
  rw [ExceptT.run_bind, StateT.run_bind, ex]
  exact eg

theorem returns_mapM {l : List α} {g : α → Search σ ε β} {P : α → β → Prop}
    (h : ∀ a ∈ l, (g a).Returns (P a)) : (l.mapM g).Returns (List.Forall₂ P l) := by
  induction l with
  | nil => exact returns_pure .nil
  | cons a rest ih =>
    rw [List.mapM_cons]
    refine (h a List.mem_cons_self).bind fun b hb => ?_
    refine (ih fun c hc => h c (List.mem_cons_of_mem a hc)).bind fun bs hbs => ?_
    exact returns_pure (.cons hb hbs)

end Search

theorem Binding.agrees_iff {b : Binding} {t : Tuple} :
    b.agrees t = true ↔ ∀ (n : Nat) v, b[n]? = some (some v) → t[n]? = some v := by
  induction b generalizing t with
  | nil => simp [agrees]
  | cons o rest ih =>
    have tail : ∀ n, t.tail[n]? = t[n + 1]? := fun n => List.getElem?_tail
    have split : ∀ {p : Nat → Prop}, (∀ n, p n) ↔ p 0 ∧ ∀ n, p (n + 1) := fun {p} =>
      ⟨fun h => ⟨h 0, fun n => h (n + 1)⟩, fun h n => n.casesOn h.1 h.2⟩
    rw [split]
    cases o with
    | none => simp [agrees, ih]
    | some v => simp [agrees, ih, List.head?_eq_getElem?]

def Slots.Of (s : Slots) (xs : List Variable) (is : List Nat) : Prop :=
  List.Forall₂ (fun x i => s.slot? x = some i) xs is

namespace Slots
variable {s : Slots} {xs : List Variable} {is : List Nat}

theorem of_mapM (h : xs.mapM s.slot = .ok is) : s.Of xs is :=
  (forall₂_of_mapM h).imp fun _ _ => slot?_of_ok

theorem Of.mapM_slot (h : s.Of xs is) : xs.mapM s.slot = .ok is := by
  induction h with
  | nil => rfl
  | cons hx _ ih =>
    rw [List.mapM_cons, ih, slot, hx]
    rfl

theorem of_one {x : Variable} {i : Nat} (hx : s.slot? x = some i) : s.Of [x] [i] := .cons hx .nil

theorem of_two {x y : Variable} {i j : Nat} (hx : s.slot? x = some i) (hy : s.slot? y = some j) :
    s.Of [x, y] [i, j] := .cons hx (of_one hy)

theorem Of.getElem?_eq (h : s.Of xs is) {n i : Nat} (hi : is[n]? = some i) :
    ∃ x, xs[n]? = some x ∧ s.slot? x = some i := by
  obtain ⟨hn, rfl⟩ := List.getElem?_eq_some_iff.1 hi
  have hx : n < xs.length := h.length_eq ▸ hn
  exact ⟨xs[n], List.getElem?_eq_getElem hx, h.get hx hn⟩

theorem Of.exists_slot (h : s.Of xs is) {n : Nat} {x : Variable} (hx : xs[n]? = some x) :
    ∃ i, is[n]? = some i ∧ s.slot? x = some i := by
  obtain ⟨hn, rfl⟩ := List.getElem?_eq_some_iff.1 hx
  have hi : n < is.length := h.length_eq ▸ hn
  exact ⟨is[n], List.getElem?_eq_getElem hi, h.get hn hi⟩

theorem Of.mapM_value? (h : s.Of xs is) {f : Frame} {σ : Assignment} (hs : f.Suits s σ)
    (hb : ∀ x ∈ xs, f.Binds s x) : is.mapM f.value? = some (xs.map σ) := by
  induction h with
  | nil => rfl
  | cons hx _ ih =>
    rw [List.forall_mem_cons] at hb
    rw [List.mapM_cons, hs.value? hx hb.1, ih hb.2]
    rfl

theorem Of.map_value? (h : s.Of xs is) {f : Frame} {σ : Assignment} (hs : f.Suits s σ)
    (hb : ∀ x ∈ xs, f.Binds s x) : is.map (fun i => (f.value? i).getD .null) = xs.map σ := by
  induction h with
  | nil => rfl
  | cons hx _ ih =>
    rw [List.forall_mem_cons] at hb
    rw [List.map_cons, List.map_cons, hs.value? hx hb.1, ih hb.2, Option.getD_some]

end Slots

namespace CallFrame
variable {is : List Nat} {bound : ExtTreeSet Nat} {t : Tuple}

theorem isConsistent_of : (CallFrame.of is bound).isConsistent t = true ↔
    ∀ (p q : Nat) i, is[p]? = some i → is[q]? = some i → t[p]? = t[q]? := by
  simp only [isConsistent, CallFrame.of, List.all_eq_true, List.mem_zipIdx_iff_getElem?,
    List.getElem?_map, Option.map_eq_some_iff, Bool.or_eq_true, decide_eq_true_eq, Prod.forall,
    Prod.mk.injEq]
  constructor
  · intro h p q i hp hq
    exact (h i _ p ⟨i, hp, rfl, rfl⟩ i _ q ⟨i, hq, rfl, rfl⟩).resolve_left fun e => e rfl
  · rintro h i - p ⟨_, hp, rfl, -⟩ j - q ⟨_, hq, rfl, -⟩
    rw [or_iff_not_imp_left, not_not]
    rintro rfl
    exact h p q _ hp hq

theorem binding_of {f : Frame} {n : Nat} {v : Value} :
    ((CallFrame.of is bound).binding f)[n]? = some (some v) ↔
      ∃ i, is[n]? = some i ∧ i ∈ bound ∧ f.value? i = some v := by
  simp only [binding, CallFrame.of, List.getElem?_map, Option.map_map, Option.map_eq_some_iff,
    Function.comp_apply]
  grind

end CallFrame

namespace Searcher
variable {σ ε : Type} {s : Searcher σ ε} {m : Model} {called : String → Prop}
  {found : String → Finset Tuple}

/-- The searcher reads the model and, asked for one of the queries called, is told the matches that
agree with the binding, each once. -/
structure Answers (s : Searcher σ ε) (m : Model) (called : String → Prop)
    (found : String → Finset Tuple) : Prop where
  graph : s.graph = m.graph
  ask : ∀ r, called r.query → ∀ b, (s.ask r b).Returns fun l =>
    l.Nodup ∧ ∀ t, t ∈ l ↔ t ∈ found r.query ∧ b.agrees t = true
  report : ∀ i, (s.report i).Returns fun _ => True

variable {slots : Slots} {f : Frame} {xs : List Variable} {is : List Nat}
  {before : ExtTreeSet Variable}

/-- A match is allowed by the frame if it is what the arguments are for some values that have the
bound ones among them. -/
theorem allowed_iff (hxs : slots.Of xs is) (hb : ∀ x ∈ before, f.Binds slots x)
    {σ : Assignment} (hs : f.Suits slots σ) {t : Tuple} (ht : t.length = xs.length) :
    (((CallFrame.of is (slots.slotsOf before)).binding f).agrees t &&
        (CallFrame.of is (slots.slotsOf before)).isConsistent t) = true ↔
      ∃ τ : Assignment, (∀ x ∈ xs, x ∈ before → τ x = σ x) ∧ xs.map τ = t := by
  rw [Bool.and_eq_true, Binding.agrees_iff, CallFrame.isConsistent_of]
  simp only [CallFrame.binding_of]
  constructor
  · rintro ⟨agrees, consistent⟩
    have row : xs.map (Assignment.ofRow xs t) = t := by
      refine List.ext_getElem (by rw [List.length_map, ht]) fun n hn hn' => ?_
      have hx : n < xs.length := by rwa [List.length_map] at hn
      have hj : xs.idxOf xs[n] < xs.length := List.idxOf_lt_length_of_mem (List.getElem_mem hx)
      obtain ⟨i, hi, hslot⟩ := hxs.exists_slot (List.getElem?_eq_getElem hx)
      obtain ⟨i', hi', hslot'⟩ := hxs.exists_slot (List.getElem?_eq_getElem hj)
      have same : i' = i := by
        rw [List.getElem_idxOf] at hslot'
        exact Option.some_inj.1 (hslot'.symm.trans hslot)
      have equal := consistent _ n i (same ▸ hi') hi
      rw [List.getElem_map, Assignment.ofRow, List.getD_eq_getElem?_getD, equal,
        List.getElem?_eq_getElem hn', Option.getD_some]
    refine ⟨.ofRow xs t, fun x hx hm => ?_, row⟩
    obtain ⟨n, hn⟩ := List.mem_iff_getElem?.1 hx
    obtain ⟨i, hi, hslot⟩ := hxs.exists_slot hn
    have bound := (Slots.mem_slotsOf_slot hslot).2 hm
    have value := agrees n (σ x) ⟨i, hi, bound, hs.value? hslot (hb x hm)⟩
    rw [← row, List.getElem?_map, hn] at value
    exact Option.some_inj.1 value
  · rintro ⟨τ, same, rfl⟩
    constructor
    · rintro n v ⟨i, hi, hm, hv⟩
      obtain ⟨x, hx, hslot⟩ := hxs.getElem?_eq hi
      rw [Slots.mem_slotsOf_slot hslot] at hm
      rw [hs.value? hslot (hb x hm)] at hv
      rw [List.getElem?_map, hx, ← hv, Option.map_some, same x (List.mem_of_getElem? hx) hm]
    · intro p q i hp hq
      obtain ⟨x, hx, hslot⟩ := hxs.getElem?_eq hp
      obtain ⟨y, hy, hslot'⟩ := hxs.getElem?_eq hq
      rw [List.getElem?_map, List.getElem?_map, hx, hy, Slots.slot?_inj hslot hslot']

theorem call_returns (hs : s.Answers m called found) (hxs : slots.Of xs is)
    (hb : ∀ x ∈ before, f.Binds slots x) {r : Reference} (hr : called r.query)
    (hw : ∀ t ∈ found r.query, t.length = xs.length) :
    (s.call r (CallFrame.of is (slots.slotsOf before)) f).Returns fun l =>
      l.Nodup ∧ ∀ σ, f.Suits slots σ → ∀ t, t ∈ l ↔ t ∈ found r.query ∧
        ∃ τ : Assignment, (∀ x ∈ xs, x ∈ before → τ x = σ x) ∧ xs.map τ = t := by
  refine (hs.ask r hr _).bind fun l ⟨hd, hl⟩ => Search.returns_pure ⟨hd.filter _, fun σ hσ t => ?_⟩
  rw [List.mem_filter, hl, and_assoc]
  refine and_congr_right fun ht => ?_
  rw [← allowed_iff hxs hb hσ (hw t ht), Bool.and_eq_true, and_iff_right_iff_imp.2]
  exact fun h => h.1

end Searcher
end Motif
