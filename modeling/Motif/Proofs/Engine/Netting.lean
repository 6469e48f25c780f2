import Mathlib.Data.List.Induction
import Mathlib.Data.Set.Insert
import Motif.Engine.Update
import Motif.Proofs.Reach

/-!
Coalesced events. However often matches come and go, one event is left of those of a match, or none if
as many tell of its coming as of its going. What can happen to the matches of the queries by all the
events happens by those that are left.
-/
set_option autoImplicit false
namespace Motif

namespace ProductionEvent

def comings (events : List ProductionEvent) (s : NodeId × Tuple) : Nat :=
  events.count ⟨s.1, .insert, s.2⟩

def goings (events : List ProductionEvent) (s : NodeId × Tuple) : Nat :=
  events.count ⟨s.1, .revoke, s.2⟩

def balance (events : List ProductionEvent) (s : NodeId × Tuple) : Int :=
  comings events s - goings events s

def Suits (e : ProductionEvent) (matched : Set (NodeId × Tuple)) : Prop :=
  match e.event.direction with
  | .insert => e.subject ∉ matched
  | .revoke => e.subject ∈ matched

def apply (e : ProductionEvent) (matched : Set (NodeId × Tuple)) : Set (NodeId × Tuple) :=
  match e.event.direction with
  | .insert => insert e.subject matched
  | .revoke => matched \ {e.subject}

/-- The events happen one after the other: only what is absent comes, and only what is there goes. -/
def Happens : Set (NodeId × Tuple) → List ProductionEvent → Set (NodeId × Tuple) → Prop
  | matched, [], matched' => matched = matched'
  | matched, e :: rest, matched' => e.Suits matched ∧ Happens (e.apply matched) rest matched'

/-- What events come to when those of one match are taken together. -/
structure Nets (events netted : List ProductionEvent) : Prop where
  once : (netted.map subject).Nodup
  insert : ∀ s : NodeId × Tuple, ⟨s.1, .insert, s.2⟩ ∈ netted ↔ goings events s < comings events s
  revoke : ∀ s : NodeId × Tuple, ⟨s.1, .revoke, s.2⟩ ∈ netted ↔ comings events s < goings events s
  order : netted.map subject =
    (firsts (events.map subject)).filter fun s => comings events s ≠ goings events s
  happens : ∀ before after, Happens before events after → Happens before netted after

variable {e : ProductionEvent} {events : List ProductionEvent} {s : NodeId × Tuple}
  {before after : Set (NodeId × Tuple)}

theorem balance_cons (e : ProductionEvent) (events : List ProductionEvent) (s : NodeId × Tuple) :
    balance (e :: events) s = balance [e] s + balance events s := by
  simp only [balance, comings, goings, List.count_cons, List.count_nil]
  omega

theorem balance_concat (events : List ProductionEvent) (e : ProductionEvent) (s : NodeId × Tuple) :
    balance (events ++ [e]) s = balance events s + balance [e] s := by
  simp only [balance, comings, goings, List.count_append]
  omega

theorem balance_singleton (e : ProductionEvent) (s : NodeId × Tuple) :
    balance [e] s = if e.subject = s then e.event.direction.sign else 0 := by
  obtain ⟨node, direction, t⟩ := e
  obtain ⟨node', t'⟩ := s
  simp only [balance, comings, goings, List.count_singleton, subject, beq_iff_eq, mk.injEq,
    Event.mk.injEq, Prod.mk.injEq]
  cases direction <;> by_cases h : node = node' ∧ t = t' <;> simp [h, Direction.sign]

theorem balance_eq_zero (h : s ∉ events.map subject) : balance events s = 0 := by
  induction events with
  | nil => rfl
  | cons e rest ih =>
    rw [List.map_cons, List.mem_cons, not_or] at h
    rw [balance_cons, balance_singleton, if_neg (Ne.symm h.1), ih h.2]
    rfl

end ProductionEvent

open ProductionEvent

theorem firsts_concat {α : Type} [Ord α] [Std.TransOrd α] [Std.LawfulEqOrd α] [DecidableEq α]
    (l : List α) (a : α) : firsts (l ++ [a]) = if a ∈ l then firsts l else firsts l ++ [a] := by
  rw [firsts_eq_eraseDups, firsts_eq_eraseDups, List.eraseDups_append]
  by_cases h : a ∈ l <;> simp [h, List.removeAll, List.eraseDups_cons]

namespace Tally
variable {t : Tally} {events : List ProductionEvent}

structure Counts (t : Tally) (events : List ProductionEvent) : Prop where
  balances : ∀ s, t.balances[s]? =
    if s ∈ events.map subject then some (balance events s) else none
  subjects : t.subjects.reverse = firsts (events.map subject)

theorem Counts.add (h : t.Counts events) (e : ProductionEvent) :
    (t.add e).Counts (events ++ [e]) := by
  have counted : ∀ s, balance (events ++ [e]) s =
      if e.subject = s then balance events s + e.event.direction.sign else balance events s := by
    intro s
    rw [balance_concat, balance_singleton]
    split <;> simp
  have old := h.balances e.subject
  rw [Tally.add]
  by_cases he : e.subject ∈ events.map subject
  · rw [if_pos he] at old
    rw [old]
    refine ⟨fun s => ?_, ?_⟩
    · rw [Std.ExtTreeMap.getElem?_insert, counted, h.balances]
      by_cases hs : e.subject = s
      · subst hs
        simp
      · simp [hs, Ne.symm hs]
    · rw [List.map_append, List.map_singleton, firsts_concat, if_pos he]
      exact h.subjects
  · rw [if_neg he] at old
    rw [old]
    refine ⟨fun s => ?_, ?_⟩
    · rw [Std.ExtTreeMap.getElem?_insert, counted, h.balances]
      by_cases hs : e.subject = s
      · subst hs
        simp [balance_eq_zero he]
      · simp [hs, Ne.symm hs]
    · rw [List.map_append, List.map_singleton, firsts_concat, if_neg he, List.reverse_cons,
        h.subjects]

theorem counts_foldl (events : List ProductionEvent) : (events.foldl add {}).Counts events := by
  induction events using List.reverseRecOn with
  | nil => exact ⟨fun s => by simp, rfl⟩
  | append_singleton events e ih =>
    rw [List.foldl_concat]
    exact ih.add e

/-- The event left of those of a match tells of what there is more of, comings or goings. -/
theorem Counts.event? (h : t.Counts events) (s : NodeId × Tuple) : t.event? s =
    if goings events s < comings events s then some ⟨s.1, .insert, s.2⟩
    else if comings events s < goings events s then some ⟨s.1, .revoke, s.2⟩
    else none := by
  have balance : t.balances.getD s 0 = balance events s := by
    rw [Std.ExtTreeMap.getD_eq_getD_getElem?, h.balances]
    by_cases hs : s ∈ events.map subject
    · rw [if_pos hs]
      rfl
    · rw [if_neg hs, balance_eq_zero hs]
      rfl
  have more : 0 < ProductionEvent.balance events s ↔ goings events s < comings events s := by
    rw [ProductionEvent.balance]
    omega
  have fewer : ProductionEvent.balance events s < 0 ↔ comings events s < goings events s := by
    rw [ProductionEvent.balance]
    omega
  simp only [Tally.event?, balance, more, fewer]

end Tally

section coalesce
variable {events : List ProductionEvent}

theorem coalesce_eq (events : List ProductionEvent) : coalesce events =
    (firsts (events.map subject)).filterMap fun s =>
      if goings events s < comings events s then some ⟨s.1, .insert, s.2⟩
      else if comings events s < goings events s then some ⟨s.1, .revoke, s.2⟩
      else none := by
  have counts := Tally.counts_foldl events
  rw [coalesce, counts.subjects]
  exact List.filterMap_congr fun s _ => counts.event? s

theorem mem_map_subject (s : NodeId × Tuple) (h : comings events s ≠ goings events s) :
    s ∈ firsts (events.map subject) := by
  rw [mem_firsts]
  by_contra hs
  have := balance_eq_zero hs
  rw [balance] at this
  omega

theorem insert_mem_coalesce (s : NodeId × Tuple) :
    ⟨s.1, .insert, s.2⟩ ∈ coalesce events ↔ goings events s < comings events s := by
  obtain ⟨node, t⟩ := s
  rw [coalesce_eq, List.mem_filterMap]
  constructor
  · rintro ⟨⟨node', t'⟩, -, h⟩
    split at h
    · cases h
      assumption
    · split at h <;> cases h
  · intro h
    exact ⟨(node, t), mem_map_subject _ h.ne', if_pos h⟩

theorem revoke_mem_coalesce (s : NodeId × Tuple) :
    ⟨s.1, .revoke, s.2⟩ ∈ coalesce events ↔ comings events s < goings events s := by
  obtain ⟨node, t⟩ := s
  rw [coalesce_eq, List.mem_filterMap]
  constructor
  · rintro ⟨⟨node', t'⟩, -, h⟩
    split at h
    · cases h
    · split at h
      · cases h
        assumption
      · cases h
  · intro h
    exact ⟨(node, t), mem_map_subject _ h.ne, by rw [if_neg h.le.not_gt, if_pos h]⟩

theorem map_subject_coalesce (events : List ProductionEvent) : (coalesce events).map subject =
    (firsts (events.map subject)).filter fun s => comings events s ≠ goings events s := by
  rw [coalesce_eq, List.map_filterMap, ← List.filterMap_eq_filter]
  refine List.filterMap_congr fun s _ => ?_
  rcases lt_trichotomy (comings events s) (goings events s) with h | h | h
  · simp [h, h.le.not_gt, h.ne, subject, Option.guard]
  · simp [h, Option.guard]
  · simp [h, h.ne', subject, Option.guard]

end coalesce

namespace ProductionEvent
variable {e : ProductionEvent} {events : List ProductionEvent} {before after : Set (NodeId × Tuple)}

theorem mem_apply {s : NodeId × Tuple} : s ∈ e.apply before ↔
    if e.subject = s then e.event.direction = .insert else s ∈ before := by
  obtain ⟨node, d, t⟩ := e
  by_cases hs : (node, t) = s
  · cases d <;> simp [apply, subject, hs]
  · cases d
    · exact Set.mem_insert_iff.trans (by simp [subject, hs, Ne.symm hs])
    · exact Set.mem_sdiff_singleton.trans (by simp [subject, hs, Ne.symm hs])

theorem suits_iff : e.Suits before ↔ (e.subject ∈ before ↔ e.event.direction = .revoke) := by
  obtain ⟨node, d, t⟩ := e
  cases d <;> simp [Suits]

open Classical in
noncomputable def presence (matched : Set (NodeId × Tuple)) (s : NodeId × Tuple) : Int :=
  if s ∈ matched then 1 else 0

theorem presence_cases (matched : Set (NodeId × Tuple)) (s : NodeId × Tuple) :
    (s ∈ matched ∧ presence matched s = 1) ∨ (s ∉ matched ∧ presence matched s = 0) := by
  rw [presence]
  by_cases h : s ∈ matched <;> simp [h]

theorem eq_of_presence (h : ∀ s, presence before s = presence after s) : before = after := by
  refine Set.ext fun s => ?_
  have hs := h s
  rcases presence_cases before s with ⟨hb, pb⟩ | ⟨hb, pb⟩ <;>
    rcases presence_cases after s with ⟨ha, pa⟩ | ⟨ha, pa⟩ <;> simp_all

theorem Suits.presence_apply (h : e.Suits before) (s : NodeId × Tuple) :
    presence (e.apply before) s = presence before s + balance [e] s := by
  rw [suits_iff] at h
  rw [balance_singleton]
  have mem : s ∈ e.apply before ↔
      if e.subject = s then e.event.direction = .insert else s ∈ before := mem_apply
  by_cases hs : e.subject = s
  · rw [if_pos hs] at mem ⊢
    rw [hs] at h
    rcases presence_cases before s with ⟨hb, pb⟩ | ⟨hb, pb⟩ <;>
      rcases presence_cases (e.apply before) s with ⟨ha, pa⟩ | ⟨ha, pa⟩ <;>
      cases hd : e.event.direction <;> simp_all [Direction.sign]
  · rw [if_neg hs] at mem ⊢
    rcases presence_cases before s with ⟨hb, pb⟩ | ⟨hb, pb⟩ <;>
      rcases presence_cases (e.apply before) s with ⟨ha, pa⟩ | ⟨ha, pa⟩ <;> simp_all

theorem Happens.presence (h : Happens before events after) (s : NodeId × Tuple) :
    presence after s = presence before s + balance events s := by
  induction events generalizing before with
  | nil =>
    cases h
    exact (Int.add_zero _).symm
  | cons e rest ih => rw [ih h.2, h.1.presence_apply, balance_cons e rest, Int.add_assoc]

theorem Happens.append {between : Set (NodeId × Tuple)} {events' : List ProductionEvent}
    (h : Happens before events between) (h' : Happens between events' after) :
    Happens before (events ++ events') after := by
  induction events generalizing before with
  | nil =>
    cases h
    exact h'
  | cons e rest ih => exact ⟨h.1, ih h.2⟩

theorem Suits.apply_of_ne {e' : ProductionEvent} (h : e'.Suits before)
    (hne : e.subject ≠ e'.subject) : e'.Suits (e.apply before) := by
  rw [suits_iff] at h ⊢
  rw [mem_apply, if_neg hne]
  exact h

theorem exists_happens (nodup : (events.map subject).Nodup) (h : ∀ e ∈ events, e.Suits before) :
    ∃ after, Happens before events after := by
  induction events generalizing before with
  | nil => exact ⟨before, rfl⟩
  | cons e rest ih =>
    rw [List.map_cons, List.nodup_cons] at nodup
    obtain ⟨after, hr⟩ := ih nodup.2 fun e' he' =>
      (h e' (List.mem_cons_of_mem _ he')).apply_of_ne fun heq =>
        nodup.1 (heq ▸ List.mem_map_of_mem he')
    exact ⟨after, h e List.mem_cons_self, hr⟩

end ProductionEvent

section coalesce
variable {events : List ProductionEvent} {before after : Set (NodeId × Tuple)}

theorem nodup_subject_coalesce (events : List ProductionEvent) :
    ((coalesce events).map subject).Nodup := by
  rw [map_subject_coalesce]
  exact (nodup_firsts _).filter _

theorem nodup_coalesce (events : List ProductionEvent) : (coalesce events).Nodup :=
  .of_map _ (nodup_subject_coalesce events)

theorem balance_coalesce (events : List ProductionEvent) (s : NodeId × Tuple) :
    balance (coalesce events) s = (balance events s).sign := by
  have nodup := nodup_coalesce events
  have come : comings (coalesce events) s = if goings events s < comings events s then 1 else 0 := by
    rw [comings, nodup.count]
    exact if_congr (insert_mem_coalesce s) rfl rfl
  have go : goings (coalesce events) s = if comings events s < goings events s then 1 else 0 := by
    rw [goings, nodup.count]
    exact if_congr (revoke_mem_coalesce s) rfl rfl
  rw [balance, come, go, balance]
  rcases lt_trichotomy (comings events s) (goings events s) with h | h | h
  · rw [if_neg h.le.not_gt, if_pos h, Int.sign_eq_neg_one_of_neg (by omega)]
    rfl
  · simp [h]
  · rw [if_pos h, if_neg h.le.not_gt, Int.sign_eq_one_of_pos (by omega)]
    rfl

/-- What is left of events that can happen can happen, and comes to the same. -/
theorem happens_coalesce (h : Happens before events after) :
    Happens before (coalesce events) after := by
  have change := fun s => h.presence s
  have suits : ∀ e ∈ coalesce events, e.Suits before := by
    rintro ⟨node, d, t⟩ he
    have now := change (node, t)
    rw [balance] at now
    cases d with
    | insert =>
      have more := (insert_mem_coalesce (node, t)).1 he
      rcases presence_cases before (node, t) with ⟨hb, pb⟩ | ⟨hb, pb⟩
      · rcases presence_cases after (node, t) with ⟨-, pa⟩ | ⟨-, pa⟩ <;> omega
      · exact hb
    | revoke =>
      have more := (revoke_mem_coalesce (node, t)).1 he
      rcases presence_cases before (node, t) with ⟨hb, pb⟩ | ⟨hb, pb⟩
      · exact hb
      · rcases presence_cases after (node, t) with ⟨-, pa⟩ | ⟨-, pa⟩ <;> omega
  obtain ⟨after', h'⟩ := exists_happens (nodup_subject_coalesce events) suits
  have same : after' = after := eq_of_presence fun s => by
    have now := change s
    have small : balance events s = -1 ∨ balance events s = 0 ∨ balance events s = 1 := by
      rcases presence_cases before s with ⟨-, pb⟩ | ⟨-, pb⟩ <;>
        rcases presence_cases after s with ⟨-, pa⟩ | ⟨-, pa⟩ <;> omega
    have sign : (balance events s).sign = balance events s := by
      rcases small with h | h | h <;> rw [h] <;> rfl
    rw [h'.presence, balance_coalesce, sign, now]
  exact same ▸ h'

theorem coalesce_nets (events : List ProductionEvent) : Nets events (coalesce events) where
  once := nodup_subject_coalesce events
  insert := insert_mem_coalesce
  revoke := revoke_mem_coalesce
  order := map_subject_coalesce events
  happens _ _ := happens_coalesce

end coalesce

namespace Engine

/-- An engine that coalesces tells its listeners of the net change of the matches, whatever events the
network has recorded. -/
theorem takeEvents_nets {e : Engine} (on : e.settings.coalesce = true) :
    Nets e.network.takeEvents.2 e.takeEvents.2 := by
  have taken : e.takeEvents.2 = coalesce e.network.takeEvents.2 := by
    rw [takeEvents]
    exact if_pos on
  rw [taken]
  exact coalesce_nets _

def flickered : Engine :=
  let events : List ProductionEvent :=
    [⟨0, .revoke, [.int 1]⟩, ⟨0, .insert, [.int 2]⟩, ⟨0, .insert, [.int 1]⟩]
  { installed := { network := { events } } }

theorem flickered_nets : flickered.settings.coalesce = true ∧
    Nets [⟨0, .insert, [.int 1]⟩, ⟨0, .insert, [.int 2]⟩, ⟨0, .revoke, [.int 1]⟩]
      flickered.takeEvents.2 ∧
    flickered.takeEvents.2 = [⟨0, .insert, [.int 2]⟩] :=
  ⟨rfl, takeEvents_nets (e := flickered) rfl, by decide +kernel⟩

end Engine
end Motif
