import Motif.Proofs.Log

/-!
Histories of a model. What has been taken from the log, followed by what is still in it, leads from
nothing to what the model holds. On the way no tuple is taken away that has not come before, and none
comes twice to a relation that is a set.
-/
set_option autoImplicit false
namespace Motif

namespace Change

def balance (cs : List Change) (r : Relation) (t : Tuple) : Int :=
  cs.count ⟨r, .insert, t⟩ - cs.count ⟨r, .revoke, t⟩

variable {c : Change} {r : Relation} {t : Tuple}

theorem balance_cons (c : Change) (cs : List Change) (r : Relation) (t : Tuple) :
    balance (c :: cs) r t = balance [c] r t + balance cs r t := by
  simp only [balance, List.count_cons, List.count_nil]
  omega

theorem balance_singleton_of_ne (h : c.relation ≠ r) : balance [c] r t = 0 := by
  have other : ∀ d, (c == ⟨r, d, t⟩) = false := fun d =>
    beq_false_of_ne fun e => h (congrArg Change.relation e)
  rw [balance, List.count_singleton, List.count_singleton, other, other]
  rfl

theorem Suits.count {s : Schema} {held : Relation → Multiset Tuple} (h : c.Suits s held)
    (r : Relation) (t : Tuple) :
    ((c.apply held r).count t : Int) = (held r).count t + balance [c] r t := by
  rw [Change.apply]
  by_cases hr : c.relation = r
  · subst hr
    rw [Function.update_self]
    obtain ⟨r, d, u⟩ := c
    cases d with
    | insert =>
      rw [Event.apply_insert, Multiset.count_cons, balance, List.count_singleton,
        List.count_singleton]
      by_cases ht : t = u <;> simp [ht, Ne.symm]
    | revoke =>
      have there : u ∈ held r := h.revoke rfl
      rw [Event.apply_revoke, balance, List.count_singleton, List.count_singleton]
      by_cases ht : t = u
      · have := Multiset.count_pos.2 there
        rw [ht, Multiset.count_erase_self]
        simp
        omega
      · rw [Multiset.count_erase_of_ne ht]
        simp [Ne.symm ht]
  · rw [Function.update_of_ne (Ne.symm hr), balance_singleton_of_ne hr, add_zero]

end Change

namespace Schema.Leads
variable {s : Schema} {held held' : Relation → Multiset Tuple} {cs cs' : List Change} {r : Relation}

theorem split (h : s.Leads held (cs ++ cs') held') :
    ∃ between, s.Leads held cs between ∧ s.Leads between cs' held' := by
  induction cs generalizing held with
  | nil => exact ⟨held, rfl, h⟩
  | cons c rest ih =>
    obtain ⟨between, past, future⟩ := ih h.2
    exact ⟨between, ⟨h.1, past⟩, future⟩

theorem count (h : s.Leads held cs held') (r : Relation) (t : Tuple) :
    ((held' r).count t : Int) = (held r).count t + Change.balance cs r t := by
  induction cs generalizing held with
  | nil =>
    cases h
    exact (add_zero _).symm
  | cons c rest ih => rw [ih h.2, h.1.count, Change.balance_cons c rest, add_assoc]

theorem nodup (h : s.Leads held cs held') (hr : s.isUnique r = true) (hn : (held r).Nodup) :
    (held' r).Nodup := by
  induction cs generalizing held with
  | nil => exact h ▸ hn
  | cons c rest ih =>
    refine ih h.2 ?_
    rw [Change.apply]
    by_cases he : r = c.relation
    · subst he
      rw [Function.update_self]
      exact h.1.nodup_apply hr hn
    · rwa [Function.update_of_ne he]

end Schema.Leads

namespace Model
variable {m m' : Model} {schema : Schema} {told : List Change}

inductive Request where
  | write (w : Write)
  /-- takes the log -/
  | drain
  deriving DecidableEq, Repr

def serve (p : Model × List Change) : Request → Model × List Change
  | .write w => ((p.1.write w).1, p.2)
  | .drain => (p.1.drain.1, p.2 ++ p.1.drain.2)

def past (p : Model × List Change) : List Change := p.2 ++ p.1.drain.2

/-- What has happened leads from nothing to what is held. -/
def Recalls (schema : Schema) (p : Model × List Change) : Prop :=
  p.1.schema = schema ∧ schema.Leads (fun _ => 0) (past p) p.1.held

theorem held_start (schema : Schema) : held { schema } = fun _ => 0 := by
  funext r
  cases r <;> rfl

theorem recalls_start (schema : Schema) : Recalls schema ({ schema }, []) :=
  ⟨rfl, (held_start schema).symm⟩

theorem Recalls.serve {p : Model × List Change} (h : Recalls schema p) (r : Request) :
    Recalls schema (serve p r) := by
  cases r with
  | write w =>
    obtain ⟨news, logs⟩ := p.1.logs_write w
    have grown : past (Model.serve p (.write w)) = past p ++ news := by
      rw [past, past, Model.serve, drain, drain, logs.log, List.reverse_append, List.reverse_reverse,
        List.append_assoc]
    refine ⟨logs.schema.trans h.1, ?_⟩
    rw [grown]
    exact h.2.trans (h.1 ▸ logs.leads)
  | drain =>
    have same : past (Model.serve p .drain) = past p := List.append_nil _
    refine ⟨h.1, ?_⟩
    rw [same]
    exact h.2

theorem recalls (schema : Schema) (rs : List Request) :
    Recalls schema (rs.foldl serve ({ schema }, [])) := by
  have kept : ∀ p, Recalls schema p → Recalls schema (rs.foldl serve p) := by
    induction rs with
    | nil => exact fun _ h => h
    | cons r rest ih => exact fun p h => ih _ (h.serve r)
  exact kept _ (recalls_start schema)

/-- However often the log is taken, what it has told comes to what the relations hold, and at no
point to less than nothing, or to more than a set can hold. -/
theorem history_faithful (schema : Schema) (rs : List Request) :
    let p := rs.foldl serve ({ schema }, [])
    (∀ r t, Change.balance (past p) r t = (p.1.tuples r).count t) ∧
    ∀ early, early <+: past p → ∀ r t, 0 ≤ Change.balance early r t ∧
      (schema.isUnique r = true → Change.balance early r t ≤ 1) := by
  intro p
  obtain ⟨-, leads⟩ : Recalls schema p := recalls schema rs
  refine ⟨fun r t => ?_, ?_⟩
  · have := leads.count r t
    rw [count_held, Multiset.count_zero, Int.natCast_zero, zero_add] at this
    exact this.symm
  · rintro early ⟨late, hpast⟩ r t
    obtain ⟨between, before, -⟩ := (hpast ▸ leads).split
    have count := before.count r t
    rw [Multiset.count_zero, Int.natCast_zero, zero_add] at count
    refine ⟨count ▸ Int.natCast_nonneg _, fun unique => ?_⟩
    have := Multiset.nodup_iff_count_le_one.1 (before.nodup unique Multiset.nodup_zero) t
    omega

/-- A self-reference goes with its object, once. -/
example : past ([.write (.create "A"), .write (.addValue (.object 1) "f" (.object 1)), .drain,
    .write (.removeObject 1)].foldl serve ({}, [])) =
    [⟨.extent "A", .insert, [.object 1]⟩, ⟨.feature "f", .insert, [.object 1, .object 1]⟩,
      ⟨.feature "f", .revoke, [.object 1, .object 1]⟩, ⟨.extent "A", .revoke, [.object 1]⟩] := by
  decide +kernel

end Model
end Motif
