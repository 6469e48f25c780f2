import Mathlib.Data.Finset.Insert
import Mathlib.Data.Finset.Lattice.Basic
import Mathlib.Order.Bounds.Defs
import Motif.Proofs.Algebra.Positive

set_option autoImplicit false
namespace Motif

theorem exists_finset_of_path {found : String → Set Tuple} {query : String} {a b : Value}
    (h : Relation.TransGen (fun x y => [x, y] ∈ found query) a b) :
    ∃ S : Finset (String × Tuple), (∀ p ∈ S, p.2 ∈ found p.1) ∧
      Relation.TransGen (fun x y => (query, [x, y]) ∈ S) a b := by
  induction h with
  | @single b hb => exact ⟨{(query, [a, b])}, by simpa using hb, .single (by simp)⟩
  | @tail b d _ hd ih =>
    obtain ⟨S, hS, path⟩ := ih
    refine ⟨insert (query, [b, d]) S, fun p hp => ?_,
      .tail (Relation.TransGen.mono (fun x y hm => ?_) _ _ path) ?_⟩
    · rcases Finset.mem_insert.1 hp with rfl | hp
      · exact hd
      · exact hS p hp
    · exact Finset.mem_insert_of_mem hm
    · exact Finset.mem_insert_self _ _

namespace Constraint

def Holds (c : Catalog) (base : Relation → Set Tuple) (found : String → Set Tuple)
    (σ : Assignment) : Constraint → Prop
  | holds r xs => xs.map σ ∈ base r
  | find query xs => xs.map σ ∈ found query
  | unequal l r => σ l ≠ σ r
  | equal l r => σ l = σ r
  | constant x v => σ x = v
  | check evaluator xs =>
    ∃ e v, c.evaluators[evaluator]? = some e ∧ e.evaluate (xs.map σ) = .ok v ∧ v.isTruthy = true
  | closure query s t =>
    if σ s = σ t then [σ s, σ t] ∈ found query
    else Relation.TransGen (fun x y => [x, y] ∈ found query) (σ s) (σ t)
  | lacks .. | count .. | aggregate .. | eval .. => False

variable {c : Catalog} {base : Relation → Set Tuple} {found found' : String → Set Tuple}
  {σ : Assignment} {k : Constraint}

/-- Only the matches of the query called matter, and the more there are the better. -/
theorem Holds.mono (h : k.Holds c base found σ)
    (hf : ∀ q, k.calledQuery? = some q → found q ⊆ found' q) : k.Holds c base found' σ := by
  cases k with
  | find query xs => exact hf query rfl h
  | closure query s t =>
    have sub := hf query rfl
    rw [Holds] at h ⊢
    split at h
    · rename_i e
      rw [if_pos e]
      exact sub h
    · rename_i e
      rw [if_neg e]
      exact Relation.TransGen.mono (fun _ _ hm => sub hm) _ _ h
  | _ => exact h

theorem Holds.exists_finset {k : Constraint} (h : k.Holds c base found σ) :
    ∃ S : Finset (String × Tuple), (∀ p ∈ S, p.2 ∈ found p.1) ∧
      k.Holds c base (fun n => {t | (n, t) ∈ S}) σ := by
  cases k with
  | find query xs => exact ⟨{(query, xs.map σ)}, by simpa [Holds] using h, by simp [Holds]⟩
  | closure query s t =>
    rw [Holds] at h
    split at h
    · rename_i e
      refine ⟨{(query, [σ s, σ t])}, by simpa using h, ?_⟩
      rw [Holds, if_pos e]
      exact Finset.mem_singleton_self _
    · rename_i e
      obtain ⟨S, hS, path⟩ := exists_finset_of_path h
      refine ⟨S, hS, ?_⟩
      rw [Holds, if_neg e]
      exact path
  | _ => exact ⟨∅, by simp, h⟩

theorem holds_rename {rep : Variable → Variable} :
    (k.rename rep).Holds c base found σ ↔ k.Holds c base found (σ ∘ rep) := by
  cases k <;> simp only [rename, Holds, List.map_map, Function.comp_apply]

end Constraint

namespace Body

def derives (c : Catalog) (base : Relation → Set Tuple) (found : String → Set Tuple) (b : Body) :
    Set Tuple :=
  {t | ∃ σ : Assignment, (∀ k ∈ b.constraints, k.Holds c base found σ) ∧ b.parameters.map σ = t}

variable {c : Catalog} {base : Relation → Set Tuple} {found found' : String → Set Tuple} {b : Body}

theorem derives_mono (hf : ∀ q, b.Calls q → found q ⊆ found' q) :
    b.derives c base found ⊆ b.derives c base found' := by
  rintro t ⟨σ, hσ, rfl⟩
  exact ⟨σ, fun k hk => (hσ k hk).mono fun q hq => hf q ⟨k, hk, hq⟩, rfl⟩

theorem exists_finset_of_derives {b : Body} {t : Tuple} (h : t ∈ b.derives c base found) :
    ∃ S : Finset (String × Tuple), (∀ p ∈ S, p.2 ∈ found p.1) ∧
      t ∈ b.derives c base fun n => {t | (n, t) ∈ S} := by
  obtain ⟨σ, hσ, rfl⟩ := h
  have all : ∀ ks : List Constraint, (∀ k ∈ ks, k.Holds c base found σ) →
      ∃ S : Finset (String × Tuple), (∀ p ∈ S, p.2 ∈ found p.1) ∧
        ∀ k ∈ ks, k.Holds c base (fun n => {t | (n, t) ∈ S}) σ := by
    intro ks
    induction ks with
    | nil => exact fun _ => ⟨∅, by simp, by simp⟩
    | cons k rest ih =>
      intro hk
      obtain ⟨S, hS, first⟩ := (hk k (by simp)).exists_finset
      obtain ⟨S', hS', others⟩ := ih fun k' hk' => hk k' (by simp [hk'])
      refine ⟨S ∪ S', fun p hp => (Finset.mem_union.1 hp).elim (hS p) (hS' p), fun k' hk' => ?_⟩
      rcases List.mem_cons.1 hk' with rfl | hk'
      · exact first.mono fun q _ t ht => Finset.mem_union_left _ ht
      · exact (others k' hk').mono fun q _ t ht => Finset.mem_union_right _ ht
  obtain ⟨S, hS, holds⟩ := all b.constraints hσ
  exact ⟨S, hS, σ, holds, rfl⟩

end Body

namespace Catalog

def Valid (c : Catalog) : Prop :=
  ∀ (name : String) (q : Query), c.queries[name]? = some q → q.name = name ∧ q.validate = .ok ()

def Positive (c : Catalog) : Prop :=
  ∀ (name : String) (q : Query), c.queries[name]? = some q →
    ∀ b ∈ q.bodies, ∀ k ∈ b.constraints, k.isPositive = true

/-- The families of sets of matches that hold all that the bodies derive from them. -/
def Closed (c : Catalog) (base : Relation → Set Tuple) (found : String → Set Tuple) : Prop :=
  ∀ name q, c.queries[name]? = some q → ∀ b ∈ q.bodies, b.derives c base found ⊆ found name

/-- What every closed family holds. -/
def least (c : Catalog) (base : Relation → Set Tuple) (name : String) : Set Tuple :=
  {t | ∀ found, c.Closed base found → t ∈ found name}

variable {c : Catalog} {base : Relation → Set Tuple}

theorem isLeast_least : IsLeast {found | c.Closed base found} (c.least base) := by
  refine ⟨fun name q hq b hb t ht found hf => ?_, fun found hf name t ht => ht found hf⟩
  exact hf name q hq b hb (Body.derives_mono (fun _ _ _ (hu : _ ∈ c.least base _) => hu found hf) ht)

theorem Valid.validateBody (h : c.Valid) {name : String} {q : Query} {b : Body}
    (hq : c.queries[name]? = some q) (hb : b ∈ q.bodies) :
    q.validateBody b = .ok () := by
  have valid := (h name q hq).2
  rw [Query.validate] at valid
  split at valid
  · cases valid
  · exact forM_ok valid hb

theorem Valid.length_of_mem_least (h : c.Valid) {name : String} {t : Tuple}
    (ht : t ∈ c.least base name) : ∃ q, c.queries[name]? = some q ∧ t.length = q.arity := by
  refine ht (fun name => {t | ∃ q, c.queries[name]? = some q ∧ t.length = q.arity})
    fun name q hq b hb t ht => ⟨q, hq, ?_⟩
  obtain ⟨σ, -, rfl⟩ := ht
  rw [List.length_map]
  exact (Query.validateBody_ok (h.validateBody hq hb)).1

end Catalog

namespace Facts
variable {c : Catalog} (f : Facts c)

def base (r : Relation) : Set Tuple := {t | t ∈ f.holds r}

def matched (query : String) : Set Tuple := {t | t ∈ f.found query}

end Facts

namespace Body
variable {c : Catalog} {f : Facts c} {b : Body}

theorem satisfies_iff_holds {index : Nat} {σ : Assignment} {k : Constraint}
    (hk : k.isPositive = true) : b.Satisfies f index σ k ↔ k.Holds c f.base f.matched σ := by
  cases k with
  | lacks | count | aggregate | eval => cases hk
  | _ => rfl

theorem meaning_eq_derives (hb : ∀ k ∈ b.constraints, k.isPositive = true) :
    b.meaning f = b.derives c f.base f.matched := by
  ext t
  refine exists_congr fun σ => and_congr_left fun _ => ?_
  constructor
  · intro h k hk
    obtain ⟨i, hi⟩ := List.mem_iff_getElem?.1 hk
    exact (satisfies_iff_holds (hb k hk)).1 (h i k hi)
  · intro h i k hi
    have hk := List.mem_of_getElem? hi
    exact (satisfies_iff_holds (hb k hk)).2 (h k hk)

end Body
end Motif
