import Motif.Proofs.Search.Parallel

set_option autoImplicit false
namespace Motif

namespace Search
variable {σ ε α β : Type} {I : σ → Prop} {E : ε → Prop} {P : α → Prop} {Q : β → Prop}

def Stays (I : σ → Prop) (E : ε → Prop) (P : α → Prop) (x : Search σ ε α) : Prop :=
  ∀ st r st', I st → x.run.run st = some (r, st') → I st' ∧ (∀ a, r = .ok a → P a) ∧
    ∀ f, r = .error f → E f

/-- From a state in `I` both searches come to the same, and stay in `I`. -/
structure Alike (I : σ → Prop) (E : ε → Prop) (P : α → Prop) (x y : Search σ ε α) : Prop where
  same : ∀ st, I st → x.run.run st = y.run.run st
  stays : Stays I E P x

theorem Stays.alike {x : Search σ ε α} (h : Stays I E P x) : Alike I E P x x := ⟨fun _ _ => rfl, h⟩

def Within (I : σ → Prop) (st st' : σ) : Prop := st = st' ∧ I st

theorem alike_iff_parallel {x y : Search σ ε α} :
    Alike I E P x y ↔ Parallel (Within I) E P x y := by
  constructor
  · rintro h st st' ⟨rfl, hI⟩
    rw [← h.same st hI]
    cases hrun : x.run.run st with
    | none => exact .none
    | some p =>
      obtain ⟨hI', ok, error⟩ := h.stays st p.1 p.2 hI hrun
      exact .some ⟨rfl, ⟨rfl, hI'⟩, ok, error⟩
  · intro h
    constructor
    · intro st hI
      have ends := h st st ⟨rfl, hI⟩
      generalize x.run.run st = r, y.run.run st = r' at ends
      cases ends with
      | none => rfl
      | some ended => exact congrArg some (Prod.ext ended.same ended.states.1)
    · intro st r st' hI hrun
      have ends := h st st ⟨rfl, hI⟩
      rw [hrun] at ends
      generalize y.run.run st = r' at ends
      obtain @⟨_, _, ended⟩ := ends
      exact ⟨ended.states.2, ended.ok, ended.error⟩

theorem alike_pure {a : α} (h : P a) : Alike I E P (pure a : Search σ ε α) (pure a) :=
  alike_iff_parallel.2 (parallel_pure h)

theorem Alike.bind {x y : Search σ ε α} {g k : α → Search σ ε β} (h : Alike I E P x y)
    (hg : ∀ a, P a → Alike I E Q (g a) (k a)) : Alike I E Q (x >>= g) (y >>= k) :=
  alike_iff_parallel.2 ((alike_iff_parallel.1 h).bind fun a ha => alike_iff_parallel.1 (hg a ha))

theorem alike_mapM {l : List α} {g k : α → Search σ ε β} (h : ∀ a ∈ l, Alike I E Q (g a) (k a)) :
    Alike I E (fun bs => ∀ b ∈ bs, Q b) (l.mapM g) (l.mapM k) :=
  alike_iff_parallel.2 (parallel_mapM fun a ha => alike_iff_parallel.1 (h a ha))

theorem Alike.congr {x y : Search σ ε α} (h : Alike (fun _ => True) (fun _ => True) P x y) : x = y :=
  funext fun st => h.same st trivial

end Search

namespace Searcher
variable {σ ε : Type} {s s' : Searcher σ ε} {I : σ → Prop} {E : ε → Prop} {known : Reference → Prop}

/-- Both searchers read the same graph, and cannot be told apart by questions to what is known, nor by
reports. Questions and reports stay in `I`, and questions fail as `E` says. -/
structure Alike (s s' : Searcher σ ε) (I : σ → Prop) (E : ε → Prop) (known : Reference → Prop) :
    Prop where
  graph : s'.graph = s.graph
  ask : ∀ r b, known r → Search.Alike I E (fun _ => True) (s.ask r b) (s'.ask r b)
  report : ∀ name t message, Search.Alike I E (fun _ => True)
    (s.report (.evaluationFailed name t message)) (s'.report (.evaluationFailed name t message))

namespace Alike
variable (h : s.Alike s' I E known)
include h

theorem parallel : s.Parallel s' (Search.Within I) E known where
  graph := h.graph
  ask r b hr := Search.alike_iff_parallel.1 (h.ask r b hr)
  report name t message := Search.alike_iff_parallel.1 (h.report name t message)

theorem frames (f : Frame) {op : Operation} (hop : ∀ r, op.callee? = some r → known r) :
    Search.Alike I E (fun next => ∀ g ∈ next, f.Extends op.produced g) (s.frames f op)
      (s'.frames f op) :=
  Search.alike_iff_parallel.2 (h.parallel.frames f hop)

/-- A search along a plan that asks only what is known comes to the same for both searchers. -/
theorem execute {p : SearchPlan} (hp : ∀ op ∈ p.operations, ∀ r, op.callee? = some r → known r)
    (b : Binding) : Search.Alike I E (fun _ => True) (s.execute p b) (s'.execute p b) :=
  Search.alike_iff_parallel.2 (h.parallel.execute hp b)

end Alike

end Searcher
end Motif
