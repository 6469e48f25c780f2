import Mathlib.Data.List.Forall2
import Motif.Search.Run

set_option autoImplicit false
namespace Motif

structure Asking where
  callee : Reference
  binding : Binding
  answer : List Tuple

/-- Which answers a searcher takes, and what it takes instead of others. -/
structure Guard where
  accepts : Asking → Prop
  other : Reference → Binding → List Tuple

namespace Search
variable {σ ε α β : Type} {I : σ → Prop} {Fact : Asking → Prop}

/-- However `x` ends, it keeps `I`. When it ends with an answer, then after finitely many askings,
facts all of them, and `y` ends in the same way under a guard that accepts these. -/
def Follows (I : σ → Prop) (Fact : Asking → Prop) (x : Search σ ε α)
    (y : Guard → Search σ ε α) : Prop :=
  ∀ st r st', I st → x.run.run st = some (r, st') → I st' ∧ ∀ a, r = .ok a →
    ∃ C : List Asking, (∀ c ∈ C, Fact c) ∧
      ∀ guard : Guard, (∀ c ∈ C, guard.accepts c) → (y guard).run.run st = some (.ok a, st')

theorem follows_pure (a : α) : Follows I Fact (pure a : Search σ ε α) fun _ => pure a := by
  intro st r st' hI h
  cases h
  exact ⟨hI, fun a ha => ⟨[], by simp, fun _ _ => by rw [← ha]; rfl⟩⟩

/-- A sequence ends where its first part breaks off, or as its second part does. -/
theorem run_bind_cases {x : Search σ ε α} {g : α → Search σ ε β} {st st' : σ} {r : Except ε β}
    (h : (x >>= g).run.run st = some (r, st')) :
    (∃ f, x.run.run st = some (.error f, st') ∧ r = .error f) ∨
      ∃ a st₁, x.run.run st = some (.ok a, st₁) ∧ (g a).run.run st₁ = some (r, st') := by
  rw [ExceptT.run_bind, StateT.run_bind] at h
  cases ex : x.run.run st with
  | none =>
    rw [ex] at h
    cases h
  | some p =>
    obtain ⟨e, st₁⟩ := p
    rw [ex] at h
    cases e with
    | error f =>
      cases h
      exact .inl ⟨f, rfl, rfl⟩
    | ok a => exact .inr ⟨a, st₁, rfl, h⟩

theorem Follows.bind {x : Search σ ε α} {y : Guard → Search σ ε α}
    {g : α → Search σ ε β} {k : α → Guard → Search σ ε β}
    (hx : Follows I Fact x y) (hg : ∀ a, Follows I Fact (g a) (k a)) :
    Follows I Fact (x >>= g) fun guard => y guard >>= fun a => k a guard := by
  intro st r st' hI h
  obtain ⟨f, ex, rfl⟩ | ⟨a, st₁, ex, eg⟩ := run_bind_cases h
  · exact ⟨(hx st _ st' hI ex).1, fun a ha => by cases ha⟩
  obtain ⟨hI₁, hok⟩ := hx st _ st₁ hI ex
  obtain ⟨hI', hok'⟩ := hg a st₁ r st' hI₁ eg
  refine ⟨hI', fun b hb => ?_⟩
  obtain ⟨C, hC, same⟩ := hok a rfl
  obtain ⟨C', hC', same'⟩ := hok' b hb
  refine ⟨C ++ C', fun c hc => (List.mem_append.1 hc).elim (hC c) (hC' c), fun guard ha => ?_⟩
  rw [ExceptT.run_bind, StateT.run_bind, same guard fun c hc => ha c (by simp [hc])]
  exact same' guard fun c hc => ha c (by simp [hc])

theorem follows_mapM {l : List α} {g : α → Search σ ε β}
    {k : α → Guard → Search σ ε β} (h : ∀ a ∈ l, Follows I Fact (g a) (k a)) :
    Follows I Fact (l.mapM g) fun guard => l.mapM fun a => k a guard := by
  induction l with
  | nil => exact follows_pure []
  | cons a rest ih =>
    simp only [List.mapM_cons]
    refine (h a (by simp)).bind fun b => ?_
    exact (ih fun c hc => h c (by simp [hc])).bind fun bs => follows_pure (b :: bs)

/-- Searches one after the other keep what each of them keeps, and each has answered. -/
theorem forall₂_of_run_mapM {l : List α} {g : α → Search σ ε β} (keeps : ∀ a st r st', I st →
      (g a).run.run st = some (r, st') → I st') {st st' : σ} {r : Except ε (List β)} (hI : I st)
    (h : (l.mapM g).run.run st = some (r, st')) :
    I st' ∧ ∀ bs, r = .ok bs → List.Forall₂ (fun a b => ∃ st st', I st ∧
      (g a).run.run st = some (.ok b, st')) l bs := by
  induction l generalizing st st' r with
  | nil =>
    cases h
    exact ⟨hI, fun bs hbs => by cases hbs; exact .nil⟩
  | cons a rest ih =>
    rw [List.mapM_cons] at h
    obtain ⟨f, ea, rfl⟩ | ⟨b, st₁, ea, h⟩ := run_bind_cases h
    · exact ⟨keeps a st _ st' hI ea, fun bs hbs => by cases hbs⟩
    have hI₁ := keeps a st _ st₁ hI ea
    obtain ⟨f, er, rfl⟩ | ⟨bs, st₂, er, h⟩ := run_bind_cases h
    · exact ⟨(ih hI₁ er).1, fun bs hbs => by cases hbs⟩
    · obtain ⟨hI₂, hrest⟩ := ih hI₁ er
      cases h
      refine ⟨hI₂, fun bs' hbs => ?_⟩
      cases hbs
      exact .cons ⟨st, st₁, hI, ea⟩ (hrest bs rfl)

end Search

namespace Searcher
variable {σ ε : Type}

open Classical in
noncomputable def guarded (s : Searcher σ ε) (guard : Guard) : Searcher σ ε where
  graph := s.graph
  ask r b := ExceptT.mk fun st =>
    match (s.ask r b).run.run st with
    | some (.ok l, st') =>
      if guard.accepts ⟨r, b, l⟩ then some (.ok l, st') else some (.ok (guard.other r b), st)
    | _ => some (.ok (guard.other r b), st)
  report := s.report

variable {s : Searcher σ ε} {I : σ → Prop} {Fact : Asking → Prop}

structure Tells (s : Searcher σ ε) (I : σ → Prop) (Fact : Asking → Prop) : Prop where
  ask : ∀ r b st e st', I st → (s.ask r b).run.run st = some (e, st') →
    I st' ∧ ∀ l, e = .ok l → Fact ⟨r, b, l⟩
  report : ∀ i st e st', I st → (s.report i).run.run st = some (e, st') → I st'

theorem Tells.mono (h : s.Tells I Fact) {Fact' : Asking → Prop} (hf : ∀ a, Fact a → Fact' a) :
    s.Tells I Fact' :=
  ⟨fun r b st e st' hI hrun => (h.ask r b st e st' hI hrun).imp_right fun ha l hl => hf _ (ha l hl),
    h.report⟩

variable (h : s.Tells I Fact)
include h

theorem Tells.follows_ask (r : Reference) (b : Binding) :
    Search.Follows I Fact (s.ask r b) fun guard => (s.guarded guard).ask r b := by
  intro st e st' hI hrun
  obtain ⟨hI', fact⟩ := h.ask r b st e st' hI hrun
  refine ⟨hI', fun l hl => ⟨[⟨r, b, l⟩], by simpa using fact l hl, fun guard ha => ?_⟩⟩
  subst hl
  have accepted : guard.accepts ⟨r, b, l⟩ := ha _ (List.mem_singleton_self _)
  have hrun' : s.ask r b st = some (.ok l, st') := hrun
  change (s.guarded guard).ask r b st = _
  simp only [guarded, ExceptT.mk, ExceptT.run, StateT.run, hrun', if_pos accepted]

theorem Tells.follows_report (i : Issue) :
    Search.Follows I Fact (s.report i) fun guard => (s.guarded guard).report i :=
  fun st e st' hI hrun => ⟨h.report i st e st' hI hrun, fun a ha => ⟨[], by simp, fun _ _ => by
    rw [← ha, ← hrun]
    rfl⟩⟩

theorem Tells.follows_call (callee : Reference) (c : CallFrame) (f : Frame) :
    Search.Follows I Fact (s.call callee c f) fun guard =>
      (s.guarded guard).call callee c f :=
  (h.follows_ask _ _).bind fun _ => Search.follows_pure _

theorem Tells.follows_reachesFrom (callee : Reference) (start goal : Value) (t : Trail)
    (nodes : List Value) : Search.Follows I Fact (s.reachesFrom callee start goal t nodes)
      fun guard => (s.guarded guard).reachesFrom callee start goal t nodes := by
  suffices ends : ∀ t nodes st (p : Except ε Bool × σ),
      s.linksFrom callee start goal t nodes st = some p → I st → I p.2 ∧ ∀ a, p.1 = .ok a →
        ∃ C : List Asking, (∀ c ∈ C, Fact c) ∧ ∀ guard : Guard, (∀ c ∈ C, guard.accepts c) →
          ((s.guarded guard).reachesFrom callee start goal t nodes).run.run st =
            some (.ok a, p.2) from
    fun st r st' hI hrun => ends t nodes st (r, st') hrun hI
  refine linksFrom.partial_correctness s callee start goal _ fun links ih t nodes st p hp hI => ?_
  -- what `links` does once its first step is made
  have follows : ∀ t nodes, Search.Follows I Fact (ExceptT.mk (links t nodes) : Search σ ε Bool)
      fun guard => (s.guarded guard).reachesFrom callee start goal t nodes :=
    fun t nodes st r st' hI hx => ih t nodes st (r, st') hx hI
  cases nodes with
  | nil =>
    simp only [reachesFrom_nil]
    by_cases done : t.later.isEmpty
    · simp only [if_pos done] at hp ⊢
      exact Search.follows_pure false st _ _ hI hp
    · simp only [if_neg done] at hp ⊢
      exact follows _ _ st _ _ hI hp
  | cons node rest =>
    simp only [reachesFrom_cons]
    refine (h.follows_ask callee [some node, none]).bind (fun edges => ?_) st p.1 p.2 hI
      ((s.run_step callee start goal t node (fun t => ExceptT.mk (links t rest)) st).trans hp)
    split
    · exact Search.follows_pure true
    · exact follows _ _

theorem Tells.follows_evaluate (e : Evaluator) (inputs : List Nat) (f : Frame) :
    Search.Follows I Fact (s.evaluate e inputs f) fun guard =>
      (s.guarded guard).evaluate e inputs f := by
  simp only [evaluate]
  split
  · exact Search.follows_pure none
  · split
    · exact Search.follows_pure _
    · exact (h.follows_report _).bind fun _ => Search.follows_pure none

theorem Tells.follows_frames (f : Frame) (op : Operation) :
    Search.Follows I Fact (s.frames f op) fun guard => (s.guarded guard).frames f op := by
  cases op with
  | iterateInstances | checkInstance | iterateFeature | checkUnequal | checkEqual | extendEqual
  | checkConstant | extendConstant => exact Search.follows_pure _
  | extendForward feature holder value =>
    simp only [frames]
    split <;> exact Search.follows_pure _
  | extendBackward feature holder value =>
    simp only [frames]
    split <;> exact Search.follows_pure _
  | checkFeature feature holder value =>
    simp only [frames]
    split <;> exact Search.follows_pure _
  | checkCall callee c | checkNoCall callee c | count callee c _ _ | aggregate callee c _ _ _ _ =>
    exact (h.follows_call callee c f).bind fun _ => Search.follows_pure _
  | check e inputs | eval e inputs _ _ =>
    exact (h.follows_evaluate e inputs f).bind fun _ => Search.follows_pure _
  | checkClosure callee source target =>
    simp only [frames]
    split
    · exact (h.follows_reachesFrom callee _ _ _ _).bind fun _ => Search.follows_pure _
    · exact Search.follows_pure _

theorem Tells.follows_run (parameters : List Nat) (ops : List Operation) (f : Frame) :
    Search.Follows I Fact (s.run parameters ops f) fun guard =>
      (s.guarded guard).run parameters ops f := by
  induction ops generalizing f with
  | nil => exact Search.follows_pure _
  | cons op rest ih =>
    simp only [run]
    refine (h.follows_frames f op).bind fun next => ?_
    exact (Search.follows_mapM fun g _ => ih g).bind fun _ => Search.follows_pure _

theorem Tells.follows_execute (p : SearchPlan) (b : Binding) :
    Search.Follows I Fact (s.execute p b) fun guard => (s.guarded guard).execute p b := by
  simp only [execute]
  split
  · exact Search.follows_pure []
  · exact (h.follows_run _ _ _).bind fun _ => Search.follows_pure _

end Searcher
end Motif
