set_option autoImplicit false
namespace Motif

variable {σ α β : Type}

def foldSteps (step : σ → α → σ × β) (s : σ × List β) (l : List α) : σ × List β :=
  l.foldl (fun s a => let (t, b) := step s.1 a; (t, b :: s.2)) s

/-- Takes a step for every item; answers with the last state and what the steps answered. -/
def runAll (step : σ → α → σ × β) (s : σ) (l : List α) : σ × List β :=
  let (t, answers) := foldSteps step (s, []) l
  (t, answers.reverse)

theorem foldSteps_eq (step : σ → α → σ × β) (s : σ) (answers : List β) (l : List α) :
    foldSteps step (s, answers) l =
      ((foldSteps step (s, []) l).1, (foldSteps step (s, []) l).2 ++ answers) := by
  induction l generalizing s answers with
  | nil => rfl
  | cons a rest ih =>
    have h := ih (step s a).1 ((step s a).2 :: answers)
    have h' := ih (step s a).1 [(step s a).2]
    simp only [foldSteps, List.foldl_cons] at *
    rw [h, h']
    simp

@[simp] theorem runAll_nil (step : σ → α → σ × β) (s : σ) : runAll step s [] = (s, []) := rfl

theorem runAll_cons (step : σ → α → σ × β) (s : σ) (a : α) (l : List α) :
    runAll step s (a :: l) =
      ((runAll step (step s a).1 l).1, (step s a).2 :: (runAll step (step s a).1 l).2) := by
  have h := foldSteps_eq step (step s a).1 [(step s a).2] l
  simp only [runAll, foldSteps, List.foldl_cons] at *
  rw [h]
  simp

end Motif
