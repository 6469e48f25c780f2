import Motif.Firsts

set_option autoImplicit false
namespace Motif
namespace Reach

open Std (ExtTreeSet TransOrd)

variable {α : Type} [Ord α] [TransOrd α]

def expand (next : α → List α) : Nat → ExtTreeSet α → List α → ExtTreeSet α
  | 0, seen, _ => seen
  | rounds + 1, seen, frontier =>
    let (seen, fresh) := (frontier.flatMap next).foldl keepFirst (seen, [])
    if fresh.isEmpty then seen else expand next rounds seen fresh

/-- All that `start` leads to in any number of steps, itself included. Every round but the last steps
on from a node for the first time, so that no more rounds are needed than `size`, the number of nodes
that lead anywhere. -/
def closure (next : α → List α) (size : Nat) (start : List α) : ExtTreeSet α :=
  expand next size (.ofList start) start

end Reach
end Motif
