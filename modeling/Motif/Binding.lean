import Motif.Value

set_option autoImplicit false
namespace Motif

/-- One value or none for each position. -/
abbrev Binding := List (Option Value)

namespace Binding

def unbound (arity : Nat) : Binding := List.replicate arity none

def agrees : Binding → Tuple → Bool
  | [], _ => true
  | none :: b, t => agrees b t.tail
  | some v :: b, t => t.head? = some v && agrees b t.tail

def positions (b : Binding) : List Nat := (b.zipIdx.filter fun p => p.1.isSome).map Prod.snd

end Binding
end Motif
