import Motif.Value

set_option autoImplicit false
namespace Motif

inductive Issue where
  | duplicateInsert (index : String) (tuple : Tuple)
  | missingTuple (index : String) (tuple : Tuple)
  | evaluationFailed (evaluator : String) (tuple : Tuple) (message : String)
  | badlyTypedMatch (query : String) (message : String)
  deriving DecidableEq, Repr

namespace Issue

def text : Issue → String
  | duplicateInsert index tuple =>
    "duplicate insert of " ++ tuple.text ++ " into unique index " ++ index
  | missingTuple index tuple => "removal of absent tuple " ++ tuple.text ++ " from index " ++ index
  | evaluationFailed evaluator tuple message =>
    "expression " ++ evaluator ++ " failed on " ++ tuple.text ++ ": " ++ message
  | badlyTypedMatch query message =>
    "element not properly typed in match of " ++ query ++ ": " ++ message

end Issue
end Motif
