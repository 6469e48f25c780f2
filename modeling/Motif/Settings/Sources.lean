import Motif.Settings
import Motif.Settings.Environment
import Motif.Toml.Document

/-!
Settings from a text, and settings put together from several sources. Each source sets what it says
and leaves the rest to those before it: the defaults first, then files, and last the environment.
-/
set_option autoImplicit false
namespace Motif.Settings

/-- Settings from a text alone. A name without content may also be the key of an empty record or
list. -/
def ofText? (text : String) : Option Settings := do
  let empty : Document → Bool
    | .record [] | .list [] => true
    | _ => false
  ofDocument? empty (← Toml.read? text)

/-- Settings from the texts of files and from the environment variables whose names start with
`start`. -/
def ofSources? (texts : List String) (start : String) (vars : List (String × String)) :
    Except Fault (Option Settings) := do
  let environment ← Environment.document start vars
  return do
    let files ← texts.mapM Toml.read?
    ofDocument? (fun _ => false) ((files ++ [environment]).foldl Document.merge (toDocument {}))

end Motif.Settings
