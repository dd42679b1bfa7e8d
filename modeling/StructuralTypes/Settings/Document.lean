import StructuralTypes.Settings

/-! Settings from documents. An empty document stands for no entries. -/

namespace StructuralTypes.Settings

/-- The entries of a document. -/
def readEntries (load : Document.Loader) (text : String) :
    Except Fault (List (Value × Value)) :=
  match load text with
  | .ok .null => return []
  | .ok (.mapping entries) => return entries
  | .ok _ => throw .rootNotMapping
  | .error f => throw (.document f)

/-- The entries of a file of a name, given its text where it exists. -/
def entriesOfFile (load : Document.Loader) (name : String) :
    Option String → Except Fault (List (Value × Value))
  | none => throw (.fileNotFound name)
  | some text => readEntries load text

end StructuralTypes.Settings
