import ContextFree.File.Directory
import ContextFree.Source.Grammar

/-!
# Grammars from files

A file that cannot be read is reported like any other fault, for the file as a whole.
-/

namespace ContextFree.Grammar

/-- The grammar in a file, given what reading the file gave. -/
def ofContent (path : String) : Except FileError String → Except (List Report) Grammar
  | .ok text => readNamed path text
  | .error error => .error [⟨.whole path, .file error⟩]

/-- Reads a grammar from a file of a directory. -/
def readFrom (directory : Directory) (path : String) : Except (List Report) Grammar :=
  ofContent path (directory.read path)

end ContextFree.Grammar
