/-!
# Paths

Two spellings of a path are the same path when they have the same components: repeated and
trailing slashes do not count, nor does a component that is a single dot, except at the very
front of a relative path.
-/

namespace ContextFree

/-- Whether a path begins at the root, and the names on its way. -/
structure PathComponents where
  rooted : Bool
  names : List String
deriving DecidableEq, Repr

namespace Path

/-- The pieces of a path between slashes, without the empty ones. -/
def pieces (path : String) : List String :=
  ((path.toList.splitOn '/').filter (!·.isEmpty)).map String.ofList

/-- The path begins with a slash. -/
def isRooted (path : String) : Bool := path.toList.head? == some '/'

/-- The path ends with a slash. -/
def endsInSlash (path : String) : Bool := path.toList.getLast? == some '/'

/-- The components of a path. -/
def components (path : String) : PathComponents :=
  let rooted := isRooted path
  let names :=
    match rooted, pieces path with
    | false, "." :: rest => "." :: rest.filter (· != ".")
    | _, all => all.filter (· != ".")
  ⟨rooted, names⟩

/-- The two spellings name one path. -/
def same (left right : String) : Bool := components left == components right

end Path

end ContextFree
