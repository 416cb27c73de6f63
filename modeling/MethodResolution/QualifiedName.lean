/-
  Method resolution — qualified names.

  A qualified name is a simple name inside a path of namespaces.  In text its
  segments are separated by `::`.

  * `splitSegments` cuts a text at every separator, leftmost first, so that of
    `a:::b` the second segment is `:b`;
  * `ofText` reads a name, skipping empty segments: `::a::::b::` is `a::b`;
  * `text` writes the path and the name with separators between them.
-/

namespace MethodResolution

/-- A simple name and the namespaces around it, outermost first. -/
structure QualifiedName where
  name : String
  path : List String := []
  deriving DecidableEq, Inhabited, Repr

namespace QualifiedName

def separator : String := "::"

/-- The segments of a text, empty ones included. -/
def splitSegments : List Char → List (List Char)
  | [] => [[]]
  | ':' :: ':' :: rest => [] :: splitSegments rest
  | c :: rest =>
    match splitSegments rest with
    | [] => [[c]]
    | segment :: segments => (c :: segment) :: segments

def segments (text : String) : List String :=
  ((splitSegments text.toList).filter (· ≠ [])).map String.ofList

/-- The name whose path and simple name are the given segments; without any
    it is the empty name. -/
def ofSegments (segments : List String) : QualifiedName :=
  match segments.getLast? with
  | some name => ⟨name, segments.dropLast⟩
  | none => ⟨"", []⟩

def ofText (text : String) : QualifiedName := ofSegments (segments text)

/-- A name outside every namespace; it is taken as it stands. -/
def global (name : String) : QualifiedName := ⟨name, []⟩

def isGlobal (q : QualifiedName) : Bool := q.path.isEmpty

def pathText (q : QualifiedName) : String := separator.intercalate q.path

def text (q : QualifiedName) : String := separator.intercalate (q.path ++ [q.name])

end QualifiedName

end MethodResolution
