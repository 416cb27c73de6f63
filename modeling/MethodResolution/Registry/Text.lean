/-
  Method resolution — how diagnostics name things.

  Types are written by name, the placeholder for the type under test as `T`
  and the one for a constrained parameter as `auto`.  A member is written
  behind its class, a free function with its namespaces.
-/
import MethodResolution.Registry.Basic

namespace MethodResolution

namespace Registry

def typeName (r : Registry) (k : Key) : String :=
  if k = Key.self then "T"
  else if k = Key.constrained then "auto"
  else
    match r.types.get? k with
    | some entry => entry.name.text
    | none => k.anonymousText

def dataTypeText (r : Registry) (d : DataType) : String := d.textWith (r.typeName d.type)

/-- A callable with its parameters. -/
def signatureText (r : Registry) (c : Callable) : String :=
  let params := ", ".intercalate (c.params.map fun p => r.dataTypeText p.type)
  match c.owner with
  | some owner =>
    r.typeName owner ++ "::" ++ c.simpleName ++ "(" ++ params ++ ")" ++
      if c.isConst then " const" else ""
  | none => c.name.text ++ "(" ++ params ++ ")"

/-- The name of a constraint, or its key if it is unknown. -/
def conceptText (r : Registry) (k : Key) : String :=
  match r.concept? k with
  | some c => c.name.text
  | none => k.text

end Registry

end MethodResolution
