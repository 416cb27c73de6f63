/-
  Method resolution — call sites.

  A call site is a member call `receiver.name(args)` with the place it is
  written at: the namespace around it and the class, if it stands in one.
-/
import MethodResolution.Registry.Text

namespace MethodResolution

structure CallSite where
  receiver : DataType
  name : String
  args : List DataType := []
  path : List String := []
  /-- The class in whose body the call stands. -/
  caller : Option Key := none
  span : Span := {}
  deriving DecidableEq, Inhabited, Repr

/-- What a diagnostic says about a call. -/
structure CallSummary where
  name : String
  receiver : String
  args : List String := []
  span : Span := {}
  deriving DecidableEq, Inhabited, Repr

def CallSummary.text (c : CallSummary) : String :=
  "'" ++ c.receiver ++ "." ++ c.name ++ "(" ++ ", ".intercalate c.args ++ ")'"

/-- What a diagnostic says about a call. -/
def Registry.summarize (r : Registry) (call : CallSite) : CallSummary :=
  ⟨call.name, r.dataTypeText call.receiver, call.args.map r.dataTypeText, call.span⟩

end MethodResolution
