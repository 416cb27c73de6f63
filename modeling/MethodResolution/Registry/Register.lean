/-
  Method resolution — registering declarations.

  Each function takes the registry and one declaration.  It returns the key
  under which the declaration is now registered, together with the new
  registry, or the error for which it is refused; a refused declaration leaves
  nothing behind.

  * `registerClass` refuses a class that would stand on its own base chain;
  * `registerMember` adds a member to a registered class;
  * `registerFree` adds a free function to its namespace, after checking its
    receiver (`receiverFault?`), its constraint (`constraintFault?`), its types
    (`typeFault?`) and, for an extension, its body (`bodyError?`), in this
    order;
  * `registerConstraint` collects the requirements of a constraint from its
    own declaration and the constraints it refines.  These have to be known,
    so the requirements of a constraint never change again.
-/
import MethodResolution.Registry.Body

namespace MethodResolution

namespace Registry

abbrev Registration := Except RegistrationError (Key × Registry)

/-! ## Types -/

/-- Register the primitive types.  They replace what has their keys. -/
def registerPrimitives (r : Registry) : Registry :=
  { r with
    types := Primitive.all.foldl (fun t p => t.insert p.key (.primitive p.name p.key)) r.types }

def registerClass (r : Registry) (c : Class) : Registration :=
  if r.types.contains c.key then .error ⟨c.span, .duplicateDefinition c.name.text⟩
  else if c.base.any fun base => c.key ∈ r.lineage base then
    .error ⟨c.span, .circularInheritance c.name.text⟩
  else .ok (c.key, { r with types := r.types.insert c.key (.ofClass c) })

/-! ## Callables -/

/-- The first type that a callable uses and the registry does not know.  A
    constrained parameter has no type yet. -/
def typeFault? (r : Registry) (c : Callable) : Option RegistrationFault :=
  (c.params.map (·.type.type) ++ [c.returns.type]).findSome? fun k =>
    if k = Key.constrained ∨ r.types.contains k then none else some (.unknownType k.text)

def addMember (r : Registry) (owner : Key) (c : Callable) : Registry :=
  { r with
    types := r.types.modify owner (·.mapClass (·.addMethod c))
    memberOwner := r.memberOwner.insert c.key owner }

def memberFault? (r : Registry) (owner : Key) (c : Callable) : Option RegistrationFault :=
  if c.receiver.isSome || c.constraint.isSome then some (.memberWithReceiver c.name.text)
  else
    r.typeFault? c <|>
      if r.memberOwner.contains c.key then some (.duplicateDefinition (r.signatureText c))
      else if (r.class? owner).isNone then some (.unknownType owner.text)
      else none

def registerMember (r : Registry) (owner : Key) (c : Callable) : Registration :=
  let c := { c with owner := some owner }.keyed
  match r.memberFault? owner c with
  | some fault => .error ⟨c.span, fault⟩
  | none => .ok (c.key, r.addMember owner c)

def receiverFault? (r : Registry) (c : Callable) : Option RegistrationFault :=
  c.receiver.bind fun index =>
    match index, c.params with
    | 0, p :: _ =>
      if p.type.indirection = r.policy.convention.indirection then none
      else some (.conventionMismatch c.name.text r.policy.convention.text)
    | _, _ => some (.receiverNotFirst c.name.text index)

/-- What is wrong with the constraint of a free function: it has one exactly
    if its first parameter is constrained, and the constraint is known. -/
def constraintFault? (r : Registry) (c : Callable) : Option RegistrationFault :=
  match c.constraint, c.takesConstrained with
  | some constraint, true =>
    if r.concepts.contains constraint then none else some (.unknownConstraint constraint.text)
  | some _, false => some (.constraintMismatch c.name.text "a concrete first parameter")
  | none, true => some (.constraintMismatch c.name.text "no constraint")
  | none, false => none

/-- The namespace of a free function gets one more function. -/
def addFree (r : Registry) (c : Callable) : Registry :=
  { r with
    functions := r.functions.insert c.key c
    namespaces := r.namespaces.addFunction c.name.path c.simpleName c.key }

def freeError? (r : Registry) (c : Callable) : Option RegistrationError :=
  let declared := r.receiverFault? c <|> r.constraintFault? c <|> r.typeFault? c
  declared.map (⟨c.span, ·⟩) <|>
    (if c.isExtension then r.bodyError? c else none) <|>
    if r.functions.contains c.key then some ⟨c.span, .duplicateDefinition (r.signatureText c)⟩
    else none

def registerFree (r : Registry) (c : Callable) : Registration :=
  let c := { c with owner := none }.keyed
  match r.freeError? c with
  | some error => .error error
  | none => .ok (c.key, r.addFree c)

/-! ## Constraints -/

/-- The requirements `known`, and after them those of `more` that are new. -/
def addRequirements (known more : List Requirement) : List Requirement :=
  more.foldl (fun known q => if q ∈ known then known else known ++ [q]) known

/-- The requirements `known` of a constraint, and after them what it inherits
    from the constraints `refines`. -/
def inherit (r : Registry) (c : Constraint) (known : List Requirement) :
    List Key → Except RegistrationFault (List Requirement)
  | [] => .ok known
  | refined :: rest =>
    if refined = c.key then .error (.circularRefinement c.name.text)
    else
      match r.concept? refined with
      | some concept => r.inherit c (addRequirements known concept.requirements) rest
      | none => .error (.unknownConstraint refined.text)

def registerConstraint (r : Registry) (c : Constraint) : Registration :=
  if r.concepts.contains c.key then .error ⟨c.span, .duplicateDefinition c.name.text⟩
  else
    match r.inherit c c.own c.refines with
    | .error fault => .error ⟨c.span, fault⟩
    | .ok requirements =>
      .ok (c.key, { r with concepts := r.concepts.insert c.key { c with requirements } })

/-! ## Namespaces -/

def registerUsing (r : Registry) (path imported : List String) : Registry :=
  { r with namespaces := r.namespaces.addUsing path imported }

end Registry

end MethodResolution
