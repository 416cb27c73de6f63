/-
  Method resolution — matching a call with a callable.

  A call supplies a receiver and arguments.  The arguments stand for the first
  parameters, in order; the parameters after them are left to their defaults.
  A member takes the receiver on the side, a free function as parameter zero.

  Whether a constrained parameter zero takes the receiver depends on whether
  its type satisfies the constraint.  Matching does not decide this: it
  returns the match together with the one query it hangs on (`Contingent`),
  and `settle` puts the query to whoever can answer it.

  The costs of the arguments are added up without bound;
  `argsCost_le_of_matchArgs?` tells how large the sum can be.
-/
import MethodResolution.Conversion

namespace MethodResolution

/-- The question whether a type satisfies a constraint. -/
structure Query where
  constraint : Key
  type : Key
  deriving DecidableEq, Inhabited, Repr

/-- A value that stands only if a query is answered with yes, if there is one. -/
structure Contingent (α : Type) where
  value : α
  given : Option Query := none
  deriving Repr

namespace Contingent

variable {α β : Type}

def map (f : α → β) (c : Contingent α) : Contingent β := ⟨f c.value, c.given⟩

variable {m : Type → Type} [Monad m]

def settle (ask : Query → m Bool) (c : Contingent α) : m (Option α) :=
  match c.given with
  | none => pure (some c.value)
  | some q => do
    let holds ← ask q
    pure (if holds then some c.value else none)

/-- Settle one condition after the other and keep the values that stand. -/
def settleAll (ask : Query → m Bool) : List (Contingent α) → m (List α)
  | [] => pure []
  | c :: cs => do
    let first ← c.settle ask
    let rest ← settleAll ask cs
    pure (first.toList ++ rest)

end Contingent

/-- How a call fits a callable. -/
structure Match where
  key : Key
  /-- The conversion of the receiver to parameter zero of a free function. -/
  receiver : Option Conversion := none
  /-- The conversion of the argument for each parameter, if one is supplied. -/
  args : List (Option Conversion) := []
  cost : Nat := 0
  deriving DecidableEq, Inhabited, Repr

namespace Match

def exactCount (m : Match) : Nat := m.args.countP fun slot => slot.any (·.isExact)

def receiverCost (m : Match) : Nat := m.receiver.elim 0 (·.cost)

end Match

/-- What the arguments cost together.  The sum is exact.  A sum in 32 bits that
    stops at its largest value is the same for fewer than 2^32 / 10 arguments,
    for none of them costs more than 10 (`argsCost_le_of_matchArgs?`). -/
def argsCost : List (Option Conversion) → Nat
  | [] => 0
  | slot :: slots => slot.elim 0 (·.cost) + argsCost slots

namespace Registry

/-! ## Arguments -/

/-- The conversions of arguments to the parameters at the same positions. -/
def convertArgs (r : Registry) : List Param → List DataType → Option (List (Option Conversion))
  | [], _ => some []
  | _ :: ps, [] => (r.convertArgs ps []).map (none :: ·)
  | p :: ps, a :: as =>
    (r.conversion? a p.type).bind fun c => (r.convertArgs ps as).map (some c :: ·)

/-- Whether a call may supply `count` arguments: one for each parameter at the
    most, and as many as there are parameters without default at the least. -/
def acceptsCount (params : List Param) (count : Nat) : Bool :=
  params.countP (!·.hasDefault) ≤ count && count ≤ params.length

def matchArgs? (r : Registry) (params : List Param) (args : List DataType) :
    Option (List (Option Conversion)) :=
  if acceptsCount params args.length then r.convertArgs params args else none

section
variable {r : Registry} {params : List Param} {args : List DataType}
  {slots : List (Option Conversion)}

/-- The first parameter takes the first argument, if there is one, and the other
    parameters take the others. -/
theorem convertArgs_cons {p : Param} (h : r.convertArgs (p :: params) args = some slots) :
    ∃ slot rest, slots = slot :: rest ∧ r.convertArgs params args.tail = some rest ∧
      (args = [] ∧ slot = none ∨ ∃ a conversion, args[0]? = some a ∧ slot = some conversion ∧
        r.conversion? a p.type = some conversion) := by
  cases args with
  | nil =>
    obtain ⟨rest, hrest, rfl⟩ := Option.map_eq_some_iff.1 h
    exact ⟨none, rest, rfl, hrest, Or.inl ⟨rfl, rfl⟩⟩
  | cons a args =>
    obtain ⟨conversion, hconversion, hslots⟩ := Option.bind_eq_some_iff.1 h
    obtain ⟨rest, hrest, rfl⟩ := Option.map_eq_some_iff.1 hslots
    exact ⟨some conversion, rest, rfl, hrest, Or.inr ⟨a, conversion, rfl, rfl, hconversion⟩⟩

theorem argsCost_le_of_convertArgs (h : r.convertArgs params args = some slots) :
    argsCost slots ≤ 10 * args.length := by
  induction params generalizing args slots with
  | nil =>
    cases h
    exact Nat.zero_le _
  | cons p params ih =>
    obtain ⟨slot, rest, rfl, hrest, hslot⟩ := convertArgs_cons h
    have hlater : argsCost rest ≤ 10 * args.tail.length := ih hrest
    rw [argsCost]
    rcases hslot with ⟨rfl, rfl⟩ | ⟨a, conversion, ha, rfl, hconversion⟩
    · rw [Option.elim_none, Nat.zero_add]
      exact hlater
    · have hcost : conversion.cost ≤ 10 := conversion?_cost_le hconversion
      obtain ⟨hpos, -⟩ := List.getElem?_eq_some_iff.1 ha
      rw [List.length_tail] at hlater
      rw [Option.elim_some]
      omega

/-- **Arguments cost 10 each at the most.** -/
theorem argsCost_le_of_matchArgs? (h : r.matchArgs? params args = some slots) :
    argsCost slots ≤ 10 * args.length := by
  rw [matchArgs?] at h
  split at h
  · exact argsCost_le_of_convertArgs h
  · cases h

end

/-! ## Members -/

/-- How a call fits a member.  A const receiver needs a const member. -/
def matchMember? (r : Registry) (c : Callable) (receiver : DataType) (args : List DataType) :
    Option Match :=
  if !c.isMember || receiver.isConst && !c.isConst then none
  else (r.matchArgs? c.params args).map fun slots => ⟨c.key, none, slots, argsCost slots⟩

/-! ## Free functions -/

/-- How a receiver fits parameter zero of a free function. -/
def matchReceiver? (r : Registry) (c : Callable) (receiver : DataType) :
    Option (Contingent Conversion) :=
  c.params.head?.bind fun p =>
    if p.type.type ≠ Key.constrained then
      (r.conversion? receiver p.type).map fun conversion => ⟨conversion, none⟩
    else if receiver.isConst && !p.type.isConst then none
    else
      c.constraint.map fun constraint =>
        ⟨.binding (p.type.isConst && !receiver.isConst), some ⟨constraint, receiver.type⟩⟩

/-- How a call fits a free function.  The arguments are matched first, so that
    a query is left only where they fit. -/
def matchFree? (r : Registry) (c : Callable) (receiver : DataType) (args : List DataType) :
    Option (Contingent Match) :=
  if c.isMember || c.params.isEmpty then none
  else
    (r.matchArgs? c.tail args).bind fun slots =>
      (r.matchReceiver? c receiver).map fun conversion =>
        conversion.map fun conversion => ⟨c.key, some conversion, slots, argsCost slots⟩

end Registry

end MethodResolution
