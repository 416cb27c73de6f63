/-
  Method resolution — implicit conversions.

  A call passes an argument of one data type to a parameter of another.  The
  conversion that makes this possible, if there is one, has a kind and a cost;
  cheaper is better.

  * A value parameter is a copy, so constness does not matter; numbers convert
    into each other, and a class converts to its bases.
  * A reference or pointer parameter binds to the object itself: never to a
    const one unless the parameter is const, and without converting numbers.

  `conversion?_cost_le` bounds what a conversion costs.
-/
import MethodResolution.Registry.Lineage

namespace MethodResolution

/-- What a conversion does. -/
inductive ConversionKind where
  | identity
  /-- Bind an object that may change to a const parameter. -/
  | addConst
  | numeric (source target : Key)
  /-- View an object as one of its base classes. -/
  | toBase (base : Key)
  deriving DecidableEq, Inhabited, Repr

structure Conversion where
  kind : ConversionKind
  cost : Nat
  deriving DecidableEq, Inhabited, Repr

namespace Conversion

def identity : Conversion := ⟨.identity, 0⟩
def addConst : Conversion := ⟨.addConst, 1⟩
def toBase (base : Key) : Conversion := ⟨.toBase base, 10⟩

/-- Whether the argument is passed as it is. -/
def isExact (c : Conversion) : Bool := c.kind == .identity

/-- The conversion of one type into itself, binding to an object. -/
def binding (addsConst : Bool) : Conversion := if addsConst then addConst else identity

end Conversion

/-- What kind of number the type of a key holds, if it is a numeric primitive. -/
def Key.numeric? (k : Key) : Option Numeric := (Primitive.ofKey? k).bind (·.numeric?)

def Conversion.betweenNumeric? (source target : Key) : Option Conversion :=
  match source.numeric?, target.numeric? with
  | some m, some n =>
    if source = target then some .identity else some ⟨.numeric source target, m.cost n⟩
  | _, _ => none

namespace Registry

def conversionToBase? (r : Registry) (derived base : Key) : Option Conversion :=
  if (r.class? derived).isSome && r.derivesFrom derived base then some (.toBase base) else none

def conversion? (r : Registry) (source target : DataType) : Option Conversion :=
  if target.indirection.isIndirect then
    if source.isConst && !target.isConst then none
    else if source.type = target.type then some (.binding (target.isConst && !source.isConst))
    else r.conversionToBase? source.type target.type
  else if source.type = target.type then some .identity
  else
    Conversion.betweenNumeric? source.type target.type <|>
      r.conversionToBase? source.type target.type

/-! ## What a conversion costs -/

variable {r : Registry} {c : Conversion}

theorem cost_of_betweenNumeric? {source target : Key}
    (h : Conversion.betweenNumeric? source target = some c) : c.cost ≤ 9 := by
  rw [Conversion.betweenNumeric?] at h
  split at h
  · next m n _ _ =>
    split at h
    · cases h
      decide
    · cases h
      exact m.cost_le n
  · cases h

theorem cost_of_conversionToBase? {derived base : Key}
    (h : r.conversionToBase? derived base = some c) : c.cost = 10 := by
  rw [conversionToBase?] at h
  split at h
  · cases h
    rfl
  · cases h

/-- **Nothing costs more than to be viewed as a base class.** -/
theorem conversion?_cost_le {source target : DataType}
    (h : r.conversion? source target = some c) : c.cost ≤ 10 := by
  rw [conversion?] at h
  split at h
  · split at h
    · cases h
    split at h
    · cases h
      cases target.isConst && !source.isConst <;> decide
    · exact Nat.le_of_eq (cost_of_conversionToBase? h)
  · split at h
    · cases h
      decide
    cases hnumeric : Conversion.betweenNumeric? source.type target.type with
    | some conversion =>
      rw [hnumeric] at h
      cases h
      exact Nat.le_succ_of_le (cost_of_betweenNumeric? hnumeric)
    | none =>
      rw [hnumeric] at h
      exact Nat.le_of_eq (cost_of_conversionToBase? h)

end Registry

end MethodResolution
