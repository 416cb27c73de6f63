/-
  Method resolution — the primitive types.

  Twelve primitive types are built in.  Ten of them are numbers and convert
  into each other at a cost (`Numeric.cost`): widening is cheapest, then
  narrowing, a change of sign at the same width, and last the crossing between
  integers and floating point.  `void` and `bool` convert to nothing.

  * `key_injective`: the primitives have different keys;
  * `ofKey?_eq_some_iff`: `ofKey?` reads a key back;
  * `Numeric.cost_le`: what a conversion between numbers costs at the most.
-/
import MethodResolution.Key

namespace MethodResolution

inductive Primitive where
  | void
  | bool
  | int8
  | int16
  | int32
  | int64
  | uint8
  | uint16
  | uint32
  | uint64
  | float
  | double
  deriving DecidableEq, Inhabited, Repr

/-- What kind of number a type holds, and in how many bits. -/
inductive Numeric where
  | signed (bits : Nat)
  | unsigned (bits : Nat)
  | floating (bits : Nat)
  deriving DecidableEq, Repr

namespace Primitive

def all : List Primitive :=
  [void, bool, int8, int16, int32, int64, uint8, uint16, uint32, uint64, float, double]

/-- The name of a primitive.  The 32-bit integers have the short names. -/
def name : Primitive → String
  | void => "void"
  | bool => "bool"
  | int8 => "int8"
  | int16 => "int16"
  | int32 => "int"
  | int64 => "int64"
  | uint8 => "uint8"
  | uint16 => "uint16"
  | uint32 => "unsigned"
  | uint64 => "uint64"
  | float => "float"
  | double => "double"

def key (p : Primitive) : Key := Key.ofName p.name

def keyed : List (Primitive × Key) := all.map fun p => (p, p.key)

def ofKey? (k : Key) : Option Primitive := (keyed.find? (·.2 = k)).map (·.1)

def numeric? : Primitive → Option Numeric
  | void | bool => none
  | int8 => some (.signed 8)
  | int16 => some (.signed 16)
  | int32 => some (.signed 32)
  | int64 => some (.signed 64)
  | uint8 => some (.unsigned 8)
  | uint16 => some (.unsigned 16)
  | uint32 => some (.unsigned 32)
  | uint64 => some (.unsigned 64)
  | float => some (.floating 32)
  | double => some (.floating 64)

theorem mem_all (p : Primitive) : p ∈ all := by cases p <;> decide

theorem key_injective {p q : Primitive} (h : p.key = q.key) : p = q := by
  have all_differ : ∀ p ∈ all, ∀ q ∈ all, p.key = q.key → p = q := by decide +kernel
  exact all_differ p (mem_all p) q (mem_all q) h

theorem ofKey?_eq_some_iff {k : Key} {p : Primitive} : ofKey? k = some p ↔ p.key = k := by
  constructor
  · intro h
    obtain ⟨e, he, rfl⟩ := Option.map_eq_some_iff.1 h
    obtain ⟨q, -, rfl⟩ := List.mem_map.1 (List.mem_of_find?_eq_some he)
    simpa using List.find?_some he
  · rintro rfl
    cases hf : keyed.find? (·.2 = p.key) with
    | none =>
      have := List.find?_eq_none.1 hf (p, p.key) (List.mem_map.2 ⟨p, mem_all p, rfl⟩)
      simp at this
    | some e =>
      obtain ⟨q, -, rfl⟩ := List.mem_map.1 (List.mem_of_find?_eq_some hf)
      have hq : q.key = p.key := by simpa using List.find?_some hf
      simp [ofKey?, hf, key_injective hq]

end Primitive

namespace Numeric

/-! ## Conversion costs -/

/-- Into a type that holds every value. -/
def wideningCost : Nat := 4

/-- Into a type that may cut values off. -/
def narrowingCost : Nat := 5

/-- From a signed to the unsigned type of the same width. -/
def signedToUnsignedCost : Nat := 6

/-- From an unsigned to the signed type of the same width. -/
def unsignedToSignedCost : Nat := 7

/-- From an integer to floating point. -/
def integerToFloatingCost : Nat := 8

/-- From floating point to an integer. -/
def floatingToIntegerCost : Nat := 9

/-- The cost of converting between two different numeric types.  An unsigned
    integer fits into every wider signed one; any other change of both sign
    and width counts as narrowing. -/
def cost : Numeric → Numeric → Nat
  | signed m, signed n | unsigned m, unsigned n | floating m, floating n =>
    if m < n then wideningCost else narrowingCost
  | unsigned m, signed n =>
    if m < n then wideningCost else if m = n then unsignedToSignedCost else narrowingCost
  | signed m, unsigned n => if m = n then signedToUnsignedCost else narrowingCost
  | signed _, floating _ | unsigned _, floating _ => integerToFloatingCost
  | floating _, signed _ | floating _, unsigned _ => floatingToIntegerCost

/-- Nothing costs more than to leave floating point. -/
theorem cost_le (m n : Numeric) : m.cost n ≤ floatingToIntegerCost := by
  fun_cases cost m n <;> decide

end Numeric

end MethodResolution
