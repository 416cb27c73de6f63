/-
  Method resolution — how a constrained parameter takes its receiver.

  A placeholder stands for the type of the receiver, so one expects that a
  receiver binds to it as it binds to a parameter of its own type.  The two are
  decided apart: matching has rules of its own for the placeholder, and these do
  not look at how the parameter is passed.

  * `receiverConversion`: how a receiver binds to parameter zero, where the
    query that this hangs on is answered by whoever is asked;
  * `binding?`: how an object binds to its own type by reference or pointer,
    and to a placeholder in any case (`receiverConversion_of_yes`);
  * `receiverConversion_bindsAsConcrete`: so a receiver binds to the placeholder
    as to its own type, by reference or pointer, and so to every extension.  By
    value it does so exactly if both are const or neither is;
  * `not_forall_binds_as_concrete`: a const object is not copied to a
    placeholder, while it is copied to its own type.
-/
import MethodResolution.Proofs.ConstSafety
import MethodResolution.Proofs.FunctionTable

namespace MethodResolution

/-- The data type with the type `k` in the place of its own. -/
def DataType.withType (d : DataType) (k : Key) : DataType := { d with type := k }

/-- How an object binds to a parameter of its own type that takes no copy. -/
def Conversion.binding? (sourceConst targetConst : Bool) : Option Conversion :=
  if sourceConst && !targetConst then none else some (.binding (targetConst && !sourceConst))

/-- An object is bound as it is if both are const or neither is. -/
theorem Conversion.binding?_eq_identity_iff {sourceConst targetConst : Bool} :
    Conversion.binding? sourceConst targetConst = some .identity ↔ sourceConst = targetConst := by
  cases sourceConst <;> cases targetConst <;> decide

namespace Registry

variable {r : Registry} {f : Callable} {receiver target : DataType} {p : Param}

/-- How a receiver binds to parameter zero of `f`, where `ask` answers the query
    that this hangs on. -/
def receiverConversion {m : Type → Type} [Monad m] (r : Registry) (ask : Query → m Bool)
    (f : Callable) (receiver : DataType) : m (Option Conversion) :=
  match r.matchReceiver? f receiver with
  | none => pure none
  | some fit => fit.settle ask

/-! ## One type -/

/-- To its own type, an object is bound or copied. -/
theorem conversion?_withType (r : Registry) (receiver target : DataType) :
    r.conversion? receiver (target.withType receiver.type) =
      if target.indirection.isIndirect then Conversion.binding? receiver.isConst target.isConst
      else some .identity := by
  rw [conversion?, DataType.withType, Conversion.binding?]
  simp only [if_true]

theorem isIndirect_iff {i : Indirection} : i.isIndirect = true ↔ i ≠ .value := by
  cases i <;> decide

/-- The rules for objects that are bound are those for objects that are copied
    only where const makes no difference. -/
theorem binding?_eq_conversion?_iff :
    Conversion.binding? receiver.isConst target.isConst =
        r.conversion? receiver (target.withType receiver.type) ↔
      target.indirection ≠ .value ∨ receiver.isConst = target.isConst := by
  rw [conversion?_withType, ← isIndirect_iff]
  split_ifs with hindirect
  · exact iff_of_true rfl (Or.inl hindirect)
  · rw [Conversion.binding?_eq_identity_iff]
    exact (or_iff_right hindirect).symm

/-! ## Placeholders -/

/-- **A receiver that satisfies the constraint binds to the placeholder by the
    rules for objects that are bound**, however the parameter is passed. -/
theorem receiverConversion_of_yes {σ : Type} {ask : Query → StateM σ Bool} {s : σ}
    {constraint : Key} (hp : f.params.head? = some p) (htype : p.type.type = Key.constrained)
    (hconstraint : f.constraint = some constraint)
    (hyes : (ask ⟨constraint, receiver.type⟩ s).1 = true) :
    (r.receiverConversion ask f receiver s).1 =
      Conversion.binding? receiver.isConst p.type.isConst := by
  rw [receiverConversion, matchReceiver?, hp, Option.bind_some, if_neg (not_not.2 htype),
    Conversion.binding?]
  -- A const receiver may be refused before the query is put.
  by_cases hmutable : (receiver.isConst && !p.type.isConst) = true
  · rw [if_pos hmutable, if_pos hmutable]
    rfl
  · rw [if_neg hmutable, if_neg hmutable, hconstraint, Option.map_some]
    exact (Contingent.settle_some _ _).trans (if_pos hyes)

/-- `result` is how a receiver binds to its own type, in the place of the
    placeholder `target`. -/
structure BindsAsConcrete (r : Registry) (receiver target : DataType)
    (result : Option Conversion) : Prop where
  /-- It is so if the parameter is taken by reference. -/
  by_reference :
    result = r.conversion? receiver ((target.withType receiver.type).withIndirection .reference)
  /-- As the parameter stands, it is so unless a copy is taken and just one of the
      two is const. -/
  eq_iff : result = r.conversion? receiver (target.withType receiver.type) ↔
    target.indirection ≠ .value ∨ receiver.isConst = target.isConst

theorem bindsAsConcrete_binding? :
    r.BindsAsConcrete receiver target (Conversion.binding? receiver.isConst target.isConst) where
  by_reference := (conversion?_withType r receiver (target.withIndirection .reference)).symm
  eq_iff := binding?_eq_conversion?_iff

/-- **A receiver that satisfies the constraint binds as to a parameter of its own
    type**, if the parameter is passed by reference or pointer, as all
    extensions take it; by value, if both are const or neither is. -/
theorem receiverConversion_bindsAsConcrete (r : Registry) (hr : r.Built) (k : Key) (f : Callable)
    (hf : r.functions.get? k = some f) (constraint : Key)
    (hconstraint : f.constraint = some constraint) {σ : Type} (ask : Query → StateM σ Bool)
    (receiver : DataType) (s : σ) (hyes : (ask ⟨constraint, receiver.type⟩ s).1 = true) :
    ∃ p, f.params.head? = some p ∧ p.type.type = Key.constrained ∧
      r.BindsAsConcrete receiver p.type (r.receiverConversion ask f receiver s).1 ∧
      (f.isExtension = true → p.type.indirection ≠ .value) := by
  have henrolled := hr.enrolled k f hf
  obtain ⟨p, hp, htype⟩ := henrolled.constrained.1 ⟨constraint, hconstraint⟩
  refine ⟨p, hp, htype, ?_, fun hext => ?_⟩
  · rw [receiverConversion_of_yes hp htype hconstraint hyes]
    exact bindsAsConcrete_binding?
  · exact head?_of_receiverFault? (hr.conventional k f hf) hext hp

/-- A free function that takes a copy of anything that rests. -/
def copy : Callable :=
  { Callable.free (.global "copy") with
    params := [⟨.ofKey Key.constrained, false⟩], constraint := some ⟨2⟩ }

/-- A class, a constraint that everything meets, and the function. -/
def copiedThings : Registry :=
  (Registry.initial {}).after
    [.primitives, .ofClass { name := .global "Thing", key := ⟨1⟩ },
      .constraint { name := .global "Rests", key := ⟨2⟩ }, .free copy]

theorem copy_bindsAsConcrete : copiedThings.Built ∧
    copiedThings.functions.get? copy.asFree.key = some copy.asFree ∧
    copy.asFree.constraint = some ⟨2⟩ ∧ (copiedThings.satisfies ⟨⟨2⟩, ⟨1⟩⟩ ∅).1 = true ∧
    ∃ p, copy.asFree.params.head? = some p ∧ p.type.type = Key.constrained ∧
      copiedThings.BindsAsConcrete (.constValue ⟨1⟩) p.type
        (copiedThings.receiverConversion copiedThings.satisfies copy.asFree (.constValue ⟨1⟩) ∅).1 ∧
      (copy.asFree.isExtension = true → p.type.indirection ≠ .value) := by
  have hbuilt : copiedThings.Built := ⟨{}, _, rfl⟩
  have hcopy : copiedThings.functions.get? copy.asFree.key = some copy.asFree := by decide +kernel
  have hyes : (copiedThings.satisfies ⟨⟨2⟩, ⟨1⟩⟩ ∅).1 = true := by decide +kernel
  exact ⟨hbuilt, hcopy, rfl, hyes,
    receiverConversion_bindsAsConcrete _ hbuilt _ _ hcopy _ rfl _ _ _ hyes⟩

/-- **A const object is not copied to a placeholder**, while it is copied to a
    parameter of its own type. -/
theorem not_forall_binds_as_concrete : ¬ ∀ (r : Registry) (k : Key) (f : Callable)
    (constraint : Key) (p : Param) (receiver : DataType) (memo : Memo), r.Built →
      r.functions.get? k = some f → f.constraint = some constraint → f.params.head? = some p →
      (r.satisfies ⟨constraint, receiver.type⟩ memo).1 = true →
      (r.receiverConversion r.satisfies f receiver memo).1 =
        r.conversion? receiver (p.type.withType receiver.type) := by
  intro h
  have hsame := h copiedThings copy.asFree.key copy.asFree ⟨2⟩ ⟨.ofKey Key.constrained, false⟩
    (.constValue ⟨1⟩) ∅ ⟨{}, _, rfl⟩ (by decide +kernel) rfl rfl (by decide +kernel)
  have hrefused : (copiedThings.receiverConversion copiedThings.satisfies copy.asFree
      (.constValue ⟨1⟩) ∅).1 = none := by decide +kernel
  rw [hrefused, conversion?_withType] at hsame
  cases hsame

end Registry

end MethodResolution
