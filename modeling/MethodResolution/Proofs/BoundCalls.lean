/-
  Method resolution — bound calls fit the callee.

  Binding does not look at the callable again.  It takes the passing of the
  receiver from the policy and the conversions from the match; so what it
  makes of a call is right only because registration and matching agree on
  what the parameters are.

  * `Chosen`: the candidate to which a call is bound;
  * `FitsArgs`: there is one slot for each parameter, the supplied arguments
    are converted to the parameters at their positions, and defaults are used
    from there on;
  * `Receives`: the ways in which a receiver is converted to parameter zero;
  * `FitsCallee`: a bound call does with arguments and receiver what the callee
    asks for;
  * `resolve_fitsCallee`: every bound call does so, whatever answers are kept.
-/
import MethodResolution.Proofs.ConstSafety
import MethodResolution.Proofs.FunctionTable
import MethodResolution.Proofs.Inheritance
import MethodResolution.Proofs.TwoTiers

namespace MethodResolution

namespace Registry

open Relation (TransGen)

variable {r : Registry}

/-! ## The chosen candidate -/

/-- The call is bound to the candidate `c`, which is better than all others. -/
structure Chosen (r : Registry) (call : CallSite) (memo : Memo) (bound : BoundCall)
    (c : Candidate) : Prop where
  best : r.Best call (r.candidates call memo) c
  bound_eq : bound = r.bind c call

theorem exists_chosen {call : CallSite} {memo : Memo} {bound : BoundCall}
    (h : (r.resolve call memo).1 = .ok bound) : ∃ c, r.Chosen call memo bound c := by
  obtain ⟨c, hbest, hbound⟩ := dominates_of_resolve_eq_ok h
  exact ⟨c, hbest, hbound⟩

/-- It is a member or, only where no member fits, an extension. -/
theorem Chosen.mem_or_mem {call : CallSite} {memo : Memo} {bound : BoundCall} {c : Candidate}
    (h : r.Chosen call memo bound c) :
    c ∈ r.gatherMembers call ∨ c ∈ (r.gatherExtensions call memo).1 := by
  have hmem := h.best.1
  rcases r.candidates_cases call memo with hall | hall
  · exact Or.inl (hall ▸ hmem)
  · exact Or.inr (hall ▸ hmem)

theorem Chosen.mem_gatherExtensions {call : CallSite} {memo : Memo} {bound : BoundCall}
    {c : Candidate} (h : r.Chosen call memo bound c) (hext : bound.tier = .extension) :
    c ∈ (r.gatherExtensions call memo).1 := by
  refine h.mem_or_mem.resolve_left fun hmember => ?_
  rw [h.bound_eq, bind_tier, tier_of_mem_gatherMembers c hmember] at hext
  cases hext

/-! ## Arguments -/

/-- What the parameters get fits the arguments that are supplied. -/
structure FitsArgs (r : Registry) (args : List DataType) (params : List Param)
    (slots : List BoundArg) : Prop where
  accepts : acceptsCount params args.length = true
  length_eq : slots.length = params.length
  supplied : ∀ (i : Nat) (a : DataType), args[i]? = some a → ∃ p conversion,
    params[i]? = some p ∧ r.conversion? a p.type = some conversion ∧
      slots[i]? = some (.converted conversion)
  omitted : ∀ i, args.length ≤ i → i < params.length → slots[i]? = some .default

theorem length_convertArgs {params : List Param} {args : List DataType}
    {slots : List (Option Conversion)} (h : r.convertArgs params args = some slots) :
    slots.length = params.length := by
  induction params generalizing args slots with
  | nil =>
    cases h
    rfl
  | cons p params ih =>
    obtain ⟨slot, rest, rfl, hrest, -⟩ := convertArgs_cons h
    rw [List.length_cons, List.length_cons, ih hrest]

/-- The parameters behind the last argument get none. -/
theorem getElem?_convertArgs_of_le {params : List Param} {args : List DataType}
    {slots : List (Option Conversion)} (h : r.convertArgs params args = some slots) {i : Nat}
    (hargs : args.length ≤ i) (hparams : i < params.length) : slots[i]? = some none := by
  induction params generalizing args slots i with
  | nil => exact absurd hparams (Nat.not_lt_zero i)
  | cons p params ih =>
    obtain ⟨slot, rest, rfl, hrest, hslot⟩ := convertArgs_cons h
    cases i with
    | zero =>
      rcases hslot with ⟨-, rfl⟩ | ⟨a, conversion, ha, -⟩
      · rfl
      · rw [List.getElem?_eq_none hargs] at ha
        cases ha
    | succ i =>
      have htail : args.tail.length ≤ i := by
        rw [List.length_tail]
        omega
      exact ih hrest htail (Nat.lt_of_succ_lt_succ hparams)

/-- **What is matched fits**, slot by slot. -/
theorem fitsArgs_of_matchArgs? {params : List Param} {args : List DataType}
    {slots : List (Option Conversion)} (h : r.matchArgs? params args = some slots) :
    r.FitsArgs args params (slots.map BoundArg.ofSlot) := by
  obtain ⟨haccepts, hconvert⟩ :
      acceptsCount params args.length = true ∧ r.convertArgs params args = some slots := by
    rw [matchArgs?] at h
    split_ifs at h with haccepts
    exact ⟨haccepts, h⟩
  refine ⟨haccepts, ?_, fun i a ha => ?_, fun i hargs hparams => ?_⟩
  · rw [List.length_map, length_convertArgs hconvert]
  · obtain ⟨p, conversion, hp, hslot, hconversion⟩ := getElem?_of_matchArgs? h ha
    refine ⟨p, conversion, hp, hconversion, ?_⟩
    rw [List.getElem?_map, hslot]
    rfl
  · rw [List.getElem?_map, getElem?_convertArgs_of_le hconvert hargs hparams]
    rfl

/-! ## Receivers -/

/-- A parameter for objects of the receiver's own type, or for any that satisfy
    a constraint. -/
def OwnOrConstrained (receiver target : DataType) : Prop :=
  target.type = receiver.type ∨ target.type = Key.constrained

/-- The ways in which a receiver is converted to parameter zero. -/
inductive Receives (r : Registry) (receiver target : DataType) : Conversion → Prop
  /-- The receiver is an object of a class derived from the wanted one, and not
      of this one itself. -/
  | toBase {base : Class} : TransGen r.HasBase receiver.type target.type →
      receiver.type ≠ target.type → r.class? target.type = some base →
      Receives r receiver target (.toBase target.type)
  | addConst : target.isConst = true → receiver.isConst = false →
      OwnOrConstrained receiver target → Receives r receiver target .addConst
  | identity : target.isConst = receiver.isConst → OwnOrConstrained receiver target →
      Receives r receiver target .identity

/-- A binding adds const or leaves the receiver as it is. -/
theorem receives_binding {receiver target : DataType}
    (hconst : (receiver.isConst && !target.isConst) = false)
    (htype : OwnOrConstrained receiver target) :
    r.Receives receiver target (.binding (target.isConst && !receiver.isConst)) := by
  cases htarget : target.isConst with
  | true =>
    cases hreceiver : receiver.isConst with
    | true => exact .identity (htarget.trans hreceiver.symm) htype
    | false => exact .addConst htarget hreceiver htype
  | false =>
    rw [htarget, Bool.not_false, Bool.and_true] at hconst
    exact .identity (htarget.trans hconst.symm) htype

section
variable (hr : r.Built)
include hr

/-- What converts to another class is derived from it. -/
theorem receives_of_conversionToBase? {receiver target : DataType} {conversion : Conversion}
    (hne : receiver.type ≠ target.type)
    (h : r.conversionToBase? receiver.type target.type = some conversion) :
    r.Receives receiver target conversion := by
  rw [conversionToBase?] at h
  split_ifs at h with hderives
  cases h
  obtain ⟨-, hderives⟩ := (Bool.and_eq_true _ _).mp hderives
  obtain ⟨hreach, base, hbase⟩ :=
    ((derivesFrom_iff hr.founded hr.key_of_class?).1 hderives).resolve_left hne
  rcases Relation.reflTransGen_iff_eq_or_transGen.1 hreach with heq | htrans
  · exact absurd heq.symm hne
  · exact .toBase htrans hne hbase

/-- **A receiver that is matched is received**, if parameter zero takes no copy. -/
theorem receives_of_matchReceiver? {f : Callable} {receiver : DataType}
    {fit : Contingent Conversion} {p : Param} (h : r.matchReceiver? f receiver = some fit)
    (hp : f.params.head? = some p) (hcopy : p.type.indirection ≠ .value) :
    r.Receives receiver p.type fit.value := by
  rw [matchReceiver?, hp, Option.bind_some] at h
  split_ifs at h with hconcrete hmutable
  · obtain ⟨conversion, hconversion, rfl⟩ := Option.map_eq_some_iff.1 h
    have hindirect : p.type.indirection.isIndirect = true := by
      cases hind : p.type.indirection with
      | value => exact absurd hind hcopy
      | reference | pointer => rfl
    rw [conversion?, if_pos hindirect] at hconversion
    split_ifs at hconversion with hmutable hsame
    · cases hconversion
      exact receives_binding (Bool.eq_false_iff.2 hmutable) (Or.inl hsame.symm)
    · exact receives_of_conversionToBase? hr hsame hconversion
  · obtain ⟨constraint, -, rfl⟩ := Option.map_eq_some_iff.1 h
    exact receives_binding (Bool.eq_false_iff.2 hmutable) (Or.inr (not_not.1 hconcrete))

end

/-! ## Bound calls -/

/-- A bound call does with its arguments and its receiver what the callee `f`
    asks for.  A member has a parameter for each argument; the first parameter
    of an extension takes the receiver. -/
inductive FitsCallee (r : Registry) (call : CallSite) (f : Callable) : BoundCall → Prop
  | member {args : List BoundArg} : f ∈ r.membersNamed call.receiver.type call.name →
      f.tail = f.params → r.FitsArgs call.args f.tail args →
      FitsCallee r call f (.member f.key call.receiver (.of f call.receiver) args)
  | extension {p : Param} {passing : Passing} {conversion : Conversion} {args : List BoundArg} :
      r.functions.get? f.key = some f → f.params = p :: f.tail →
      r.FitsArgs call.args f.tail args →
      (passing = .addressOf ↔ p.type.indirection = .pointer) →
      (passing = .byReference ↔ p.type.indirection = .reference) →
      r.Receives call.receiver p.type conversion →
      FitsCallee r call f (.extension f.key call.receiver.type passing conversion args)

section
variable {call : CallSite} {memo : Memo} {c : Candidate}

theorem FitsCallee.fitsArgs {f : Callable} {bound : BoundCall} (h : r.FitsCallee call f bound) :
    r.FitsArgs call.args f.tail bound.args := by
  cases h with
  | member _ _ hargs => exact hargs
  | extension _ _ hargs _ _ _ => exact hargs

theorem fitsCallee_of_mem_gatherMembers (h : c ∈ r.gatherMembers call) :
    r.FitsCallee call c.callable (r.bind c call) := by
  obtain ⟨hnamed, htier, hmatch, -⟩ := mem_memberCandidates h
  obtain ⟨hmember, -, hargs⟩ := matchMember?_eq_some hmatch
  have htail : c.callable.tail = c.callable.params := if_pos hmember
  have hbind : r.bind c call = .member c.callable.key call.receiver (.of c.callable call.receiver)
      (c.fit.args.map BoundArg.ofSlot) := by
    rw [bind, htier]
    rfl
  rw [hbind]
  exact .member hnamed htail (fitsArgs_of_matchArgs? (htail ▸ hargs))

theorem fitsCallee_of_mem_gatherExtensions (hr : r.Built)
    (h : c ∈ (r.gatherExtensions call memo).1) : r.FitsCallee call c.callable (r.bind c call) := by
  obtain ⟨htier, hext, hvisible, fit, hmatch, hfit⟩ := mem_gatherExtensions h
  obtain ⟨hargs, conversion, hreceiver, hconversion, -⟩ := matchFree?_eq_some hmatch
  obtain ⟨k, -, hk⟩ := List.mem_filterMap.1 hvisible
  have henrolled := hr.enrolled k _ hk
  obtain ⟨-, p, hparams, hconvention⟩ := henrolled.of_isExtension hext
  have hbind : r.bind c call = .extension c.callable.key call.receiver.type
      (.ofConvention r.policy.convention) conversion.value (fit.value.args.map BoundArg.ofSlot) := by
    rw [bind, htier, hfit, hconversion]
    rfl
  have hreceives : r.Receives call.receiver p.type conversion.value := by
    refine receives_of_matchReceiver? hr hreceiver (by rw [hparams]; rfl) ?_
    rw [hconvention]
    cases r.policy.convention <;> decide
  rw [hbind]
  refine .extension ?_ hparams (fitsArgs_of_matchArgs? hargs) ?_ ?_ hreceives
  · rw [henrolled.key_eq, hk]
  -- What the policy asks for is how the first parameter is declared.
  · rw [hconvention]
    cases r.policy.convention <;> decide
  · rw [hconvention]
    cases r.policy.convention <;> decide

/-- **A call is bound to what it fits.** -/
theorem Chosen.fitsCallee {bound : BoundCall} (h : r.Chosen call memo bound c) (hr : r.Built) :
    r.FitsCallee call c.callable bound := by
  rw [h.bound_eq]
  rcases h.mem_or_mem with hmember | hext
  · exact fitsCallee_of_mem_gatherMembers hmember
  · exact fitsCallee_of_mem_gatherExtensions hr hext

end

/-- **Bound calls fit the callee**, whatever answers are kept. -/
theorem resolve_fitsCallee (r : Registry) (hr : r.Built) (call : CallSite) (memo : Memo)
    (bound : BoundCall) (h : (r.resolve call memo).1 = .ok bound) :
    ∃ c, r.Chosen call memo bound c ∧ r.FitsCallee call c.callable bound := by
  obtain ⟨c, hchosen⟩ := exists_chosen h
  exact ⟨c, hchosen, hchosen.fitsCallee hr⟩

/-- An extension for things, with a number and an optional one. -/
def mark : Callable :=
  { Callable.free (.global "mark") with
    params := [⟨.ofKey Primitive.double.key, false⟩, ⟨.ofKey Primitive.int32.key, true⟩] }.withReceiver
    (.pointer ⟨1⟩)

/-- A class with a base that is registered later. -/
def derivedThings : Registry :=
  (Registry.initial {}).after
    [.primitives, .ofClass { name := .global "Box", key := ⟨2⟩, base := some ⟨1⟩ },
      .ofClass { name := .global "Thing", key := ⟨1⟩ }, .free mark]

/-- The receiver is seen as its base, one argument is converted, and one is left
    out. -/
def markCall : CallSite :=
  { receiver := .ofKey ⟨2⟩, name := "mark", args := [.ofKey Primitive.int32.key] }

def markBound : BoundCall :=
  .extension mark.asFree.key ⟨2⟩ .addressOf (.toBase ⟨1⟩)
    [.converted ⟨.numeric Primitive.int32.key Primitive.double.key, 8⟩, .default]

theorem resolve_markCall_fitsCallee :
    derivedThings.Built ∧ (derivedThings.resolve markCall ∅).1 = .ok markBound ∧
      ∃ c, derivedThings.Chosen markCall ∅ markBound c ∧
        derivedThings.FitsCallee markCall c.callable markBound := by
  have hbuilt : derivedThings.Built := ⟨_, _, rfl⟩
  have hbound : (derivedThings.resolve markCall ∅).1 = .ok markBound := by decide +kernel
  exact ⟨hbuilt, hbound, resolve_fitsCallee _ hbuilt _ _ _ hbound⟩

end Registry

end MethodResolution
