/-
  Method resolution — bound calls keep const.

  A const object is reached through a const member or a const parameter, or it
  is copied.  For members and arguments, matching sees to this.  For receivers
  of extensions, it does so only because a receiver is never taken by value,
  which registration sees to.

  * `conversion?_keepsConst`, `matchReceiver?_keepsConst`: what is const is
    converted to a value or to a const parameter;
  * `Built.conventional`: in a registry that was built, receivers are taken as
    the convention asks, and so never by value;
  * `resolve_keepsConst`: a call that is bound keeps the const of its receiver
    and of all its arguments, whatever answers are kept.
-/
import MethodResolution.Proofs.Admission
import MethodResolution.Proofs.MemberPriority

namespace MethodResolution

/-- Whether a parameter of this type leaves a const argument as it is: it takes
    a copy, or may not change it. -/
def DataType.SparesConst (d : DataType) : Prop := d.indirection = .value ∨ d.isConst = true

namespace Registry

variable {r : Registry}

/-! ## Matching -/

theorem conversion?_keepsConst {source target : DataType} {conversion : Conversion}
    (h : r.conversion? source target = some conversion) (hconst : source.isConst = true) :
    target.SparesConst := by
  rw [conversion?, hconst, Bool.true_and] at h
  rw [DataType.SparesConst]
  cases htarget : target.indirection with
  | value => exact Or.inl rfl
  | reference | pointer =>
    rw [htarget] at h
    right
    cases hconst' : target.isConst with
    | true => rfl
    | false =>
      rw [hconst'] at h
      cases h

/-- Each argument is converted to the parameter at its position. -/
theorem getElem?_of_convertArgs {params : List Param} {args : List DataType}
    {slots : List (Option Conversion)} (h : r.convertArgs params args = some slots) {i : Nat}
    {a : DataType} {p : Param} (ha : args[i]? = some a) (hp : params[i]? = some p) :
    ∃ conversion, slots[i]? = some (some conversion) ∧
      r.conversion? a p.type = some conversion := by
  induction params generalizing args slots i with
  | nil => cases hp
  | cons p' params ih =>
    obtain ⟨slot, rest, rfl, hrest, hslot⟩ := convertArgs_cons h
    cases i with
    | zero =>
      rcases hslot with ⟨rfl, -⟩ | ⟨a', conversion, ha', rfl, hconversion⟩
      · cases ha
      · cases ha'.symm.trans ha
        cases hp
        exact ⟨conversion, rfl, hconversion⟩
    | succ i => exact ih hrest (by rwa [List.getElem?_tail]) hp

/-- There is a parameter for each argument, and it spares what is const. -/
theorem getElem?_of_matchArgs? {params : List Param} {args : List DataType}
    {slots : List (Option Conversion)} (h : r.matchArgs? params args = some slots) {i : Nat}
    {a : DataType} (ha : args[i]? = some a) :
    ∃ p conversion, params[i]? = some p ∧ slots[i]? = some (some conversion) ∧
      r.conversion? a p.type = some conversion := by
  rw [matchArgs?] at h
  split_ifs at h with hcount
  rw [acceptsCount, Bool.and_eq_true, decide_eq_true_iff, decide_eq_true_iff] at hcount
  have hi : i < params.length :=
    Nat.lt_of_lt_of_le (List.getElem?_eq_some_iff.1 ha).1 hcount.2
  obtain ⟨conversion, hslot, hconversion⟩ :=
    getElem?_of_convertArgs h ha (List.getElem?_eq_getElem hi)
  exact ⟨params[i], conversion, List.getElem?_eq_getElem hi, hslot, hconversion⟩

theorem matchReceiver?_keepsConst {c : Callable} {receiver : DataType}
    {fit : Contingent Conversion} (h : r.matchReceiver? c receiver = some fit)
    (hconst : receiver.isConst = true) :
    ∃ p, c.params.head? = some p ∧ p.type.SparesConst := by
  rw [matchReceiver?] at h
  obtain ⟨p, hp, hfit⟩ := Option.bind_eq_some_iff.1 h
  refine ⟨p, hp, ?_⟩
  split_ifs at hfit with hconcrete hmutable
  · obtain ⟨conversion, hconversion, -⟩ := Option.map_eq_some_iff.1 hfit
    exact conversion?_keepsConst hconversion hconst
  · rw [hconst, Bool.true_and, Bool.not_eq_true', Bool.not_eq_false] at hmutable
    exact Or.inr hmutable

theorem matchFree?_eq_some {c : Callable} {receiver : DataType} {args : List DataType}
    {fit : Contingent Match} (h : r.matchFree? c receiver args = some fit) :
    r.matchArgs? c.tail args = some fit.value.args ∧
      ∃ conversion, r.matchReceiver? c receiver = some conversion ∧
        fit.value.receiver = some conversion.value ∧ fit.given = conversion.given := by
  rw [matchFree?] at h
  split_ifs at h
  obtain ⟨slots, hslots, hreceiver⟩ := Option.bind_eq_some_iff.1 h
  obtain ⟨conversion, hconversion, rfl⟩ := Option.map_eq_some_iff.1 hreceiver
  exact ⟨hslots, conversion, hconversion, rfl, rfl⟩

/-! ## Registered functions -/

/-- Every free function takes its receiver, if it has one, as the convention
    asks. -/
def Conventional (r : Registry) : Prop :=
  ∀ k f, r.functions.get? k = some f → r.receiverFault? f = none

theorem receiverFault?_congr {r' : Registry} (h : r'.policy = r.policy) :
    r'.receiverFault? = r.receiverFault? := by
  funext f
  rw [receiverFault?, receiverFault?, h]

/-- **In a registry that was built, receivers are taken as the convention
    asks.** -/
theorem Built.conventional (hr : r.Built) : r.Conventional := by
  refine hr.functions_induction (P := fun r _ f => r.receiverFault? f = none)
    (fun _ _ herror => (faults_of_freeError? herror).1) fun _ _ _ _ _ _ haccepts h => ?_
  rwa [receiverFault?_congr haccepts.policy_eq]

/-- What takes its receiver as the convention asks does not take a copy. -/
theorem head?_of_receiverFault? {f : Callable} (h : r.receiverFault? f = none)
    (hext : f.isExtension = true) {p : Param} (hp : f.params.head? = some p) :
    p.type.indirection ≠ .value := by
  rw [Callable.isExtension, Bool.and_eq_true] at hext
  obtain ⟨index, hindex⟩ := Option.isSome_iff_exists.1 hext.2
  obtain ⟨-, p', hp', hconvention⟩ := receiverFault?_eq_none_iff.1 h index hindex
  cases hp.symm.trans hp'
  rw [hconvention]
  cases r.policy.convention with
  | pointer | reference => rintro ⟨⟩

/-! ## Bound calls -/

/-- The call `bound`, which calls `f`, drops no const.  A const receiver has a
    const member called on it, or is taken as a const parameter; and each
    argument is converted to the parameter at its position, which spares it if
    it is const. -/
structure KeepsConst (r : Registry) (call : CallSite) (f : Callable) (bound : BoundCall) :
    Prop where
  member : bound.tier = .member → call.receiver.isConst = true → f.isConst = true
  extension : bound.tier = .extension → call.receiver.isConst = true →
    ∃ p, f.params.head? = some p ∧ p.type.isConst = true
  args : ∀ (i : Nat) (a : DataType), call.args[i]? = some a → ∃ p conversion,
    f.tail[i]? = some p ∧ bound.args[i]? = some (.converted conversion) ∧
      r.conversion? a p.type = some conversion ∧ (a.isConst = true → p.type.SparesConst)

theorem bind_args (c : Candidate) (call : CallSite) :
    (r.bind c call).args = c.fit.args.map BoundArg.ofSlot := by
  cases htier : c.tier <;> simp only [bind, htier, BoundCall.args]

/-- The arguments of a call that was matched are bound to what spares them. -/
theorem bind_keepsConst_args {c : Candidate} {call : CallSite}
    (h : r.matchArgs? c.callable.tail call.args = some c.fit.args) {i : Nat} {a : DataType}
    (ha : call.args[i]? = some a) :
    ∃ p conversion, c.callable.tail[i]? = some p ∧
      (r.bind c call).args[i]? = some (.converted conversion) ∧
      r.conversion? a p.type = some conversion ∧ (a.isConst = true → p.type.SparesConst) := by
  obtain ⟨p, conversion, hp, hslot, hconversion⟩ := getElem?_of_matchArgs? h ha
  refine ⟨p, conversion, hp, ?_, hconversion, conversion?_keepsConst hconversion⟩
  rw [bind_args, List.getElem?_map, hslot]
  rfl

theorem bind_keepsConst_of_member {call : CallSite} {c : Candidate}
    (h : c ∈ r.gatherMembers call) : r.KeepsConst call c.callable (r.bind c call) := by
  obtain ⟨htier, hmatch, -⟩ := mem_gatherMembers h
  obtain ⟨hmember, hconst, hargs⟩ := matchMember?_eq_some hmatch
  have htail : c.callable.tail = c.callable.params := if_pos hmember
  refine ⟨fun _ => hconst, fun hext => ?_, fun i a ha => bind_keepsConst_args (htail ▸ hargs) ha⟩
  rw [bind_tier, htier] at hext
  cases hext

theorem bind_keepsConst_of_extension (hr : r.Built) {call : CallSite} {memo : Memo} {c : Candidate}
    (h : c ∈ (r.gatherExtensions call memo).1) :
    r.KeepsConst call c.callable (r.bind c call) := by
  obtain ⟨htier, hext, hvisible, fit, hmatch, hfit⟩ := mem_gatherExtensions h
  obtain ⟨hargs, conversion, hreceiver, -⟩ := matchFree?_eq_some hmatch
  obtain ⟨k, -, hk⟩ := List.mem_filterMap.1 hvisible
  refine ⟨fun hmember => ?_, fun _ hconst => ?_, fun i a ha => bind_keepsConst_args ?_ ha⟩
  · rw [bind_tier, htier] at hmember
    cases hmember
  · obtain ⟨p, hp, hspares⟩ := matchReceiver?_keepsConst hreceiver hconst
    have hreference := head?_of_receiverFault? (hr.conventional k _ hk) hext hp
    exact ⟨p, hp, hspares.resolve_left hreference⟩
  · rw [hfit]
    exact hargs

/-- **A bound call never drops const**, whatever answers are kept.  It is bound
    to the candidate that dominates the others, and this one keeps the const of
    the receiver and of all supplied arguments. -/
theorem resolve_keepsConst (r : Registry) (hr : r.Built) (call : CallSite) (memo : Memo)
    (bound : BoundCall) (h : (r.resolve call memo).1 = .ok bound) :
    ∃ c, Selection.Dominates (r.compareCandidates call.receiver) (r.candidates call memo) c ∧
      bound = r.bind c call ∧ r.KeepsConst call c.callable bound := by
  obtain ⟨c, hc, rfl⟩ := dominates_of_resolve_eq_ok h
  refine ⟨c, hc, rfl, ?_⟩
  have hmem := hc.1
  rw [candidates] at hmem
  split_ifs at hmem with hmembers
  · exact bind_keepsConst_of_extension hr hmem
  · exact bind_keepsConst_of_member hmem

/-- An extension for const objects that rest, with one argument that it may not
    change. -/
def weigh : Callable :=
  { { Callable.free (.global "weigh") with params := [⟨.constReference ⟨1⟩, false⟩] }.withReceiver
      (.constReference Key.constrained) with constraint := some ⟨2⟩ }

/-- A class whose own member of this name needs an object that may change. -/
def weighedThings : Registry :=
  (Registry.initial { convention := .reference }).after
    [.primitives, .ofClass { name := .global "Thing", key := ⟨1⟩ },
      .constraint { name := .global "Rests", key := ⟨2⟩ },
      .member ⟨1⟩ { Callable.member ⟨1⟩ "weigh" with params := [⟨.reference ⟨1⟩, false⟩] },
      .free weigh]

/-- A call on a const object with a const argument. -/
def weighCall : CallSite :=
  { receiver := .constValue ⟨1⟩, name := "weigh", args := [.constValue ⟨1⟩] }

def weighBound : BoundCall :=
  .extension weigh.asFree.key ⟨1⟩ .byReference .identity [.converted .identity]

theorem resolve_weighCall_keepsConst :
    weighedThings.Built ∧ (weighedThings.resolve weighCall ∅).1 = .ok weighBound ∧
      ∃ c, Selection.Dominates (weighedThings.compareCandidates weighCall.receiver)
          (weighedThings.candidates weighCall ∅) c ∧
        weighBound = weighedThings.bind c weighCall ∧
        weighedThings.KeepsConst weighCall c.callable weighBound := by
  have hbuilt : weighedThings.Built := ⟨_, _, rfl⟩
  have hbound : (weighedThings.resolve weighCall ∅).1 = .ok weighBound := by decide +kernel
  exact ⟨hbuilt, hbound, resolve_keepsConst _ hbuilt _ _ _ hbound⟩

end Registry

end MethodResolution
