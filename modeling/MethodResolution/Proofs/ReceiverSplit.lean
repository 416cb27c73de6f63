/-
  Method resolution — const overloads of an extension.

  Two extensions of one name may differ in nothing but whether they may change
  the receiver.  Which of them a call means is left to the conversion of the
  receiver, and a conversion to a base class costs the same with const and
  without.

  * `Overloaded`: a call that fits the two and nothing else;
  * `conversion?_toward`: the conversion of a receiver to itself or to a base;
  * `Overloaded.mem_gathered_iff`: the candidates of such a call, none of them
    gathered twice (`nodup_gatherExtensions`);
  * `resolve_splitsByReceiver`: a const object means the const overload, however
    far it derives.  Any other object means the overload that may change it if
    this is one for its own type; if it is one for a base of it, the call is a
    tie;
  * `not_forall_means_changing`: so one class below its receiver, an overload
    that may change an object is lost to it.
-/
import MethodResolution.Proofs.Deletion
import MethodResolution.Proofs.FunctionTable
import MethodResolution.Proofs.Minima

namespace MethodResolution

/-- The conversion of an object to `b`, its own type or a base, where the target
    is const as given. -/
def DataType.toward (d : DataType) (b : Key) (isConst : Bool) : Conversion :=
  if d.type = b then .binding (isConst && !d.isConst) else .toBase b

/-- The candidate for an extension with the conversions of the receiver and of
    the arguments. -/
def Candidate.ofExtension (f : Callable) (conversion : Conversion)
    (slots : List (Option Conversion)) : Candidate :=
  ⟨f, .extension, ⟨f.key, some conversion, slots, argsCost slots⟩, .accessible⟩

namespace Registry

variable {r : Registry} {call : CallSite} {memo : Memo} {b : Key} {isConst : Bool}
  {tail : List Param} {f changes spares : Callable} {slots : List (Option Conversion)}

/-! ## Overloads -/

/-- `f` is an extension in sight of the call that takes an object of the type
    `b`, const or not, and more parameters. -/
structure Offers (r : Registry) (call : CallSite) (b : Key) (isConst : Bool)
    (tail : List Param) (f : Callable) : Prop where
  visible : f ∈ r.visibleFunctions call.path call.name
  isExtension : f.isExtension = true
  params : ∃ hasDefault,
    f.params = ⟨⟨b, isConst, r.policy.convention.indirection⟩, hasDefault⟩ :: tail

/-- The call, on an object of a class that is or derives from `b`, fits no
    member and no extensions but two of objects of `b`: one may change the
    object, the other spares it. -/
structure Overloaded (r : Registry) (call : CallSite) (memo : Memo) (b : Key) (tail : List Param)
    (changes spares : Callable) : Prop where
  isClass : (r.class? call.receiver.type).isSome = true
  derives : r.derivesFrom call.receiver.type b = true
  concrete : b ≠ Key.constrained
  changing : r.Offers call b false tail changes
  sparing : r.Offers call b true tail spares
  noMembers : r.gatherMembers call = []
  noOthers : ∀ c ∈ (r.gatherExtensions call memo).1, c.callable = changes ∨ c.callable = spares

namespace Offers

variable (h : r.Offers call b isConst tail f)
include h

theorem isMember_eq : f.isMember = false := Callable.isMember_of_isExtension h.isExtension

theorem tail_eq : f.tail = tail := by
  obtain ⟨hasDefault, hparams⟩ := h.params
  rw [Callable.tail, h.isMember_eq, hparams]
  rfl

/-- A function with a concrete first parameter has no constraint. -/
theorem constraint_eq_none (hr : r.Built) (hb : b ≠ Key.constrained) : f.constraint = none := by
  obtain ⟨hasDefault, hparams⟩ := h.params
  obtain ⟨k, -, hk⟩ := List.mem_filterMap.1 h.visible
  rw [Option.eq_none_iff_forall_ne_some]
  intro constraint hconstraint
  obtain ⟨p, hp, htype⟩ := (hr.enrolled k f hk).constrained.1 ⟨constraint, hconstraint⟩
  rw [hparams, List.head?_cons, Option.some.injEq] at hp
  subst hp
  exact hb htype

end Offers

/-! ## Receivers -/

theorem isIndirect_indirection (convention : Convention) :
    convention.indirection.isIndirect = true := by
  cases convention <;> rfl

/-- An object converts to its own type and to its bases, unless const is lost. -/
theorem conversion?_toward {source : DataType} {i : Indirection} (hi : i.isIndirect = true)
    (hclass : (r.class? source.type).isSome = true) (hderives : r.derivesFrom source.type b = true) :
    r.conversion? source ⟨b, isConst, i⟩ =
      if source.isConst && !isConst then none else some (source.toward b isConst) := by
  have hbase : r.conversionToBase? source.type b = some (.toBase b) := by
    rw [conversionToBase?, hclass, hderives]
    rfl
  rw [conversion?, if_pos hi, hbase, DataType.toward]
  split_ifs <;> rfl

section
variable (h : r.Overloaded call memo b tail changes spares)
  (hslots : r.matchArgs? tail call.args = some slots)
include h hslots

/-- A call fits an extension of its receiver or a base, unless const is lost. -/
theorem Overloaded.matchFree?_eq (hf : r.Offers call b isConst tail f) :
    r.matchFree? f call.receiver call.args =
      if call.receiver.isConst && !isConst then none
      else some ⟨(Candidate.ofExtension f (call.receiver.toward b isConst) slots).fit, none⟩ := by
  obtain ⟨hasDefault, hparams⟩ := hf.params
  have hreceiver : r.matchReceiver? f call.receiver =
      if call.receiver.isConst && !isConst then none
      else some ⟨call.receiver.toward b isConst, none⟩ := by
    rw [matchReceiver?, hparams, List.head?_cons, Option.bind_some, if_pos h.concrete,
      conversion?_toward (isIndirect_indirection _) h.isClass h.derives]
    split_ifs <;> rfl
  rw [matchFree?, hf.isMember_eq, hf.tail_eq, hslots, hreceiver, hparams]
  split_ifs <;> first | rfl | contradiction

/-! ## Candidates -/

theorem Overloaded.mem_gathered (hf : r.Offers call b isConst tail f)
    (hconst : (call.receiver.isConst && !isConst) = false) :
    Candidate.ofExtension f (call.receiver.toward b isConst) slots ∈
      (r.gatherExtensions call memo).1 := by
  have hmatch := h.matchFree?_eq hslots hf
  rw [hconst, if_neg Bool.false_ne_true] at hmatch
  refine Contingent.mem_settleAll (List.mem_filterMap.2 ⟨f, ?_, ?_⟩)
  · exact List.mem_filter.2 ⟨hf.visible, hf.isExtension⟩
  · rw [hmatch]
    rfl

theorem Overloaded.eq_of_mem_gathered (hf : r.Offers call b isConst tail f) {c : Candidate}
    (hc : c ∈ (r.gatherExtensions call memo).1) (hcallable : c.callable = f) :
    (call.receiver.isConst && !isConst) = false ∧
      c = .ofExtension f (call.receiver.toward b isConst) slots := by
  obtain ⟨htier, -, -, fit, hmatch, hfit⟩ := mem_gatherExtensions hc
  have haccess : c.access = .accessible := by
    rw [access_of_mem_candidates (by rwa [candidates, if_pos h.noMembers]), htier]
    rfl
  rw [hcallable, h.matchFree?_eq hslots hf] at hmatch
  split_ifs at hmatch with hconst
  cases hmatch
  refine ⟨Bool.eq_false_iff.2 hconst, ?_⟩
  calc c = ⟨c.callable, c.tier, c.fit, c.access⟩ := rfl
    _ = .ofExtension f (call.receiver.toward b isConst) slots := by
      rw [hcallable, htier, hfit, haccess]
      rfl

/-- **The candidates are the two overloads**, or the one that spares a const
    receiver. -/
theorem Overloaded.mem_gathered_iff {c : Candidate} :
    c ∈ (r.gatherExtensions call memo).1 ↔
      call.receiver.isConst = false ∧
          c = .ofExtension changes (call.receiver.toward b false) slots ∨
        c = .ofExtension spares (call.receiver.toward b true) slots := by
  constructor
  · intro hc
    rcases h.noOthers c hc with hcallable | hcallable
    · obtain ⟨hconst, heq⟩ := h.eq_of_mem_gathered hslots h.changing hc hcallable
      rw [Bool.not_false, Bool.and_true] at hconst
      exact Or.inl ⟨hconst, heq⟩
    · exact Or.inr (h.eq_of_mem_gathered hslots h.sparing hc hcallable).2
  · rintro (⟨hconst, rfl⟩ | rfl)
    · exact h.mem_gathered hslots h.changing (by rw [hconst, Bool.false_and])
    · exact h.mem_gathered hslots h.sparing (by rw [Bool.not_true, Bool.and_false])

end

theorem sublist_freeCandidates (r : Registry) (fs : List Callable) (receiver : DataType)
    (args : List DataType) (caller : Option Key) :
    ((r.freeCandidates fs receiver args caller).map (·.value.callable)).Sublist fs := by
  rw [freeCandidates]
  induction fs with
  | nil => exact .refl _
  | cons f fs ih =>
    cases hmatch : r.matchFree? f receiver args with
    | none =>
      rw [List.filterMap_cons_none (by rw [hmatch, Option.map_none])]
      exact ih.cons f
    | some fit =>
      rw [List.filterMap_cons_some (by rw [hmatch, Option.map_some])]
      exact ih.cons_cons f

/-- **No extension is gathered twice.** -/
theorem nodup_gatherExtensions (hr : r.Built) (call : CallSite) (memo : Memo) :
    (r.gatherExtensions call memo).1.Nodup := by
  -- Candidates are told apart by their callables, and lookup finds none of these twice.
  have hvisible : (r.visibleFunctions call.path call.name).Nodup :=
    nodup_visibleFunctions (fun k f hf => (hr.enrolled k f hf).key_eq) _ _
  have hsublist : ((r.gatherExtensions call memo).1.map (·.callable)).Sublist
      ((r.visibleFunctions call.path call.name).filter (·.isExtension)) := by
    refine (Contingent.sublist_settleAll.map _).trans ?_
    rw [List.map_map]
    exact sublist_freeCandidates r _ _ _ _
  exact ((hvisible.filter _).sublist hsublist).of_map _

theorem Overloaded.gathered_perm (h : r.Overloaded call memo b tail changes spares) (hr : r.Built)
    (hslots : r.matchArgs? tail call.args = some slots) (hconst : call.receiver.isConst = false) :
    (r.gatherExtensions call memo).1.Perm
      [.ofExtension changes (call.receiver.toward b false) slots,
        .ofExtension spares (call.receiver.toward b true) slots] := by
  have hne : changes ≠ spares := by
    rintro rfl
    obtain ⟨_, hparams⟩ := h.changing.params
    obtain ⟨_, hparams'⟩ := h.sparing.params
    cases hparams.symm.trans hparams'
  refine (List.perm_ext_iff_of_nodup (nodup_gatherExtensions hr call memo) ?_).2 fun c => ?_
  · refine List.nodup_cons.2 ⟨fun hmem => hne ?_, List.nodup_singleton _⟩
    exact congrArg Candidate.callable (List.mem_singleton.1 hmem)
  · rw [h.mem_gathered_iff hslots, List.mem_cons, List.mem_singleton, and_iff_right hconst]

theorem Overloaded.gathered_eq (h : r.Overloaded call memo b tail changes spares) (hr : r.Built)
    (hslots : r.matchArgs? tail call.args = some slots) (hconst : call.receiver.isConst = true) :
    (r.gatherExtensions call memo).1 =
      [.ofExtension spares (call.receiver.toward b true) slots] := by
  refine List.perm_singleton.1 ((List.perm_ext_iff_of_nodup (nodup_gatherExtensions hr call memo)
    (List.nodup_singleton _)).2 fun c => ?_)
  rw [h.mem_gathered_iff hslots, List.mem_singleton, hconst]
  exact or_iff_right fun hno => Bool.noConfusion hno.1

/-! ## Ranking -/

/-- **The conversion of the receiver decides**, where the arguments convert alike
    and there are no constraints. -/
theorem compareCandidates_ofExtension {g : Callable} (hf : f.constraint = none)
    (hg : g.constraint = none) (receiver : DataType) (conversion conversion' : Conversion) :
    r.compareCandidates receiver (.ofExtension f conversion slots)
      (.ofExtension g conversion' slots) = compare conversion.cost conversion'.cost := by
  rw [compareCandidates, compareArgs]
  simp only [Candidate.ofExtension, Candidate.constraint, hf, hg, compareConstraints,
    Match.exactCount, Match.receiverCost, Std.compare_self, Ordering.eq_then, Option.elim_some]

section
variable (h : r.Overloaded call memo b tail changes spares) (hr : r.Built)
  (hslots : r.matchArgs? tail call.args = some slots)
include h hr hslots

/-- The overload that spares a const receiver is alone. -/
theorem Overloaded.dominates_spares (hconst : call.receiver.isConst = true) :
    Selection.Dominates (r.compareCandidates call.receiver) (r.gatherExtensions call memo).1
      (.ofExtension spares (call.receiver.toward b true) slots) := by
  rw [h.gathered_eq hr hslots hconst, Selection.dominates_iff_of_perm_cons (.refl _)]
  exact fun _ hc => absurd hc List.not_mem_nil

/-- To bind an object as it is costs less than to add const. -/
theorem Overloaded.dominates_changes (hconst : call.receiver.isConst = false)
    (hown : call.receiver.type = b) :
    Selection.Dominates (r.compareCandidates call.receiver) (r.gatherExtensions call memo).1
      (.ofExtension changes .identity slots) := by
  have hidentity : call.receiver.toward b false = .identity := by
    rw [DataType.toward, if_pos hown]
    rfl
  have haddConst : call.receiver.toward b true = .addConst := by
    rw [DataType.toward, if_pos hown, hconst]
    rfl
  have hperm := h.gathered_perm hr hslots hconst
  rw [hidentity, haddConst] at hperm
  rw [Selection.dominates_iff_of_perm_cons hperm]
  intro c hc
  rw [List.mem_singleton.1 hc, compareCandidates_ofExtension
    (h.changing.constraint_eq_none hr h.concrete) (h.sparing.constraint_eq_none hr h.concrete)]
  decide

/-- **To see an object as its base costs the same with const and without.** -/
theorem Overloaded.tied (hconst : call.receiver.isConst = false)
    (hderived : call.receiver.type ≠ b) :
    ∃ front tied, r.selectBest call.receiver (r.gatherExtensions call memo).1 =
        some (.ambiguous front tied) ∧
      (front :: tied).Perm
        [.ofExtension changes (.toBase b) slots, .ofExtension spares (.toBase b) slots] := by
  have htoBase : ∀ isConst, call.receiver.toward b isConst = .toBase b := fun _ => if_neg hderived
  have hperm := h.gathered_perm hr hslots hconst
  rw [htoBase, htoBase] at hperm
  have hform : ∀ c ∈ (r.gatherExtensions call memo).1, ∃ f : Callable, f.constraint = none ∧
      c = .ofExtension f (.toBase b) slots := by
    intro c hc
    rcases List.mem_cons.1 (hperm.mem_iff.1 hc) with rfl | hc
    · exact ⟨changes, h.changing.constraint_eq_none hr h.concrete, rfl⟩
    · exact ⟨spares, h.sparing.constraint_eq_none hr h.concrete, List.mem_singleton.1 hc⟩
  have htied : ∀ c ∈ (r.gatherExtensions call memo).1, ∀ c' ∈ (r.gatherExtensions call memo).1,
      r.compareCandidates call.receiver c c' ≠ .lt := by
    intro c hc c' hc'
    obtain ⟨f, hf, rfl⟩ := hform c hc
    obtain ⟨g, hg, rfl⟩ := hform c' hc'
    rw [compareCandidates_ofExtension hf hg, Std.compare_self]
    exact nofun
  obtain ⟨front, tied, hbest, hall⟩ :=
    Selection.best_of_tied htied (hperm.length_eq ▸ Nat.one_lt_two)
  exact ⟨front, tied, hbest, hall.trans hperm⟩

end

/-! ## Calls -/

/-- The call of the extension `f` with the conversions of the receiver and of the
    arguments. -/
def callOf (r : Registry) (call : CallSite) (f : Callable) (conversion : Conversion)
    (slots : List (Option Conversion)) : BoundCall :=
  .extension f.key call.receiver.type (.ofConvention r.policy.convention) conversion
    (slots.map BoundArg.ofSlot)

/-- What a diagnostic says about the extension `f`. -/
def extensionInfo (r : Registry) (f : Callable) : CandidateInfo :=
  ⟨f.key, r.signatureText f, .extension, .accessible⟩

/-- How `out`, the outcome of a call, depends on the receiver. -/
structure SplitsByReceiver (r : Registry) (call : CallSite) (b : Key) (changes spares : Callable)
    (slots : List (Option Conversion)) (out : Resolution) : Prop where
  /-- A const object is spared, however far it derives. -/
  const : call.receiver.isConst = true →
    out = .ok (r.callOf call spares (call.receiver.toward b true) slots)
  /-- Another object is changed by an extension of its own type, -/
  own : call.receiver.isConst = false → call.receiver.type = b →
    out = .ok (r.callOf call changes .identity slots)
  /-- while it takes part in a tie of extensions of a base. -/
  derived : call.receiver.isConst = false → call.receiver.type ≠ b →
    ∃ infos, out = .error ⟨r.summarize call, .ambiguousCandidates .extension infos⟩ ∧
      infos.Perm [r.extensionInfo changes, r.extensionInfo spares]

/-- **Const overloads split the calls by the receiver**, apart from those on
    objects that may change and are of a derived class. -/
theorem resolve_splitsByReceiver (r : Registry) (hr : r.Built) (call : CallSite) (memo : Memo)
    (b : Key) (tail : List Param) (changes spares : Callable)
    (h : r.Overloaded call memo b tail changes spares) (slots : List (Option Conversion))
    (hslots : r.matchArgs? tail call.args = some slots) :
    r.SplitsByReceiver call b changes spares slots (r.resolve call memo).1 := by
  have htier : ∀ c ∈ (r.gatherExtensions call memo).1, c.tier = .extension :=
    fun c hc => (mem_gatherExtensions hc).1
  rw [resolve_of_no_members h.noMembers]
  refine ⟨fun hconst => ?_, fun hconst hown => ?_, fun hconst hderived => ?_⟩
  · exact (verdict_eq_ok_iff htier).2 ⟨_, h.dominates_spares hr hslots hconst, rfl, rfl⟩
  · exact (verdict_eq_ok_iff htier).2 ⟨_, h.dominates_changes hr hslots hconst hown, rfl, rfl⟩
  · obtain ⟨front, tied, hbest, hperm⟩ := h.tied hr hslots hconst hderived
    exact ⟨_, verdict_of_ambiguous hbest, hperm.map r.candidateInfo⟩

/-- An extension of things without a result, const or not. -/
def peek (isConst : Bool) : Callable :=
  (Callable.free (.global "peek")).withReceiver ⟨⟨1⟩, isConst, .pointer⟩

/-- A class, one that derives from it, and two overloads of an extension. -/
def peekedThings : Registry :=
  (Registry.initial {}).after
    [.primitives, .ofClass { name := .global "Thing", key := ⟨1⟩ },
      .ofClass { name := .global "Box", key := ⟨2⟩, base := some ⟨1⟩ },
      .free (peek false), .free (peek true)]

def peekInto (receiver : DataType) : CallSite := { receiver, name := "peek" }

theorem peekInto_overloaded : ∀ receiver ∈ [DataType.ofKey ⟨1⟩, .ofKey ⟨2⟩, .constValue ⟨2⟩],
    peekedThings.Overloaded (peekInto receiver) ∅ ⟨1⟩ [] (peek false).asFree
      (peek true).asFree := by
  intro receiver hreceiver
  have hfacts : ∀ receiver ∈ [DataType.ofKey ⟨1⟩, .ofKey ⟨2⟩, .constValue ⟨2⟩],
      (peekedThings.class? (peekInto receiver).receiver.type).isSome = true ∧
      peekedThings.derivesFrom (peekInto receiver).receiver.type ⟨1⟩ = true ∧
      (∀ isConst, (peek isConst).asFree ∈ peekedThings.visibleFunctions [] "peek") ∧
      peekedThings.gatherMembers (peekInto receiver) = [] ∧
      ∀ c ∈ (peekedThings.gatherExtensions (peekInto receiver) ∅).1,
        c.callable = (peek false).asFree ∨ c.callable = (peek true).asFree := by
    decide +kernel
  obtain ⟨hclass, hderives, hvisible, hmembers, hothers⟩ := hfacts receiver hreceiver
  exact ⟨hclass, hderives, by decide, ⟨hvisible false, rfl, false, rfl⟩,
    ⟨hvisible true, rfl, false, rfl⟩, hmembers, hothers⟩

theorem peekInto_splitsByReceiver : peekedThings.Built ∧
    peekedThings.Overloaded (peekInto (.constValue ⟨2⟩)) ∅ ⟨1⟩ [] (peek false).asFree
      (peek true).asFree ∧
    peekedThings.matchArgs? [] (peekInto (.constValue ⟨2⟩)).args = some [] ∧
    peekedThings.SplitsByReceiver (peekInto (.constValue ⟨2⟩)) ⟨1⟩ (peek false).asFree
      (peek true).asFree [] (peekedThings.resolve (peekInto (.constValue ⟨2⟩)) ∅).1 := by
  have hbuilt : peekedThings.Built := ⟨{}, _, rfl⟩
  have hoverloaded := peekInto_overloaded (.constValue ⟨2⟩) (by decide)
  exact ⟨hbuilt, hoverloaded, rfl, resolve_splitsByReceiver _ hbuilt _ _ _ _ _ _ hoverloaded _ rfl⟩

/-- **An object of a derived class is not changed by an extension of its base**
    that has a const overload. -/
theorem not_forall_means_changing : ¬ ∀ (r : Registry) (call : CallSite) (memo : Memo) (b : Key)
    (tail : List Param) (changes spares : Callable), r.Built →
      r.Overloaded call memo b tail changes spares → (r.matchArgs? tail call.args).isSome = true →
      call.receiver.isConst = false →
      ∃ bound, (r.resolve call memo).1 = .ok bound ∧ bound.key = changes.key := by
  intro h
  obtain ⟨bound, hbound, -⟩ := h peekedThings (peekInto (.ofKey ⟨2⟩)) ∅ ⟨1⟩ [] _ _ ⟨{}, _, rfl⟩
    (peekInto_overloaded _ (by decide)) rfl rfl
  have htie : (peekedThings.resolve (peekInto (.ofKey ⟨2⟩)) ∅).1.isOk = false := by
    decide +kernel
  rw [hbound] at htie
  cases htie

end Registry

end MethodResolution
