/-
  Method resolution — a refused declaration leaves nothing behind.

  That a declaration is refused is found out in several places, while the
  tables are written one after the other.  Here each declaration is taken apart
  into these steps: the checks it makes and the tables it writes, in order, all
  on one registry, which keeps whatever has been written when a check fails.

  * `Step`, `runAll`: steps, and what is left behind when they are run;
  * `steps`: the steps of a declaration.  All its checks come first
    (`checksFirst_steps`), so if one fails, nothing has been written
    (`runAll_of_checksFirst`);
  * `perform_eq`: run step by step, a declaration has the outcome that it has as
    a whole;
  * `history_accepted`: so a run of declarations and the run without those that
    it refuses leave the same registry, with the same outcomes for all others.
-/
import MethodResolution.Proofs.Admission
import MethodResolution.Proofs.ClassTable

namespace MethodResolution

namespace Registry

variable {r : Registry}

/-! ## Steps -/

/-- One step of registering a declaration. -/
inductive Step where
  /-- Go no further if something is at fault. -/
  | check (error? : Registry → Option RegistrationError)
  | write (change : Registry → Registry)

/-- Run steps one after the other, up to the first error.  The registry is what
    has been written up to there. -/
def runAll : List Step → Registry → Option RegistrationError × Registry
  | [], r => (none, r)
  | .check error? :: steps, r =>
    match error? r with
    | some error => (some error, r)
    | none => runAll steps r
  | .write change :: steps, r => runAll steps (change r)

/-- Once something is written, nothing is checked any more. -/
def ChecksFirst : List Step → Prop
  | [] => True
  | .check _ :: steps => ChecksFirst steps
  | .write _ :: steps => ∀ s ∈ steps, ∃ change, s = .write change

theorem runAll_writes {ss : List Step} (h : ∀ s ∈ ss, ∃ change, s = .write change) :
    (runAll ss r).1 = none := by
  induction ss generalizing r with
  | nil => rfl
  | cons s ss ih =>
    obtain ⟨⟨change, rfl⟩, hss⟩ := List.forall_mem_cons.1 h
    exact ih hss

/-- **Where all checks come first, an error leaves the registry as it was.** -/
theorem runAll_of_checksFirst {ss : List Step} {error : RegistrationError}
    (h : ChecksFirst ss) (herror : (runAll ss r).1 = some error) : (runAll ss r).2 = r := by
  induction ss with
  | nil => rfl
  | cons s ss ih =>
    cases s with
    | check error? =>
      rw [runAll] at herror ⊢
      cases hfault : error? r with
      | some _ => rfl
      | none =>
        rw [hfault] at herror
        exact ih h herror
    | write change =>
      rw [runAll, runAll_writes h] at herror
      cases herror

/-! ## The steps of a declaration -/

/-- What is wrong with refining a constraint. -/
def refinementFault? (r : Registry) (c : Constraint) (refined : Key) : Option RegistrationFault :=
  if refined = c.key then some (.circularRefinement c.name.text)
  else if (r.concept? refined).isNone then some (.unknownConstraint refined.text)
  else none

/-- What a constraint requires, together with what it inherits. -/
def inherited (r : Registry) (c : Constraint) : List Requirement :=
  c.refines.foldl (fun known refined => addRequirements known (r.requirements refined)) c.own

/-- The checks that a declaration has to pass and the tables it then changes, in
    this order. -/
def steps : Declaration → List Step
  | .primitives => [.write registerPrimitives]
  | .ofClass c =>
    [.check fun r =>
        if r.types.contains c.key then some ⟨c.span, .duplicateDefinition c.name.text⟩ else none,
      .check fun r =>
        if c.base.any fun base => c.key ∈ r.lineage base then
          some ⟨c.span, .circularInheritance c.name.text⟩
        else none,
      .write fun r => { r with types := r.types.insert c.key (.ofClass c) }]
  | .member owner c =>
    let m := c.asMember owner
    [.check fun _ =>
        if m.receiver.isSome || m.constraint.isSome then
          some ⟨c.span, .memberWithReceiver m.name.text⟩
        else none,
      .check fun r => (r.typeFault? m).map (⟨c.span, ·⟩),
      .check fun r =>
        if r.memberOwner.contains m.key then
          some ⟨c.span, .duplicateDefinition (r.signatureText m)⟩
        else none,
      .check fun r =>
        if (r.class? owner).isNone then some ⟨c.span, .unknownType owner.text⟩ else none,
      .write fun r => { r with types := r.types.modify owner (·.mapClass (·.addMethod m)) },
      .write fun r => { r with memberOwner := r.memberOwner.insert m.key owner }]
  | .free c =>
    let f := c.asFree
    [.check fun r => (r.receiverFault? f).map (⟨c.span, ·⟩),
      .check fun r => (r.constraintFault? f).map (⟨c.span, ·⟩),
      .check fun r => (r.typeFault? f).map (⟨c.span, ·⟩),
      .check fun r => if f.isExtension then r.bodyError? f else none,
      .check fun r =>
        if r.functions.contains f.key then
          some ⟨c.span, .duplicateDefinition (r.signatureText f)⟩
        else none,
      .write fun r =>
        { r with namespaces := r.namespaces.addFunction f.name.path f.simpleName f.key },
      .write fun r => { r with functions := r.functions.insert f.key f }]
  | .constraint c =>
    (.check fun r =>
        if r.concepts.contains c.key then some ⟨c.span, .duplicateDefinition c.name.text⟩
        else none) ::
      c.refines.map (fun refined => .check fun r =>
        (r.refinementFault? c refined).map (⟨c.span, ·⟩)) ++
      [.write fun r =>
        { r with concepts := r.concepts.insert c.key { c with requirements := r.inherited c } }]
  | .import_ path imported => [.write (·.registerUsing path imported)]

theorem checksFirst_steps (d : Declaration) : ChecksFirst (steps d) := by
  cases d with
  | primitives | ofClass _ | member _ _ | free _ | import_ _ _ => simp [steps, ChecksFirst]
  | constraint c =>
    rw [steps, List.cons_append, ChecksFirst]
    induction c.refines with
    | nil => simp [ChecksFirst]
    | cons refined rest ih => exact ih

/-- The key under which a declaration is registered, if it has one. -/
def keyOf? : Declaration → Option Key
  | .ofClass c => some c.key
  | .member owner c => some (c.asMember owner).key
  | .free c => some c.asFree.key
  | .constraint c => some c.key
  | .primitives | .import_ _ _ => none

/-- Register a declaration step by step: the outcome, and what is left behind. -/
def perform (r : Registry) (d : Declaration) :
    Except RegistrationError (Option Key) × Registry :=
  match runAll (steps d) r with
  | (some error, r) => (.error error, r)
  | (none, r) => (.ok (keyOf? d), r)

/-- **A refused declaration leaves the registry as it was.** -/
theorem perform_of_error {d : Declaration} {error : RegistrationError}
    (h : (r.perform d).1 = .error error) : (r.perform d).2 = r := by
  have hleft : ∀ e, (runAll (steps d) r).1 = some e → (runAll (steps d) r).2 = r :=
    fun _ => runAll_of_checksFirst (checksFirst_steps d)
  rw [perform] at h ⊢
  generalize runAll (steps d) r = result at h hleft
  obtain ⟨_ | error', r'⟩ := result
  · cases h
  · exact hleft error' rfl

/-! ## Step by step and as a whole -/

/-- The outcome of a declaration as a whole, and what is left behind. -/
def outcome (r : Registry) (d : Declaration) : Except RegistrationError (Option Key) × Registry :=
  ((r.declare d).map Prod.fst, r.next d)

theorem perform_ofClass (c : Class) : r.perform (.ofClass c) = r.outcome (.ofClass c) := by
  rw [perform, outcome, next, declare, registerClass, steps]
  by_cases hknown : r.types.contains c.key
  · simp only [runAll, if_pos hknown]
    rfl
  · by_cases hbase : c.base.any fun base => c.key ∈ r.lineage base
    · simp only [runAll, if_neg hknown, if_pos hbase]
      rfl
    · simp only [runAll, if_neg hknown, if_neg hbase]
      rfl

theorem registerMember_eq (owner : Key) (c : Callable) :
    r.registerMember owner c =
      (r.memberFault? owner (c.asMember owner)).elim
        (.ok ((c.asMember owner).key, r.addMember owner (c.asMember owner)))
        fun fault => .error ⟨c.span, fault⟩ := by
  rw [registerMember, Callable.asMember]
  cases r.memberFault? owner { c with owner := some owner }.keyed with
  | none => rfl
  | some fault => rfl

theorem perform_member (owner : Key) (c : Callable) :
    r.perform (.member owner c) = r.outcome (.member owner c) := by
  rw [perform, outcome, next, declare, registerMember_eq, memberFault?, steps, keyOf?]
  generalize c.asMember owner = m
  by_cases hfree : (m.receiver.isSome || m.constraint.isSome) = true
  · simp only [runAll, if_pos hfree]
    rfl
  · simp only [runAll, if_neg hfree]
    cases r.typeFault? m with
    | some fault => rfl
    | none =>
      by_cases hknown : r.memberOwner.contains m.key
      · simp only [Option.map_none, if_pos hknown]
        rfl
      · by_cases howner : (r.class? owner).isNone
        · simp only [Option.map_none, if_neg hknown, if_pos howner]
          rfl
        · simp only [Option.map_none, if_neg hknown, if_neg howner]
          rfl

theorem registerFree_eq (c : Callable) :
    r.registerFree c =
      (r.freeError? c.asFree).elim (.ok (c.asFree.key, r.addFree c.asFree)) .error := by
  rw [registerFree, Callable.asFree]
  cases r.freeError? { c with owner := none }.keyed with
  | none => rfl
  | some error => rfl

theorem perform_free (c : Callable) : r.perform (.free c) = r.outcome (.free c) := by
  rw [perform, outcome, next, declare, registerFree_eq, freeError?, steps]
  simp only [runAll]
  cases r.receiverFault? c.asFree with
  | some fault => rfl
  | none =>
    cases r.constraintFault? c.asFree with
    | some fault => rfl
    | none =>
      cases r.typeFault? c.asFree with
      | some fault => rfl
      | none =>
        cases (if c.asFree.isExtension then r.bodyError? c.asFree else none) with
        | some error => rfl
        | none =>
          by_cases hknown : r.functions.contains c.asFree.key
          · simp only [Option.map_none, if_pos hknown]
            rfl
          · simp only [Option.map_none, if_neg hknown]
            rfl

/-- The requirements are collected if none of the refined constraints is at
    fault; otherwise the first one that is is reported. -/
theorem inherit_eq (c : Constraint) (known : List Requirement) (refines : List Key) :
    r.inherit c known refines =
      match refines.findSome? (r.refinementFault? c) with
      | some fault => .error fault
      | none => .ok (refines.foldl (fun known refined =>
          addRequirements known (r.requirements refined)) known) := by
  induction refines generalizing known with
  | nil => rfl
  | cons refined rest ih =>
    rw [inherit, List.findSome?_cons, refinementFault?, List.foldl_cons, requirements]
    by_cases hself : refined = c.key
    · rw [if_pos hself, if_pos hself]
    · rw [if_neg hself, if_neg hself]
      cases r.concept? refined with
      | none => rfl
      | some concept => exact ih _

theorem runAll_map_check {α : Type} (error? : α → Registry → Option RegistrationError)
    (xs : List α) (ss : List Step) :
    runAll (xs.map (fun x => .check (error? x)) ++ ss) r =
      match xs.findSome? (error? · r) with
      | some error => (some error, r)
      | none => runAll ss r := by
  induction xs with
  | nil => rfl
  | cons x xs ih =>
    rw [List.map_cons, List.cons_append, runAll, List.findSome?_cons]
    cases error? x r with
    | some error => rfl
    | none => exact ih

theorem perform_constraint (c : Constraint) :
    r.perform (.constraint c) = r.outcome (.constraint c) := by
  rw [perform, outcome, next, declare, registerConstraint, steps, List.cons_append, inherit_eq,
    runAll, runAll_map_check]
  have hspan : c.refines.findSome? (fun refined =>
      (r.refinementFault? c refined).map fun fault => (⟨c.span, fault⟩ : RegistrationError)) =
        (c.refines.findSome? (r.refinementFault? c)).map (⟨c.span, ·⟩) :=
    (List.map_findSome? ..).symm
  rw [hspan]
  by_cases hknown : r.concepts.contains c.key
  · rw [if_pos hknown, if_pos hknown]
    rfl
  · rw [if_neg hknown, if_neg hknown]
    cases c.refines.findSome? (r.refinementFault? c) with
    | some fault => rfl
    | none => rfl

/-- **Step by step, a declaration has the outcome that it has as a whole**, and
    leaves behind the same registry. -/
theorem perform_eq (d : Declaration) : r.perform d = r.outcome d := by
  cases d with
  | primitives => rfl
  | ofClass c => exact perform_ofClass c
  | member owner c => exact perform_member owner c
  | free c => exact perform_free c
  | constraint c => exact perform_constraint c
  | import_ path imported => rfl

/-! ## Histories -/

/-- Register declarations step by step, one after the other: the outcomes, and
    what is left behind. -/
def history (r : Registry) :
    List Declaration → List (Except RegistrationError (Option Key)) × Registry
  | [] => ([], r)
  | d :: ds =>
    let rest := (r.perform d).2.history ds
    ((r.perform d).1 :: rest.1, rest.2)

/-- The declarations of a list that are not refused when their turn comes. -/
def accepted (r : Registry) (ds : List Declaration) : List Declaration :=
  ((ds.zip (r.history ds).1).filter (·.2.isOk)).map Prod.fst

theorem history_eq (ds : List Declaration) :
    r.history ds = ((r.reports ds).map Prod.snd, r.after ds) := by
  induction ds generalizing r with
  | nil => rfl
  | cons d ds ih =>
    rw [history, perform_eq, ih]
    rfl

theorem accepted_cons (d : Declaration) (ds : List Declaration) :
    r.accepted (d :: ds) =
      if (r.perform d).1.isOk then d :: (r.perform d).2.accepted ds
      else (r.perform d).2.accepted ds := by
  rw [accepted, history, List.zip_cons_cons, List.filter_cons]
  split_ifs
  · rfl
  · rfl

/-- **Refused declarations cannot be observed.**  A history leaves the registry
    that it leaves without them, table by table and scope by scope, with the
    same outcome for each of the others. -/
theorem history_accepted (r : Registry) (ds : List Declaration) :
    r.history ds = ((r.reports ds).map Prod.snd, r.after ds) ∧
      r.history (r.accepted ds) = ((r.history ds).1.filter (·.isOk), (r.history ds).2) := by
  refine ⟨history_eq ds, ?_⟩
  induction ds generalizing r with
  | nil => rfl
  | cons d ds ih =>
    rw [accepted_cons, history, List.filter_cons]
    cases hd : (r.perform d).1 with
    | error error =>
      rw [perform_of_error hd]
      exact ih r
    | ok k =>
      have hrest := ih (r.perform d).2
      simp only [Except.isOk, Except.toBool, if_true]
      rw [history, hd, hrest]
      rfl

/-- A class is refused when it is declared again, and so is a member of a class
    that is not known. -/
example : (initial {}).accepted
    [.ofClass { name := .global "Thing", key := ⟨1⟩ },
      .ofClass { name := .global "Thing", key := ⟨1⟩, base := some ⟨2⟩ },
      .member ⟨2⟩ { Callable.member ⟨2⟩ "roll" with returns := .ofKey ⟨1⟩ },
      .import_ ["lib"] ["app"]] =
    [.ofClass { name := .global "Thing", key := ⟨1⟩ }, .import_ ["lib"] ["app"]] := by
  decide +kernel

end Registry

end MethodResolution
