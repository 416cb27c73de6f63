/-
  Method resolution — which bodies are legal.

  The body of an extension is checked where the extension is declared, one use
  of the receiver after the other, and the first use that is not legal refuses
  the declaration.  Registration finds out by walks: up the base chain to the
  first class that declares the name, or along the requirements that were
  collected for a constraint.  Here it is said without them which uses are
  legal.

  * `Supplies`: the most derived class above a type that declares a name, which
    is the one the walk stops at (`Founded.declaring?_eq_some_iff`);
  * `Required`: a constraint that declares the name as a member can be reached
    by refinement;
  * `MayUse`, `Misuses`: what is legal on a receiver, and what is reported for a
    use that is not.  Of each use, exactly one holds (`useFault?_cases`,
    `MayUse.not_misuses`);
  * `registerFree_checksBody`: an extension that is sound apart from its body is
    registered if all uses are legal, and else refused for the first that is
    not.
-/
import MethodResolution.Proofs.BodySafety
import MethodResolution.Proofs.Flattening

namespace MethodResolution

namespace Registry

open Relation (ReflTransGen TransGen)

variable {r : Registry} {k x : Key} {ks : List Key} {c : Class} {f : Callable} {name : String}

/-! ## The class that supplies a name -/

/-- Of the types above `k` and of `k` itself, the class `c` with the key `x` is
    the most derived one that declares `name`: all others stand above it. -/
structure Supplies (r : Registry) (k : Key) (name : String) (x : Key) (c : Class) : Prop where
  reached : ReflTransGen r.HasBase k x
  class?_eq : r.class? x = some c
  declares : c.declares name = true
  above : ∀ y d, ReflTransGen r.HasBase k y → r.class? y = some d → d.declares name = true →
    ReflTransGen r.HasBase x y

/-- A type that declares the name supplies it itself. -/
theorem Supplies.self (hc : r.class? k = some c) (hdeclares : c.declares name = true) :
    r.Supplies k name k c :=
  ⟨.refl, hc, hdeclares, fun _ _ hreach _ _ => hreach⟩

/-- Nothing above a type that declares the name supplies it in its place: it
    would have to stand below the type, too. -/
theorem Supplies.eq_of_declares {d : Class} (h : r.Supplies k name x c)
    (hirrefl : ¬ TransGen r.HasBase k k) (hd : r.class? k = some d)
    (hdeclares : d.declares name = true) : c = d := by
  have hback : ReflTransGen r.HasBase x k := h.above k d .refl hd hdeclares
  rcases Relation.reflTransGen_iff_eq_or_transGen.1 h.reached with rfl | hup
  · exact Option.some.inj (h.class?_eq.symm.trans hd)
  · exact absurd (hup.trans_left hback) hirrefl

/-- A type that does not declare the name leaves it to its base. -/
theorem supplies_iff_of_not_declares
    (hskip : ∀ d, r.class? k = some d → d.declares name = false) :
    r.Supplies k name x c ↔ ∃ b, r.HasBase k b ∧ r.Supplies b name x c := by
  have hbase : ∀ y d, ReflTransGen r.HasBase k y → r.class? y = some d → d.declares name = true →
      ∃ b, r.HasBase k b ∧ ReflTransGen r.HasBase b y := by
    intro y d hreach hd hdeclares
    rcases hreach.cases_head with rfl | hfrom
    · rw [hskip d hd] at hdeclares
      cases hdeclares
    · exact hfrom
  constructor
  · intro h
    obtain ⟨b, hb, hreach⟩ := hbase x c h.reached h.class?_eq h.declares
    exact ⟨b, hb, hreach, h.class?_eq, h.declares, fun y d hy => h.above y d (hy.head hb)⟩
  · rintro ⟨b, hb, h⟩
    refine ⟨h.reached.head hb, h.class?_eq, h.declares, fun y d hy hd hdeclares => ?_⟩
    obtain ⟨b', hb', hreach⟩ := hbase y d hy hd hdeclares
    cases hb.symm.trans hb'
    exact h.above y d hreach hd hdeclares

/-- Looking through a class, if there is one, and then through what stands above
    it finds what supplies the name. -/
theorem find?_eq_some_iff_supplies (hirrefl : ¬ TransGen r.HasBase k k) {rest : List Class}
    (hrest : rest.find? (·.declares name) = some c ↔
      ∃ b, r.HasBase k b ∧ ∃ x, r.Supplies b name x c) :
    ((r.class? k).toList ++ rest).find? (·.declares name) = some c ↔
      ∃ x, r.Supplies k name x c := by
  rw [List.find?_append]
  by_cases hown : ∃ d, r.class? k = some d ∧ d.declares name = true
  · obtain ⟨d, hd, hdeclares⟩ := hown
    rw [hd, Option.toList_some, List.find?_singleton, if_pos hdeclares, Option.some_or]
    constructor
    · rintro ⟨⟩
      exact ⟨k, .self hd hdeclares⟩
    · rintro ⟨x, hx⟩
      rw [hx.eq_of_declares hirrefl hd hdeclares]
  · have hskip : ∀ d, r.class? k = some d → d.declares name = false :=
      fun d hd => Bool.eq_false_iff.2 fun hdeclares => hown ⟨d, hd, hdeclares⟩
    have hnone : (r.class? k).toList.find? (·.declares name) = none := by
      rw [List.find?_eq_none]
      intro d hd
      rw [hskip d (Option.mem_toList.1 hd)]
      exact Bool.false_ne_true
    rw [hnone, Option.none_or, hrest]
    simp only [supplies_iff_of_not_declares hskip]
    exact ⟨fun ⟨b, hb, x, hx⟩ => ⟨x, b, hb, hx⟩, fun ⟨x, b, hb, hx⟩ => ⟨b, hb, x, hx⟩⟩

theorem filterMap_class?_cons (k : Key) (ks : List Key) :
    (k :: ks).filterMap r.class? = (r.class? k).toList ++ ks.filterMap r.class? := by
  cases hk : r.class? k with
  | none => rw [List.filterMap_cons_none hk, Option.toList_none, List.nil_append]
  | some c => rw [List.filterMap_cons_some hk, Option.toList_some, List.singleton_append]

/-- **The first class on a climb that declares the name supplies it.** -/
theorem Climbs.find?_eq_some_iff (h : r.Climbs k ks) :
    (ks.filterMap r.class?).find? (·.declares name) = some c ↔ ∃ x, r.Supplies k name x c := by
  -- On the climb from the base, the induction hypothesis says what is found further up.
  induction h with
  | @top k hbase =>
    rw [filterMap_class?_cons]
    refine find?_eq_some_iff_supplies (Climbs.top hbase).irrefl (iff_of_false (by simp) ?_)
    rintro ⟨b, hb, -⟩
    cases hbase.symm.trans hb
  | @up k b ks hbase hclimb ih =>
    rw [filterMap_class?_cons]
    refine find?_eq_some_iff_supplies (Climbs.up hbase hclimb).irrefl (ih.trans ?_)
    constructor
    · exact fun h => ⟨b, hbase, h⟩
    · rintro ⟨b', hb', h⟩
      cases hbase.symm.trans hb'
      exact h

theorem Founded.declaring?_eq_some_iff (hf : r.Founded) :
    r.declaring? k name = some c ↔ ∃ x, r.Supplies k name x c :=
  (hf.climbs_lineage k).find?_eq_some_iff

/-- Some class above `k`, or `k` itself, declares `name`. -/
def Declared (r : Registry) (k : Key) (name : String) : Prop :=
  ∃ x c, ReflTransGen r.HasBase k x ∧ r.class? x = some c ∧ c.declares name = true

theorem Supplies.declared (h : r.Supplies k name x c) : r.Declared k name :=
  ⟨x, c, h.reached, h.class?_eq, h.declares⟩

/-- Where the walk stops at no class, there is none. -/
theorem Founded.not_declared (hf : r.Founded) (h : r.declaring? k name = none) :
    ¬ r.Declared k name := by
  rintro ⟨x, c, hreach, hc, hdeclares⟩
  have hmem : c ∈ r.chain k := List.mem_filterMap.2 ⟨x, hf.mem_lineage_iff.2 hreach, hc⟩
  exact List.find?_eq_none.1 h c hmem hdeclares

/-- No two classes supply a name. -/
theorem Supplies.unique {y : Key} {d : Class} (hf : r.Founded) (h : r.Supplies k name x c)
    (h' : r.Supplies k name y d) : c = d := by
  have hc := hf.declaring?_eq_some_iff.2 ⟨x, h⟩
  exact Option.some.inj (hc.symm.trans (hf.declaring?_eq_some_iff.2 ⟨y, h'⟩))

/-! ## What a constraint requires of members -/

/-- The constraint, or one that it refines directly or through others, requires
    a member of the name. -/
def Required (r : Registry) (constraint : Key) (name : String) : Prop :=
  ∃ k d, ReflTransGen r.Refines constraint k ∧ r.concept? k = some d ∧ d.mode = .member ∧
    ∃ s ∈ d.signatures, s.name = name

theorem Collected.requiresMember_iff_required (h : r.Collected) {constraint : Key} :
    r.requiresMember constraint name = true ↔ r.Required constraint name := by
  rw [requiresMember, List.any_eq_true]
  constructor
  · rintro ⟨q, hq, hname⟩
    rw [Bool.and_eq_true, beq_iff_eq, beq_iff_eq] at hname
    obtain ⟨k, d, hreach, hd, hown⟩ := h.mem_requirements_iff.1 hq
    obtain ⟨hmode, hs⟩ := mem_own_iff.1 hown
    exact ⟨k, d, hreach, hd, hmode.symm.trans hname.1, q.toSignature, hs, hname.2⟩
  · rintro ⟨k, d, hreach, hd, hmode, s, hs, hname⟩
    have hown : { s with mode := d.mode } ∈ d.own := mem_own_iff.2 ⟨rfl, hs⟩
    refine ⟨_, h.mem_requirements_iff.2 ⟨k, d, hreach, hd, hown⟩, ?_⟩
    rw [Bool.and_eq_true, beq_iff_eq, beq_iff_eq]
    exact ⟨hmode, hname⟩

/-! ## Uses of the receiver -/

/-- The body of `f`, whose receiver has the type `k`, may use the member `name`. -/
inductive MayUse (r : Registry) (f : Callable) (k : Key) (name : String) : Prop
  /-- One of the overloads that the name means is public. -/
  | «public» {x : Key} {c : Class} {m : Callable} : k ≠ Key.constrained →
      r.Supplies k name x c → m ∈ c.methodsNamed name → m.visibility = .public →
      MayUse r f k name
  | required {constraint : Key} : k = Key.constrained → f.constraint = some constraint →
      r.Required constraint name → MayUse r f k name

/-- What is reported if the body of `f`, whose receiver has the type `k`, uses the
    member `name` and may not do so. -/
inductive Misuses (r : Registry) (f : Callable) (k : Key) (name : String) :
    RegistrationFault → Prop
  | undeclared : k ≠ Key.constrained → ¬ r.Declared k name →
      Misuses r f k name (.unknownMember f.name.text name (r.typeName k))
  | unrequired {constraint : Key} : k = Key.constrained → f.constraint = some constraint →
      ¬ r.Required constraint name →
      Misuses r f k name (.unknownMember f.name.text name (r.conceptText constraint))
  /-- None of the overloads is public, and one is private. -/
  | «private» {x : Key} {c : Class} {m : Callable} : k ≠ Key.constrained →
      r.Supplies k name x c → (∀ m ∈ c.methodsNamed name, m.visibility ≠ .public) →
      m ∈ c.methodsNamed name → m.visibility = .private →
      Misuses r f k name (.hiddenMember f.name.text name .private)
  /-- All overloads are protected. -/
  | «protected» {x : Key} {c : Class} : k ≠ Key.constrained → r.Supplies k name x c →
      (∀ m ∈ c.methodsNamed name, m.visibility = .protected) →
      Misuses r f k name (.hiddenMember f.name.text name .protected)

theorem isPublic_iff {v : Visibility} : v.isPublic = true ↔ v = .public := by
  cases v <;> decide

/-- A use on a receiver of a known type is legal, or its fault is reported. -/
theorem concreteUseFault?_cases (hf : r.Founded) (hk : k ≠ Key.constrained) :
    r.concreteUseFault? f.name.text k name = none ∧ r.MayUse f k name ∨
      ∃ fault, r.concreteUseFault? f.name.text k name = some fault ∧
        r.Misuses f k name fault := by
  rw [concreteUseFault?, membersNamed]
  cases hsupplier : r.declaring? k name with
  | none => exact Or.inr ⟨_, rfl, .undeclared hk (hf.not_declared hsupplier)⟩
  | some c =>
    obtain ⟨x, hx⟩ := hf.declaring?_eq_some_iff.1 hsupplier
    have hsome : (c.methodsNamed name).isEmpty = false := by
      simpa using Class.declares_iff.1 hx.declares
    rw [Option.elim_some]
    simp only [hsome, Bool.false_eq_true, if_false]
    by_cases hpublic : (c.methodsNamed name).any (·.visibility.isPublic) = true
    · rw [if_pos hpublic]
      obtain ⟨m, hm, hvisible⟩ := List.any_eq_true.1 hpublic
      exact Or.inl ⟨rfl, .public hk hx hm (isPublic_iff.1 hvisible)⟩
    · rw [if_neg hpublic]
      have hnone : ∀ m ∈ c.methodsNamed name, m.visibility ≠ .public :=
        fun m hm hvisible => hpublic (List.any_eq_true.2 ⟨m, hm, isPublic_iff.2 hvisible⟩)
      split_ifs with hprivate
      · obtain ⟨m, hm, hvisible⟩ := List.any_eq_true.1 hprivate
        exact Or.inr ⟨_, rfl, .private hk hx hnone hm (beq_iff_eq.1 hvisible)⟩
      · have hopen : ∀ m ∈ c.methodsNamed name, m.visibility ≠ .private := by simpa using hprivate
        refine Or.inr ⟨_, rfl, .protected hk hx fun m hm => ?_⟩
        cases hvisible : m.visibility with
        | «public» => exact absurd hvisible (hnone m hm)
        | «private» => exact absurd hvisible (hopen m hm)
        | «protected» => rfl

section
variable (hr : r.Built)
include hr

/-- **A use is legal, or its fault is reported.**  A constrained receiver has a
    constraint. -/
theorem useFault?_cases
    (hconstraint : k = Key.constrained → ∃ constraint, f.constraint = some constraint) :
    r.useFault? f k name = none ∧ r.MayUse f k name ∨
      ∃ fault, r.useFault? f k name = some fault ∧ r.Misuses f k name fault := by
  rw [useFault?]
  split_ifs with hk
  · obtain ⟨constraint, hf⟩ := hconstraint hk
    rw [hf, Option.bind_some, constrainedUseFault?]
    have hiff : r.requiresMember constraint name = true ↔ r.Required constraint name :=
      hr.collected.requiresMember_iff_required
    split_ifs with hrequired
    · exact Or.inl ⟨rfl, .required hk hf (hiff.1 hrequired)⟩
    · exact Or.inr ⟨_, rfl, .unrequired hk hf fun h => hrequired (hiff.2 h)⟩
  · exact concreteUseFault?_cases hr.founded hk

/-- For a legal use, no fault is due. -/
theorem MayUse.not_misuses {fault : RegistrationFault} (h : r.MayUse f k name) :
    ¬ r.Misuses f k name fault := by
  rcases h with ⟨hk, hx, hm, hvisible⟩ | ⟨hk, hconstraint, hrequired⟩
  · rintro (⟨-, hnot⟩ | ⟨hk', -, -⟩ | ⟨-, hx', hnone, -, -⟩ | ⟨-, hx', hall⟩)
    · exact hnot hx.declared
    · exact hk hk'
    · cases hx.unique hr.founded hx'
      exact hnone _ hm hvisible
    · cases hx.unique hr.founded hx'
      rw [hall _ hm] at hvisible
      cases hvisible
  · rintro (⟨hk', -⟩ | ⟨-, hconstraint', hnot⟩ | ⟨hk', -, -, -, -⟩ | ⟨hk', -, -⟩)
    · exact hk' hk
    · cases hconstraint.symm.trans hconstraint'
      exact hnot hrequired
    · exact hk' hk
    · exact hk' hk

/-- **A use has no fault exactly if it is legal.** -/
theorem useFault?_eq_none_iff
    (hconstraint : k = Key.constrained → ∃ constraint, f.constraint = some constraint) :
    r.useFault? f k name = none ↔ r.MayUse f k name := by
  rcases useFault?_cases hr hconstraint with ⟨hnone, hmay⟩ | ⟨fault, hfault, hmisuses⟩
  · exact iff_of_true hnone hmay
  · exact iff_of_false (by rw [hfault]; exact Option.some_ne_none _)
      fun hmay => hmay.not_misuses hr hmisuses

end

/-! ## Declarations -/

/-- As a free function, `f` passes all checks but that of its body. -/
structure SoundButBody (r : Registry) (f : Callable) : Prop where
  receiver : r.receiverFault? f = none
  constraint : r.constraintFault? f = none
  types : r.typeFault? f = none
  fresh : r.functions.contains f.key = false

theorem SoundButBody.freeError?_eq (h : r.SoundButBody f) (hext : f.isExtension = true) :
    r.freeError? f = r.bodyError? f := by
  rw [freeError?, h.receiver, h.constraint, h.types, h.fresh, hext]
  cases r.bodyError? f <;> rfl

/-- An extension has its receiver in front. -/
theorem SoundButBody.receiverParam?_eq (h : r.SoundButBody f) (hext : f.isExtension = true) :
    ∃ p, f.params.head? = some p ∧ f.receiverParam? = some p := by
  rw [Callable.isExtension, Bool.and_eq_true] at hext
  obtain ⟨i, hi⟩ := Option.isSome_iff_exists.1 hext.2
  obtain ⟨rfl, p, hp, -⟩ := receiverFault?_eq_none_iff.1 h.receiver i hi
  refine ⟨p, hp, ?_⟩
  rw [Callable.receiverParam?, hi, Option.bind_some, ← List.head?_eq_getElem?, hp]

theorem SoundButBody.exists_constraint (h : r.SoundButBody f) {p : Param}
    (hp : f.params.head? = some p) (htype : p.type.type = Key.constrained) :
    ∃ constraint, f.constraint = some constraint := by
  rw [← Option.isSome_iff_exists, (constraintFault?_eq_none_iff.1 h.constraint).1,
    takesConstrained_iff]
  exact ⟨p, hp, htype⟩

theorem registerFree_eq_error {error : RegistrationError}
    (h : r.freeError? f.asFree = some error) : r.registerFree f = .error error := by
  rw [Callable.asFree] at h
  rw [registerFree]
  simp only [h]

/-- How the declaration of the extension `c`, whose receiver has the type `k`,
    fares with its body. -/
structure ChecksBody (r : Registry) (c : Callable) (k : Key) : Prop where
  accepted_iff : r.registerFree c = .ok (c.asFree.key, r.addFree c.asFree) ↔
    ∀ used ∈ c.bodyRefs, r.MayUse c.asFree k used.name
  /-- The first use that is not legal is reported, where it stands. -/
  refused : ∀ first used rest, c.bodyRefs = first ++ used :: rest →
    (∀ before ∈ first, r.MayUse c.asFree k before.name) → ¬ r.MayUse c.asFree k used.name →
    ∃ fault, r.Misuses c.asFree k used.name fault ∧ r.registerFree c = .error ⟨used.span, fault⟩

/-- **Exactly the legal bodies are accepted**, and the first illegal use is
    reported, for extensions that are sound apart from their bodies. -/
theorem registerFree_checksBody (r : Registry) (hr : r.Built) (c : Callable)
    (hext : c.asFree.isExtension = true) (hsound : r.SoundButBody c.asFree) :
    ∃ p, c.params.head? = some p ∧ r.ChecksBody c p.type.type := by
  obtain ⟨p, hp, hreceiver⟩ := hsound.receiverParam?_eq hext
  have herror : r.freeError? c.asFree = c.bodyRefs.findSome? fun used =>
      (r.useFault? c.asFree p.type.type used.name).map fun fault => ⟨used.span, fault⟩ := by
    rw [hsound.freeError?_eq hext, bodyError?, hreceiver, Option.bind_some]
    rfl
  have hconstraint := hsound.exists_constraint hp
  refine ⟨p, hp, ?_, fun first used rest hrefs hfirst hused => ?_⟩
  · have haccepts : r.registerFree c = .ok (c.asFree.key, r.addFree c.asFree) ↔
        r.freeError? c.asFree = none := by
      rw [registerFree_eq_ok_iff]
      refine ⟨fun haccepts => ?_, .free⟩
      cases haccepts with
      | free hnone => exact hnone
    rw [haccepts, herror, List.findSome?_eq_none_iff]
    refine forall₂_congr fun used _ => ?_
    rw [Option.map_eq_none_iff, useFault?_eq_none_iff hr hconstraint]
  · obtain ⟨fault, hfault, hmisuses⟩ :=
      (useFault?_cases hr hconstraint).resolve_left fun h => hused h.2
    refine ⟨fault, hmisuses, registerFree_eq_error ?_⟩
    rw [herror, List.findSome?_eq_some_iff]
    refine ⟨first, used, rest, hrefs, by rw [hfault]; rfl, fun before hbefore => ?_⟩
    rw [Option.map_eq_none_iff, useFault?_eq_none_iff hr hconstraint]
    exact hfirst before hbefore

/-- A class that hides a public member of its base behind a private one, and a
    name that is protected in one overload and public in the other. -/
def fencedThings : Registry :=
  (Registry.initial {}).after
    [.primitives, .ofClass { name := .global "Box", key := ⟨2⟩, base := some ⟨1⟩ },
      .ofClass { name := .global "Thing", key := ⟨1⟩ },
      .member ⟨1⟩ (.member ⟨1⟩ "size"),
      .member ⟨1⟩ { Callable.member ⟨1⟩ "peek" with visibility := .protected },
      .member ⟨1⟩ { Callable.member ⟨1⟩ "peek" with isConst := true },
      .member ⟨2⟩ { Callable.member ⟨2⟩ "size" with
        params := [⟨.ofKey Primitive.int32.key, false⟩], visibility := .private }]

/-- An extension whose second use is not legal. -/
def measure : Callable :=
  { (Callable.free (.global "measure")).withReceiver (.pointer ⟨2⟩) with
    bodyRefs := [⟨"peek", ⟨1, 1, 0⟩⟩, ⟨"size", ⟨2, 1, 0⟩⟩,
      ⟨"weigh", ⟨3, 1, 0⟩⟩] }

theorem fencedThings_checksBody : fencedThings.Built ∧ measure.asFree.isExtension = true ∧
    fencedThings.SoundButBody measure.asFree ∧
    (∃ p, measure.params.head? = some p ∧ fencedThings.ChecksBody measure p.type.type) ∧
    fencedThings.registerFree measure =
      .error ⟨⟨2, 1, 0⟩, .hiddenMember "measure" "size" .private⟩ := by
  have hbuilt : fencedThings.Built := ⟨{}, _, rfl⟩
  have hext : measure.asFree.isExtension = true := by decide
  have hsound : fencedThings.SoundButBody measure.asFree :=
    ⟨by decide +kernel, by decide +kernel, by decide +kernel, by decide +kernel⟩
  exact ⟨hbuilt, hext, hsound, registerFree_checksBody _ hbuilt _ hext hsound, by decide +kernel⟩

end Registry

end MethodResolution
