/-
  Method resolution — where placeholders stand.

  A placeholder stands for the type that the constraint of a callable describes.
  Registration asks for the constraint where the placeholder is the type of the
  first parameter of a free function.  Everywhere else it takes the placeholder
  for a type like any other, so it may also come to stand where an argument
  goes, with no constraint to say what the argument may be.

  * `Guarded`: every placeholder is the type of the first parameter of a free
    function, and the constraint of this function is known;
  * `Callable.strays`: a placeholder stands where an argument goes.  A registry
    is guarded exactly if nothing registered strays (`guarded_iff`);
  * `Accepts.registers`, `Accepts.registers_callable?`: what a declaration adds;
    so the first one that strays ends the guard (`Guarded.next_iff`);
  * `type_of_matchArgs?`: no argument of a registered type is passed where a
    placeholder strays;
  * `placesPlaceholders_after`: all of this for any run;
  * `not_forall_guarded`: nothing keeps a member from straying.
-/
import MethodResolution.Proofs.ConstSafety
import MethodResolution.Proofs.FunctionTable
import MethodResolution.Proofs.Inheritance
import MethodResolution.Proofs.MemberIndex

namespace MethodResolution

/-- Whether a placeholder stands where an argument of a call goes. -/
def Callable.strays (c : Callable) : Bool := c.tail.any (·.type.type == Key.constrained)

namespace Declaration

/-- The callable that is registered if the declaration is accepted. -/
def callable? : Declaration → Option Callable
  | member owner c => some (c.asMember owner)
  | free c => some c.asFree
  | primitives | ofClass _ | constraint _ | import_ _ _ => none

/-- Whether a class is declared, if one is, without members. -/
def isBare : Declaration → Bool
  | ofClass c => c.methods.isEmpty
  | primitives | member _ _ | free _ | constraint _ | import_ _ _ => true

end Declaration

namespace Registry

variable {r r' : Registry} {c : Callable} {d : Declaration} {ds : List Declaration}
  {key : Option Key} {i : Nat} {o : Key} {p : Param}

/-! ## Registered callables -/

/-- The callable is registered as a free function or as a member of a class. -/
inductive Registers (r : Registry) : Callable → Prop
  | free {k : Key} {f : Callable} : r.functions.get? k = some f → Registers r f
  | member {o : Key} {m : Callable} : m ∈ r.methodsOf o → Registers r m

theorem not_registers_initial (policy : Policy) : ¬ (initial policy).Registers c := by
  rintro (hf | hm)
  · cases hf
  · cases hm

theorem mem_methodsOf_of_registerPrimitives (h : c ∈ r.registerPrimitives.methodsOf o) :
    c ∈ r.methodsOf o := by
  rw [methodsOf] at h ⊢
  rcases class?_registerPrimitives r o with hnone | hsame
  · rw [hnone] at h
    cases h
  · rwa [hsame] at h

/-- **A declaration registers what it declares**, and nothing else. -/
theorem Accepts.registers (h : r.Accepts d key r') (hd : d.isBare = true)
    (hc : r'.Registers c) : r.Registers c ∨ d.callable? = some c := by
  cases hc with
  | @free k f hf =>
    cases h with
    | primitives | ofClass _ _ | member _ | constraint _ _ | import_ => exact Or.inl (.free hf)
    | free _ =>
      rw [addFree, Table.get?_insert] at hf
      split_ifs at hf
      · exact Or.inr hf
      · exact Or.inl (.free hf)
  | @member o m hm =>
    cases h with
    | primitives => exact Or.inl (.member (mem_methodsOf_of_registerPrimitives hm))
    | ofClass hnew _ =>
      rw [← withClass, methodsOf_withClass hnew (List.isEmpty_iff.1 hd)] at hm
      exact Or.inl (.member hm)
    | member hfault =>
      obtain ⟨-, -, -, owner, howner⟩ := memberFault?_eq_none_iff.1 hfault
      rcases (mem_methodsOf_addMember howner _ _ _).1 hm with hold | ⟨-, rfl⟩
      · exact Or.inl (.member hold)
      · exact Or.inr rfl
    | free _ | constraint _ _ | import_ => exact Or.inl (.member hm)

theorem Accepts.registers_callable? (h : r.Accepts d key r') (hc : d.callable? = some c) :
    r'.Registers c := by
  cases h with
  | primitives | ofClass _ _ | constraint _ _ | import_ => cases hc
  | member hfault =>
    cases hc
    obtain ⟨-, -, -, owner, howner⟩ := memberFault?_eq_none_iff.1 hfault
    exact .member ((mem_methodsOf_addMember howner _ _ _).2 (Or.inr ⟨rfl, rfl⟩))
  | @free c _ =>
    cases hc
    have hf : (r.addFree c.asFree).functions.get? c.asFree.key = some c.asFree := by
      rw [addFree, Table.get?_insert_self]
    exact .free hf

/-! ## Placeholders -/

/-- Parameter `i` of `c` is the first one of a free function whose constraint is
    known. -/
def Vouched (r : Registry) (c : Callable) (i : Nat) : Prop :=
  i = 0 ∧ c.isMember = false ∧
    ∃ constraint concept, c.constraint = some constraint ∧ r.concept? constraint = some concept

/-- A placeholder never stands without a constraint that describes it. -/
def Guarded (r : Registry) : Prop :=
  ∀ c, r.Registers c → ∀ i p, c.params[i]? = some p → p.type.type = Key.constrained →
    r.Vouched c i

/-- If a free function has a placeholder in front, its constraint is known. -/
def Placed (r : Registry) (c : Callable) : Prop :=
  c.isMember = false → ∀ p, c.params.head? = some p → p.type.type = Key.constrained →
    r.Vouched c 0

/-- A constraint that is known stays known. -/
theorem Placed.of_accepts (h : r.Placed c) (haccepts : r.Accepts d key r') : r'.Placed c := by
  intro hfree p hp htype
  obtain ⟨hzero, -, constraint, concept, hconstraint, hconcept⟩ := h hfree p hp htype
  exact ⟨hzero, hfree, constraint, concept, hconstraint, haccepts.concept?_eq_some hconcept⟩

/-- A member has an owner; of a free function, registration has checked the
    constraint. -/
theorem Accepts.placed (h : r.Accepts d key r') (hc : d.callable? = some c) : r.Placed c := by
  cases h with
  | primitives | ofClass _ _ | constraint _ _ | import_ => cases hc
  | member _ =>
    cases hc
    exact fun hfree => Bool.noConfusion hfree
  | free herror =>
    cases hc
    intro hfree p hp htype
    have henrolled := enrolled_of_freeError? herror
    obtain ⟨constraint, hconstraint⟩ := henrolled.constrained.2 ⟨p, hp, htype⟩
    obtain ⟨concept, hconcept⟩ := henrolled.concept constraint hconstraint
    exact ⟨rfl, hfree, constraint, concept, hconstraint, hconcept⟩

/-- **Where all is placed, a declaration keeps it so.** -/
theorem Accepts.all_placed (h : r.Accepts d key r') (hd : d.isBare = true)
    (hplaced : ∀ c, r.Registers c → r.Placed c) : ∀ c, r'.Registers c → r'.Placed c := by
  intro c hc
  -- What is new was checked against the constraints known before; none is forgotten.
  rcases h.registers hd hc with hold | hnew
  · exact (hplaced c hold).of_accepts h
  · exact (h.placed hnew).of_accepts h

/-- Whatever is registered is placed, if classes are declared without members. -/
theorem placed_after (policy : Policy) (hds : ∀ d ∈ ds, d.isBare = true) :
    ∀ c, ((initial policy).after ds).Registers c → ((initial policy).after ds).Placed c :=
  after_induction (P := fun r => ∀ c, r.Registers c → r.Placed c) ds
    (fun _ d hd _ _ hr haccepts => haccepts.all_placed (hds d hd) hr)
    fun _ hc => absurd hc (not_registers_initial policy)

/-- The placeholders of a callable that is placed are vouched for exactly if none
    stands where an argument goes. -/
theorem Placed.vouched_iff (h : r.Placed c) :
    (∀ i p, c.params[i]? = some p → p.type.type = Key.constrained → r.Vouched c i) ↔
      c.strays = false := by
  rw [Callable.strays, List.any_eq_false, Callable.tail]
  cases hmember : c.isMember with
  | true =>
    rw [if_pos rfl]
    constructor
    · intro hall p hp htype
      obtain ⟨i, hi⟩ := List.getElem?_of_mem hp
      obtain ⟨-, hfree, -⟩ := hall i p hi (beq_iff_eq.1 htype)
      cases hmember.symm.trans hfree
    · intro hnone i p hp htype
      exact absurd (beq_iff_eq.2 htype) (hnone p (List.mem_of_getElem? hp))
  | false =>
    rw [if_neg Bool.false_ne_true]
    constructor
    · intro hall p hp htype
      obtain ⟨i, hi⟩ := List.getElem?_of_mem hp
      rw [List.getElem?_drop] at hi
      obtain ⟨hzero, -⟩ := hall (1 + i) p hi (beq_iff_eq.1 htype)
      omega
    · intro hnone i p hp htype
      cases i with
      | zero => exact h hmember p (List.head?_eq_getElem?.trans hp) htype
      | succ i =>
        have htail : p ∈ c.params.drop 1 :=
          List.mem_of_getElem? (i := i) (by rwa [List.getElem?_drop, Nat.add_comm])
        exact absurd (beq_iff_eq.2 htype) (hnone p htail)

/-- **A registry is guarded exactly if nothing registered strays.** -/
theorem guarded_iff (h : ∀ c, r.Registers c → r.Placed c) :
    r.Guarded ↔ ∀ c, r.Registers c → c.strays = false :=
  forall₂_congr fun c hc => (h c hc).vouched_iff

/-- **A guarded registry stays guarded exactly if what is declared next does not
    stray.** -/
theorem Guarded.next_iff (h : r.Guarded) (hplaced : ∀ c, r.Registers c → r.Placed c)
    (hd : d.isBare = true) (haccepts : r.Accepts d key r') :
    r'.Guarded ↔ ∀ c ∈ d.callable?, c.strays = false := by
  rw [guarded_iff (haccepts.all_placed hd hplaced)]
  constructor
  · exact fun hall c hc => hall c (haccepts.registers_callable? hc)
  · intro hnew c hc
    rcases haccepts.registers hd hc with hold | hdeclared
    · exact (guarded_iff hplaced).1 h c hold
    · exact hnew c hdeclared

/-! ## Arguments -/

/-- Only what has the type of a parameter converts to it, if this type is neither
    a number nor a registered class. -/
theorem type_of_conversion? (hr : r.Built) {source target : DataType} {conversion : Conversion}
    (h : r.conversion? source target = some conversion)
    (hnumeric : target.type.numeric? = none) (hclass : r.class? target.type = none) :
    source.type = target.type := by
  have hbase : r.conversionToBase? source.type target.type = some conversion →
      source.type = target.type := by
    intro hconversion
    rw [conversionToBase?] at hconversion
    split_ifs at hconversion with hderives
    rw [Bool.and_eq_true, derivesFrom_iff hr.founded hr.key_of_class?] at hderives
    refine hderives.2.resolve_right ?_
    rintro ⟨-, cls, hcls⟩
    cases hclass.symm.trans hcls
  rw [conversion?] at h
  split_ifs at h with _ _ hsame hsame
  · exact hsame
  · exact hbase h
  · exact hsame
  · have hbetween : Conversion.betweenNumeric? source.type target.type = none := by
      rw [Conversion.betweenNumeric?, hnumeric]
      cases source.type.numeric? <;> rfl
    rw [hbetween] at h
    exact hbase h

theorem numeric?_constrained : Key.constrained.numeric? = none := by decide +kernel

/-- **Nothing but a placeholder is passed where a stray one stands.** -/
theorem type_of_matchArgs? (hr : r.Built) (hclass : r.class? Key.constrained = none)
    {params : List Param} {args : List DataType} {slots : List (Option Conversion)} {a : DataType}
    (h : r.matchArgs? params args = some slots) (hp : params[i]? = some p)
    (htype : p.type.type = Key.constrained) (ha : args[i]? = some a) :
    a.type = Key.constrained := by
  obtain ⟨p', conversion, hp', -, hconversion⟩ := getElem?_of_matchArgs? h ha
  cases hp.symm.trans hp'
  rw [← htype]
  exact type_of_conversion? hr hconversion (htype ▸ numeric?_constrained) (htype ▸ hclass)

/-! ## Runs -/

/-- Only what was declared is registered, if classes are declared without
    members. -/
theorem declared_after (policy : Policy) (hds : ∀ d ∈ ds, d.isBare = true) :
    ∀ c, ((initial policy).after ds).Registers c → ∃ d ∈ ds, d.callable? = some c := by
  refine after_induction (P := fun r => ∀ c, r.Registers c → ∃ d ∈ ds, d.callable? = some c) ds
    (fun r d hd key r' hr haccepts c hc => ?_) fun _ hc => absurd hc (not_registers_initial policy)
  rcases haccepts.registers (hds d hd) hc with hold | hnew
  · exact hr c hold
  · exact ⟨d, hd, hnew⟩

/-- Where placeholders stand in the registry that the declarations `ds` leave. -/
structure PlacesPlaceholders (r : Registry) (ds : List Declaration) : Prop where
  /-- In front of a free function, a placeholder has a known constraint. -/
  placed : ∀ c, r.Registers c → r.Placed c
  guarded_iff : r.Guarded ↔ ∀ c, r.Registers c → c.strays = false
  /-- As long as nothing declared strays, the registry is guarded, -/
  guarded : (∀ d ∈ ds, ∀ c ∈ d.callable?, c.strays = false) → r.Guarded
  /-- and it stays so exactly if what is accepted next does not stray. -/
  next_iff : r.Guarded → ∀ d key r', d.isBare = true → r.Accepts d key r' →
    (r'.Guarded ↔ ∀ c ∈ d.callable?, c.strays = false)
  /-- No argument of another type is passed where a placeholder strays. -/
  stray : r.class? Key.constrained = none → ∀ (c : Callable) args slots (i : Nat) p a,
    r.matchArgs? c.tail args = some slots → c.tail[i]? = some p →
    p.type.type = Key.constrained → args[i]? = some a → a.type = Key.constrained

/-- **A placeholder in front of a free function has a known constraint, and one
    that stands anywhere else takes no argument**, whatever was declared. -/
theorem placesPlaceholders_after (policy : Policy) (ds : List Declaration)
    (hds : ∀ d ∈ ds, d.isBare = true) :
    ((initial policy).after ds).PlacesPlaceholders ds where
  placed := placed_after policy hds
  guarded_iff := guarded_iff (placed_after policy hds)
  guarded hstrays := by
    rw [guarded_iff (placed_after policy hds)]
    intro c hc
    obtain ⟨d, hd, hdeclares⟩ := declared_after policy hds c hc
    exact hstrays d hd c hdeclares
  next_iff h _ _ _ hd haccepts := h.next_iff (placed_after policy hds) hd haccepts
  stray hclass _ _ _ _ _ _ hmatch hp htype ha :=
    type_of_matchArgs? ⟨policy, ds, rfl⟩ hclass hmatch hp htype ha

/-- A member with a placeholder. -/
def take : Callable :=
  { Callable.member ⟨1⟩ "take" with params := [⟨.ofKey Key.constrained, false⟩] }

/-- A class with that member. -/
def takers : List Declaration :=
  [.primitives, .ofClass { name := .global "Thing", key := ⟨1⟩ }, .member ⟨1⟩ take]

theorem takers_bare : ∀ d ∈ takers, d.isBare = true := by decide

theorem takers_placesPlaceholders : (∀ d ∈ takers, d.isBare = true) ∧
    ((initial {}).after takers).PlacesPlaceholders takers ∧
    ((initial {}).after takers).class? Key.constrained = none ∧
    ((initial {}).after takers).methodsOf ⟨1⟩ = [take.asMember ⟨1⟩] :=
  ⟨takers_bare, placesPlaceholders_after {} takers takers_bare, by decide +kernel,
    by decide +kernel⟩

/-- **A member may have a placeholder**, with no constraint at all. -/
theorem not_forall_guarded : ¬ ∀ (policy : Policy) (ds : List Declaration),
    (∀ d ∈ ds, d.isBare = true) → ((initial policy).after ds).Guarded := by
  intro h
  have hmember : take.asMember ⟨1⟩ ∈ ((initial {}).after takers).methodsOf ⟨1⟩ := by
    decide +kernel
  obtain ⟨-, hfree, -⟩ := h {} takers takers_bare _ (.member hmember) 0 _ rfl rfl
  cases hfree

end Registry

end MethodResolution
