/-
  Method resolution — where defaults are used.

  A call may leave out as many arguments as there are parameters with a
  default, but what it leaves out are the last ones.  Nothing asks a callable
  to declare its defaults last; so a parameter without one may be left out.

  * `DefaultsLast`: the parameters with a default are the last ones;
  * `defaultsLast_iff`: these are exactly the parameter lists of which a call
    can only leave out what has a default;
  * `resolve_defaults_declared`: a bound call leaves out no more than there are
    defaults, and only what has one where the callee declares them last.  This
    is needed (`resolve_padCall_undeclared`).
-/
import MethodResolution.Proofs.BoundCalls

namespace MethodResolution

variable {ps : List Param}

/-- Behind a parameter with a default, all have one. -/
def DefaultsLast (ps : List Param) : Prop :=
  ps.Pairwise fun p p' => p.hasDefault = true → p'.hasDefault = true

instance : Decidable (DefaultsLast ps) := inferInstanceAs (Decidable (List.Pairwise _ _))

/-- Every parameter that is left to its default has one. -/
def DefaultsDeclared (ps : List Param) (slots : List BoundArg) : Prop :=
  ∀ i : Nat, slots[i]? = some .default → ∃ p, ps[i]? = some p ∧ p.hasDefault = true

namespace Registry

/-! ## Parameter lists -/

theorem acceptsCount_iff {count : Nat} :
    acceptsCount ps count = true ↔
      ps.countP (!·.hasDefault) ≤ count ∧ count ≤ ps.length := by
  rw [acceptsCount, Bool.and_eq_true, decide_eq_true_iff, decide_eq_true_iff]

/-- What is left out has a default, where the defaults come last. -/
theorem hasDefault_of_mem_drop (h : DefaultsLast ps) {count : Nat}
    (hcount : acceptsCount ps count = true) : ∀ p ∈ ps.drop count, p.hasDefault = true := by
  induction ps generalizing count with
  | nil => simp
  | cons p ps ih =>
    obtain ⟨hp, hps⟩ := List.pairwise_cons.1 h
    rw [acceptsCount_iff] at hcount
    cases hdefault : p.hasDefault with
    | true =>
      intro p' hp'
      rcases List.mem_cons.1 (List.mem_of_mem_drop hp') with rfl | hmem
      · exact hdefault
      · exact hp p' hmem hdefault
    | false =>
      -- An argument is needed for the first parameter.
      rw [List.countP_cons_of_pos (by simp [hdefault]), List.length_cons] at hcount
      obtain ⟨count, rfl⟩ : ∃ n, count = n + 1 := Nat.exists_eq_add_one.2 (by omega)
      exact ih hps (acceptsCount_iff.2 (by omega))

/-- **Defaults come last exactly if they are all that a call can leave out.** -/
theorem defaultsLast_iff : DefaultsLast ps ↔
    ∀ count, acceptsCount ps count = true → ∀ p ∈ ps.drop count, p.hasDefault = true := by
  constructor
  · exact fun h count hcount => hasDefault_of_mem_drop h hcount
  · intro h
    -- The call that supplies one argument for each parameter without default.
    let count := ps.countP (!·.hasDefault)
    have hdrop : ∀ p ∈ ps.drop count, p.hasDefault = true :=
      h count (acceptsCount_iff.2 ⟨Nat.le_refl _, List.countP_le_length⟩)
    have htake : ∀ p ∈ ps.take count, p.hasDefault = false := by
      have hsplit : (ps.take count).countP (!·.hasDefault) +
          (ps.drop count).countP (!·.hasDefault) = count := by
        rw [← List.countP_append, List.take_append_drop]
      have hnone : (ps.drop count).countP (!·.hasDefault) = 0 :=
        List.countP_eq_zero.2 fun p hp => by simp [hdrop p hp]
      have hall : (ps.take count).countP (!·.hasDefault) = (ps.take count).length :=
        Nat.le_antisymm List.countP_le_length (by rw [List.length_take]; omega)
      intro p hp
      simpa using List.countP_eq_length.1 hall p hp
    rw [DefaultsLast, ← List.take_append_drop count ps, List.pairwise_append]
    refine ⟨?_, ?_, fun _ _ p' hp' _ => hdrop p' hp'⟩
    · refine List.pairwise_of_forall_mem_list fun p hp p' _ hdefault => ?_
      rw [htake p hp] at hdefault
      cases hdefault
    · exact List.pairwise_of_forall_mem_list fun _ _ p' hp' _ => hdrop p' hp'

/-! ## Bound calls -/

variable {r : Registry}

/-- What gets its default is left out. -/
theorem FitsArgs.length_le_of_default {args : List DataType} {slots : List BoundArg}
    (h : r.FitsArgs args ps slots) {i : Nat} (hi : slots[i]? = some .default) : args.length ≤ i := by
  by_contra hlt
  obtain ⟨p, conversion, -, -, hslot⟩ :=
    h.supplied i _ (List.getElem?_eq_getElem (Nat.not_le.1 hlt))
  cases hi.symm.trans hslot

/-- All defaults are declared exactly if all that is left out has one. -/
theorem FitsArgs.defaultsDeclared_iff {args : List DataType} {slots : List BoundArg}
    (h : r.FitsArgs args ps slots) :
    DefaultsDeclared ps slots ↔ ∀ p ∈ ps.drop args.length, p.hasDefault = true := by
  constructor
  · intro hdeclared p hp
    obtain ⟨i, hi⟩ := List.mem_iff_getElem?.1 hp
    rw [List.getElem?_drop] at hi
    have hlt : args.length + i < ps.length := (List.getElem?_eq_some_iff.1 hi).1
    obtain ⟨p', hp', hdefault⟩ := hdeclared _ (h.omitted _ (Nat.le_add_right _ _) hlt)
    cases hi.symm.trans hp'
    exact hdefault
  · intro hdrop i hi
    have hlt : i < ps.length := by
      rw [← h.length_eq]
      exact (List.getElem?_eq_some_iff.1 hi).1
    refine ⟨ps[i], List.getElem?_eq_getElem hlt, hdrop _ ?_⟩
    refine List.mem_iff_getElem?.2 ⟨i - args.length, ?_⟩
    rw [List.getElem?_drop, Nat.add_sub_cancel' (h.length_le_of_default hi)]
    exact List.getElem?_eq_getElem hlt

/-- A call leaves out no more arguments than there are defaults. -/
theorem FitsArgs.length_le {args : List DataType} {slots : List BoundArg}
    (h : r.FitsArgs args ps slots) : ps.length ≤ args.length + ps.countP (·.hasDefault) := by
  have hcount := (acceptsCount_iff.1 h.accepts).1
  have hsplit := List.length_eq_countP_add_countP (·.hasDefault) (l := ps)
  simp only [Bool.not_eq_true, Bool.decide_eq_false] at hsplit
  omega

/-- **A bound call uses no more defaults than there are**, and only declared ones
    exactly if what it leaves out has one.  So it is where the callee declares
    its defaults last. -/
theorem resolve_defaults_declared (r : Registry) (hr : r.Built) (call : CallSite) (memo : Memo)
    (bound : BoundCall) (h : (r.resolve call memo).1 = .ok bound) :
    ∃ c, r.Chosen call memo bound c ∧
      c.callable.tail.length ≤ call.args.length + c.callable.tail.countP (·.hasDefault) ∧
      (DefaultsDeclared c.callable.tail bound.args ↔
        ∀ p ∈ c.callable.tail.drop call.args.length, p.hasDefault = true) ∧
      (DefaultsLast c.callable.tail → DefaultsDeclared c.callable.tail bound.args) := by
  obtain ⟨c, hchosen⟩ := exists_chosen h
  have hargs := (hchosen.fitsCallee hr).fitsArgs
  exact ⟨c, hchosen, hargs.length_le, hargs.defaultsDeclared_iff, fun hlast =>
    hargs.defaultsDeclared_iff.2 (hasDefault_of_mem_drop hlast hargs.accepts)⟩

theorem resolve_markCall_declared :
    derivedThings.Built ∧ (derivedThings.resolve markCall ∅).1 = .ok markBound ∧
      ∃ c, derivedThings.Chosen markCall ∅ markBound c ∧ DefaultsLast c.callable.tail ∧
        DefaultsDeclared c.callable.tail markBound.args := by
  have hbuilt : derivedThings.Built := ⟨_, _, rfl⟩
  have hbound : (derivedThings.resolve markCall ∅).1 = .ok markBound := by decide +kernel
  have hlast : ∀ c ∈ derivedThings.candidates markCall ∅, DefaultsLast c.callable.tail := by
    decide +kernel
  obtain ⟨c, hchosen, -, -, hdeclared⟩ := resolve_defaults_declared _ hbuilt _ _ _ hbound
  have hlast' := hlast c hchosen.best.1
  exact ⟨hbuilt, hbound, c, hchosen, hlast', hdeclared hlast'⟩

/-- A member with two numbers, of which the first has a default. -/
def pad : Callable :=
  { Callable.member ⟨1⟩ "pad" with
    params := [⟨.ofKey Primitive.int32.key, true⟩, ⟨.ofKey Primitive.int32.key, false⟩] }

def paddedThings : Registry :=
  (Registry.initial {}).after
    [.primitives, .ofClass { name := .global "Thing", key := ⟨1⟩ }, .member ⟨1⟩ pad]

/-- A call with one number. -/
def padCall : CallSite :=
  { receiver := .ofKey ⟨1⟩, name := "pad", args := [.ofKey Primitive.int32.key] }

def padBound : BoundCall :=
  .member (pad.asMember ⟨1⟩).key (.ofKey ⟨1⟩) .direct [.converted .identity, .default]

/-- The number is taken for the first parameter, and the second one is left to a
    default that it does not have. -/
theorem resolve_padCall_undeclared :
    paddedThings.Built ∧ (paddedThings.resolve padCall ∅).1 = .ok padBound ∧
      ¬ ∃ c, paddedThings.Chosen padCall ∅ padBound c ∧
        DefaultsDeclared c.callable.tail padBound.args := by
  refine ⟨⟨_, _, rfl⟩, by decide +kernel, ?_⟩
  rintro ⟨c, hchosen, hdeclared⟩
  have htail : ∀ c ∈ paddedThings.candidates padCall ∅, c.callable.tail = pad.params := by
    decide +kernel
  obtain ⟨p, hp, hdefault⟩ := hdeclared 1 rfl
  rw [htail c hchosen.best.1] at hp
  cases hp
  cases hdefault

end Registry

end MethodResolution
