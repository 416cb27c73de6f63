/-
  Method resolution — what is registered stays registered.

  Nothing takes a declaration back, and a new one is refused if its key is in
  use.  So a class stays what it is but for the members that are added behind
  its own, and a member stays with its class.  There is one exception: the
  primitive types may be registered at any time and replace what has their keys.

  * `Overwrites`: declarations that register the primitives, and a key that one
    of them has;
  * `class?_after`, `class?_after_of_overwrites`: a class outlasts all other
    declarations, and these it does not outlast;
  * `memberOwner_after`: the index of members forgets nothing;
  * `lasting`: so what is registered is found after any declarations that do not
    overwrite it, and the classes only grow;
  * `not_forall_class_lasts`: a class that has the name of a primitive is lost.
-/
import MethodResolution.Proofs.MemberIndex

namespace MethodResolution

namespace Registry

variable {r r' : Registry} {k o : Key} {c : Class} {d : Declaration} {ds : List Declaration}
  {key : Option Key}

/-- The primitive types are registered, and one of them has the key `k`. -/
def Overwrites (ds : List Declaration) (k : Key) : Prop :=
  .primitives ∈ ds ∧ ∃ p : Primitive, p.key = k

theorem Overwrites.mono {ds' : List Declaration} (h : Overwrites ds k) (hsub : ds ⊆ ds') :
    Overwrites ds' k :=
  ⟨hsub h.1, h.2⟩

/-! ## Classes -/

/-- A class gains members, if anything, unless a primitive takes its place. -/
theorem Accepts.class?_eq_some (h : r.Accepts d key r') (hc : r.class? k = some c)
    (hkeep : ¬ Overwrites [d] k) :
    ∃ added, r'.class? k = some { c with methods := c.methods ++ added } := by
  have hsame : r.class? k = some { c with methods := c.methods ++ [] } := by
    rw [List.append_nil]
    exact hc
  cases h with
  | primitives =>
    have hne : ∀ p : Primitive, p.key ≠ k :=
      fun p hp => hkeep ⟨List.mem_singleton_self _, p, hp⟩
    rw [class?, get?_registerPrimitives_of_ne hne]
    exact ⟨[], hsame⟩
  | @ofClass new hnew _ =>
    have hne : k ≠ new.key := by
      rintro rfl
      rw [contains_of_class? hc] at hnew
      cases hnew
    rw [← withClass, class?_withClass, if_neg hne]
    exact ⟨[], hsame⟩
  | @member owner m _ =>
    rw [class?_addMember]
    split_ifs
    · exact ⟨[m.asMember owner], by rw [hc]; rfl⟩
    · exact ⟨[], hsame⟩
  | free _ | constraint _ _ | import_ => exact ⟨[], hsame⟩

/-- **A class outlasts all declarations that do not overwrite it**, and only
    gains members. -/
theorem class?_after (ds : List Declaration) (hc : r.class? k = some c)
    (hkeep : ¬ Overwrites ds k) :
    ∃ added, (r.after ds).class? k = some { c with methods := c.methods ++ added } := by
  refine after_induction
    (P := fun r => ∃ added, r.class? k = some { c with methods := c.methods ++ added }) ds
    (fun r d hd key r' hr haccepts => ?_) ⟨[], ?_⟩
  · obtain ⟨added, hadded⟩ := hr
    have hkeep' : ¬ Overwrites [d] k :=
      fun hover => hkeep (hover.mono (List.cons_subset.2 ⟨hd, List.nil_subset _⟩))
    obtain ⟨more, hmore⟩ := haccepts.class?_eq_some hadded hkeep'
    exact ⟨added ++ more, by rw [hmore, List.append_assoc]⟩
  · rw [List.append_nil]
    exact hc

/-- What is known to be no class does not become one. -/
theorem Accepts.class?_eq_none (h : r.Accepts d key r') (hknown : r.types.contains k = true)
    (hnone : r.class? k = none) : r'.class? k = none := by
  cases h with
  | primitives =>
    rcases class?_registerPrimitives r k with h | h
    · exact h
    · exact h.trans hnone
  | @ofClass new hnew _ =>
    have hne : k ≠ new.key := by
      rintro rfl
      rw [hknown] at hnew
      cases hnew
    rw [← withClass, class?_withClass, if_neg hne]
    exact hnone
  | @member owner m _ =>
    rw [class?_addMember, hnone, Option.map_none, ite_self]
  | free _ | constraint _ _ | import_ => exact hnone

theorem class?_after_eq_none (hknown : r.types.contains k = true) (hnone : r.class? k = none) :
    (r.after ds).class? k = none := by
  refine (after_induction (P := fun r => r.types.contains k = true ∧ r.class? k = none) ds
    (fun r d _ key r' hr haccepts => ?_) ⟨hknown, hnone⟩).2
  exact ⟨haccepts.contains_types hr.1, haccepts.class?_eq_none hr.1 hr.2⟩

/-- **A key that is overwritten is no class any more.** -/
theorem class?_after_of_overwrites (h : Overwrites ds k) : (r.after ds).class? k = none := by
  obtain ⟨hmem, p, rfl⟩ := h
  obtain ⟨before, behind, rfl⟩ := List.append_of_mem hmem
  have hentry := get?_registerPrimitives_key (r.after before) p
  have hsplit : r.after (before ++ .primitives :: behind) =
      (r.after before).registerPrimitives.after behind := by
    rw [after, List.foldl_append]
    rfl
  rw [hsplit]
  refine class?_after_eq_none ((Table.contains_iff _ _).2 ⟨_, hentry⟩) ?_
  rw [class?, hentry]
  rfl

/-! ## Members -/

/-- The class of a member is never changed, for its key is in use. -/
theorem Accepts.memberOwner_eq_some (h : r.Accepts d key r')
    (ho : r.memberOwner.get? k = some o) : r'.memberOwner.get? k = some o := by
  cases h with
  | @member owner m hfault =>
    obtain ⟨-, -, hnew, -⟩ := memberFault?_eq_none_iff.1 hfault
    rw [memberOwner_addMember, Table.get?_insert_of_ne]
    · exact ho
    · rintro rfl
      rw [(Table.contains_iff _ _).2 ⟨o, ho⟩] at hnew
      cases hnew
  | primitives | ofClass _ _ | free _ | constraint _ _ | import_ => exact ho

/-- **The index of members forgets nothing.** -/
theorem memberOwner_after (ho : r.memberOwner.get? k = some o) :
    (r.after ds).memberOwner.get? k = some o :=
  after_induction (P := fun r => r.memberOwner.get? k = some o) ds
    (fun _ _ _ _ _ hr haccepts => haccepts.memberOwner_eq_some hr) ho

/-- A member that was registered is in the index and in its class. -/
theorem indexed_of_registerMember {owner : Key} {m : Callable}
    (h : r.registerMember owner m = .ok (k, r')) :
    r'.memberOwner.get? k = some owner ∧
      ∃ c, r'.class? owner = some c ∧ ∃ x ∈ c.methods, x.key = k := by
  obtain ⟨rfl, hm⟩ := mem_methodsOf_of_registerMember h
  obtain ⟨c, hc, hmem⟩ := mem_methodsOf_iff.1 hm
  refine ⟨?_, c, hc, _, hmem, rfl⟩
  cases registerMember_eq_ok_iff.1 h with
  | member _ => rw [memberOwner_addMember, Table.get?_insert_self]

/-! ## Any declarations later -/

/-- What `r` registers next is found after the declarations `soon`, and after
    the declarations `later` behind them, unless it is overwritten. -/
structure Lasting (r : Registry) (soon later : List Declaration) : Prop where
  class_kept : ∀ c k r', r.registerClass c = .ok (k, r') → ¬ Overwrites (soon ++ later) k →
    ∃ first second, (r'.after soon).class? k = some { c with methods := c.methods ++ first } ∧
      (r'.after (soon ++ later)).class? k =
        some { c with methods := c.methods ++ first ++ second }
  class_lost : ∀ c k r', r.registerClass c = .ok (k, r') → Overwrites soon k →
    (r'.after soon).class? k = none
  member_kept : ∀ owner m k r', r.registerMember owner m = .ok (k, r') →
    ¬ Overwrites soon owner → ∃ found, (r'.after soon).callable? k = some found ∧ found.key = k
  member_lost : ∀ owner m k r', r.registerMember owner m = .ok (k, r') →
    Overwrites soon owner → (r'.after soon).callable? k = none

/-- **What is registered lasts unless a primitive overwrites it**: a class keeps
    its name and base, its members stay in front of those that are added, and a
    member is found under its key.  What is overwritten is lost. -/
theorem lasting (r : Registry) (soon later : List Declaration) : r.Lasting soon later where
  class_kept c k r' h hkeep := by
    have hc : r'.class? k = some c := by
      cases registerClass_eq_ok_iff.1 h with
      | ofClass _ _ => rw [← withClass, class?_withClass, if_pos rfl]
    obtain ⟨first, hfirst⟩ := class?_after soon hc fun hover =>
      hkeep (hover.mono (List.subset_append_left soon later))
    obtain ⟨second, hsecond⟩ := class?_after later hfirst fun hover =>
      hkeep (hover.mono (List.subset_append_right soon later))
    refine ⟨first, second, hfirst, ?_⟩
    rw [after, List.foldl_append]
    exact hsecond
  class_lost _ _ _ _ hover := class?_after_of_overwrites hover
  member_kept owner m k r' h hkeep := by
    obtain ⟨ho, c, hc, x, hx, hkey⟩ := indexed_of_registerMember h
    obtain ⟨added, hadded⟩ := class?_after soon hc hkeep
    have hheld : x ∈ (r'.after soon).methodsOf owner :=
      mem_methodsOf_iff.2 ⟨_, hadded, List.mem_append_left _ hx⟩
    obtain ⟨found, -, hfound, hsame⟩ := exists_callable? (hkey ▸ memberOwner_after ho) hheld
    exact ⟨found, hkey ▸ hfound, hsame.trans hkey⟩
  member_lost owner m k r' h hover := by
    obtain ⟨ho, -⟩ := indexed_of_registerMember h
    rw [callable?, memberOwner_after ho]
    simp only [class?_after_of_overwrites hover, Option.bind_none]

def thingClass : Class := { name := .global "Thing", key := ⟨1⟩ }

def rollMember : Callable := { Callable.member ⟨1⟩ "roll" with returns := .ofKey ⟨1⟩ }

/-- A member of the class, another class, and the primitives, which come late. -/
def lateMembers : List Declaration :=
  [.member ⟨1⟩ { Callable.member ⟨1⟩ "spin" with returns := .ofKey ⟨1⟩ }, .primitives,
    .ofClass { name := .global "Stack", key := ⟨2⟩, base := some ⟨1⟩ },
    .member ⟨1⟩ (.member ⟨1⟩ "stop")]

theorem thingClass_lasting : ¬ Overwrites (lateMembers ++ lateMembers) ⟨1⟩ ∧
    (∃ r', (initial {}).registerClass thingClass = .ok (⟨1⟩, r') ∧
      ∃ first second,
        (r'.after lateMembers).class? ⟨1⟩ = some { thingClass with methods := first } ∧
        (r'.after (lateMembers ++ lateMembers)).class? ⟨1⟩ =
          some { thingClass with methods := first ++ second }) ∧
    ∃ k r', ((initial {}).withClass thingClass).registerMember ⟨1⟩ rollMember = .ok (k, r') ∧
      ∃ found, (r'.after lateMembers).callable? k = some found ∧ found.key = k := by
  have hprimitive : ∀ p ∈ Primitive.all, p.key ≠ ⟨1⟩ := by decide +kernel
  have hkeep : ∀ ds, ¬ Overwrites ds ⟨1⟩ := fun _ ⟨_, p, hp⟩ => hprimitive p p.mem_all hp
  have hclass : (initial {}).registerClass thingClass =
      .ok (⟨1⟩, (initial {}).withClass thingClass) := rfl
  have hmember : ((initial {}).withClass thingClass).registerMember ⟨1⟩ rollMember =
      .ok ((rollMember.asMember ⟨1⟩).key,
        ((initial {}).withClass thingClass).addMember ⟨1⟩ (rollMember.asMember ⟨1⟩)) :=
    registerMember_eq_ok_iff.2 (.member (by decide +kernel))
  refine ⟨hkeep _, ⟨_, hclass, ?_⟩, _, _, hmember, ?_⟩
  · exact (lasting _ lateMembers lateMembers).class_kept _ _ _ hclass (hkeep _)
  · exact (lasting _ lateMembers []).member_kept _ _ _ _ hmember (hkeep _)

/-- A class with the name of a primitive. -/
def intClass : Class := .named (.global "int")

/-- **A class that has the name of a primitive does not last**: it is registered
    before the primitives, and is no class once they are. -/
theorem not_forall_class_lasts : ¬ ∀ (r r' : Registry) (c : Class) (k : Key)
    (later : List Declaration), r.registerClass c = .ok (k, r') →
      ∃ c', (r'.after later).class? k = some c' ∧ c'.name = c.name ∧ c'.base = c.base ∧
        c.methods <+: c'.methods := by
  intro h
  have hregister : (initial {}).registerClass intClass =
      .ok (intClass.key, (initial {}).withClass intClass) := rfl
  obtain ⟨c', hc', -⟩ := h _ _ _ _ [.primitives] hregister
  have hlost : (((initial {}).withClass intClass).after [.primitives]).class? intClass.key = none :=
    by decide +kernel
  cases hlost.symm.trans hc'

end Registry

end MethodResolution
