/-
  Method resolution — free functions and imports among other declarations.

  A program may declare a constraint between two functions, so its free
  functions and imports are not one list at the end of it.  But classes, members
  and constraints look at no free function, and go into no namespace.

  * `SameGround`: registries that hold the same classes, members and constraints
    stay so, whatever is declared in one of them between these
    (`SameGround.after_filter`);
  * `extends_onto_after`: what a program adds to the functions and namespaces,
    its free functions and imports add alone;
  * `Rearranged.agree`: programs that are accepted and differ in the order and
    place of their free functions and imports leave registries that agree.
-/
import MethodResolution.Proofs.Reordering

namespace MethodResolution

/-- The lists differ in the order and place of free functions and imports. -/
structure Declaration.Rearranged (ds ds' : List Declaration) : Prop where
  others : ds.filter (!·.isScoped) = ds'.filter (!·.isScoped)
  perm : (ds.filter (·.isScoped)).Perm (ds'.filter (·.isScoped))

namespace Registry

variable {r r' s s' : Registry} {d : Declaration} {ds ds' : List Declaration} {k : Option Key}

/-! ## Classes, members and constraints -/

/-- The registries hold the same, but for free functions and namespaces. -/
structure SameGround (r s : Registry) : Prop where
  policy : r.policy = s.policy
  types : r.types = s.types
  memberOwner : r.memberOwner = s.memberOwner
  concepts : r.concepts = s.concepts

theorem SameGround.refl (r : Registry) : r.SameGround r := ⟨rfl, rfl, rfl, rfl⟩

theorem SameGround.symm (h : r.SameGround s) : s.SameGround r :=
  ⟨h.policy.symm, h.types.symm, h.memberOwner.symm, h.concepts.symm⟩

theorem SameGround.trans (h : r.SameGround r') (h' : r'.SameGround s) : r.SameGround s :=
  ⟨h.policy.trans h'.policy, h.types.trans h'.types, h.memberOwner.trans h'.memberOwner,
    h.concepts.trans h'.concepts⟩

/-- Free functions and imports leave the ground as it is. -/
theorem Accepts.sameGround (h : r.Accepts d k r') (hd : d.isScoped) : r.SameGround r' := by
  cases h with
  | primitives | ofClass _ _ | member _ | constraint _ _ => cases hd
  | free _ | import_ => exact ⟨rfl, rfl, rfl, rfl⟩

theorem inherit_congr (h : r.concepts = s.concepts) : r.inherit = s.inherit := by
  funext c known refines
  induction refines generalizing known with
  | nil => rfl
  | cons refined rest ih => simp only [inherit, concept?_congr h, ih]

theorem memberFault?_congr (ht : r.types = s.types) (hm : r.memberOwner = s.memberOwner) :
    r.memberFault? = s.memberFault? := by
  funext owner c
  simp only [memberFault?, typeFault?, ht, hm, signatureText_congr ht, class?_congr ht]

/-- Other declarations look at the ground alone, and leave the same behind. -/
theorem Accepts.across (h : r.Accepts d k r') (hd : d.isScoped = false) (hs : r.SameGround s) :
    ∃ s', s.Accepts d k s' ∧ r'.SameGround s' := by
  obtain ⟨hp, ht, hm, hc⟩ := hs
  cases h with
  | free _ | import_ => cases hd
  | primitives =>
    refine ⟨s.registerPrimitives, .primitives, ?_⟩
    simp only [registerPrimitives, ht]
    exact ⟨hp, rfl, hm, hc⟩
  | ofClass hknown hbase =>
    rw [ht] at hknown
    rw [lineage_congr ht] at hbase
    exact ⟨_, .ofClass hknown hbase, hp, by simp only [ht], hm, hc⟩
  | member hfault =>
    rw [memberFault?_congr ht hm] at hfault
    exact ⟨_, .member hfault, hp, by simp only [addMember, ht], by simp only [addMember, hm], hc⟩
  | constraint hknown hrequirements =>
    rw [hc] at hknown
    rw [inherit_congr hc] at hrequirements
    exact ⟨_, .constraint hknown hrequirements, hp, ht, hm, by simp only [hc]⟩

theorem SameGround.next (h : r.SameGround s) (hd : d.isScoped = false) :
    (r.next d).SameGround (s.next d) := by
  rcases next_cases r d with hrefused | ⟨k, haccepts⟩
  · rcases next_cases s d with hrefused' | ⟨k, haccepts'⟩
    · rwa [hrefused, hrefused']
    · obtain ⟨r', haccepts, hsame⟩ := haccepts'.across hd h.symm
      rw [haccepts.next_eq]
      exact hsame.symm
  · obtain ⟨s', haccepts', hsame⟩ := haccepts.across hd h
    rwa [haccepts'.next_eq]

/-- **Free functions and imports in between make no difference to the ground**,
    whether they are accepted or not. -/
theorem SameGround.after_filter (h : r.SameGround s) (ds : List Declaration) :
    (r.after ds).SameGround (s.after (ds.filter (!·.isScoped))) := by
  induction ds generalizing r s with
  | nil => exact h
  | cons d ds ih =>
    cases hd : d.isScoped with
    | false =>
      rw [List.filter_cons_of_pos (by simp [hd])]
      exact ih (h.next hd)
    | true =>
      rw [List.filter_cons_of_neg (by simp [hd])]
      refine ih ?_
      rcases next_cases r d with hrefused | ⟨k, haccepts⟩
      · rwa [hrefused]
      · exact (haccepts.sameGround hd).symm.trans h

/-! ## Free functions and imports -/

/-- The functions and namespaces of `r` on the ground of `s`. -/
def onto (r s : Registry) : Registry :=
  { s with functions := r.functions, namespaces := r.namespaces }

theorem onto_congr (h : s.SameGround s') : r.onto s = r.onto s' := by
  simp only [onto, h.policy, h.types, h.memberOwner, h.concepts]

/-- What a list adds, it adds on any ground. -/
theorem Extends.onto (h : r.Extends ds r') (s : Registry) : (r.onto s).Extends ds (r'.onto s) where
  types := rfl
  concepts := rfl
  policy := rfl
  function := h.function
  wellFormed := h.wellFormed
  view := h.view

/-- Other declarations leave functions and namespaces as they are. -/
theorem Accepts.onto_eq (h : r.Accepts d k r') (hd : d.isScoped = false) (s : Registry) :
    r'.onto s = r.onto s := by
  cases h with
  | free _ | import_ => cases hd
  | primitives | ofClass _ _ | member _ | constraint _ _ => rfl

/-- **Free functions and imports add themselves, whatever comes in between.** -/
theorem extends_onto_after (h : r.AcceptsAll ds) (hwf : r.namespaces.WellFormed) (s : Registry) :
    (r.onto s).Extends (ds.filter (·.isScoped)) ((r.after ds).onto s) := by
  induction ds generalizing r with
  | nil => exact .refl hwf
  | cons d ds ih =>
    obtain ⟨⟨k, r', haccepts⟩, hrest⟩ := acceptsAll_cons.1 h
    have hafter : r.after (d :: ds) = r'.after ds := by
      rw [after, List.foldl_cons, haccepts.next_eq, after]
    rw [haccepts.next_eq] at hrest
    rw [hafter]
    cases hd : d.isScoped with
    | false =>
      have honto := haccepts.onto_eq hd s
      have hwf' : (r'.onto s).namespaces.WellFormed := by
        rw [honto]
        exact hwf
      rw [List.filter_cons_of_neg (by simp [hd]), ← honto]
      exact ih hrest hwf'
    | true =>
      have hfirst := haccepts.extends_singleton hd hwf
      rw [List.filter_cons_of_pos hd]
      exact (hfirst.onto s).trans (ih hrest hfirst.wellFormed)

/-- **The order and place of free functions and imports does not matter for
    what is held.** -/
theorem agree_of_rearranged (hr : r.Built) (hall : r.AcceptsAll ds) (hall' : r.AcceptsAll ds')
    (h : Declaration.Rearranged ds ds') : (r.after ds).Agree (r.after ds') := by
  have hground : (r.after ds).SameGround (r.after ds') := by
    have hsame := (SameGround.refl r).after_filter ds
    rw [h.others] at hsame
    exact hsame.trans ((SameGround.refl r).after_filter ds').symm
  have hextends := extends_onto_after hall hr.wellFormed (r.after ds)
  have hextends' := extends_onto_after hall' hr.wellFormed (r.after ds')
  rw [← onto_congr hground] at hextends'
  exact hextends.agree hextends' h.perm

end Registry

end MethodResolution
