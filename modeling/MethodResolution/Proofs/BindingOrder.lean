/-
  Method resolution — binding is an order.

  An object binds to a reference or a pointer of its own type or of a base,
  unless it would lose const.  What is bound may be bound again, to a parameter
  of the next call.  Nothing is won or lost on the way: const may be added once
  and is never taken away, and inheritance never loops.

  * `Binds`: an object binds to a parameter that takes no copy.  It does exactly
    if const and inheritance both allow it (`binds_iff`);
  * `keepsType_iff`: the object is taken as what it is exactly if the types are
    the same, and is seen as a base otherwise;
  * `bindsInOrder_of_built`: so, in a registry that was built, binding composes,
    and what binds back and forth is the same but for reference and pointer.
-/
import MethodResolution.Conversion
import MethodResolution.Proofs.Inheritance

namespace MethodResolution

/-- The object is taken as what it is, with or without const. -/
def Conversion.KeepsType (c : Conversion) : Prop := c.kind = .identity ∨ c.kind = .addConst

namespace Registry

variable {r : Registry} {s t u : DataType} {c : Conversion}

/-- An object of the type `s` binds to a parameter of the type `t`, which is a
    reference or a pointer. -/
def Binds (r : Registry) (s t : DataType) : Prop :=
  t.indirection.isIndirect = true ∧ (r.conversion? s t).isSome = true

instance (r : Registry) (s t : DataType) : Decidable (r.Binds s t) :=
  inferInstanceAs (Decidable (_ ∧ _))

/-! ## Const and inheritance -/

/-- What is no class derives from nothing else. -/
theorem eq_of_derivesFrom {d b : Key} (h : r.derivesFrom d b = true) (hd : r.class? d = none) :
    d = b := by
  have hbase : r.base? d = none := by rw [base?, hd]; rfl
  have hchain : r.chain d = [] := by
    rw [chain, lineage, basesFrom, hbase, Option.elim_none, List.filterMap_cons_none hd]
    rfl
  rw [derivesFrom, hchain, List.any_nil, Bool.or_false] at h
  exact eq_of_beq h

theorem isSome_conversionToBase?_iff {d b : Key} (hne : d ≠ b) :
    (r.conversionToBase? d b).isSome = true ↔ r.derivesFrom d b = true := by
  rw [conversionToBase?]
  cases hd : r.class? d with
  | none =>
    have hnot : r.derivesFrom d b ≠ true := fun hderives => hne (eq_of_derivesFrom hderives hd)
    simp [hnot]
  | some _ => cases r.derivesFrom d b <;> simp

/-- **An object binds exactly if const and inheritance both allow it.** -/
theorem binds_iff (ht : t.indirection.isIndirect = true) :
    r.Binds s t ↔ (s.isConst = true → t.isConst = true) ∧ r.derivesFrom s.type t.type = true := by
  rw [Binds, and_iff_right ht, conversion?, if_pos ht]
  split_ifs with hconst hsame
  · -- Const would be lost.
    rw [Bool.and_eq_true, Bool.not_eq_true'] at hconst
    simp [hconst]
  · have hrefl : r.derivesFrom s.type t.type = true := by
      rw [derivesFrom, hsame, beq_self_eq_true, Bool.true_or]
    simpa [hrefl] using hconst
  · rw [isSome_conversionToBase?_iff hsame]
    refine (and_iff_right ?_).symm
    simpa using hconst

/-- **An object is taken as what it is exactly if the types are the same.** -/
theorem keepsType_iff (ht : t.indirection.isIndirect = true)
    (h : r.conversion? s t = some c) : c.KeepsType ↔ s.type = t.type := by
  rw [conversion?, if_pos ht] at h
  split_ifs at h with hconst hsame
  · cases h
    refine iff_of_true ?_ hsame
    cases t.isConst && !s.isConst with
    | true => exact Or.inr rfl
    | false => exact Or.inl rfl
  · rw [conversionToBase?] at h
    split_ifs at h
    cases h
    exact iff_of_false (by rintro (hkind | hkind) <;> cases hkind) hsame

/-! ## Registries that were built -/

/-- Binding is an order on the types of objects, const or not. -/
structure BindsInOrder (r : Registry) : Prop where
  /-- What is bound may be bound again, and might have been bound there at once. -/
  trans : ∀ s t u, r.Binds s t → r.Binds t u → r.Binds s u
  /-- It is then taken as what it is exactly if it comes back to its own type. -/
  keepsType_iff : ∀ s t u c, r.Binds s t → r.Binds t u → r.conversion? s u = some c →
    (c.KeepsType ↔ s.type = u.type)
  /-- What binds back and forth is of one type, and const on both sides or on
      neither. -/
  antisymm : ∀ s t, r.Binds s t → r.Binds t s → s.type = t.type ∧ s.isConst = t.isConst

/-- **Binding is an order**, whatever was declared. -/
theorem bindsInOrder_of_built (r : Registry) (hr : r.Built) : r.BindsInOrder where
  trans s t u hst htu := by
    obtain ⟨hconst, hderives⟩ := (binds_iff hst.1).1 hst
    obtain ⟨hconst', hderives'⟩ := (binds_iff htu.1).1 htu
    exact (binds_iff htu.1).2 ⟨hconst' ∘ hconst,
      derivesFrom_trans hr.founded hr.key_of_class? hderives hderives'⟩
  keepsType_iff _ _ _ _ _ htu hconversion := keepsType_iff htu.1 hconversion
  antisymm s t hst hts := by
    obtain ⟨hconst, hderives⟩ := (binds_iff hst.1).1 hst
    obtain ⟨hconst', hderives'⟩ := (binds_iff hts.1).1 hts
    exact ⟨derivesFrom_antisymm hr.founded hr.key_of_class? hderives hderives',
      Bool.eq_iff_iff.2 ⟨hconst, hconst'⟩⟩

/-- Two bases up, and const on the way. -/
theorem layeredThings_bindsInOrder : layeredThings.Built ∧
    layeredThings.Binds (.ofKey ⟨1⟩) (.pointer ⟨2⟩) ∧
    layeredThings.Binds (.pointer ⟨2⟩) (.constReference ⟨3⟩) ∧
    layeredThings.Binds (.ofKey ⟨1⟩) (.constReference ⟨3⟩) ∧
    ¬ layeredThings.Binds (.constReference ⟨3⟩) (.pointer ⟨3⟩) ∧ layeredThings.BindsInOrder := by
  have hbuilt : layeredThings.Built := ⟨{}, _, rfl⟩
  have horder := bindsInOrder_of_built _ hbuilt
  have hfirst : layeredThings.Binds (.ofKey ⟨1⟩) (.pointer ⟨2⟩) := by decide +kernel
  have hsecond : layeredThings.Binds (.pointer ⟨2⟩) (.constReference ⟨3⟩) := by decide +kernel
  exact ⟨hbuilt, hfirst, hsecond, horder.trans _ _ _ hfirst hsecond, by decide +kernel, horder⟩

end Registry

end MethodResolution
