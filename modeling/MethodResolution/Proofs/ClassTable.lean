/-
  Method resolution — what declarations do to classes.

  Classes change in three ways only: a class is registered under its key, a
  member is added to one, and the primitive types replace what has their keys.

  * `class?_withClass`, `class?_addMember`, `class?_registerPrimitives`: what a
    lookup finds afterwards;
  * `get?_registerPrimitives_key`, `get?_registerPrimitives_of_ne`: what the
    primitives replace, and what they leave alone;
  * `Built.key_of_class?`: a class is found under its own key;
  * `Accepts.contains_types`: a type that is known stays known.
-/
import MethodResolution.Proofs.Registration

namespace MethodResolution

namespace Registry

variable {r r' : Registry}

/-- The registry with one more class. -/
def withClass (r : Registry) (c : Class) : Registry :=
  { r with types := r.types.insert c.key (.ofClass c) }

theorem class?_withClass (c : Class) (k : Key) :
    (r.withClass c).class? k = if k = c.key then some c else r.class? k := by
  rw [class?, withClass, Table.get?_insert]
  split_ifs
  · rfl
  · rfl

theorem class?_addMember (owner : Key) (m : Callable) (k : Key) :
    (r.addMember owner m).class? k =
      if k = owner then (r.class? k).map (·.addMethod m) else r.class? k := by
  rw [class?, addMember, Table.get?_modify, class?]
  split_ifs
  · cases r.types.get? k with
    | none => rfl
    | some entry => exact TypeEntry.class?_mapClass _ entry
  · rfl

theorem contains_addMember (owner : Key) (m : Callable) (k : Key) :
    (r.addMember owner m).types.contains k = r.types.contains k := by
  rw [Table.contains, addMember, Table.get?_modify]
  split_ifs
  · rw [Option.isSome_map]
    rfl
  · rfl

/-- Where no primitive is put, nothing changes. -/
theorem get?_foldl_primitives_of_ne {k : Key} {ps : List Primitive} (h : ∀ p ∈ ps, p.key ≠ k)
    (t : Table Key TypeEntry) :
    (ps.foldl (fun t p => t.insert p.key (.primitive p.name p.key)) t).get? k = t.get? k := by
  induction ps generalizing t with
  | nil => rfl
  | cons p ps ih =>
    obtain ⟨hp, hps⟩ := List.forall_mem_cons.1 h
    rw [List.foldl_cons, ih hps, Table.get?_insert_of_ne _ _ (Ne.symm hp)]

/-- What is put under the key of a primitive stays, for no other has its key. -/
theorem get?_foldl_primitives_key {p : Primitive} {ps : List Primitive} (hp : p ∈ ps)
    (t : Table Key TypeEntry) :
    (ps.foldl (fun t p => t.insert p.key (.primitive p.name p.key)) t).get? p.key =
      some (.primitive p.name p.key) := by
  induction ps generalizing t with
  | nil => cases hp
  | cons q ps ih =>
    rw [List.foldl_cons]
    by_cases hrest : p ∈ ps
    · exact ih hrest _
    · obtain rfl : p = q := (List.mem_cons.1 hp).resolve_right hrest
      rw [get?_foldl_primitives_of_ne, Table.get?_insert_self]
      rintro q hq hkey
      exact hrest (Primitive.key_injective hkey ▸ hq)

theorem get?_registerPrimitives_of_ne {k : Key} (h : ∀ p : Primitive, p.key ≠ k) :
    r.registerPrimitives.types.get? k = r.types.get? k :=
  get?_foldl_primitives_of_ne (fun p _ => h p) r.types

theorem get?_registerPrimitives_key (r : Registry) (p : Primitive) :
    r.registerPrimitives.types.get? p.key = some (.primitive p.name p.key) :=
  get?_foldl_primitives_key p.mem_all r.types

/-- A primitive takes the place of what had its key, and nothing else changes. -/
theorem get?_registerPrimitives (r : Registry) (k : Key) :
    (∃ p : Primitive, r.registerPrimitives.types.get? k = some (.primitive p.name p.key)) ∨
      r.registerPrimitives.types.get? k = r.types.get? k := by
  by_cases hk : ∃ p : Primitive, p.key = k
  · obtain ⟨p, rfl⟩ := hk
    exact Or.inl ⟨p, get?_registerPrimitives_key r p⟩
  · exact Or.inr (get?_registerPrimitives_of_ne fun p hp => hk ⟨p, hp⟩)

theorem class?_registerPrimitives (r : Registry) (k : Key) :
    r.registerPrimitives.class? k = none ∨ r.registerPrimitives.class? k = r.class? k := by
  rw [class?, class?]
  rcases get?_registerPrimitives r k with ⟨p, hprimitive⟩ | hbefore
  · rw [hprimitive]
    exact Or.inl rfl
  · rw [hbefore]
    exact Or.inr rfl

theorem contains_of_class? {k : Key} {c : Class} (h : r.class? k = some c) :
    r.types.contains k = true := by
  obtain ⟨entry, hentry, -⟩ := Option.bind_eq_some_iff.1 h
  exact (Table.contains_iff _ _).2 ⟨entry, hentry⟩

theorem class?_of_not_contains {k : Key} (h : r.types.contains k = false) : r.class? k = none := by
  cases hc : r.class? k with
  | none => rfl
  | some c =>
    rw [contains_of_class? hc] at h
    cases h

/-- A known type stays known. -/
theorem Accepts.contains_types {d : Declaration} {k : Option Key} (h : r.Accepts d k r')
    {key : Key} (hkey : r.types.contains key = true) : r'.types.contains key = true := by
  cases h with
  | primitives =>
    rw [Table.contains]
    rcases get?_registerPrimitives r key with ⟨p, hprimitive⟩ | hbefore
    · rw [hprimitive]
      rfl
    · rw [hbefore]
      exact hkey
  | ofClass _ _ => rw [Table.contains_insert, hkey, Bool.or_true]
  | member _ => rwa [contains_addMember]
  | free _ | constraint _ _ | import_ => exact hkey

/-- **A class is found under its own key.** -/
theorem Built.key_of_class? (hr : r.Built) : ∀ k c, r.class? k = some c → c.key = k := by
  refine hr.induction (P := fun r => ∀ k c, r.class? k = some c → c.key = k)
    (fun _ _ _ hc => by cases hc) fun r d _ r' hkeys haccepts k c hc => ?_
  cases haccepts with
  | primitives =>
    rcases class?_registerPrimitives r k with hnone | hbefore
    · rw [hnone] at hc
      cases hc
    · exact hkeys k c (hbefore ▸ hc)
  | @ofClass new _ _ =>
    rw [← withClass, class?_withClass] at hc
    split_ifs at hc with hk
    · cases hc
      exact hk.symm
    · exact hkeys k c hc
  | member _ =>
    rw [class?_addMember] at hc
    split_ifs at hc
    · obtain ⟨before, hbefore, rfl⟩ := Option.map_eq_some_iff.1 hc
      exact hkeys k before hbefore
    · exact hkeys k c hc
  | free _ | constraint _ _ | import_ => exact hkeys k c hc

end Registry

end MethodResolution
