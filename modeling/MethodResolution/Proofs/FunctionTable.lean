/-
  Method resolution — the table of free functions.

  A free function is stored under its key, and its key is recorded in the
  namespace tree.  The two are changed by different declarations: a function
  goes into both, while an import and the primitive types touch only one side
  of what is said here.

  * `Enrolled`: an entry of the table is as its registration left it.  Later
    declarations keep this, for what the entry mentions stays known
    (`Enrolled.of_accepts`);
  * `Filed`: the tree records the keys of the table and no others, each once;
  * `count_visibleFunctions`: so a function is seen once from its namespace and
    from everywhere inside of it;
  * `catalogued_of_built`: all this holds in every registry that was built.
-/
import MethodResolution.Proofs.Admission
import MethodResolution.Proofs.ClassTable
import MethodResolution.Proofs.MemberPriority
import MethodResolution.Proofs.NamespaceRecords
import MethodResolution.Proofs.Visibility
import Mathlib.Data.List.Nodup

namespace MethodResolution

namespace Registry

variable {r r' : Registry} {k : Key} {f : Callable}

/-! ## Entries -/

/-- The callable `f` is registered as a free function under the key `k`. -/
structure Enrolled (r : Registry) (k : Key) (f : Callable) : Prop where
  key_eq : f.key = k
  computeKey_eq : f.computeKey = k
  ownerless : f.owner = none
  /-- A receiver is the first parameter, passed as the convention asks. -/
  receiver : ∀ i ∈ f.receiver, i = 0 ∧ ∃ p, f.params.head? = some p ∧
    p.type.indirection = r.policy.convention.indirection
  /-- There is a constraint exactly if the first parameter is constrained. -/
  constrained : (∃ c, f.constraint = some c) ↔
    ∃ p, f.params.head? = some p ∧ p.type.type = Key.constrained
  /-- The constraint is known, and so is what it requires. -/
  concept : ∀ c ∈ f.constraint, ∃ concept, r.concept? c = some concept
  types : ∀ key ∈ f.params.map (·.type.type) ++ [f.returns.type],
    key = Key.constrained ∨ r.types.contains key = true

theorem takesConstrained_iff : f.takesConstrained = true ↔
    ∃ p, f.params.head? = some p ∧ p.type.type = Key.constrained := by
  rw [Callable.takesConstrained, Option.any_eq_true]
  simp only [beq_iff_eq]

/-- What is admitted as a free function is enrolled. -/
theorem enrolled_of_freeError? {c : Callable} (h : r.freeError? c.asFree = none) :
    r.Enrolled c.asFree.key c.asFree := by
  obtain ⟨hreceiver, hconstraint, htypes⟩ := faults_of_freeError? h
  obtain ⟨hmatching, hknown⟩ := constraintFault?_eq_none_iff.1 hconstraint
  refine ⟨rfl, rfl, rfl, receiverFault?_eq_none_iff.1 hreceiver, ?_, fun key hkey => ?_,
    typeFault?_eq_none_iff.1 htypes⟩
  · rw [← Option.isSome_iff_exists, hmatching, takesConstrained_iff]
  · exact (Table.contains_iff _ _).1 (hknown key hkey)

/-- An extension has its receiver in front, and as the convention asks. -/
theorem Enrolled.of_isExtension (h : r.Enrolled k f) (hext : f.isExtension = true) :
    f.receiver = some 0 ∧ ∃ p, f.params = p :: f.tail ∧
      p.type.indirection = r.policy.convention.indirection := by
  rw [Callable.isExtension, Bool.and_eq_true] at hext
  obtain ⟨i, hi⟩ := Option.isSome_iff_exists.1 hext.2
  obtain ⟨rfl, p, hp, hconvention⟩ := h.receiver i hi
  obtain ⟨rest, hrest⟩ := List.head?_eq_some_iff.1 hp
  have htail : f.tail = rest := by
    rw [Callable.tail, Callable.isMember, h.ownerless, hrest]
    rfl
  exact ⟨hi, p, htail ▸ hrest, hconvention⟩

/-- Later declarations keep what an entry mentions. -/
theorem Enrolled.of_accepts {d : Declaration} {key : Option Key} (h : r.Enrolled k f)
    (haccepts : r.Accepts d key r') : r'.Enrolled k f where
  key_eq := h.key_eq
  computeKey_eq := h.computeKey_eq
  ownerless := h.ownerless
  receiver := by
    rw [haccepts.policy_eq]
    exact h.receiver
  constrained := h.constrained
  concept c hc := by
    obtain ⟨concept, hconcept⟩ := h.concept c hc
    exact ⟨concept, haccepts.concept?_eq_some hconcept⟩
  types key hkey := (h.types key hkey).imp_right haccepts.contains_types

/-- **In a registry that was built, every free function is enrolled.** -/
theorem Built.enrolled (hr : r.Built) : ∀ k f, r.functions.get? k = some f → r.Enrolled k f :=
  hr.functions_induction (fun _ _ => enrolled_of_freeError?)
    fun _ _ _ _ _ _ haccepts h => h.of_accepts haccepts

/-! ## Records -/

/-- The namespace tree records the keys of the table, each once and where its
    function belongs, and nothing else. -/
structure Filed (r : Registry) : Prop where
  recordsOnce : ∀ k f, r.functions.get? k = some f →
    r.namespaces.RecordsOnce k f.name.path f.simpleName
  omits : ∀ k, r.functions.get? k = none → r.namespaces.Omits k

theorem Filed.addFree {c : Callable} (h : r.Filed) (hwf : r.namespaces.WellFormed)
    (hnew : r.functions.contains c.key = false) : (r.addFree c).Filed where
  recordsOnce k f hf := by
    have hnone : r.functions.get? c.key = none := by simpa [Table.contains] using hnew
    rw [Registry.addFree, Table.get?_insert] at hf
    split_ifs at hf with hk
    · cases hf
      exact hk ▸ (h.omits _ hnone).recordsOnce_addFunction hwf _ _
    · exact (h.recordsOnce k f hf).addFunction hwf hk _ _
  omits k hf := by
    rw [Registry.addFree, Table.get?_insert] at hf
    split_ifs at hf with hk
    exact (h.omits k hf).addFunction hwf hk _ _

/-- **In a registry that was built, all free functions are filed.** -/
theorem Built.filed (hr : r.Built) : r.Filed := by
  have hboth : r.namespaces.WellFormed ∧ r.Filed := by
    refine hr.induction (P := fun r => r.namespaces.WellFormed ∧ r.Filed)
      (fun _ => ⟨NamespaceTree.wellFormed_empty, ?_, ?_⟩) fun r d key r' hr' haccepts => ?_
    · intro k f hf
      cases hf
    · exact fun _ _ => NamespaceTree.omits_empty
    · obtain ⟨hwf, hfiled⟩ := hr'
      cases haccepts with
      | primitives | ofClass _ _ | member _ | constraint _ _ =>
        exact ⟨hwf, hfiled.recordsOnce, hfiled.omits⟩
      | free herror =>
        exact ⟨NamespaceTree.wellFormed_addFunction hwf _ _ _,
          hfiled.addFree hwf (freeError?_eq_none_iff.1 herror).2⟩
      | import_ =>
        exact ⟨NamespaceTree.wellFormed_addUsing hwf _ _,
          fun k f hf => (hfiled.recordsOnce k f hf).addUsing hwf _ _,
          fun k hf => (hfiled.omits k hf).addUsing _ _⟩
  exact hboth.2

/-! ## Functions in sight -/

/-- Lookup finds no function twice. -/
theorem nodup_visibleFunctions (hkeys : ∀ k f, r.functions.get? k = some f → f.key = k)
    (path : List String) (name : String) : (r.visibleFunctions path name).Nodup := by
  refine List.Nodup.filterMap (fun a b g ha hb => ?_) (NamespaceTree.nodup_eraseDups _)
  rw [← hkeys a g ha, ← hkeys b g hb]

/-- What a lookup finds has the name that was looked up. -/
theorem Filed.simpleName_eq (h : r.Filed) {path : List String} {name : String}
    (hf : f ∈ r.visibleFunctions path name) : f.simpleName = name := by
  obtain ⟨k, hk, hkf⟩ := List.mem_filterMap.1 hf
  rw [NamespaceTree.visible, List.mem_eraseDups, List.mem_flatMap] at hk
  obtain ⟨n, -, hkn⟩ := hk
  obtain ⟨node, -, hcount⟩ := h.recordsOnce k f hkf
  have hpos := List.count_pos_iff.2 hkn
  rw [hcount] at hpos
  split_ifs at hpos with hname
  · exact hname.2.symm
  · exact absurd hpos (Nat.lt_irrefl 0)

/-- **A function is seen once from its namespace and from inside of it.** -/
theorem count_visibleFunctions (hwf : r.namespaces.WellFormed) (hfiled : r.Filed)
    (hkeys : ∀ k f, r.functions.get? k = some f → f.key = k) (hf : r.functions.get? k = some f)
    {path : List String} (hpath : f.name.path <+: path) :
    (r.visibleFunctions path f.simpleName).count f = 1 := by
  have hdeclares := (hfiled.recordsOnce k f hf).declares
  have hhas : r.namespaces.view.has f.name.path := by
    obtain ⟨n, hn, -⟩ := hdeclares
    exact ⟨n, hn⟩
  have hsees : k ∈ r.namespaces.visible path f.simpleName :=
    (NamespaceTree.mem_visible hwf _ _ _).2 ⟨_, _, hpath, hhas, .refl, hdeclares⟩
  exact List.count_eq_one_of_mem (nodup_visibleFunctions hkeys path _)
    (List.mem_filterMap.2 ⟨k, hsees, hf⟩)

/-! ## Registries that were built -/

/-- The table of free functions and the namespace tree are sound and agree. -/
structure Catalogued (r : Registry) : Prop where
  enrolled : ∀ k f, r.functions.get? k = some f → r.Enrolled k f
  /-- Each key of the table is recorded once in the whole tree, in the namespace
      of its function and under the simple name. -/
  recordsOnce : ∀ k f, r.functions.get? k = some f →
    ∃ node, r.namespaces.path? f.name.path = some node ∧ ∀ n name,
      (r.namespaces.overloadsIn n name).count k = if n = node ∧ name = f.simpleName then 1 else 0
  /-- The tree records no other keys. -/
  stored : ∀ k n name, k ∈ r.namespaces.overloadsIn n name → ∃ f, r.functions.get? k = some f
  visible : ∀ k f path, r.functions.get? k = some f → f.name.path <+: path →
    (r.visibleFunctions path f.simpleName).count f = 1

/-- **The table of free functions and the namespace tree are sound and agree**,
    whatever was declared. -/
theorem catalogued_of_built (r : Registry) (hr : r.Built) : r.Catalogued where
  enrolled := hr.enrolled
  recordsOnce := hr.filed.recordsOnce
  stored k n name hk := by
    cases hf : r.functions.get? k with
    | some f => exact ⟨f, rfl⟩
    | none => exact absurd hk (hr.filed.omits k hf n name)
  visible k f path hf hpath :=
    count_visibleFunctions hr.wellFormed hr.filed (fun k f hf => (hr.enrolled k f hf).key_eq) hf
      hpath

/-- Functions of one name in three namespaces, two of which import each other;
    one is constrained, and one is refused as a duplicate. -/
def markedThings : Registry :=
  (Registry.initial { convention := .reference }).after
    [.import_ ["app"] ["lib", "inner"], .primitives, .ofClass { name := .global "Thing", key := ⟨1⟩ },
      .constraint { name := ⟨"Rests", ["lib"]⟩, key := ⟨2⟩ },
      .free { (Callable.free ⟨"mark", ["lib", "inner"]⟩).withReceiver
        (.constReference Key.constrained) with constraint := some ⟨2⟩ },
      .free ((Callable.free ⟨"mark", ["app"]⟩).withReceiver (.reference ⟨1⟩)),
      .import_ ["lib"] ["app"],
      .free ((Callable.free ⟨"mark", ["app"]⟩).withReceiver (.reference ⟨1⟩)),
      .free { Callable.free (.global "mark") with params := [⟨.ofKey ⟨1⟩, true⟩] }]

theorem markedThings_catalogued : markedThings.Built ∧ markedThings.Catalogued ∧
    markedThings.functions.size = 3 :=
  ⟨⟨_, _, rfl⟩, catalogued_of_built _ ⟨_, _, rfl⟩, by decide +kernel⟩

end Registry

end MethodResolution
