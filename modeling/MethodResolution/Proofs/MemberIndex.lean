/-
  Method resolution — the index of members.

  A member is stored in its class, and an index tells its class by its key.  One
  declaration changes both.  What is said here holds if classes are declared
  without members and the primitive types before all classes (`InOrder`): a
  class that brings its members along is not indexed, and a primitive takes the
  members with it when it replaces a class.

  * `Accepts.members_cases`: what a declaration does to members and index;
  * `Indexed`: the members of all classes have different keys, and the index
    tells of each key where its member is.  Declarations keep this
    (`Indexed.of_accepts`);
  * `Indexed.callable?_eq`: so a member is found under its key, and it stays
    where it is (`mem_methodsOf_after`);
  * `rostered_of_inOrder`: what holds after every run of declarations.
-/
import MethodResolution.Proofs.Admission
import MethodResolution.Proofs.ClassTable
import Mathlib.Data.List.Nodup

namespace MethodResolution

namespace Registry

variable {r r' : Registry} {k o owner : Key} {m : Callable} {d : Declaration}
  {ds later : List Declaration}

/-- The members that `k` holds; what is no class holds none. -/
def methodsOf (r : Registry) (k : Key) : List Callable := (r.class? k).elim [] (·.methods)

theorem mem_methodsOf_iff : m ∈ r.methodsOf k ↔ ∃ c, r.class? k = some c ∧ m ∈ c.methods := by
  rw [methodsOf]
  cases r.class? k <;> simp

/-! ## Runs in order -/

/-- A class is registered without members, and the primitives before all classes. -/
def InPlace (r : Registry) : Declaration → Prop
  | .ofClass c => (r.registerClass c).isOk → c.methods = []
  | .primitives => ∀ k, r.class? k = none
  | .member _ _ | .free _ | .constraint _ | .import_ _ _ => True

/-- Every declaration of the list is in its place when its turn comes. -/
def InOrder (r : Registry) : List Declaration → Prop
  | [] => True
  | d :: ds => r.InPlace d ∧ (r.next d).InOrder ds

/-- What accepted declarations keep in their place, a run in order keeps. -/
theorem InOrder.induction {P : Registry → Prop} (h : r.InOrder ds)
    (step : ∀ r d k r', P r → r.InPlace d → r.Accepts d k r' → P r') (base : P r) :
    P (r.after ds) := by
  induction ds generalizing r with
  | nil => exact base
  | cons d ds ih =>
    obtain ⟨hd, hds⟩ := h
    refine ih hds ?_
    rcases next_cases r d with hnext | ⟨k, haccepts⟩
    · rwa [hnext]
    · exact step r d k _ base hd haccepts

/-! ## One declaration -/

/-- What admits a member: it has no receiver and no constraint, its types are
    known, its key is new, and its owner is a class. -/
theorem memberFault?_eq_none_iff : r.memberFault? owner m = none ↔
    (m.receiver = none ∧ m.constraint = none) ∧ r.typeFault? m = none ∧
      r.memberOwner.contains m.key = false ∧ ∃ c, r.class? owner = some c := by
  rw [memberFault?]
  split_ifs with hreceiver hknown hclass
  · refine iff_of_false (by simp) fun h => ?_
    simp [h.1] at hreceiver
  · simp [hknown]
  · have hnone : r.class? owner = none := Option.isNone_iff_eq_none.1 hclass
    simp [hnone]
  · have hsome : ∃ c, r.class? owner = some c := by simpa [Option.ne_none_iff_exists'] using hclass
    have hfree : m.receiver = none ∧ m.constraint = none := by simpa using hreceiver
    simp [hknown, hsome, hfree]

theorem methodsOf_withClass {c : Class} (hnew : r.types.contains c.key = false)
    (hempty : c.methods = []) : (r.withClass c).methodsOf = r.methodsOf := by
  funext k
  rw [methodsOf, class?_withClass, methodsOf]
  split_ifs with hk
  · rw [hk, class?_of_not_contains hnew]
    exact hempty
  · rfl

theorem methodsOf_registerPrimitives (hnone : ∀ k, r.class? k = none) :
    r.registerPrimitives.methodsOf = r.methodsOf := by
  funext k
  rw [methodsOf, methodsOf]
  rcases class?_registerPrimitives r k with h | h
  · rw [h, hnone k]
  · rw [h]

theorem methodsOf_addMember {c : Class} (hc : r.class? owner = some c) (m : Callable) (k : Key) :
    (r.addMember owner m).methodsOf k =
      if k = owner then r.methodsOf owner ++ [m] else r.methodsOf k := by
  rw [methodsOf, class?_addMember]
  split_ifs with hk
  · rw [hk, methodsOf, hc]
    rfl
  · rfl

theorem mem_methodsOf_addMember {c : Class} (hc : r.class? owner = some c) (m : Callable) (k : Key)
    (x : Callable) :
    x ∈ (r.addMember owner m).methodsOf k ↔ x ∈ r.methodsOf k ∨ k = owner ∧ x = m := by
  rw [methodsOf_addMember hc]
  split_ifs with hk
  · simp [hk]
  · simp [hk]

theorem memberOwner_addMember (m : Callable) :
    (r.addMember owner m).memberOwner = r.memberOwner.insert m.key owner := rfl

/-- **A declaration in its place changes no members and no index, or it adds one
    member.** -/
theorem Accepts.members_cases {key : Option Key} (h : r.Accepts d key r') (hd : r.InPlace d) :
    (r'.methodsOf = r.methodsOf ∧ r'.memberOwner = r.memberOwner) ∨
      ∃ (owner : Key) (c : Callable), r.memberFault? owner (c.asMember owner) = none ∧
        r' = r.addMember owner (c.asMember owner) := by
  cases h with
  | primitives => exact Or.inl ⟨methodsOf_registerPrimitives hd, rfl⟩
  | @ofClass c hnew hbase =>
    have hempty : c.methods = [] := by
      refine hd ?_
      rw [registerClass_eq_ok_iff.2 (.ofClass hnew hbase)]
      rfl
    exact Or.inl ⟨methodsOf_withClass hnew hempty, rfl⟩
  | @member owner c hfault => exact Or.inr ⟨owner, c, hfault, rfl⟩
  | free _ | constraint _ _ | import_ => exact Or.inl ⟨rfl, rfl⟩

/-! ## The index -/

/-- The index and the members of the classes agree. -/
structure Indexed (r : Registry) : Prop where
  /-- The index maps a key to the class that holds a member under it. -/
  owner_iff : ∀ k o, r.memberOwner.get? k = some o ↔ ∃ m ∈ r.methodsOf o, m.key = k
  /-- No class holds two members under one key. -/
  nodup : ∀ o, ((r.methodsOf o).map (·.key)).Nodup
  owner_eq : ∀ o, ∀ m ∈ r.methodsOf o, m.owner = some o
  computeKey_eq : ∀ o, ∀ m ∈ r.methodsOf o, m.computeKey = m.key

theorem indexed_initial (policy : Policy) : (initial policy).Indexed where
  owner_iff k o := by
    constructor
    · intro h
      cases h
    · rintro ⟨m, hm, -⟩
      cases hm
  nodup _ := List.nodup_nil
  owner_eq _ _ hm := by cases hm
  computeKey_eq _ _ hm := by cases hm

theorem Indexed.congr (h : r.Indexed) (hmethods : r'.methodsOf = r.methodsOf)
    (howner : r'.memberOwner = r.memberOwner) : r'.Indexed where
  owner_iff := by rw [hmethods, howner]; exact h.owner_iff
  nodup := by rw [hmethods]; exact h.nodup
  owner_eq := by rw [hmethods]; exact h.owner_eq
  computeKey_eq := by rw [hmethods]; exact h.computeKey_eq

/-- A key that the index does not know is no member's key. -/
theorem Indexed.key_ne (h : r.Indexed) (hnew : r.memberOwner.contains k = false)
    (hm : m ∈ r.methodsOf o) : m.key ≠ k := by
  rintro rfl
  rw [Table.contains, (h.owner_iff _ _).2 ⟨m, hm, rfl⟩] at hnew
  cases hnew

section
variable (h : r.Indexed) {c : Class} (hc : r.class? owner = some c)
  (hnew : r.memberOwner.contains m.key = false)
include h hc hnew

/-- Under the new key, the index has lost nothing: no member had it before. -/
theorem Indexed.owner_iff_addMember (k o : Key) :
    (r.addMember owner m).memberOwner.get? k = some o ↔
      ∃ x ∈ (r.addMember owner m).methodsOf o, x.key = k := by
  have hmem := mem_methodsOf_addMember hc m o
  rw [memberOwner_addMember, Table.get?_insert]
  split_ifs with hk
  · constructor
    · rintro ⟨⟩
      exact ⟨m, (hmem m).2 (Or.inr ⟨rfl, rfl⟩), hk.symm⟩
    · rintro ⟨x, hx, hkey⟩
      rcases (hmem x).1 hx with hx | ⟨rfl, -⟩
      · exact absurd (hkey.trans hk) (h.key_ne hnew hx)
      · rfl
  · rw [h.owner_iff]
    refine exists_congr fun x => and_congr_left fun hkey => ?_
    rw [hmem]
    refine (or_iff_left ?_).symm
    rintro ⟨-, rfl⟩
    exact hk hkey.symm

theorem Indexed.nodup_addMember (o : Key) :
    (((r.addMember owner m).methodsOf o).map (·.key)).Nodup := by
  rw [methodsOf_addMember hc]
  split_ifs
  · rw [List.map_append, List.map_singleton, ← List.concat_eq_append, List.nodup_concat]
    refine ⟨?_, h.nodup owner⟩
    rw [List.mem_map]
    rintro ⟨x, hx, hkey⟩
    exact h.key_ne hnew hx hkey
  · exact h.nodup o

end

/-- A member is added with its owner and its own key. -/
theorem Indexed.addMember {f : Callable} (h : r.Indexed)
    (hfault : r.memberFault? owner (f.asMember owner) = none) :
    (r.addMember owner (f.asMember owner)).Indexed := by
  obtain ⟨-, -, hnew, c, hc⟩ := memberFault?_eq_none_iff.1 hfault
  have hmem := mem_methodsOf_addMember hc (f.asMember owner)
  refine ⟨h.owner_iff_addMember hc hnew, h.nodup_addMember hc hnew, fun o x hx => ?_,
    fun o x hx => ?_⟩
  · rcases (hmem o x).1 hx with hx | ⟨rfl, rfl⟩
    · exact h.owner_eq o x hx
    · rfl
  · rcases (hmem o x).1 hx with hx | ⟨rfl, rfl⟩
    · exact h.computeKey_eq o x hx
    · rfl

theorem Indexed.of_accepts {key : Option Key} (h : r.Indexed) (hd : r.InPlace d)
    (haccepts : r.Accepts d key r') : r'.Indexed := by
  rcases haccepts.members_cases hd with ⟨hmethods, howner⟩ | ⟨owner, c, hfault, rfl⟩
  · exact h.congr hmethods howner
  · exact h.addMember hfault

/-- **After a run in order, the index and the classes agree.** -/
theorem Indexed.after (h : r.Indexed) (hds : r.InOrder ds) : (r.after ds).Indexed :=
  hds.induction (fun _ _ _ _ h hd haccepts => h.of_accepts hd haccepts) h

/-- A member stays in its class. -/
theorem mem_methodsOf_after (hm : m ∈ r.methodsOf o) (hds : r.InOrder ds) :
    m ∈ (r.after ds).methodsOf o := by
  refine hds.induction (P := fun r => m ∈ r.methodsOf o) (fun r d key r' hm hd haccepts => ?_) hm
  rcases haccepts.members_cases hd with ⟨hmethods, -⟩ | ⟨owner, c, hfault, rfl⟩
  · rwa [hmethods]
  · obtain ⟨-, -, -, cls, hcls⟩ := memberFault?_eq_none_iff.1 hfault
    exact (mem_methodsOf_addMember hcls _ o m).2 (Or.inl hm)

theorem mem_methodsOf_of_registerMember {c : Callable}
    (h : r.registerMember owner c = .ok (k, r')) :
    k = (c.asMember owner).key ∧ c.asMember owner ∈ r'.methodsOf owner := by
  cases registerMember_eq_ok_iff.1 h with
  | member hfault =>
    obtain ⟨-, -, -, cls, hcls⟩ := memberFault?_eq_none_iff.1 hfault
    exact ⟨rfl, (mem_methodsOf_addMember hcls _ _ _).2 (Or.inr ⟨rfl, rfl⟩)⟩

/-! ## Members by key -/

/-- A key belongs to one member of one class. -/
theorem Indexed.eq_of_key_eq {o' : Key} {m' : Callable} (h : r.Indexed) (hm : m ∈ r.methodsOf o)
    (hm' : m' ∈ r.methodsOf o') (hkey : m.key = m'.key) : o = o' ∧ m = m' := by
  have ho : r.memberOwner.get? m.key = some o := (h.owner_iff _ _).2 ⟨m, hm, rfl⟩
  have ho' : r.memberOwner.get? m.key = some o' := (h.owner_iff _ _).2 ⟨m', hm', hkey.symm⟩
  obtain rfl : o = o' := Option.some.inj (ho.symm.trans ho')
  exact ⟨rfl, List.inj_on_of_nodup_map (h.nodup o) hm hm' hkey⟩

/-- Under the key of a member that the index knows, a member is found. -/
theorem exists_callable? (ho : r.memberOwner.get? m.key = some o) (hm : m ∈ r.methodsOf o) :
    ∃ m' ∈ r.methodsOf o, r.callable? m.key = some m' ∧ m'.key = m.key := by
  obtain ⟨c, hc, hmc⟩ := mem_methodsOf_iff.1 hm
  have hfind : (c.methods.find? (·.key = m.key)).isSome := by
    rw [List.find?_isSome]
    exact ⟨m, hmc, by simp⟩
  obtain ⟨m', hm'⟩ := Option.isSome_iff_exists.1 hfind
  refine ⟨m', mem_methodsOf_iff.2 ⟨c, hc, List.mem_of_find?_eq_some hm'⟩, ?_, ?_⟩
  · rw [callable?, ho]
    simp only [hc, Option.bind_some, hm']
  · simpa using List.find?_some hm'

/-- **A member is found under its key.** -/
theorem Indexed.callable?_eq (h : r.Indexed) (hm : m ∈ r.methodsOf o) :
    r.callable? m.key = some m := by
  obtain ⟨m', hm', hfound, hkey⟩ := exists_callable? ((h.owner_iff _ _).2 ⟨m, hm, rfl⟩) hm
  rw [hfound, (h.eq_of_key_eq hm' hm hkey).2]

/-- Members of one class differ in name, constness or parameters. -/
theorem Indexed.pairwise_methodsOf (h : r.Indexed) (o : Key) :
    (r.methodsOf o).Pairwise fun m m' => ¬ (m.simpleName = m'.simpleName ∧
      m.isConst = m'.isConst ∧ m.paramSignatures = m'.paramSignatures) := by
  have hkeys : (r.methodsOf o).Pairwise fun m m' => m.key ≠ m'.key :=
    List.pairwise_map.1 (h.nodup o)
  refine hkeys.imp_of_mem fun {m m'} hm hm' hne => ?_
  rintro ⟨hname, hconst, hparams⟩
  refine hne ?_
  rw [← h.computeKey_eq o m hm, ← h.computeKey_eq o m' hm', Callable.computeKey,
    Callable.computeKey, h.owner_eq o m hm, h.owner_eq o m' hm']
  simp only [hname, hconst, hparams]

/-- The members that a name means belong to the class that declares it. -/
theorem Indexed.owner_eq_declaring (h : r.Indexed) (hkeys : ∀ k c, r.class? k = some c → c.key = k)
    {k : Key} {name : String} {c : Class} (hc : r.declaring? k name = some c)
    (hm : m ∈ r.membersNamed k name) : m.owner = some c.key := by
  obtain ⟨key, -, hkey⟩ := List.mem_filterMap.1 (List.mem_of_find?_eq_some hc)
  rw [membersNamed, hc] at hm
  have hheld : m ∈ r.methodsOf key := mem_methodsOf_iff.2 ⟨c, hkey, (List.mem_filter.1 hm).1⟩
  rw [hkeys key c hkey]
  exact h.owner_eq key m hheld

/-! ## Runs of declarations -/

/-- The classes and the index of their members agree for good. -/
structure Rostered (r : Registry) : Prop extends r.Indexed where
  /-- A key belongs to one member of one class. -/
  unique : ∀ o o' m m', m ∈ r.methodsOf o → m' ∈ r.methodsOf o' → m.key = m'.key →
    o = o' ∧ m = m'
  /-- A member is found under its key, now and later. -/
  found : ∀ o m later, m ∈ r.methodsOf o → r.InOrder later →
    (r.after later).callable? m.key = some m
  /-- So is a member that is registered next. -/
  registered : ∀ owner c k r' later, r.registerMember owner c = .ok (k, r') → r'.InOrder later →
    (r'.after later).callable? k = some (c.asMember owner)
  overloads : ∀ o, (r.methodsOf o).Pairwise fun m m' => ¬ (m.simpleName = m'.simpleName ∧
    m.isConst = m'.isConst ∧ m.paramSignatures = m'.paramSignatures)
  /-- All members that a name means belong to the class that declares it. -/
  declaring : ∀ k name c, r.declaring? k name = some c →
    ∀ m ∈ r.membersNamed k name, m.owner = some c.key

/-- **The classes and the index of their members agree** after every run that
    registers classes without members, and the primitive types before them. -/
theorem rostered_of_inOrder (policy : Policy) (ds : List Declaration)
    (hds : (initial policy).InOrder ds) : ((initial policy).after ds).Rostered := by
  have hindexed := (indexed_initial policy).after hds
  have hbuilt : ((initial policy).after ds).Built := ⟨policy, ds, rfl⟩
  generalize (initial policy).after ds = r at hindexed hbuilt
  refine ⟨hindexed, fun _ _ _ _ => hindexed.eq_of_key_eq, fun o m later hm hlater => ?_,
    fun owner c k r' later hregister hlater => ?_, hindexed.pairwise_methodsOf,
    fun k name c hc m hm => hindexed.owner_eq_declaring hbuilt.key_of_class? hc hm⟩
  · exact (hindexed.after hlater).callable?_eq (mem_methodsOf_after hm hlater)
  · have hplace : r.InPlace (.member owner c) := trivial
    have hindexed' : r'.Indexed :=
      hindexed.of_accepts hplace (registerMember_eq_ok_iff.1 hregister)
    obtain ⟨rfl, hm⟩ := mem_methodsOf_of_registerMember hregister
    exact (hindexed'.after hlater).callable?_eq (mem_methodsOf_after hm hlater)

/-- Two classes with members of one name.  A member is refused as a duplicate,
    for its owner is the class that it is declared for, and one for want of a
    class. -/
def stackedRun : List Declaration :=
  [.primitives, .ofClass { name := .global "Stack", key := ⟨2⟩, base := some ⟨1⟩ },
    .member ⟨1⟩ (.member ⟨1⟩ "peek"), .ofClass { name := .global "Thing", key := ⟨1⟩ },
    .member ⟨1⟩ (.member ⟨1⟩ "peek"),
    .member ⟨1⟩ { Callable.member ⟨1⟩ "peek" with isConst := true },
    .member ⟨1⟩ (.member ⟨2⟩ "peek"), .member ⟨2⟩ (.member ⟨2⟩ "peek"),
    .free (.free (.global "peek"))]

theorem stackedRun_rostered : (initial {}).InOrder stackedRun ∧
    ((initial {}).after stackedRun).Rostered ∧
    (((initial {}).after stackedRun).methodsOf ⟨1⟩).length = 2 ∧
    (((initial {}).after stackedRun).methodsOf ⟨2⟩).length = 1 := by
  have hds : (initial {}).InOrder stackedRun :=
    ⟨fun _ => rfl, fun _ => rfl, trivial, fun _ => rfl, trivial, trivial, trivial, trivial, trivial,
      trivial⟩
  exact ⟨hds, rostered_of_inOrder _ _ hds, by decide +kernel, by decide +kernel⟩

end Registry

end MethodResolution
