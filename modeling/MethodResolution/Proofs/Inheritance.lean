/-
  Method resolution — inheritance never loops.

  A class may name a base that is registered later, so a chain of bases may be
  continued, in its middle or at its end, by any later declaration.  What keeps
  the walks along it from going on forever is the check that registration makes
  of each new class, which walks the same chain.

  * `Climbs`: the climb from a key, base by base and without a bound, which ends
    at a key that has no base.  A climb that ends meets no key twice
    (`Climbs.nodup`), so the bound of `lineage` never cuts it off
    (`Founded.climbs_lineage`);
  * `Built.founded`: in a registry that was built, every climb ends;
  * `Searched`, `Listed`: the loops in which registration looks for a class on
    its own chain, and in which the chain of a class is listed;
  * `loopless_of_built`: so these loops end, what they find is what the chain
    says, and deriving from each other is a partial order.
-/
import MethodResolution.Proofs.ClassTable
import Mathlib.Data.List.Nodup
import Mathlib.Data.List.Perm.Subperm
import Mathlib.Logic.Relation

namespace MethodResolution

namespace Registry

open Relation (ReflTransGen TransGen)

variable {r r' : Registry} {k : Key} {ks : List Key}

/-! ## Climbs -/

/-- The class `k` names the base `b`. -/
def HasBase (r : Registry) (k b : Key) : Prop := r.base? k = some b

/-- Going from `k` from base to base ends, and the keys `ks` are met. -/
inductive Climbs (r : Registry) : Key → List Key → Prop
  | top {k : Key} : r.base? k = none → Climbs r k [k]
  | up {k b : Key} {ks : List Key} : r.base? k = some b → Climbs r b ks → Climbs r k (k :: ks)

namespace Climbs

theorem unique {ks' : List Key} (h : r.Climbs k ks) (h' : r.Climbs k ks') : ks = ks' := by
  induction h generalizing ks' with
  | top hbase =>
    cases h' with
    | top _ => rfl
    | up hbase' _ => simp [hbase] at hbase'
  | up hbase _ ih =>
    cases h' with
    | top hbase' => simp [hbase] at hbase'
    | up hbase' h' =>
      cases hbase.symm.trans hbase'
      rw [ih h']

/-- A climb meets what can be reached from base to base. -/
theorem mem_iff (h : r.Climbs k ks) {x : Key} : x ∈ ks ↔ ReflTransGen r.HasBase k x := by
  induction h with
  | @top k hbase =>
    rw [List.mem_singleton]
    constructor
    · rintro rfl
      exact .refl
    · intro hreach
      rcases hreach.cases_head with rfl | ⟨b, hb, -⟩
      · rfl
      · cases hbase.symm.trans hb
  | @up k b ks hbase _ ih =>
    rw [List.mem_cons, ih]
    constructor
    · rintro (rfl | hreach)
      · exact .refl
      · exact hreach.head hbase
    · intro hreach
      rcases hreach.cases_head with rfl | ⟨b', hb', hrest⟩
      · exact Or.inl rfl
      · cases hbase.symm.trans hb'
        exact Or.inr hrest

/-- From each key that is met, the climb is the rest of the whole one. -/
theorem exists_of_mem (h : r.Climbs k ks) {x : Key} (hx : x ∈ ks) :
    ∃ xs, r.Climbs x xs ∧ xs.length ≤ ks.length := by
  induction h with
  | @top k hbase =>
    rw [List.mem_singleton.1 hx]
    exact ⟨[k], .top hbase, Nat.le_refl _⟩
  | @up k b ks hbase hrest ih =>
    rcases List.mem_cons.1 hx with rfl | hx
    · exact ⟨x :: ks, .up hbase hrest, Nat.le_refl _⟩
    · obtain ⟨xs, hxs, hlength⟩ := ih hx
      exact ⟨xs, hxs, Nat.le_succ_of_le hlength⟩

/-- **A climb that ends meets no key twice.**  From there, it would go on as it
    did before, and never end. -/
theorem nodup (h : r.Climbs k ks) : ks.Nodup := by
  induction h with
  | top _ => exact List.nodup_singleton _
  | @up k b ks hbase hrest ih =>
    refine List.nodup_cons.2 ⟨fun hk => ?_, ih⟩
    obtain ⟨xs, hxs, hlength⟩ := hrest.exists_of_mem hk
    rw [hxs.unique (.up hbase hrest), List.length_cons] at hlength
    omega

/-- Nothing stands above itself. -/
theorem irrefl (h : r.Climbs k ks) : ¬ TransGen r.HasBase k k := by
  intro hloop
  obtain ⟨b, hb, hreach⟩ := TransGen.head'_iff.1 hloop
  cases h with
  | top hbase => cases hbase.symm.trans hb
  | @up _ b' ks hbase hrest =>
    cases hbase.symm.trans hb
    exact (List.nodup_cons.1 (Climbs.up hbase hrest).nodup).1 (hrest.mem_iff.2 hreach)

/-- All that is met below the end of a climb is known. -/
theorem length_le (h : r.Climbs k ks) : ks.length ≤ r.types.size + 1 := by
  have hknown : ∀ x ∈ ks.dropLast, x ∈ r.types.keys := by
    induction h with
    | top _ => simp
    | @up k b ks hbase hrest ih =>
      obtain ⟨c, hc, -⟩ := Option.bind_eq_some_iff.1 hbase
      have hk : k ∈ r.types.keys := (Table.contains_iff_mem_keys _ _).1 (contains_of_class? hc)
      have hne : ks ≠ [] := by
        rintro rfl
        cases hrest
      rw [List.dropLast_cons_of_ne_nil hne]
      exact List.forall_mem_cons.2 ⟨hk, ih⟩
  have hle := ((h.nodup.sublist ks.dropLast_sublist).subperm hknown).length_le
  rw [List.length_dropLast, Table.keys, List.length_map] at hle
  rw [Table.size]
  omega

/-- The bounded walk is the climb, if its bound allows for it. -/
theorem basesFrom_eq (h : r.Climbs k ks) {steps : Nat} (hsteps : ks.length ≤ steps) :
    r.basesFrom steps k = ks := by
  induction h generalizing steps with
  | top hbase =>
    cases steps with
    | zero => cases hsteps
    | succ steps =>
      rw [basesFrom, hbase]
      rfl
  | up hbase _ ih =>
    cases steps with
    | zero => cases hsteps
    | succ steps =>
      rw [basesFrom, hbase, Option.elim_some, ih (Nat.le_of_succ_le_succ hsteps)]

/-- A climb goes by the bases of what it meets. -/
theorem of_agree (h : r.Climbs k ks) (hagree : ∀ x ∈ ks, r'.base? x = r.base? x) :
    r'.Climbs k ks := by
  induction h with
  | top hbase => exact .top ((hagree _ List.mem_cons_self).trans hbase)
  | up hbase _ ih =>
    exact .up ((hagree _ List.mem_cons_self).trans hbase)
      (ih fun x hx => hagree x (List.mem_cons_of_mem _ hx))

/-- A climb ends all the sooner where bases are lost. -/
theorem of_fewer (h : r.Climbs k ks)
    (hfewer : ∀ x, r'.base? x = none ∨ r'.base? x = r.base? x) : ∃ ks', r'.Climbs k ks' := by
  induction h with
  | @top k hbase =>
    rcases hfewer k with hnone | hsame
    · exact ⟨[k], .top hnone⟩
    · exact ⟨[k], .top (hsame.trans hbase)⟩
  | @up k b ks hbase _ ih =>
    rcases hfewer k with hnone | hsame
    · exact ⟨[k], .top hnone⟩
    · obtain ⟨ks', hks'⟩ := ih
      exact ⟨k :: ks', .up (hsame.trans hbase) hks'⟩

end Climbs

/-! ## Every climb ends -/

/-- Every climb ends. -/
def Founded (r : Registry) : Prop := ∀ k, ∃ ks, r.Climbs k ks

/-- Where every climb ends, none is cut off. -/
theorem Founded.climbs_lineage (h : r.Founded) (k : Key) : r.Climbs k (r.lineage k) := by
  obtain ⟨ks, hks⟩ := h k
  rwa [lineage, hks.basesFrom_eq hks.length_le]

theorem Founded.mem_lineage_iff (h : r.Founded) {k x : Key} :
    x ∈ r.lineage k ↔ ReflTransGen r.HasBase k x :=
  (h.climbs_lineage k).mem_iff

theorem Founded.of_fewer (h : r.Founded)
    (hfewer : ∀ x, r'.base? x = none ∨ r'.base? x = r.base? x) : r'.Founded := by
  intro k
  obtain ⟨ks, hks⟩ := h k
  exact hks.of_fewer hfewer

theorem base?_withClass (c : Class) (k : Key) :
    (r.withClass c).base? k = if k = c.key then c.base else r.base? k := by
  rw [base?, class?_withClass]
  split_ifs
  · rfl
  · rfl

theorem base?_of_new {c : Class} (hnew : r.types.contains c.key = false) :
    r.base? c.key = none := by
  rw [base?, class?_of_not_contains hnew]
  rfl

theorem base?_addMember (owner : Key) (m : Callable) (k : Key) :
    (r.addMember owner m).base? k = r.base? k := by
  rw [base?, class?_addMember, base?]
  split_ifs
  · cases r.class? k <;> rfl
  · rfl

theorem base?_registerPrimitives (r : Registry) (k : Key) :
    r.registerPrimitives.base? k = none ∨ r.registerPrimitives.base? k = r.base? k := by
  rw [base?, base?]
  rcases class?_registerPrimitives r k with hnone | hsame
  · exact Or.inl (by rw [hnone]; rfl)
  · exact Or.inr (by rw [hsame])

/-- A climb that misses a new class is not changed by it. -/
theorem Climbs.withClass {c : Class} (h : r.Climbs k ks) (hmiss : c.key ∉ ks) :
    (r.withClass c).Climbs k ks := by
  refine h.of_agree fun x hx => ?_
  rw [base?_withClass, if_neg]
  rintro rfl
  exact hmiss hx

/-- **A class that is not on its own chain makes no climb endless**: what came
    to its key before goes on as the climb from its base. -/
theorem Founded.withClass {c : Class} (h : r.Founded) (hnew : r.types.contains c.key = false)
    (hbase : ∀ b ∈ c.base, c.key ∉ r.lineage b) : (r.withClass c).Founded := by
  have hself : ∃ ks, (r.withClass c).Climbs c.key ks := by
    cases hb : c.base with
    | none => exact ⟨[c.key], .top (by rw [base?_withClass, if_pos rfl, hb])⟩
    | some b =>
      exact ⟨c.key :: r.lineage b, .up (by rw [base?_withClass, if_pos rfl, hb])
        ((h.climbs_lineage b).withClass (hbase b hb))⟩
  intro k
  obtain ⟨ks, hks⟩ := h k
  induction hks with
  | @top k hk =>
    by_cases heq : k = c.key
    · exact heq ▸ hself
    · exact ⟨[k], .top (by rw [base?_withClass, if_neg heq, hk])⟩
  | @up k b ks hk _ ih =>
    obtain ⟨ks', hks'⟩ := ih
    refine ⟨k :: ks', .up ?_ hks'⟩
    rw [base?_withClass, if_neg, hk]
    rintro rfl
    rw [base?_of_new hnew] at hk
    cases hk

theorem Accepts.founded {d : Declaration} {key : Option Key} (h : r.Accepts d key r')
    (hr : r.Founded) : r'.Founded := by
  cases h with
  | primitives => exact hr.of_fewer (base?_registerPrimitives r)
  | @ofClass c hnew hbase =>
    refine hr.withClass hnew fun b hb hmem => ?_
    rw [hb, Option.any_some, decide_eq_false_iff_not] at hbase
    exact hbase hmem
  | member _ => exact hr.of_fewer fun x => Or.inr (base?_addMember _ _ x)
  | free _ | constraint _ _ | import_ => exact hr.of_fewer fun _ => Or.inr rfl

/-- **In a registry that was built, every climb ends.** -/
theorem Built.founded (hr : r.Built) : r.Founded :=
  hr.induction (fun _ k => ⟨[k], .top rfl⟩) fun _ _ _ _ hf haccepts => haccepts.founded hf

/-! ## The loops -/

/-- Looking for `k` from base to base, as registration does for a new class,
    ends with an answer. -/
inductive Searched (r : Registry) (k : Key) : Option Key → Bool → Prop
  | missed : Searched r k none false
  | found : Searched r k (some k) true
  | further {b : Key} {answer : Bool} : b ≠ k → Searched r k (r.base? b) answer →
      Searched r k (some b) answer

/-- Listing a class, if there is one, and what it is derived from ends with a
    list. -/
inductive Listed (r : Registry) : Option Class → List Class → Prop
  | done : Listed r none []
  | next {c : Class} {cs : List Class} : Listed r (c.base.bind r.class?) cs →
      Listed r (some c) (c :: cs)

/-- Where the climb ends, so does the search, at the key or at the end. -/
theorem Climbs.searched (h : r.Climbs k ks) (x : Key) :
    r.Searched x (some k) (decide (x ∈ ks)) := by
  induction h with
  | @top k hbase =>
    by_cases heq : k = x
    · rw [heq, decide_eq_true List.mem_cons_self]
      exact .found
    · rw [decide_eq_false fun hx => heq (List.mem_singleton.1 hx).symm]
      exact .further heq (hbase ▸ .missed)
  | @up k b ks hbase _ ih =>
    by_cases heq : k = x
    · rw [heq, decide_eq_true List.mem_cons_self]
      exact .found
    · have hmem : x ∈ k :: ks ↔ x ∈ ks := by
        rw [List.mem_cons]
        exact or_iff_right (Ne.symm heq)
      rw [decide_eq_decide.2 hmem]
      exact .further heq (hbase ▸ ih)

/-- Where the climb ends, so does the listing. -/
theorem Climbs.listed (h : r.Climbs k ks) : r.Listed (r.class? k) (ks.filterMap r.class?) := by
  induction h with
  | @top k hbase =>
    cases hc : r.class? k with
    | none =>
      rw [List.filterMap_cons_none hc]
      exact .done
    | some c =>
      have hbase' : c.base = none := by simpa [base?, hc] using hbase
      rw [List.filterMap_cons_some hc]
      exact .next (hbase' ▸ .done)
  | @up k b ks hbase _ ih =>
    obtain ⟨c, hc, hbase'⟩ := Option.bind_eq_some_iff.1 hbase
    rw [hc, List.filterMap_cons_some hc]
    exact .next (hbase' ▸ ih)

/-- A list ends with a class from which the listing finds no other one. -/
theorem Listed.bind_getLast? {start : Option Class} {cs : List Class} (h : r.Listed start cs)
    {c : Class} (hc : cs.getLast? = some c) : c.base.bind r.class? = none := by
  induction h with
  | done => cases hc
  | @next c' cs hrest ih =>
    cases cs with
    | nil =>
      rw [List.getLast?_singleton, Option.some.injEq] at hc
      subst hc
      cases hnone : c'.base.bind r.class? with
      | none => rfl
      | some _ =>
        rw [hnone] at hrest
        cases hrest
    | cons c'' cs => exact ih (by rwa [List.getLast?_cons_cons] at hc)

/-! ## Chains and derivation -/

section
variable (hf : r.Founded) (hkeys : ∀ k c, r.class? k = some c → c.key = k)
include hf hkeys

theorem nodup_chain (k : Key) : ((r.chain k).map (·.key)).Nodup := by
  have hchain : (r.chain k).Nodup := by
    refine (hf.climbs_lineage k).nodup.filterMap fun x y c hx hy => ?_
    rw [← hkeys x c hx, ← hkeys y c hy]
  refine hchain.map_on fun c hc c' hc' heq => ?_
  obtain ⟨x, -, hx⟩ := List.mem_filterMap.1 hc
  obtain ⟨y, -, hy⟩ := List.mem_filterMap.1 hc'
  rw [hkeys x c hx, hkeys y c' hy] at heq
  cases hx.symm.trans (heq ▸ hy)
  rfl

/-- **A type derives from itself and from the registered classes above it.** -/
theorem derivesFrom_iff {d b : Key} : r.derivesFrom d b = true ↔
    d = b ∨ ReflTransGen r.HasBase d b ∧ ∃ c, r.class? b = some c := by
  rw [derivesFrom, Bool.or_eq_true, beq_iff_eq, List.any_eq_true]
  refine or_congr_right ?_
  constructor
  · rintro ⟨c, hc, hkey⟩
    obtain ⟨x, hx, hclass⟩ := List.mem_filterMap.1 hc
    rw [beq_iff_eq, hkeys x c hclass] at hkey
    subst hkey
    exact ⟨hf.mem_lineage_iff.1 hx, c, hclass⟩
  · rintro ⟨hreach, c, hc⟩
    exact ⟨c, List.mem_filterMap.2 ⟨b, hf.mem_lineage_iff.2 hreach, hc⟩,
      beq_iff_eq.2 (hkeys b c hc)⟩

theorem derivesFrom_trans {a b c : Key} (hab : r.derivesFrom a b = true)
    (hbc : r.derivesFrom b c = true) : r.derivesFrom a c = true := by
  rw [derivesFrom_iff hf hkeys] at hab hbc ⊢
  rcases hab with rfl | ⟨hab, hb⟩
  · exact hbc
  · rcases hbc with rfl | ⟨hbc, hc⟩
    · exact Or.inr ⟨hab, hb⟩
    · exact Or.inr ⟨hab.trans hbc, hc⟩

theorem derivesFrom_antisymm {a b : Key} (hab : r.derivesFrom a b = true)
    (hba : r.derivesFrom b a = true) : a = b := by
  rw [derivesFrom_iff hf hkeys] at hab hba
  rcases hab with rfl | ⟨hab, -⟩
  · rfl
  · rcases hba with rfl | ⟨hba, -⟩
    · rfl
    · by_contra hne
      rcases ReflTransGen.cases_head hab with heq | ⟨x, hx, hxb⟩
      · exact hne heq
      · exact (hf.climbs_lineage a).irrefl (TransGen.head'_iff.2 ⟨x, hx, hxb.trans hba⟩)

end

/-! ## New classes -/

section
variable {c : Class} (hf : r.Founded) (hnew : r.types.contains c.key = false)
include hf hnew

/-- A new class stands above its base exactly if it did so before it was
    registered, when others named it as a base. -/
theorem reflTransGen_withClass_iff {b : Key} :
    ReflTransGen (r.withClass c).HasBase b c.key ↔ ReflTransGen r.HasBase b c.key := by
  constructor
  · intro hreach
    by_contra hnot
    have hmiss : c.key ∉ r.lineage b := fun hmem => hnot (hf.mem_lineage_iff.1 hmem)
    exact hmiss (((hf.climbs_lineage b).withClass hmiss).mem_iff.2 hreach)
  · refine ReflTransGen.mono (fun x y (hxy : r.base? x = some y) => ?_) b c.key
    show (r.withClass c).base? x = some y
    rw [base?_withClass, if_neg, hxy]
    rintro rfl
    rw [base?_of_new hnew] at hxy
    cases hxy

/-- **A new class is refused as circular exactly if it would stand above
    itself.** -/
theorem registerClass_eq_circular_iff :
    r.registerClass c = .error ⟨c.span, .circularInheritance c.name.text⟩ ↔
      TransGen (r.withClass c).HasBase c.key c.key := by
  have hchecked : r.registerClass c = .error ⟨c.span, .circularInheritance c.name.text⟩ ↔
      ∃ b, c.base = some b ∧ c.key ∈ r.lineage b := by
    rw [registerClass, if_neg (by simp [hnew])]
    cases hb : c.base with
    | none => simp
    | some b => simp
  rw [hchecked, TransGen.head'_iff]
  refine exists_congr fun b => and_congr ?_ ?_
  · rw [HasBase, base?_withClass, if_pos rfl]
  · rw [reflTransGen_withClass_iff hf hnew, hf.mem_lineage_iff]

end

/-! ## Registries that were built -/

/-- Inheritance in the registry never loops. -/
structure Loopless (r : Registry) : Prop where
  /-- Looking for a key from base to base ends, wherever it starts, and the
      answer is the one that registration goes by. -/
  searched : ∀ (k : Key) (start : Option Key),
    r.Searched k start (start.any fun b => k ∈ r.lineage b)
  /-- Listing the chain of any key ends, with the chain. -/
  listed : ∀ k, r.Listed (r.class? k) (r.chain k)
  distinct : ∀ k, ((r.chain k).map (·.key)).Nodup
  /-- A chain ends only where there is no base, or none that is registered. -/
  last : ∀ k c, (r.chain k).getLast? = some c → ∀ b ∈ c.base, r.class? b = none
  /-- A new class is refused as circular exactly if it would stand on its own
      chain. -/
  circular : ∀ c : Class, r.types.contains c.key = false →
    (r.registerClass c = .error ⟨c.span, .circularInheritance c.name.text⟩ ↔
      TransGen (r.withClass c).HasBase c.key c.key)
  refl : ∀ a, r.derivesFrom a a = true
  trans : ∀ a b c, r.derivesFrom a b = true → r.derivesFrom b c = true →
    r.derivesFrom a c = true
  antisymm : ∀ a b, r.derivesFrom a b = true → r.derivesFrom b a = true → a = b

/-- **Inheritance never loops**, whatever was declared, accepted or refused, and
    in whatever order. -/
theorem loopless_of_built (r : Registry) (hr : r.Built) : r.Loopless where
  searched k start := by
    cases start with
    | none => exact .missed
    | some b => exact (hr.founded.climbs_lineage b).searched k
  listed k := (hr.founded.climbs_lineage k).listed
  distinct := nodup_chain hr.founded hr.key_of_class?
  last k c hc b hb := by
    have hnone := (hr.founded.climbs_lineage k).listed.bind_getLast? hc
    rwa [hb, Option.bind_some] at hnone
  circular c hnew := registerClass_eq_circular_iff hr.founded hnew
  refl a := by rw [derivesFrom, beq_self_eq_true, Bool.true_or]
  trans _ _ _ := derivesFrom_trans hr.founded hr.key_of_class?
  antisymm _ _ := derivesFrom_antisymm hr.founded hr.key_of_class?

/-- Classes that come before their bases, one of which is refused because it
    would close the circle.  Another one is replaced by a primitive type, so
    that its base is lost. -/
def layeredThings : Registry :=
  (Registry.initial {}).after
    [.ofClass { name := .global "Cup", key := ⟨1⟩, base := some ⟨2⟩ },
      .ofClass { name := .global "Vessel", key := ⟨2⟩, base := some ⟨3⟩ },
      .ofClass { name := .global "Thing", key := ⟨3⟩, base := some ⟨1⟩ },
      .ofClass { name := .global "Thing", key := ⟨3⟩, base := some Primitive.int32.key },
      .ofClass { name := .global "int", key := Primitive.int32.key, base := some ⟨4⟩ },
      .primitives]

theorem layeredThings_loopless : layeredThings.Built ∧ layeredThings.Loopless ∧
    (layeredThings.chain ⟨1⟩).map (·.key) = [⟨1⟩, ⟨2⟩, ⟨3⟩] :=
  ⟨⟨{}, _, rfl⟩, loopless_of_built _ ⟨{}, _, rfl⟩, by decide +kernel⟩

end Registry

end MethodResolution
