/-
  Method resolution — the order of free functions and imports.

  * `Extends`: what a list of free functions and imports adds to a registry.
    It depends on what is in the list, not on its order;
  * `Agree`: registries that hold the same types, constraints and functions,
    with namespaces of one view.  What they can see differs by the order in
    which it is found, and no answer depends on this order;
  * `after_perm`: so the order of free functions and imports does not matter,
    for their registration and for any answer, up to what is listed for a tie.
-/
import MethodResolution.Proofs.Admission
import MethodResolution.Proofs.NamespaceRecords
import MethodResolution.Proofs.Transparency
import MethodResolution.Proofs.Verdict
import MethodResolution.Proofs.Visibility

namespace MethodResolution

/-! ## What a list adds to a view -/

namespace NamespaceTree.View

variable {v : View} {ds ds' : List Declaration}

/-- The view with the free functions and imports of a list. -/
def extend (v : View) (ds : List Declaration) : View where
  has p := v.has p ∨ (∃ c, .free c ∈ ds ∧ p <+: c.name.path) ∨
    ∃ path imported, .import_ path imported ∈ ds ∧ (p <+: path ∨ p <+: imported)
  declares p x k := v.declares p x k ∨
    ∃ c, .free c ∈ ds ∧ p = c.name.path ∧ x = c.simpleName ∧ k = c.asFree.key
  imports p q := v.imports p q ∨ .import_ p q ∈ ds

theorem extend_nil : v.extend [] = v := by
  ext p x k
  · simp [extend]
  · simp [extend]
  · simp [extend]

theorem extend_append : v.extend (ds ++ ds') = (v.extend ds).extend ds' := by
  ext p x k
  · simp only [extend, List.mem_append, or_and_right, exists_or]
    rw [or_or_or_comm, ← or_assoc]
  · simp only [extend, List.mem_append, or_and_right, exists_or, or_assoc]
  · simp only [extend, List.mem_append, or_assoc]

theorem extend_free (c : Callable) :
    v.extend [.free c] = v.declare c.name.path c.simpleName c.asFree.key := by
  ext p x k
  · simp [extend, declare, create]
  · simp [extend, declare]
  · simp [extend, declare]

theorem extend_import (path imported : List String) :
    v.extend [.import_ path imported] = v.addImport path imported := by
  ext p x k
  · simp [extend, addImport, create, or_assoc]
  · simp [extend, addImport]
  · simp [extend, addImport]

/-- The order of the list does not matter. -/
theorem extend_perm (h : ds.Perm ds') : v.extend ds = v.extend ds' := by
  simp only [extend, h.mem_iff]

end NamespaceTree.View

/-- Outcomes are alike if they are the same, or ties in one tier of one call. -/
inductive Resolution.Alike : Resolution → Resolution → Prop
  | same {out} : Alike out out
  | tie {call tier infos infos'} :
      Alike (.error ⟨call, .ambiguousCandidates tier infos⟩)
        (.error ⟨call, .ambiguousCandidates tier infos'⟩)

namespace Registry

variable {r r' r'' : Registry} {ds ds' : List Declaration}

/-! ## What a list adds to a registry -/

/-- The registry `r'` is `r` with the free functions and imports of a list. -/
structure Extends (r : Registry) (ds : List Declaration) (r' : Registry) : Prop where
  types : r'.types = r.types
  concepts : r'.concepts = r.concepts
  policy : r'.policy = r.policy
  function : ∀ k f, r'.functions.get? k = some f ↔
    r.functions.get? k = some f ∨ ∃ c, .free c ∈ ds ∧ k = c.asFree.key ∧ f = c.asFree
  wellFormed : r'.namespaces.WellFormed
  view : r'.namespaces.view = r.namespaces.view.extend ds

theorem Extends.refl (h : r.namespaces.WellFormed) : r.Extends [] r where
  types := rfl
  concepts := rfl
  policy := rfl
  function k f := by simp
  wellFormed := h
  view := NamespaceTree.View.extend_nil.symm

theorem Extends.trans (h : r.Extends ds r') (h' : r'.Extends ds' r'') :
    r.Extends (ds ++ ds') r'' where
  types := h'.types.trans h.types
  concepts := h'.concepts.trans h.concepts
  policy := h'.policy.trans h.policy
  function k f := by
    rw [h'.function, h.function]
    simp only [List.mem_append, or_and_right, exists_or, or_assoc]
  wellFormed := h'.wellFormed
  view := by rw [h'.view, h.view, NamespaceTree.View.extend_append]

/-- One accepted free function or import adds itself. -/
theorem Accepts.extends_singleton {d : Declaration} {k : Option Key} (h : r.Accepts d k r')
    (hd : d.isScoped) (hwf : r.namespaces.WellFormed) : r.Extends [d] r' := by
  cases h with
  | primitives | ofClass _ _ | member _ | constraint _ _ => cases hd
  | @free c herror =>
    obtain ⟨-, hnew⟩ := freeError?_eq_none_iff.1 herror
    have hnone : r.functions.get? c.asFree.key = none := by
      simpa [Table.contains] using hnew
    refine ⟨rfl, rfl, rfl, fun k f => ?_, NamespaceTree.wellFormed_addFunction hwf _ _ _, ?_⟩
    · rw [addFree, Table.get?_insert]
      split_ifs with hk
      · simp [hk, hnone, eq_comm]
      · simp [hk]
    · rw [NamespaceTree.View.extend_free]
      exact NamespaceTree.view_addFunction hwf _ _ _
  | @import_ path imported =>
    refine ⟨rfl, rfl, rfl, fun k f => ?_, NamespaceTree.wellFormed_addUsing hwf _ _, ?_⟩
    · simp [registerUsing]
    · rw [NamespaceTree.View.extend_import]
      exact NamespaceTree.view_addUsing hwf _ _

/-- **A list that is accepted adds itself.** -/
theorem extends_after (hds : ∀ d ∈ ds, d.isScoped) (h : r.AcceptsAll ds)
    (hwf : r.namespaces.WellFormed) : r.Extends ds (r.after ds) := by
  induction ds generalizing r with
  | nil => exact .refl hwf
  | cons d ds ih =>
    obtain ⟨⟨k, r', haccepts⟩, hrest⟩ := acceptsAll_cons.1 h
    have hfirst := haccepts.extends_singleton (hds d List.mem_cons_self) hwf
    rw [haccepts.next_eq] at hrest
    have hall := hfirst.trans
      (ih (fun d hd => hds d (List.mem_cons_of_mem _ hd)) hrest hfirst.wellFormed)
    rwa [← haccepts.next_eq] at hall

/-! ## Registries that agree -/

/-- The registries hold the same, and see it in some order. -/
structure Agree (r r' : Registry) : Prop where
  types : r.types = r'.types
  concepts : r.concepts = r'.concepts
  policy : r.policy = r'.policy
  visible : ∀ path name, (r.visibleFunctions path name).Perm (r'.visibleFunctions path name)

/-- The order of the list does not matter for what is held. -/
theorem Extends.agree (h : r.Extends ds r') (h' : r.Extends ds' r'') (hperm : ds.Perm ds') :
    r'.Agree r'' where
  types := h.types.trans h'.types.symm
  concepts := h.concepts.trans h'.concepts.symm
  policy := h.policy.trans h'.policy.symm
  visible path name := by
    have hfunctions : r'.functions.get? = r''.functions.get? := by
      ext k f
      rw [h.function, h'.function]
      simp only [hperm.mem_iff]
    have hview : r'.namespaces.view = r''.namespaces.view := by
      rw [h.view, h'.view, NamespaceTree.View.extend_perm hperm]
    unfold visibleFunctions
    rw [hfunctions]
    exact (NamespaceTree.visible_perm h.wellFormed h'.wellFormed hview path name).filterMap _

/-- Whether candidates of one tier are a tie does not depend on their order. -/
theorem exists_ambiguous_of_perm {receiver : DataType} {tier : Tier} {cs cs' : List Candidate}
    (h : ∀ c ∈ cs, c.tier = tier) (hperm : cs.Perm cs')
    (htie : ∃ front tied, r.selectBest receiver cs = some (.ambiguous front tied)) :
    ∃ front tied, r.selectBest receiver cs' = some (.ambiguous front tied) := by
  have h' : ∀ c ∈ cs', c.tier = tier := fun c hc => h c (hperm.mem_iff.2 hc)
  obtain ⟨hne, hnone⟩ := (selectBest_eq_ambiguous_iff h).1 htie
  refine (selectBest_eq_ambiguous_iff h').2 ⟨?_, ?_⟩
  · rintro rfl
    exact hne (List.perm_nil.1 hperm)
  · rintro ⟨c, hc⟩
    exact hnone ⟨c, hc.perm hperm.symm⟩

/-- **The verdict does not depend on the order of the candidates**, but for
    what it lists for a tie. -/
theorem verdict_alike {call : CallSite} {tier : Tier} {cs cs' : List Candidate}
    (h : ∀ c ∈ cs, c.tier = tier) (hperm : cs.Perm cs') :
    Resolution.Alike (r.verdict call tier cs) (r.verdict call tier cs') := by
  have h' : ∀ c ∈ cs', c.tier = tier := fun c hc => h c (hperm.mem_iff.2 hc)
  rcases hbest : r.selectBest call.receiver cs with _ | ⟨c⟩ | ⟨front, tied⟩
  · have hnil : cs = [] := (selectBest_eq_none_iff call.receiver).1 hbest
    subst hnil
    rw [List.nil_perm.1 hperm]
    exact .same
  · have hbest' : r.selectBest call.receiver cs' = some (.unique c) :=
      (selectBest_eq_unique_iff h').2 (((selectBest_eq_unique_iff h).1 hbest).perm hperm)
    rw [verdict_of_unique hbest, verdict_of_unique hbest']
    exact .same
  · obtain ⟨front', tied', hbest'⟩ := exists_ambiguous_of_perm h hperm ⟨front, tied, hbest⟩
    rw [verdict_of_ambiguous hbest, verdict_of_ambiguous hbest']
    exact .tie

section
variable (h : r.Agree r')
include h

theorem Agree.holds_eq : r.holds = r'.holds := by
  funext q
  unfold holds
  rw [judge_congr h.types h.concepts h.visible, h.policy]

theorem Agree.transparent (hr : r.Transparent) : r'.Transparent := by
  rwa [Transparent, ← h.policy, ← h.concepts]

theorem Agree.standing_perm (call : CallSite) :
    (Contingent.standing r.holds (r.extensionCandidates call)).Perm
      (Contingent.standing r'.holds (r'.extensionCandidates call)) := by
  rw [← h.holds_eq, extensionCandidates, extensionCandidates, ← freeCandidates_congr h.types]
  exact Contingent.standing_perm (((h.visible call.path call.name).filter _).filterMap _)

/-- **A call resolves alike in registries that agree.** -/
theorem Agree.resolve_alike (hr : r.Transparent) {memo memo' : Memo} (hmemo : r.Consistent memo)
    (hmemo' : r'.Consistent memo') (call : CallSite) :
    Resolution.Alike (r.resolve call memo).1 (r'.resolve call memo').1 := by
  have hmembers : r.gatherMembers call = r'.gatherMembers call := by
    rw [gatherMembers_congr h.types]
  have hverdict : r.verdict = r'.verdict := verdict_congr h.types h.concepts (by rw [h.policy])
  by_cases hnil : r.gatherMembers call = []
  · rw [resolve_of_no_members hnil, resolve_of_no_members (hmembers ▸ hnil),
      gatherExtensions_fst hr hmemo, gatherExtensions_fst (h.transparent hr) hmemo', ← hverdict]
    exact verdict_alike tier_of_mem_standing (h.standing_perm call)
  · rw [resolve_of_members hnil, resolve_of_members (hmembers ▸ hnil), ← hverdict, hmembers]
    exact .same

end

/-- **The order of free functions and imports does not matter.**  If a list of
    them is accepted in one order, then it is in any other, each declaration
    under the same key.  Every type then satisfies the same constraints, and
    every call resolves to the same, up to what is listed for a tie. -/
theorem after_perm (r : Registry) (ds ds' : List Declaration) (hr : r.Built)
    (hds : ∀ d ∈ ds, d.isScoped) (hall : r.AcceptsAll ds) (hperm : ds.Perm ds')
    (hdepth : r.policy.memoize = false ∨ r.concepts.size ≤ r.policy.depthLimit) :
    r.AcceptsAll ds' ∧ (r.reports ds').Perm (r.reports ds) ∧
      (∀ q, ((r.after ds').satisfies q ∅).1 = ((r.after ds).satisfies q ∅).1) ∧
      ∀ call, Resolution.Alike ((r.after ds').resolve call ∅).1 ((r.after ds).resolve call ∅).1 := by
  have hds' : ∀ d ∈ ds', d.isScoped := fun d hd => hds d (hperm.mem_iff.2 hd)
  have hall' : r.AcceptsAll ds' :=
    (acceptsAll_iff hds').2 (((acceptsAll_iff hds).1 hall).perm hperm)
  have hextends := extends_after hds hall hr.wellFormed
  have hextends' := extends_after hds' hall' hr.wellFormed
  have hagree := hextends'.agree hextends hperm.symm
  have htransparent' : (r.after ds').Transparent := by
    rwa [Transparent, hextends'.policy, hextends'.concepts]
  refine ⟨hall', ?_, fun q => ?_, fun call => ?_⟩
  · rw [reports_of_acceptsAll hds hall, reports_of_acceptsAll hds' hall']
    exact hperm.symm.map _
  · rw [satisfies_fst htransparent' consistent_empty,
      satisfies_fst (hagree.transparent htransparent') consistent_empty, hagree.holds_eq]
  · exact hagree.resolve_alike htransparent' consistent_empty consistent_empty call

/-- A program with a constraint that asks for a free function. -/
def stoppingThings : Registry :=
  (Registry.initial {}).after
    [.primitives, .ofClass { name := .global "Thing", key := ⟨1⟩ },
      .constraint { name := ⟨"Stops", ["lib"]⟩, key := ⟨2⟩, mode := .free,
                    signatures := [{ name := "stop" }] }]

/-- Functions that meet the constraint or ask for it, in namespaces that import
    each other. -/
def stoppers : List Declaration :=
  [.free ((Callable.free ⟨"stop", ["app"]⟩).withReceiver (.pointer ⟨1⟩)),
    .import_ ["lib"] ["app"],
    .free { (Callable.free ⟨"stop", ["lib"]⟩).withReceiver (.pointer Key.constrained) with
      constraint := some ⟨2⟩ },
    .import_ ["app"] ["lib"]]

/-- A call from inside of one of them. -/
def stopInApp : CallSite := { receiver := .ofKey ⟨1⟩, name := "stop", path := ["app"] }

theorem after_reverse_stoppers :
    stoppingThings.Built ∧ (∀ d ∈ stoppers, d.isScoped) ∧ stoppingThings.AcceptsAll stoppers ∧
      stoppers.Perm stoppers.reverse ∧
      stoppingThings.concepts.size ≤ stoppingThings.policy.depthLimit ∧
      stoppingThings.AcceptsAll stoppers.reverse ∧
      (stoppingThings.reports stoppers.reverse).Perm (stoppingThings.reports stoppers) ∧
      ((stoppingThings.after stoppers.reverse).satisfies ⟨⟨2⟩, ⟨1⟩⟩ ∅).1 =
        ((stoppingThings.after stoppers).satisfies ⟨⟨2⟩, ⟨1⟩⟩ ∅).1 ∧
      Resolution.Alike ((stoppingThings.after stoppers.reverse).resolve stopInApp ∅).1
        ((stoppingThings.after stoppers).resolve stopInApp ∅).1 := by
  have hbuilt : stoppingThings.Built := ⟨{}, _, rfl⟩
  have hscoped : ∀ d ∈ stoppers, d.isScoped := by decide
  have hall : stoppingThings.AcceptsAll stoppers := by decide +kernel
  have hperm : stoppers.Perm stoppers.reverse := stoppers.reverse_perm.symm
  have hdepth : stoppingThings.concepts.size ≤ stoppingThings.policy.depthLimit := by
    decide +kernel
  obtain ⟨hall', hreports, hsatisfies, hresolve⟩ :=
    after_perm stoppingThings stoppers stoppers.reverse hbuilt hscoped hall hperm (Or.inr hdepth)
  exact ⟨hbuilt, hscoped, hall, hperm, hdepth, hall', hreports, hsatisfies _, hresolve _⟩

end Registry

end MethodResolution
