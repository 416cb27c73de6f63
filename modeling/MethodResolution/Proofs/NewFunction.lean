/-
  Method resolution — one more free function.

  A free function can be found under its own name alone.  Registering it may
  create namespaces, and then a search starts further inside than before; but
  what is seen under other names stays as it is, and stays in order
  (`visible_addFunction_of_ne`).  An evaluation looks at free functions only
  where a constraint requires one, and a call only under the name it calls.

  * `visibleFunctions_addFree`: what is seen under other names;
  * `sameEvidence_addFree`: if no constraint looks for the name, evaluations
    go by the same evidence;
  * `declare_free_frame`: so the function changes no answer about types and
    constraints, and no call of another name.
-/
import MethodResolution.Proofs.Evaluation
import MethodResolution.Proofs.FunctionTable
import MethodResolution.Proofs.SightOrder

namespace MethodResolution

namespace Registry

variable {r : Registry} {c : Callable}

/-- Some known constraint looks for free functions of the name. -/
def LooksFor (r : Registry) (name : String) : Prop :=
  ∃ k concept, r.concept? k = some concept ∧
    ∃ q ∈ concept.requirements, q.mode = .free ∧ q.name = name

section
variable (hwf : r.namespaces.WellFormed) (hfiled : r.Filed)
  (hnew : r.functions.contains c.key = false)
include hwf hfiled hnew

/-- A function that is stored under a new key is seen under its own name
    alone. -/
theorem visibleFunctions_addFree (path : List String) {name : String}
    (hname : name ≠ c.simpleName) :
    (r.addFree c).visibleFunctions path name = r.visibleFunctions path name := by
  have hvisible : (r.addFree c).namespaces.visible path name = r.namespaces.visible path name :=
    NamespaceTree.visible_addFunction_of_ne hwf _ hname _ _
  rw [visibleFunctions, visibleFunctions, hvisible]
  refine List.filterMap_congr fun k hk => ?_
  have hne : k ≠ c.key := by
    rintro rfl
    rw [NamespaceTree.visible, List.mem_eraseDups, List.mem_flatMap] at hk
    obtain ⟨n, -, hn⟩ := hk
    exact hfiled.omits _ (by simpa [Table.contains] using hnew) n name hn
  exact Table.get?_insert_of_ne _ _ hne

/-- If no constraint looks for its name, evaluations go by the same evidence. -/
theorem sameEvidence_addFree (hunsought : ¬ r.LooksFor c.simpleName) :
    r.SameEvidence (r.addFree c) where
  types_eq := rfl
  concepts_eq := rfl
  visible_eq k concept hconcept q hq hmode := by
    have hname : q.name ≠ c.simpleName :=
      fun heq => hunsought ⟨k, concept, hconcept, q, hq, hmode, heq⟩
    exact (visibleFunctions_addFree hwf hfiled hnew _ hname).symm

theorem resolve_addFree (hunsought : ¬ r.LooksFor c.simpleName) {call : CallSite}
    (hname : call.name ≠ c.simpleName) : (r.addFree c).resolve call = r.resolve call := by
  have htypes : (r.addFree c).types = r.types := rfl
  have hsatisfies : (r.addFree c).satisfies = r.satisfies :=
    ((sameEvidence_addFree hwf hfiled hnew hunsought).satisfies_eq rfl).symm
  have hextensions : (r.addFree c).extensionCandidates call = r.extensionCandidates call := by
    rw [extensionCandidates, extensionCandidates, freeCandidates_congr htypes,
      visibleFunctions_addFree hwf hfiled hnew _ hname]
  rw [resolve, resolve, gather, gather, gatherExtensions, gatherExtensions, hsatisfies, hextensions,
    gatherMembers_congr htypes, verdict_congr htypes rfl rfl]

end

/-- **A new free function has only local effect.**  It is registered in any
    namespace, and other namespaces are created on the way.  If no known
    constraint looks for free functions of its name, then no type meets a
    constraint that it did not meet, or the other way round, and every call of
    another name resolves as before, whatever answers are kept. -/
theorem declare_free_frame (r : Registry) (c : Callable) (k : Option Key) (r' : Registry)
    (hr : r.Built) (hdeclare : r.declare (.free c) = .ok (k, r'))
    (hunsought : ¬ r.LooksFor c.simpleName) :
    (∀ q memo, r'.satisfies q memo = r.satisfies q memo) ∧
      ∀ call memo, call.name ≠ c.simpleName → r'.resolve call memo = r.resolve call memo := by
  cases declare_eq_ok_iff.1 hdeclare with
  | free herror =>
    have hnew := (freeError?_eq_none_iff.1 herror).2
    have hsame : r.SameEvidence (r.addFree c.asFree) :=
      sameEvidence_addFree hr.wellFormed hr.filed hnew hunsought
    refine ⟨fun q memo => ?_, fun call memo hname => ?_⟩
    · rw [hsame.satisfies_eq rfl]
    · rw [resolve_addFree hr.wellFormed hr.filed hnew hunsought hname]

/-- A constraint and an extension look for `roll` from a namespace of which
    only the outer part has functions. -/
def outerRolls : Registry :=
  (Registry.initial {}).after
    [.primitives, .ofClass { name := .global "Thing", key := ⟨1⟩ },
      .constraint { name := ⟨"Rolls", ["lib", "inner"]⟩, key := ⟨2⟩, mode := .free,
                    signatures := [{ name := "roll" }] },
      .free ((Callable.free ⟨"roll", ["lib"]⟩).withReceiver (.pointer ⟨1⟩)),
      .free { (Callable.free ⟨"spin", ["lib"]⟩).withReceiver (.pointer Key.constrained) with
        constraint := some ⟨2⟩ }]

/-- The first function of the inner namespace. -/
def innerStop : Callable := (Callable.free ⟨"stop", ["lib", "inner"]⟩).withReceiver (.pointer ⟨1⟩)

/-- A call inside of the inner namespace. -/
def innerSpin : CallSite :=
  { receiver := .ofKey ⟨1⟩, name := "spin", path := ["lib", "inner", "deep"] }

theorem declare_innerStop_frame :
    outerRolls.Built ∧
      outerRolls.declare (.free innerStop) =
        .ok (some innerStop.asFree.key, outerRolls.addFree innerStop.asFree) ∧
      ¬ outerRolls.LooksFor innerStop.simpleName ∧ innerSpin.name ≠ innerStop.simpleName ∧
      (∀ memo, (outerRolls.addFree innerStop.asFree).satisfies ⟨⟨2⟩, ⟨1⟩⟩ memo =
        outerRolls.satisfies ⟨⟨2⟩, ⟨1⟩⟩ memo) ∧
      ∀ memo, (outerRolls.addFree innerStop.asFree).resolve innerSpin memo =
        outerRolls.resolve innerSpin memo := by
  have hbuilt : outerRolls.Built := ⟨_, _, rfl⟩
  have hdeclare : outerRolls.declare (.free innerStop) =
      .ok (some innerStop.asFree.key, outerRolls.addFree innerStop.asFree) :=
    declare_eq_ok_iff.2 (.free (by decide +kernel))
  have hunsought : ¬ outerRolls.LooksFor innerStop.simpleName := by
    rintro ⟨k, concept, hconcept, q, hq, -, hname⟩
    have hnone : ∀ e ∈ outerRolls.concepts.entries, ∀ q ∈ e.2.requirements, q.name ≠ "stop" := by
      decide +kernel
    exact hnone _ (Table.mem_entries_of_get? hconcept) q hq hname
  have hname : innerSpin.name ≠ innerStop.simpleName := by decide
  obtain ⟨hsatisfies, hresolve⟩ := declare_free_frame _ _ _ _ hbuilt hdeclare hunsought
  exact ⟨hbuilt, hdeclare, hunsought, hname, fun memo => hsatisfies _ memo,
    fun memo => hresolve _ memo hname⟩

/-- The call asks whether things roll, and is bound. -/
example : ((outerRolls.resolve innerSpin ∅).1.toOption.isSome,
    (outerRolls.resolve innerSpin ∅).2.get? ⟨⟨2⟩, ⟨1⟩⟩) = (true, some true) := by decide +kernel

end Registry

end MethodResolution
