/-
  Method resolution — what is recorded in the namespace tree, and where.

  The view of a tree tells what is declared under a path, but not how often.
  Here the records of a key are counted, scope by scope and name by name.

  * `RecordsOnce`: a key is recorded once in the whole tree, in the scope of a
    path and under a name; `Omits`: it is not recorded at all;
  * `RecordsOnce.addFunction`, `RecordsOnce.addUsing`: a record stays where it
    is while the tree grows;
  * `Omits.recordsOnce_addFunction`: a key that is declared for the first time
    is recorded once;
  * `Built.wellFormed`: in a registry that was built, the tree is well formed.
-/
import MethodResolution.Proofs.NamespaceUpdate
import MethodResolution.Proofs.Registration

namespace MethodResolution

namespace NamespaceTree

variable {t : NamespaceTree} {key key' : Key} {p path : List String} {x name : String}

/-- The key is recorded once, in the scope of the path `p` under the name `x`. -/
def RecordsOnce (t : NamespaceTree) (key : Key) (p : List String) (x : String) : Prop :=
  ∃ node, t.path? p = some node ∧
    ∀ n y, (t.overloadsIn n y).count key = if n = node ∧ y = x then 1 else 0

/-- The key is not recorded, in any scope and under any name. -/
def Omits (t : NamespaceTree) (key : Key) : Prop := ∀ n y, key ∉ t.overloadsIn n y

theorem omits_empty : empty.Omits key := by
  intro n y hmem
  cases n with
  | zero => cases hmem
  | succ n => cases hmem

/-! ## Records while the tree grows -/

/-- Creating a path records nothing. -/
theorem overloadsIn_pathOrNewFrom (t : NamespaceTree) (node : Nat) (path : List String) (n : Nat)
    (y : String) : (t.pathOrNewFrom node path).2.overloadsIn n y = t.overloadsIn n y := by
  induction path generalizing t node with
  | nil => rfl
  | cons name rest ih =>
    rw [pathOrNewFrom, ih, childOrNew]
    cases t.child? node name with
    | some child => rfl
    | none =>
      dsimp only
      split_ifs
      · show (t.withChild node name).overloadsIn n y = t.overloadsIn n y
        exact overloadsIn_withChild n y
      · rfl

/-- An import creates its paths and then changes one scope at most, and nothing
    there but what it imports. -/
theorem addUsing_cases (t : NamespaceTree) (path imported : List String) :
    t.addUsing path imported = ((t.pathOrNew path).2.pathOrNew imported).2 ∨
      ∃ node target, t.addUsing path imported =
        ((t.pathOrNew path).2.pathOrNew imported).2.update node (·.addImport target) := by
  have hdef : t.addUsing path imported = ((t.pathOrNew path).2.pathOrNew imported).2.addImport
      (t.pathOrNew path).1 ((t.pathOrNew path).2.pathOrNew imported).1 := rfl
  rw [hdef, addImport]
  split_ifs
  · exact Or.inr ⟨_, _, rfl⟩
  · exact Or.inl rfl

/-- An import records nothing. -/
theorem overloadsIn_addUsing (path imported : List String) (n : Nat) (y : String) :
    (t.addUsing path imported).overloadsIn n y = t.overloadsIn n y := by
  have hcreated : ((t.pathOrNew path).2.pathOrNew imported).2.overloadsIn n y =
      t.overloadsIn n y := by
    rw [pathOrNew, overloadsIn_pathOrNewFrom, pathOrNew, overloadsIn_pathOrNewFrom]
  rw [← hcreated]
  rcases addUsing_cases t path imported with hsame | ⟨node, target, hupdated⟩
  · rw [hsame]
  · rw [hupdated, overloadsIn_addImport]

section
variable (h : t.WellFormed)
include h

/-- **A declaration adds one record**, in the scope of its path. -/
theorem overloadsIn_addFunction (path : List String) (name : String) (key : Key) :
    ∃ node, (t.addFunction path name key).path? path = some node ∧
      (∀ q n, t.path? q = some n → (t.addFunction path name key).path? q = some n) ∧
      ∀ n y, (t.addFunction path name key).overloadsIn n y =
        if n = node ∧ y = name then t.overloadsIn n y ++ [key] else t.overloadsIn n y := by
  have hcreated := created_pathOrNew h path
  have hpath : (t.addFunction path name key).path? = (t.pathOrNew path).2.path? :=
    path?_update (f := (·.declare name key)) (fun _ => rfl) fun _ => rfl
  refine ⟨(t.pathOrNew path).1, ?_, ?_, fun n y => ?_⟩
  · rw [hpath]
    exact hcreated.path?_eq
  · rw [hpath]
    exact hcreated.path?_mono
  · show ((t.pathOrNew path).2.update (t.pathOrNew path).1 _).overloadsIn n y = _
    rw [overloadsIn_declare (path?_lt hcreated.wellFormed.size_pos hcreated.path?_eq), pathOrNew,
      overloadsIn_pathOrNewFrom]

theorem path?_addUsing {q : List String} {n : Nat} (hq : t.path? q = some n)
    (path imported : List String) : (t.addUsing path imported).path? q = some n := by
  have hfirst := created_pathOrNew h path
  have hsecond := created_pathOrNew hfirst.wellFormed imported
  rw [← hsecond.path?_mono q n (hfirst.path?_mono q n hq)]
  rcases addUsing_cases t path imported with hsame | ⟨node, target, hupdated⟩
  · rw [hsame]
  · rw [hupdated, path?_update (addImport_parent _) (addImport_name _)]

/-- What is recorded once stays recorded once. -/
theorem RecordsOnce.addFunction (hkey : t.RecordsOnce key p x) (hne : key ≠ key')
    (path : List String) (name : String) :
    (t.addFunction path name key').RecordsOnce key p x := by
  obtain ⟨node, hnode, hcount⟩ := hkey
  obtain ⟨_, -, hmono, hadded⟩ := overloadsIn_addFunction h path name key'
  refine ⟨node, hmono p node hnode, fun n y => ?_⟩
  rw [hadded, ← hcount]
  split_ifs
  · rw [List.count_append, List.count_singleton, if_neg (by simpa using Ne.symm hne), Nat.add_zero]
  · rfl

theorem RecordsOnce.addUsing (hkey : t.RecordsOnce key p x) (path imported : List String) :
    (t.addUsing path imported).RecordsOnce key p x := by
  obtain ⟨node, hnode, hcount⟩ := hkey
  refine ⟨node, path?_addUsing h hnode path imported, fun n y => ?_⟩
  rw [overloadsIn_addUsing]
  exact hcount n y

theorem Omits.addFunction (hkey : t.Omits key) (hne : key ≠ key') (path : List String)
    (name : String) : (t.addFunction path name key').Omits key := by
  intro n y hmem
  obtain ⟨_, -, -, hadded⟩ := overloadsIn_addFunction h path name key'
  rw [hadded] at hmem
  split_ifs at hmem
  · rcases List.mem_append.1 hmem with hold | hnew
    · exact hkey n y hold
    · exact hne (List.mem_singleton.1 hnew)
  · exact hkey n y hmem

/-- **A key that is declared for the first time is recorded once.** -/
theorem Omits.recordsOnce_addFunction (hkey : t.Omits key) (path : List String) (name : String) :
    (t.addFunction path name key).RecordsOnce key path name := by
  obtain ⟨node, hnode, -, hadded⟩ := overloadsIn_addFunction h path name key
  refine ⟨node, hnode, fun n y => ?_⟩
  rw [hadded]
  split_ifs
  · rw [List.count_append, List.count_eq_zero_of_not_mem (hkey n y), List.count_singleton_self]
  · exact List.count_eq_zero_of_not_mem (hkey n y)

end

theorem Omits.addUsing (hkey : t.Omits key) (path imported : List String) :
    (t.addUsing path imported).Omits key := by
  intro n y
  rw [overloadsIn_addUsing]
  exact hkey n y

/-- What is recorded once is declared in the view. -/
theorem RecordsOnce.declares (h : t.RecordsOnce key p x) : t.view.declares p x key := by
  obtain ⟨node, hnode, hcount⟩ := h
  refine ⟨node, hnode, List.count_pos_iff.1 ?_⟩
  rw [hcount, if_pos ⟨rfl, rfl⟩]
  exact Nat.one_pos

end NamespaceTree

namespace Registry

/-- The namespaces of every registry that declarations leave behind are well
    formed. -/
theorem Built.wellFormed {r : Registry} (h : r.Built) : r.namespaces.WellFormed := by
  refine h.induction (P := fun r => r.namespaces.WellFormed)
    (fun _ => NamespaceTree.wellFormed_empty) fun r d k r' hr haccepts => ?_
  cases haccepts with
  | primitives | ofClass _ _ | member _ | constraint _ _ => exact hr
  | free _ => exact NamespaceTree.wellFormed_addFunction hr _ _ _
  | import_ => exact NamespaceTree.wellFormed_addUsing hr _ _

end Registry

end MethodResolution
