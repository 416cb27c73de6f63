/-
  Method resolution — declarations and imports in the view of a tree.

  Both create the paths they mention and then change one scope in its place.

  * `view_addFunction`: a declared function is added to the view;
  * `view_addUsing`: and so is an import.  Neither depends on what was added
    before, so their order does not matter;
  * `wellFormed_addFunction`, `wellFormed_addUsing`: the tree stays well formed.
-/
import MethodResolution.Proofs.NamespaceView

namespace MethodResolution

/-! ## Scopes -/

namespace Scope

theorem overloads_declare (s : Scope) (name : String) (key : Key) (x : String) :
    (s.declare name key).overloads x =
      if x = name then s.overloads name ++ [key] else s.overloads x := by
  rw [overloads, declare, Table.get?_insert]
  split_ifs
  · rfl
  · rfl

/-- An import changes nothing but the imports. -/
theorem addImport_eq (s : Scope) (target : Nat) :
    s.addImport target = { s with imports := (s.addImport target).imports } := by
  rw [addImport]
  split_ifs
  · rfl
  · rfl

theorem mem_imports_addImport {s : Scope} {target m : Nat} :
    m ∈ (s.addImport target).imports ↔ m ∈ s.imports ∨ m = target := by
  rw [addImport]
  split_ifs with h
  · constructor
    · exact Or.inl
    · rintro (hm | rfl)
      · exact hm
      · exact h
  · simp

end Scope

namespace NamespaceTree

variable {t : NamespaceTree}

/-! ## Changing one scope -/

/-- The tree with the scope `node` changed. -/
def update (t : NamespaceTree) (node : Nat) (f : Scope → Scope) : NamespaceTree :=
  ⟨t.scopes.modify node f⟩

theorem findIdx?_modify {α : Type} {q : α → Bool} {f : α → α} (hf : ∀ a, q (f a) = q a)
    (l : List α) (i : Nat) : (l.modify i f).findIdx? q = l.findIdx? q := by
  induction l generalizing i with
  | nil => cases i <;> rfl
  | cons a l ih =>
    cases i with
    | zero => simp [List.findIdx?_cons, hf]
    | succ i => simp [List.findIdx?_cons, ih]

section
variable {node : Nat} {f : Scope → Scope}

theorem size_update : (t.update node f).size = t.size := by
  simp [size, update]

theorem getElem?_update (n : Nat) :
    (t.update node f).scopes[n]? = if n = node then t.scopes[n]?.map f else t.scopes[n]? := by
  rw [update, List.getElem?_modify]
  by_cases h : n = node
  · simp [h]
  · simp [h, Ne.symm h]

theorem mem_update {s : Scope} (hs : s ∈ (t.update node f).scopes) :
    s ∈ t.scopes ∨ ∃ s' ∈ t.scopes, s = f s' := by
  obtain ⟨n, hn⟩ := List.mem_iff_getElem?.1 hs
  rw [getElem?_update] at hn
  split_ifs at hn
  · obtain ⟨s', hs', rfl⟩ := Option.map_eq_some_iff.1 hn
    exact Or.inr ⟨s', List.mem_of_getElem? hs', rfl⟩
  · exact Or.inl (List.mem_of_getElem? hn)

-- The changed scope stays at its place.
variable (hparent : ∀ s, (f s).parent = s.parent) (hname : ∀ s, (f s).name = s.name)
include hparent hname

theorem child?_update : (t.update node f).child? = t.child? := by
  funext m x
  exact findIdx?_modify (fun s => by rw [hparent, hname]) _ _

theorem path?_update : (t.update node f).path? = t.path? := by
  have hchild : (t.update node f).child? = t.child? := child?_update hparent hname
  have hpath : ∀ path n, (t.update node f).pathFrom? n path = t.pathFrom? n path := by
    intro path
    induction path with
    | nil => exact fun _ => rfl
    | cons x path ih =>
      intro n
      rw [pathFrom?, pathFrom?, hchild]
      simp only [ih]
  funext path
  exact hpath path root

theorem wellFormed_update (h : t.WellFormed)
    (himports : ∀ s ∈ t.scopes, ∀ m ∈ (f s).imports, m < t.size) :
    (t.update node f).WellFormed where
  size_pos := by
    rw [size_update]
    exact h.size_pos
  parent_lt s hs m hm := by
    rw [size_update]
    rcases mem_update hs with hs | ⟨s', hs', rfl⟩
    · exact h.parent_lt s hs m hm
    · rw [hparent] at hm
      exact h.parent_lt s' hs' m hm
  import_lt s hs m hm := by
    rw [size_update]
    rcases mem_update hs with hs | ⟨s', hs', rfl⟩
    · exact h.import_lt s hs m hm
    · exact himports s' hs' m hm
  path_of_lt := by
    rw [size_update, path?_update hparent hname]
    exact h.path_of_lt
  path_inj := by
    rw [path?_update hparent hname]
    exact h.path_inj

end

/-! ## Declaring and importing -/

theorem overloadsIn_declare {node : Nat} (hnode : node < t.size) (name : String) (key : Key)
    (n : Nat) (x : String) :
    (t.update node (·.declare name key)).overloadsIn n x =
      if n = node ∧ x = name then t.overloadsIn n x ++ [key] else t.overloadsIn n x := by
  unfold overloadsIn
  rw [getElem?_update]
  by_cases hn : n = node
  · obtain ⟨s, hs⟩ : ∃ s, t.scopes[n]? = some s := ⟨_, List.getElem?_eq_getElem (hn ▸ hnode)⟩
    rw [if_pos hn, hs, Option.map_some, Option.elim_some, Option.elim_some,
      Scope.overloads_declare]
    by_cases hx : x = name
    · rw [if_pos hx, if_pos ⟨hn, hx⟩, hx]
    · rw [if_neg hx, if_neg fun h => hx h.2]
  · rw [if_neg hn, if_neg fun h => hn h.1]

theorem importsOf_declare (node : Nat) (name : String) (key : Key) (n : Nat) :
    (t.update node (·.declare name key)).importsOf n = t.importsOf n := by
  unfold importsOf
  rw [getElem?_update]
  split_ifs
  · cases t.scopes[n]? <;> rfl
  · rfl

theorem mem_importsOf_addImport {node : Nat} (hnode : node < t.size) (target n m : Nat) :
    m ∈ (t.update node (·.addImport target)).importsOf n ↔
      m ∈ t.importsOf n ∨ n = node ∧ m = target := by
  unfold importsOf
  rw [getElem?_update]
  by_cases hn : n = node
  · obtain ⟨s, hs⟩ : ∃ s, t.scopes[n]? = some s := ⟨_, List.getElem?_eq_getElem (hn ▸ hnode)⟩
    rw [if_pos hn, hs, Option.map_some, Option.elim_some, Option.elim_some,
      Scope.mem_imports_addImport]
    simp [hn]
  · simp [hn]

theorem overloadsIn_addImport (node target n : Nat) (x : String) :
    (t.update node (·.addImport target)).overloadsIn n x = t.overloadsIn n x := by
  unfold overloadsIn
  rw [getElem?_update]
  split_ifs
  · cases t.scopes[n]? with
    | none => rfl
    | some s => exact congrArg (·.overloads x) (s.addImport_eq target)
  · rfl

theorem addImport_parent (target : Nat) (s : Scope) : (s.addImport target).parent = s.parent := by
  rw [Scope.addImport_eq]

theorem addImport_name (target : Nat) (s : Scope) : (s.addImport target).name = s.name := by
  rw [Scope.addImport_eq]

section
variable (h : t.WellFormed) {path : List String} {node : Nat} (hpath : t.path? path = some node)
include h hpath

theorem view_declare (name : String) (key : Key) :
    (t.update node (·.declare name key)).view =
      { t.view with
        declares := fun p x k => t.view.declares p x k ∨ p = path ∧ x = name ∧ k = key } := by
  have hlt := path?_lt h.size_pos hpath
  ext p x k
  · simp only [view, path?_update (f := (·.declare name key)) (fun _ => rfl) fun _ => rfl]
  · simp only [view, path?_update (f := (·.declare name key)) (fun _ => rfl) fun _ => rfl,
      overloadsIn_declare hlt]
    constructor
    · rintro ⟨n, hn, hk⟩
      split_ifs at hk with hnew
      · rcases List.mem_append.1 hk with hk | hk
        · exact Or.inl ⟨n, hn, hk⟩
        · obtain ⟨rfl, hx⟩ := hnew
          exact Or.inr ⟨h.path_inj p path n hn hpath, hx, List.mem_singleton.1 hk⟩
      · exact Or.inl ⟨n, hn, hk⟩
    · rintro (⟨n, hn, hk⟩ | ⟨rfl, rfl, rfl⟩)
      · refine ⟨n, hn, ?_⟩
        split_ifs
        · exact List.mem_append_left _ hk
        · exact hk
      · exact ⟨node, hpath, by simp⟩
  · simp only [view, path?_update (f := (·.declare name key)) (fun _ => rfl) fun _ => rfl,
      importsOf_declare]

theorem view_addImport {imported : List String} {target : Nat}
    (himported : t.path? imported = some target) :
    (t.update node (·.addImport target)).view =
      { t.view with imports := fun p q => t.view.imports p q ∨ p = path ∧ q = imported } := by
  have hlt := path?_lt h.size_pos hpath
  ext p x k
  · simp only [view, path?_update (addImport_parent target) (addImport_name target)]
  · simp only [view, path?_update (addImport_parent target) (addImport_name target),
      overloadsIn_addImport]
  · simp only [view, path?_update (addImport_parent target) (addImport_name target),
      mem_importsOf_addImport hlt]
    constructor
    · rintro ⟨n, m, hn, hm, hmem | ⟨rfl, rfl⟩⟩
      · exact Or.inl ⟨n, m, hn, hm, hmem⟩
      · exact Or.inr ⟨h.path_inj p path n hn hpath, h.path_inj x imported m hm himported⟩
    · rintro (⟨n, m, hn, hm, hmem⟩ | ⟨rfl, rfl⟩)
      · exact ⟨n, m, hn, hm, Or.inl hmem⟩
      · exact ⟨node, target, hpath, himported, Or.inr ⟨rfl, rfl⟩⟩

end

section
variable (h : t.WellFormed)
include h

theorem wellFormed_addFunction (path : List String) (name : String) (key : Key) :
    (t.addFunction path name key).WellFormed := by
  have hcreated := created_pathOrNew h path
  exact wellFormed_update (fun _ => rfl) (fun _ => rfl) hcreated.wellFormed
    hcreated.wellFormed.import_lt

/-- **A declared function is added to the view**, whatever was declared before. -/
theorem view_addFunction (path : List String) (name : String) (key : Key) :
    (t.addFunction path name key).view = t.view.declare path name key := by
  have hcreated := created_pathOrNew h path
  show ((t.pathOrNew path).2.update (t.pathOrNew path).1 (·.declare name key)).view = _
  rw [view_declare hcreated.wellFormed hcreated.path?_eq, hcreated.view_eq]
  rfl

/-- Adding an import changes the importing scope, once both paths exist. -/
theorem addUsing_eq (path imported : List String) :
    ∃ (t' : NamespaceTree) (node target : Nat),
      t.addUsing path imported = t'.update node (·.addImport target) ∧
      t'.WellFormed ∧ t'.path? path = some node ∧ t'.path? imported = some target ∧
      t'.view = (t.view.create path).create imported := by
  have hfirst := created_pathOrNew h path
  have hsecond := created_pathOrNew hfirst.wellFormed imported
  refine ⟨_, _, _, ?_, hsecond.wellFormed, hsecond.path?_mono _ _ hfirst.path?_eq,
    hsecond.path?_eq, ?_⟩
  · exact if_pos (path?_lt hsecond.wellFormed.size_pos hsecond.path?_eq)
  · rw [hsecond.view_eq, hfirst.view_eq]

theorem wellFormed_addUsing (path imported : List String) :
    (t.addUsing path imported).WellFormed := by
  obtain ⟨t', node, target, heq, hwf, -, himported, -⟩ := addUsing_eq h path imported
  rw [heq]
  refine wellFormed_update (addImport_parent target) (addImport_name target) hwf fun s hs m hm => ?_
  rcases Scope.mem_imports_addImport.1 hm with hm | rfl
  · exact hwf.import_lt s hs m hm
  · exact path?_lt hwf.size_pos himported

/-- **An import is added to the view**, whatever was imported before. -/
theorem view_addUsing (path imported : List String) :
    (t.addUsing path imported).view = t.view.addImport path imported := by
  obtain ⟨t', node, target, heq, hwf, hpath, himported, hview⟩ := addUsing_eq h path imported
  rw [heq, view_addImport hwf hpath himported, hview]
  rfl

end

end NamespaceTree

end MethodResolution
