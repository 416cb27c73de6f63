/-
  Method resolution — the order of what can be seen while the tree grows.

  The view of a tree tells what can be seen from a path, but not in which order
  it is found.  The order is that of a search along the path and its imports,
  and a new scope may lengthen the path; but it comes last there, and it holds
  nothing and leads nowhere.

  * `explore_concat`: a search in which a new node comes last finds what it
    found, and then this node;
  * `visible_withChild`, `visible_pathOrNewFrom`: so a path that is created
    changes nothing that can be seen, nor its order;
  * `visible_addFunction_of_ne`: a declared function changes only what is seen
    under its own name.
-/
import MethodResolution.Proofs.NamespaceUpdate
import MethodResolution.Proofs.Visibility
import Mathlib.Data.List.Find

namespace MethodResolution

namespace NamespaceTree

variable {t t' : NamespaceTree}

/-! ## Searching with one more node -/

section
variable {next : Nat → List Nat} {steps : Nat} {remaining pending extra : List Nat} {node : Nat}

theorem explore_eq_nil (h : ∀ n ∈ pending, n ∉ remaining) :
    explore next steps remaining pending = [] := by
  have hnone : pending.find? (· ∈ remaining) = none := by simpa using h
  cases steps with
  | zero => rfl
  | succ steps => rw [explore, hnone]

-- The node is new: no other leads to it, and it leads nowhere.  It comes last,
-- if it is searched at all.
variable (hto : ∀ n, node ∉ next n) (hfrom : next node = []) (hextra : extra = [] ∨ extra = [node])
include hfrom hextra

/-- Where nothing else remains, the new node is all that is found. -/
theorem explore_concat_of_none (hremaining : node ∉ remaining)
    (h : ∀ n ∈ pending, n ∉ remaining) (hpending : node ∉ pending) :
    explore next (steps + 1) (remaining ++ [node]) (pending ++ extra) =
      explore next steps remaining pending ++ extra := by
  rw [explore_eq_nil h, List.nil_append]
  have hother : ∀ n ∈ pending, n ∉ remaining ++ [node] := by
    intro n hn hmem
    rcases List.mem_append.1 hmem with hmem | hmem
    · exact h n hn hmem
    · exact hpending (List.mem_singleton.1 hmem ▸ hn)
  rcases hextra with rfl | rfl
  · rw [List.append_nil]
    exact explore_eq_nil hother
  · have hfind : (pending ++ [node]).find? (· ∈ remaining ++ [node]) = some node := by
      rw [List.find?_append, List.find?_eq_none.2 (by simpa using hother)]
      simp
    have hrest : ∀ n ∈ next node ++ (pending ++ [node]), n ∉ remaining := by
      simpa [hfrom, or_imp, forall_and] using And.intro h hremaining
    rw [explore, hfind]
    dsimp only
    rw [List.erase_append_right _ hremaining, List.erase_cons_head, List.append_nil,
      explore_eq_nil hrest]

include hto

/-- **A new node comes last in a search**, and changes nothing else in it. -/
theorem explore_concat (hsteps : remaining.length ≤ steps) (hremaining : node ∉ remaining)
    (hpending : node ∉ pending) :
    explore next (steps + 1) (remaining ++ [node]) (pending ++ extra) =
      explore next steps remaining pending ++ extra := by
  induction steps generalizing remaining pending with
  | zero =>
    have hnil : remaining = [] := List.length_eq_zero_iff.1 (Nat.le_zero.1 hsteps)
    have hnone : ∀ n ∈ pending, n ∉ remaining := fun n _ => hnil ▸ List.not_mem_nil
    exact explore_concat_of_none hfrom hextra hremaining hnone hpending
  | succ steps ih =>
    cases hfind : pending.find? (· ∈ remaining) with
    | none =>
      have hnone : ∀ n ∈ pending, n ∉ remaining := by simpa using hfind
      exact explore_concat_of_none hfrom hextra hremaining hnone hpending
    | some n =>
      have hn : n ∈ remaining := by simpa using List.find?_some hfind
      have hfind' : (pending ++ extra).find? (· ∈ remaining ++ [node]) = some n := by
        have hold : pending.find? (· ∈ remaining ++ [node]) = pending.find? (· ∈ remaining) := by
          refine List.find?_congr fun m hm => ?_
          have hne : m ≠ node := fun heq => hpending (heq ▸ hm)
          simp [hne]
        rw [List.find?_append, hold, hfind, Option.some_or]
      have hlength : (remaining.erase n).length ≤ steps := by
        rw [List.length_erase_of_mem hn]
        omega
      have hrest : explore next (steps + 1) (remaining.erase n ++ [node])
          (next n ++ pending ++ extra) =
            explore next steps (remaining.erase n) (next n ++ pending) ++ extra :=
        ih hlength (fun hmem => hremaining (List.mem_of_mem_erase hmem))
          fun hmem => (List.mem_append.1 hmem).elim (hto n) hpending
      rw [explore, hfind', explore, hfind]
      dsimp only
      rw [List.erase_append_left _ hn, ← List.append_assoc, hrest, List.cons_append]

end

/-! ## One more scope -/

section
variable {node : Nat} (h : t.WellFormed) (hnode : node < t.size) (name : String)
include h hnode

/-- The new scope may lengthen a path, by itself alone. -/
theorem along_withChild (path : List String) {n : Nat} (hn : n < t.size) :
    ∃ extra, (extra = [] ∨ extra = [t.size]) ∧
      (t.withChild node name).along n path = t.along n path ++ extra := by
  induction path generalizing n with
  | nil => exact ⟨[], Or.inl rfl, rfl⟩
  | cons x path ih =>
    rw [along, along, child?_withChild]
    cases hchild : t.child? n x with
    | some child =>
      obtain ⟨extra, hextra, hrest⟩ := ih (child?_lt hchild)
      exact ⟨extra, hextra, congrArg (n :: ·) hrest⟩
    | none =>
      rw [Option.none_or]
      split_ifs with hplace
      · -- Nothing lies inside the new scope.
        refine ⟨[t.size], Or.inr rfl, ?_⟩
        cases path with
        | nil => rfl
        | cons y path =>
          have hnone : (t.withChild node name).child? t.size y = none := by
            rw [child?_withChild, h.child?_size, if_neg fun hself => hnode.ne' hself.1]
            rfl
          simp [along, hnone]
      · exact ⟨[], Or.inl rfl, rfl⟩

theorem inSight_withChild (path : List String) :
    ∃ extra, (extra = [] ∨ extra = [t.size]) ∧
      (t.withChild node name).inSight path = t.inSight path ++ extra := by
  obtain ⟨extra, hextra, halong⟩ := along_withChild h hnode name path h.size_pos
  refine ⟨extra, hextra, ?_⟩
  have himports : (t.withChild node name).importsOf = t.importsOf := funext importsOf_withChild
  have hpending : t.size ∉ t.along root path := by
    intro hmem
    obtain ⟨p, -, hp⟩ := (mem_along root path _).1 hmem
    exact absurd (path?_lt h.size_pos hp) (Nat.lt_irrefl _)
  rw [inSight, size_withChild, List.range_succ, root, halong, himports]
  exact explore_concat (fun n hmem => absurd (importsOf_lt h hmem) (Nat.lt_irrefl _))
    importsOf_size hextra (by simp) (by simp) hpending

/-- **A new scope changes nothing that can be seen**, nor its order. -/
theorem visible_withChild : (t.withChild node name).visible = t.visible := by
  funext path x
  obtain ⟨extra, hextra, hsight⟩ := inSight_withChild h hnode name path
  have hempty : extra.flatMap (t.overloadsIn · x) = [] := by
    rcases hextra with rfl | rfl
    · rfl
    · simp [overloadsIn_size]
  rw [visible, visible, hsight]
  simp only [overloadsIn_withChild, List.flatMap_append, hempty, List.append_nil]

end

/-- Neither does a path that is created. -/
theorem visible_pathOrNewFrom {node : Nat} {p : List String} (rest : List String)
    (h : t.WellFormed) (hnode : t.path? p = some node) :
    (t.pathOrNewFrom node rest).2.visible = t.visible := by
  induction rest generalizing t node p with
  | nil => rfl
  | cons name rest ih =>
    rw [pathOrNewFrom, childOrNew]
    cases hchild : t.child? node name with
    | some child =>
      refine ih h (p := p ++ [name]) ?_
      rw [path?_concat, hnode, Option.bind_some, hchild]
    | none =>
      have hlt := path?_lt h.size_pos hnode
      dsimp only
      rw [if_pos (Nat.le_of_lt hlt)]
      have hgrown : ((t.withChild node name).pathOrNewFrom t.size rest).2.visible =
          (t.withChild node name).visible :=
        ih (wellFormed_withChild h hnode hchild) (p := p ++ [name])
          (by rw [path?_withChild h hnode hchild, if_pos rfl])
      exact hgrown.trans (visible_withChild h hlt name)

/-! ## One more function -/

theorem along_congr (h : t.child? = t'.child?) : t.along = t'.along := by
  funext n path
  induction path generalizing n with
  | nil => rfl
  | cons x path ih =>
    rw [along, along, h]
    simp only [ih]

/-- **A declared function changes only what is seen under its own name.**  Under
    other names, everything is seen as before, and in the same order. -/
theorem visible_addFunction_of_ne (h : t.WellFormed) (path : List String) {name x : String}
    (hx : x ≠ name) (key : Key) (p : List String) :
    (t.addFunction path name key).visible p x = t.visible p x := by
  have hcreated := created_pathOrNew h path
  have hlt := path?_lt hcreated.wellFormed.size_pos hcreated.path?_eq
  have hgrown : (t.pathOrNew path).2.visible = t.visible :=
    visible_pathOrNewFrom (p := []) path h rfl
  rw [← hgrown]
  show ((t.pathOrNew path).2.update (t.pathOrNew path).1 (·.declare name key)).visible p x = _
  generalize (t.pathOrNew path).2 = t', (t.pathOrNew path).1 = node at hlt ⊢
  have himports : (t'.update node (·.declare name key)).importsOf = t'.importsOf :=
    funext (importsOf_declare node name key)
  have halong : (t'.update node (·.declare name key)).along = t'.along :=
    along_congr (child?_update (fun _ => rfl) fun _ => rfl)
  have hoverloads : ∀ n, (t'.update node (·.declare name key)).overloadsIn n x =
      t'.overloadsIn n x := by
    intro n
    rw [overloadsIn_declare hlt, if_neg fun hnew => hx hnew.2]
  rw [visible, visible, inSight, inSight, size_update, himports, halong]
  simp only [hoverloads]

end NamespaceTree

end MethodResolution
