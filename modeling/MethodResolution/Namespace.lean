/-
  Method resolution — the namespace tree.

  Free functions live in namespaces.  The scopes of the tree are numbered in
  the order of their creation; the root, scope 0, is the global namespace.  A
  scope holds the overloads declared in it by simple name, and it may import
  other scopes for lookup.

  * `visible path name`: the functions that a call inside `path` can see under
    a simple name.  They are found in the scopes of the path as far as it
    exists, from the root inwards, each followed at once by everything it
    imports, directly or not (`inSight`);
  * `explore` lists what can be reached along a successor function, depth
    first, and takes every node at most once, so that mutual imports do no
    harm.
-/
import MethodResolution.Key
import MethodResolution.Table

namespace MethodResolution

structure Scope where
  /-- The enclosing scope, which may be the scope itself; the root has none. -/
  parent : Option Nat
  name : String
  /-- The declared functions by simple name, in the order of declaration. -/
  functions : Table String (List Key) := ∅
  imports : List Nat := []
  deriving DecidableEq, Inhabited, Repr

namespace Scope

def overloads (s : Scope) (name : String) : List Key := (s.functions.get? name).getD []

def declare (s : Scope) (name : String) (key : Key) : Scope :=
  { s with functions := s.functions.insert name (s.overloads name ++ [key]) }

/-- The scope with one more import, if it is a new one. -/
def addImport (s : Scope) (target : Nat) : Scope :=
  if target ∈ s.imports then s else { s with imports := s.imports ++ [target] }

end Scope

structure NamespaceTree where
  scopes : List Scope
  deriving DecidableEq, Repr

namespace NamespaceTree

/-- The tree that has no namespace but the global one. -/
def empty : NamespaceTree := ⟨[{ parent := none, name := "" }]⟩

instance : Inhabited NamespaceTree := ⟨empty⟩

def root : Nat := 0

def size (t : NamespaceTree) : Nat := t.scopes.length

/-! ## Finding scopes -/

/-- The scope called `name` directly inside `node`. -/
def child? (t : NamespaceTree) (node : Nat) (name : String) : Option Nat :=
  t.scopes.findIdx? fun s => s.parent == some node && s.name == name

def parent? (t : NamespaceTree) (node : Nat) : Option Nat := t.scopes[node]?.bind (·.parent)

/-- The scope at the end of a path that starts in `node`. -/
def pathFrom? (t : NamespaceTree) (node : Nat) : List String → Option Nat
  | [] => some node
  | name :: rest => (t.child? node name).bind fun child => t.pathFrom? child rest

def path? (t : NamespaceTree) (path : List String) : Option Nat := t.pathFrom? root path

/-- The scopes along a path that starts in `node`, as far as they exist. -/
def along (t : NamespaceTree) (node : Nat) : List String → List Nat
  | [] => [node]
  | name :: rest =>
    match t.child? node name with
    | some child => node :: t.along child rest
    | none => [node]

def importsOf (t : NamespaceTree) (node : Nat) : List Nat := t.scopes[node]?.elim [] (·.imports)

def overloadsIn (t : NamespaceTree) (node : Nat) (name : String) : List Key :=
  t.scopes[node]?.elim [] (·.overloads name)

/-! ## Growing the tree -/

/-- The scope called `name` directly inside `node`, created if it is missing.
    The new scope is numbered before it is placed, so `node` may be the number
    that it gets; the scope then lies inside itself, where no path from the
    root leads.  A greater number names nothing that a scope could be placed
    in: it stands for itself and nothing is created. -/
def childOrNew (t : NamespaceTree) (node : Nat) (name : String) : Nat × NamespaceTree :=
  match t.child? node name with
  | some child => (child, t)
  | none =>
    if node ≤ t.size then (t.size, ⟨t.scopes ++ [{ parent := some node, name := name }]⟩)
    else (node, t)

/-- The scope at the end of a path that starts in `node`; what is missing of
    the path is created, outermost first. -/
def pathOrNewFrom (t : NamespaceTree) (node : Nat) : List String → Nat × NamespaceTree
  | [] => (node, t)
  | name :: rest =>
    let (child, t) := t.childOrNew node name
    t.pathOrNewFrom child rest

/-- The scope of a path, created as far as it is missing. -/
def pathOrNew (t : NamespaceTree) (path : List String) : Nat × NamespaceTree :=
  t.pathOrNewFrom root path

/-- Let `node` import `target`, once; both have to exist. -/
def addImport (t : NamespaceTree) (node target : Nat) : NamespaceTree :=
  if target < t.size then ⟨t.scopes.modify node (·.addImport target)⟩ else t

/-- Declare a function in the namespace of a path, which is created as far as
    it is missing. -/
def addFunction (t : NamespaceTree) (path : List String) (name : String) (key : Key) :
    NamespaceTree :=
  let (node, t) := t.pathOrNew path
  ⟨t.scopes.modify node (·.declare name key)⟩

/-- Let the namespace of one path import that of another; both are created as
    far as they are missing. -/
def addUsing (t : NamespaceTree) (path imported : List String) : NamespaceTree :=
  let (node, t) := t.pathOrNew path
  let (target, t) := t.pathOrNew imported
  t.addImport node target

/-! ## Visibility -/

/-- The nodes of `remaining` that can be reached from `pending` along `next`,
    depth first: the next node is the first pending one that remains, and its
    successors come before everything else that is pending.  Each step takes a
    node out of `remaining`, so as many steps as it has elements are enough. -/
def explore (next : Nat → List Nat) : Nat → List Nat → List Nat → List Nat
  | 0, _, _ => []
  | steps + 1, remaining, pending =>
    match pending.find? (· ∈ remaining) with
    | some node => node :: explore next steps (remaining.erase node) (next node ++ pending)
    | none => []

/-- The scopes whose functions can be seen from a path, in the order in which
    they are searched. -/
def inSight (t : NamespaceTree) (path : List String) : List Nat :=
  explore t.importsOf t.size (List.range t.size) (t.along root path)

/-- The functions that can be seen from a path under a simple name, each once,
    in the order in which they are found. -/
def visible (t : NamespaceTree) (path : List String) (name : String) : List Key :=
  ((t.inSight path).flatMap (t.overloadsIn · name)).eraseDups

end NamespaceTree

end MethodResolution
