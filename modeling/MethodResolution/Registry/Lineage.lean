/-
  Method resolution — base classes.

  * `chain k`: the class `k` and its bases, most derived first, up to a class
    whose base is missing or not registered;
  * `derivesFrom d b`: `d` is `b` or has it on its chain;
  * `membersNamed k name`: the members that a use of `name` on `k` means, which
    are those of the first class on the chain that declares the name.  A class
    hides the equally named members of its bases, whatever their parameters.

  A base may be registered after the classes that name it, so the chain is no
  structural recursion.  The walk takes one step more than there are types:
  registration refuses a class that would come to stand on its own chain, so a
  chain never repeats a class and is not longer than that.
-/
import MethodResolution.Registry.Basic

namespace MethodResolution

namespace Registry

def base? (r : Registry) (k : Key) : Option Key := (r.class? k).bind (·.base)

/-- The key `k` and the bases above it, at most `steps` keys in all. -/
def basesFrom (r : Registry) : Nat → Key → List Key
  | 0, _ => []
  | steps + 1, k => k :: (r.base? k).elim [] (r.basesFrom steps)

/-- The key `k` and every base above it; the last one may be unregistered. -/
def lineage (r : Registry) (k : Key) : List Key := r.basesFrom (r.types.size + 1) k

/-- The class `k` and its registered bases, most derived first. -/
def chain (r : Registry) (k : Key) : List Class := (r.lineage k).filterMap r.class?

def derivesFrom (r : Registry) (derived base : Key) : Bool :=
  derived == base || (r.chain derived).any (·.key == base)

/-- The class whose members of a name are meant on the class `k`. -/
def declaring? (r : Registry) (k : Key) (name : String) : Option Class :=
  (r.chain k).find? (·.declares name)

/-- The members that a name means on the class `k`. -/
def membersNamed (r : Registry) (k : Key) (name : String) : List Callable :=
  (r.declaring? k name).elim [] (·.methodsNamed name)

end Registry

end MethodResolution
