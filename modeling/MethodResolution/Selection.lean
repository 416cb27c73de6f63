/-
  Method resolution — selecting the best of a list.

  Given a comparison, the best of a list is the one that compares strictly
  better than the element at every other position.  The comparison need not be
  transitive, so the list is scanned once for a front-runner (`lead`), which
  is then held against all others (`best`).
-/

namespace MethodResolution

/-- The outcome of selecting from a list that is not empty. -/
inductive Selection (α : Type) where
  | unique (chosen : α)
  /-- The front-runner, and the others that it does not beat. -/
  | ambiguous (front : α) (tied : List α)
  deriving DecidableEq, Repr

namespace Selection

variable {α β : Type}

/-- All that were selected, the front-runner first. -/
def toList : Selection α → List α
  | unique chosen => [chosen]
  | ambiguous front tied => front :: tied

def map (f : α → β) : Selection α → Selection β
  | unique chosen => unique (f chosen)
  | ambiguous front tied => ambiguous (f front) (tied.map f)

/-- The front-runner of a scan that has come as far as `front`, with the
    elements `before` and `after` it behind, and the elements at all other
    positions in list order.  A later element takes the lead by comparing
    strictly better. -/
def scan (cmp : α → α → Ordering) (before : List α) (front : α) (after : List α) :
    List α → α × List α
  | [] => (front, before ++ after)
  | x :: rest =>
    if cmp x front = .lt then scan cmp (before ++ front :: after) x [] rest
    else scan cmp before front (after ++ [x]) rest

/-- The front-runner of a list, and the elements at all other positions. -/
def lead (cmp : α → α → Ordering) : List α → Option (α × List α)
  | [] => none
  | x :: rest => some (scan cmp [] x [] rest)

/-- Select the best of a list: the front-runner, if it beats all others. -/
def best (cmp : α → α → Ordering) (xs : List α) : Option (Selection α) :=
  (lead cmp xs).map fun (front, others) =>
    match others.filter fun x => cmp front x ≠ .lt with
    | [] => unique front
    | tied => ambiguous front tied

end Selection

end MethodResolution
