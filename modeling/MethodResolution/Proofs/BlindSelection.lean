/-
  Method resolution — selection without access.

  Whether a call may use a member is judged after the member was selected.  So
  calls that differ only in where they stand select the same member; and they
  still do if the members are declared with other visibilities, or deleted.

  * `Registry.opened`: the registry with all members open to everyone.  Two
    registries differ only in who may use their members if they are the same
    when opened;
  * `membersNamed_opened`, `conversion?_opened`: opening changes neither which
    members a name means nor how arguments convert;
  * `SameMember`: the members stand in the same place of both registries;
  * `gatherMembers_sameCandidate`: the members that fit are the same;
  * `SelectsAlike`: so either one member is selected in both, and access alone
    decides what becomes of the call, or the same members tie in both;
  * `resolve_selectsAlike`: calls that fit a member resolve so.
-/
import MethodResolution.Proofs.Locality
import MethodResolution.Proofs.Registration
import MethodResolution.Proofs.TwoTiers

namespace MethodResolution

/-! ## Opening all members -/

namespace Table

variable {α β : Type}

/-- Change all values. -/
def map (f : β → β) (t : Table α β) : Table α β := ⟨t.entries.map fun e => (e.1, f e.2)⟩

theorem get?_map [DecidableEq α] (f : β → β) (t : Table α β) (k : α) :
    (t.map f).get? k = (t.get? k).map f := by
  obtain ⟨es⟩ := t
  simp only [get?, map]
  induction es with
  | nil => rfl
  | cons e es ih =>
    rw [List.map_cons, find, find, ih]
    split_ifs
    · rfl
    · rfl

end Table

/-- The member as if it were public and not deleted. -/
def Callable.opened (c : Callable) : Callable :=
  { c with visibility := .public, isDeleted := false }

def Class.opened (c : Class) : Class := { c with methods := c.methods.map (·.opened) }

/-- The call at another place. -/
def CallSite.elsewhere (call : CallSite) (path : List String) (caller : Option Key) (span : Span) :
    CallSite :=
  { call with path, caller, span }

namespace Class

theorem methodsNamed_opened (c : Class) (name : String) :
    c.opened.methodsNamed name = (c.methodsNamed name).map (·.opened) := by
  rw [methodsNamed, methodsNamed, opened, List.filter_map]
  rfl

theorem declares_opened (c : Class) (name : String) : c.opened.declares name = c.declares name := by
  rw [declares, declares, opened, List.any_map]
  rfl

end Class

namespace Registry

variable {r r' : Registry}

/-- The registry with all members open to everyone. -/
def opened (r : Registry) : Registry := { r with types := r.types.map (·.mapClass (·.opened)) }

theorem class?_opened (k : Key) : r.opened.class? k = (r.class? k).map (·.opened) := by
  rw [class?, class?, opened, Table.get?_map]
  cases r.types.get? k with
  | none => rfl
  | some entry => exact TypeEntry.class?_mapClass _ entry

theorem lineage_opened : r.opened.lineage = r.lineage := by
  have hbase : r.opened.base? = r.base? := by
    funext k
    rw [base?, base?, class?_opened]
    cases r.class? k with
    | none => rfl
    | some c => rfl
  have hsize : r.opened.types.size = r.types.size := List.length_map _
  funext k
  rw [lineage, lineage, basesFrom_congr hbase, hsize]

theorem chain_opened (k : Key) : r.opened.chain k = (r.chain k).map (·.opened) := by
  rw [chain, chain, lineage_opened, List.map_filterMap]
  exact List.filterMap_congr fun k _ => class?_opened k

theorem membersNamed_opened (k : Key) (name : String) :
    r.opened.membersNamed k name = (r.membersNamed k name).map (·.opened) := by
  have hdeclares : (·.declares name) ∘ Class.opened = (·.declares name) :=
    funext fun c : Class => c.declares_opened name
  rw [membersNamed, membersNamed, declaring?, declaring?, chain_opened, List.find?_map, hdeclares]
  cases (r.chain k).find? (·.declares name) with
  | none => rfl
  | some c => exact c.methodsNamed_opened name

theorem conversion?_opened : r.opened.conversion? = r.conversion? := by
  have hderives : r.opened.derivesFrom = r.derivesFrom := by
    funext derived base
    rw [derivesFrom, derivesFrom, chain_opened, List.any_map]
    rfl
  funext source target
  simp only [conversion?, conversionToBase?, class?_opened, hderives, Option.isSome_map]

/-! ## Members of two registries -/

/-- The members stand in the same place among those of a name, and are the same
    but for who may use them. -/
structure SameMember (r r' : Registry) (k : Key) (name : String) (m m' : Callable) : Prop where
  place : ∃ i : Nat, (r.membersNamed k name)[i]? = some m ∧ (r'.membersNamed k name)[i]? = some m'
  opened_eq : m.opened = m'.opened

/-- Within one registry, this is one member. -/
theorem SameMember.eq {k : Key} {name : String} {m m' : Callable}
    (h : SameMember r r k name m m') : m = m' := by
  obtain ⟨i, hm, hm'⟩ := h.place
  rw [hm] at hm'
  exact Option.some.inj hm'

theorem forall₂_sameMember (h : r.opened = r'.opened) (k : Key) (name : String) :
    List.Forall₂ (SameMember r r' k name) (r.membersNamed k name) (r'.membersNamed k name) := by
  have hopened : (r.membersNamed k name).map (·.opened) =
      (r'.membersNamed k name).map (·.opened) := by
    rw [← membersNamed_opened, h, membersNamed_opened]
  have hlength := congrArg List.length hopened
  rw [List.length_map, List.length_map] at hlength
  refine List.forall₂_iff_get.2 ⟨hlength, fun i hi hi' => ⟨⟨i, ?_, ?_⟩, ?_⟩⟩
  · exact List.getElem?_eq_getElem hi
  · exact List.getElem?_eq_getElem hi'
  · have hget := congrArg (·[i]?) hopened
    simpa [hi, hi'] using hget

/-! ## Candidates of two calls -/

/-- The member as a candidate of the call. -/
def memberCandidate (r : Registry) (call : CallSite) (m : Callable) (fit : Match) : Candidate :=
  ⟨m, .member, fit, r.memberAccess m call.caller⟩

/-- The candidates are the same member, and the calls fit it alike. -/
inductive SameCandidate (r r' : Registry) (call call' : CallSite) : Candidate → Candidate → Prop
  | of {m m' fit} : SameMember r r' call.receiver.type call.name m m' →
      SameCandidate r r' call call' (r.memberCandidate call m fit) (r'.memberCandidate call' m' fit)

section
variable (h : r.opened = r'.opened) (call : CallSite) (path : List String) (caller : Option Key)
  (span : Span)
include h

/-- The members that fit are the same in both registries, in the same order. -/
theorem gatherMembers_sameCandidate :
    List.Forall₂ (SameCandidate r r' call (call.elsewhere path caller span)) (r.gatherMembers call)
      (r'.gatherMembers (call.elsewhere path caller span)) := by
  have hconversion : r.conversion? = r'.conversion? := by
    rw [← conversion?_opened, h, conversion?_opened]
  have hmatch : ∀ m m' : Callable, m.opened = m'.opened →
      r.matchMember? m call.receiver call.args = r'.matchMember? m' call.receiver call.args := by
    intro m m' hm
    calc r.matchMember? m call.receiver call.args
        = r.matchMember? m.opened call.receiver call.args := rfl
      _ = r'.matchMember? m'.opened call.receiver call.args := by
          rw [hm, matchMember?_of_conversion? hconversion]
      _ = r'.matchMember? m' call.receiver call.args := rfl
  refine List.rel_filterMap (fun m m' hm => ?_) (forall₂_sameMember h _ _)
  show Option.Rel _ ((r.matchMember? m call.receiver call.args).map _)
    ((r'.matchMember? m' call.receiver call.args).map _)
  rw [hmatch m m' hm.opened_eq]
  cases r'.matchMember? m' call.receiver call.args with
  | none => exact .none
  | some fit => exact .some (.of hm)

omit h in
theorem SameCandidate.compare_eq {call call' : CallSite} {a b a' b' : Candidate}
    (hab : SameCandidate r r' call call' a b) (hab' : SameCandidate r r' call call' a' b')
    (receiver : DataType) :
    r.compareCandidates receiver a a' = r'.compareCandidates receiver b b' := by
  obtain ⟨hm⟩ := hab
  obtain ⟨hm'⟩ := hab'
  have hconst := congrArg Callable.isConst hm.opened_eq
  have hconst' := congrArg Callable.isConst hm'.opened_eq
  dsimp only [Callable.opened] at hconst hconst'
  simp only [compareCandidates, memberCandidate, hconst, hconst']

/-- The same candidates are selected. -/
theorem selectBest_sameCandidate :
    Option.Rel (Selection.Rel (SameCandidate r r' call (call.elsewhere path caller span)))
      (r.selectBest call.receiver (r.gatherMembers call))
      (r'.selectBest (call.elsewhere path caller span).receiver
        (r'.gatherMembers (call.elsewhere path caller span))) :=
  Selection.best_rel (fun _ _ hab _ _ hab' => hab.compare_eq hab' _)
    (gatherMembers_sameCandidate h call path caller span)

end

/-- The calls are bound to the same member in the same way. -/
theorem bind_eq_of_sameMember {call : CallSite} {path : List String} {caller : Option Key}
    {span : Span} {k : Key} {name : String} {m m' : Callable} (hm : SameMember r r' k name m m')
    {fit : Match} :
    r.bind (r.memberCandidate call m fit) call =
      r'.bind (r'.memberCandidate (call.elsewhere path caller span) m' fit)
        (call.elsewhere path caller span) := by
  have hkey := congrArg Callable.key hm.opened_eq
  have hvirtual := congrArg Callable.isVirtual hm.opened_eq
  dsimp only [Callable.opened] at hkey hvirtual
  have hdispatch : Dispatch.of m call.receiver = .of m' call.receiver := by
    rw [Dispatch.of, Dispatch.of, hvirtual]
  simp only [bind, memberCandidate, Candidate.key, CallSite.elsewhere, hkey, hdispatch]

/-! ## Outcomes -/

/-- What becomes of a call that selects the member `m` and would be bound to it
    as `bound`: it is bound, or reported with the verdict on access. -/
def guarded (r : Registry) (call : CallSite) (m : Callable) (bound : BoundCall) : Resolution :=
  let access := r.memberAccess m call.caller
  if access.isAccessible then .ok bound
  else
    .error ⟨r.summarize call,
      .selectedButInaccessible ⟨m.key, r.signatureText m, .member, access⟩ access⟩

/-- How calls resolve that differ only in where they stand, and in who may use
    the members. -/
inductive SelectsAlike (r r' : Registry) (call call' : CallSite) : Resolution → Resolution → Prop
  /-- One member is the best in both, and both would be bound to it in the same
      way. -/
  | selected {m m' : Callable} {fit : Match} {bound : BoundCall} :
      SameMember r r' call.receiver.type call.name m m' →
      r.Best call (r.gatherMembers call) (r.memberCandidate call m fit) →
      r'.Best call' (r'.gatherMembers call') (r'.memberCandidate call' m' fit) →
      r.bind (r.memberCandidate call m fit) call = bound →
      r'.bind (r'.memberCandidate call' m' fit) call' = bound →
      SelectsAlike r r' call call' (r.guarded call m bound) (r'.guarded call' m' bound)
  /-- None is the best, and the same members tie in both. -/
  | tied {cs cs' : List Candidate} :
      (¬ ∃ c, r.Best call (r.gatherMembers call) c) →
      (¬ ∃ c, r'.Best call' (r'.gatherMembers call') c) →
      cs ≠ [] → cs ⊆ r.gatherMembers call →
      List.Forall₂ (SameCandidate r r' call call') cs cs' →
      SelectsAlike r r' call call'
        (.error ⟨r.summarize call, .ambiguousCandidates .member (cs.map r.candidateInfo)⟩)
        (.error ⟨r'.summarize call', .ambiguousCandidates .member (cs'.map r'.candidateInfo)⟩)

theorem verdict_of_member {call : CallSite} {cs : List Candidate} {m : Callable} {fit : Match}
    (h : r.selectBest call.receiver cs = some (.unique (r.memberCandidate call m fit))) :
    r.verdict call .member cs =
      r.guarded call m (r.bind (r.memberCandidate call m fit) call) := by
  rw [verdict_of_unique h]
  rfl

/-- **Access takes no part in the selection of members.**  Of two calls with the
    same receiver, name and arguments that fit a member, wherever they stand and
    however the members are declared open, hidden or deleted, both select the
    same member, and access alone decides whether it is bound; or the same
    members tie in both. -/
theorem resolve_selectsAlike (r r' : Registry) (call : CallSite) (path : List String)
    (caller : Option Key) (span : Span) (memo memo' : Memo) (h : r.opened = r'.opened)
    (hmembers : r.gatherMembers call ≠ []) :
    r.SelectsAlike r' call (call.elsewhere path caller span) (r.resolve call memo).1
      (r'.resolve (call.elsewhere path caller span) memo').1 := by
  have hmembers' : r'.gatherMembers (call.elsewhere path caller span) ≠ [] := by
    intro hnil
    have hsame := gatherMembers_sameCandidate h call path caller span
    rw [hnil, List.forall₂_nil_right_iff] at hsame
    exact hmembers hsame
  rw [resolve_of_members hmembers, resolve_of_members hmembers']
  have hselect := selectBest_sameCandidate h call path caller span
  generalize hbest : r.selectBest call.receiver (r.gatherMembers call) = s at hselect
  generalize hbest' : r'.selectBest (call.elsewhere path caller span).receiver
    (r'.gatherMembers (call.elsewhere path caller span)) = s' at hselect
  cases hselect with
  | none => exact absurd ((selectBest_eq_none_iff _).1 hbest) hmembers
  | some hselected =>
    cases hselected with
    | unique hc =>
      obtain @⟨m, m', fit, hm⟩ := hc
      rw [verdict_of_member hbest, verdict_of_member hbest', ← bind_eq_of_sameMember hm]
      exact .selected hm ((selectBest_eq_unique_iff tier_of_mem_gatherMembers).1 hbest)
        ((selectBest_eq_unique_iff tier_of_mem_gatherMembers).1 hbest') rfl
        (bind_eq_of_sameMember hm).symm
    | ambiguous hfront htied =>
      rw [verdict_of_ambiguous hbest, verdict_of_ambiguous hbest']
      have hnone := ((selectBest_eq_ambiguous_iff tier_of_mem_gatherMembers).1 ⟨_, _, hbest⟩).2
      have hnone' := ((selectBest_eq_ambiguous_iff tier_of_mem_gatherMembers).1 ⟨_, _, hbest'⟩).2
      exact .tied hnone hnone' (List.cons_ne_nil _ _) (Selection.mem_of_best_eq_some hbest)
        (.cons hfront htied)

/-- Two overloads, of which one may be hidden or deleted. -/
def haltingThings (visibility : Visibility) (isDeleted : Bool) : Registry :=
  (Registry.initial {}).after
    [.primitives, .ofClass { name := .global "Thing", key := ⟨1⟩ },
      .member ⟨1⟩ { Callable.member ⟨1⟩ "halt" with
        params := [⟨.ofKey Primitive.int32.key, false⟩], visibility, isDeleted },
      .member ⟨1⟩ { Callable.member ⟨1⟩ "halt" with
        params := [⟨.ofKey Primitive.double.key, false⟩] }]

/-- A call inside of the class. -/
def haltCall : CallSite :=
  { receiver := .ofKey ⟨1⟩, name := "halt", args := [.ofKey Primitive.int32.key],
    caller := some ⟨1⟩ }

theorem resolve_haltCall_selectsAlike :
    (haltingThings .private false).opened = (haltingThings .public true).opened ∧
      (haltingThings .private false).gatherMembers haltCall ≠ [] ∧
      (haltingThings .private false).SelectsAlike (haltingThings .public true) haltCall
        (haltCall.elsewhere ["lib"] none {})
        ((haltingThings .private false).resolve haltCall ∅).1
        ((haltingThings .public true).resolve (haltCall.elsewhere ["lib"] none {}) ∅).1 := by
  have hopened : (haltingThings .private false).opened = (haltingThings .public true).opened := by
    decide +kernel
  have hmembers : (haltingThings .private false).gatherMembers haltCall ≠ [] := by decide +kernel
  exact ⟨hopened, hmembers, resolve_selectsAlike _ _ _ _ _ _ ∅ ∅ hopened hmembers⟩

end Registry

end MethodResolution
