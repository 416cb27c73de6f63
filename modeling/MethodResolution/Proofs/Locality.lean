/-
  Method resolution — what an answer looks at.

  Registries that agree on some of their tables agree on every answer that
  looks at no other one.

  * By the types alone go base chains, members, access, conversions, matching,
    ranked members and every text of a diagnostic.  Base chains go by the base
    of each class, and matching goes by conversions.
  * The ranking of extensions looks at the constraints and at nothing else.
  * What a constraint requires of a type is judged by types, constraints and
    visible free functions (`conceptHolds_congr`); nothing but the evaluation
    itself looks at the policy.
-/
import MethodResolution.Resolution

namespace MethodResolution

namespace Registry

variable {r r' : Registry}

/-! ## Answers by other answers -/

theorem basesFrom_congr (h : r.base? = r'.base?) (steps : Nat) :
    r.basesFrom steps = r'.basesFrom steps := by
  induction steps with
  | zero => rfl
  | succ steps ih =>
    funext k
    rw [basesFrom, basesFrom, ih, h]

section
variable (h : r.conversion? = r'.conversion?)
include h

theorem convertArgs_of_conversion? (params : List Param) (args : List DataType) :
    r.convertArgs params args = r'.convertArgs params args := by
  induction params generalizing args with
  | nil => cases args <;> rfl
  | cons p params ih =>
    cases args with
    | nil => rw [convertArgs, convertArgs, ih]
    | cons a args => rw [convertArgs, convertArgs, ih, h]

theorem matchArgs?_of_conversion? : r.matchArgs? = r'.matchArgs? := by
  funext params args
  unfold matchArgs?
  rw [convertArgs_of_conversion? h]

theorem matchMember?_of_conversion? : r.matchMember? = r'.matchMember? := by
  funext c receiver args
  unfold matchMember?
  rw [matchArgs?_of_conversion? h]

end

/-! ## Answers by the types -/

section
variable (h : r.types = r'.types)
include h

theorem class?_congr : r.class? = r'.class? := by
  funext k
  unfold class?
  rw [h]

theorem base?_congr : r.base? = r'.base? := by
  funext k
  unfold base?
  rw [class?_congr h]

theorem lineage_congr : r.lineage = r'.lineage := by
  funext k
  rw [lineage, lineage, basesFrom_congr (base?_congr h), h]

theorem chain_congr : r.chain = r'.chain := by
  funext k
  rw [chain, chain, lineage_congr h, class?_congr h]

theorem derivesFrom_congr : r.derivesFrom = r'.derivesFrom := by
  funext derived base
  unfold derivesFrom
  rw [chain_congr h]

theorem membersNamed_congr : r.membersNamed = r'.membersNamed := by
  funext k name
  unfold membersNamed declaring?
  rw [chain_congr h]

theorem conversion?_congr : r.conversion? = r'.conversion? := by
  funext source target
  simp only [conversion?, conversionToBase?, class?_congr h, derivesFrom_congr h]

theorem matchMember?_congr : r.matchMember? = r'.matchMember? :=
  matchMember?_of_conversion? (conversion?_congr h)

theorem matchFree?_congr : r.matchFree? = r'.matchFree? := by
  funext c receiver args
  simp only [matchFree?, matchReceiver?, matchArgs?_of_conversion? (conversion?_congr h),
    conversion?_congr h]

theorem access_congr : r.access = r'.access := by
  funext tier c caller
  cases tier with
  | member => simp only [access, memberAccess, derivesFrom_congr h]
  | extension => rfl

theorem memberCandidates_congr : r.memberCandidates = r'.memberCandidates := by
  funext receiver name args caller
  unfold memberCandidates
  rw [membersNamed_congr h, matchMember?_congr h, access_congr h]

theorem freeCandidates_congr : r.freeCandidates = r'.freeCandidates := by
  funext cs receiver args caller
  unfold freeCandidates
  rw [matchFree?_congr h, access_congr h]

theorem gatherMembers_congr : r.gatherMembers = r'.gatherMembers := by
  funext call
  unfold gatherMembers
  rw [memberCandidates_congr h]

theorem typeName_congr : r.typeName = r'.typeName := by
  funext k
  unfold typeName
  rw [h]

theorem dataTypeText_congr : r.dataTypeText = r'.dataTypeText := by
  funext d
  unfold dataTypeText
  rw [typeName_congr h]

theorem signatureText_congr : r.signatureText = r'.signatureText := by
  funext c
  simp only [signatureText, dataTypeText_congr h, typeName_congr h]

theorem summarize_congr : r.summarize = r'.summarize := by
  funext call
  unfold summarize
  rw [dataTypeText_congr h]

theorem candidateInfo_congr : r.candidateInfo = r'.candidateInfo := by
  funext c
  unfold candidateInfo
  rw [signatureText_congr h]

theorem chosenMeets_congr : r.chosenMeets = r'.chosenMeets := by
  funext q k chosen
  unfold chosenMeets
  rw [conversion?_congr h]

end

/-! ## Answers by the constraints -/

section
variable (h : r.concepts = r'.concepts)
include h

theorem concept?_congr : r.concept? = r'.concept? := by
  funext k
  unfold concept?
  rw [h]

theorem requirements_congr : r.requirements = r'.requirements := by
  funext k
  unfold requirements
  rw [concept?_congr h]

theorem conceptText_congr : r.conceptText = r'.conceptText := by
  funext k
  unfold conceptText
  rw [concept?_congr h]

theorem subsumes_congr : r.subsumes = r'.subsumes := by
  funext a b
  unfold subsumes
  rw [requirements_congr h]

theorem compareCandidates_congr : r.compareCandidates = r'.compareCandidates := by
  have hconstraints : r.compareConstraints = r'.compareConstraints := by
    funext a b
    cases a <;> cases b <;> simp only [compareConstraints, subsumes_congr h]
  funext receiver a b
  simp only [compareCandidates, hconstraints]

theorem selectBest_congr : r.selectBest = r'.selectBest := by
  funext receiver cs
  unfold selectBest
  rw [compareCandidates_congr h]

end

/-! ## Answers by several tables -/

theorem bind_congr (h : r.policy.convention = r'.policy.convention) : r.bind = r'.bind := by
  funext c call
  cases htier : c.tier <;> simp only [bind, htier, h]

theorem verdict_congr (ht : r.types = r'.types) (hc : r.concepts = r'.concepts)
    (hp : r.policy.convention = r'.policy.convention) : r.verdict = r'.verdict := by
  funext call tier cs
  simp only [verdict, selectBest_congr hc, summarize_congr ht, candidateInfo_congr ht,
    bind_congr hp]

theorem extensionCandidates_congr (ht : r.types = r'.types)
    (hv : r.visibleFunctions = r'.visibleFunctions) :
    r.extensionCandidates = r'.extensionCandidates := by
  funext call
  unfold extensionCandidates
  rw [freeCandidates_congr ht, hv]

theorem candidatesMeet_congr (ht : r.types = r'.types) (hc : r.concepts = r'.concepts) :
    r.candidatesMeet = r'.candidatesMeet := by
  funext q k cs
  unfold candidatesMeet
  rw [selectBest_congr hc, chosenMeets_congr ht]

end Registry

end MethodResolution
