/-
  Method resolution — keys tell overloads apart.

  A key is what a callable is filed under, and a callable whose key is taken
  already is refused as a duplicate.  Keys of 64 bits cannot all be different.
  But overloads that differ in one place only never share one, whatever the
  digest of their names is: a step of the mix multiplies by an odd number, which
  can be undone modulo 2^64, so it loses neither what was mixed before nor what
  is mixed in.

  * `step_inj_left`, `step_inj_right`: a step loses nothing;
  * `mixFrom_inj`: neither does a whole run of steps, at whatever position it
    starts, the listed ones or those after them;
  * `mix_ne`: so a difference at one position is still there at the end;
  * `tellsApart`: two overloads get different keys if they differ in one
    parameter, or in nothing but const, the owner or the constraint.
-/
import Mathlib.Tactic.Common
import MethodResolution.Callable

namespace MethodResolution

/-- Two lists of one length that differ at one position and nowhere else. -/
def DifferOnce {α : Type} (xs ys : List α) : Prop :=
  xs.length = ys.length ∧ ∃! i : Nat, xs[i]? ≠ ys[i]?

/-- What is before the position and what is after it is common to both. -/
theorem DifferOnce.split {α : Type} {xs ys : List α} (h : DifferOnce xs ys) :
    ∃ before x y after, x ≠ y ∧ xs = before ++ x :: after ∧ ys = before ++ y :: after := by
  obtain ⟨hlength, i, hne, honly⟩ := h
  have hi : i < xs.length := by
    by_contra hout
    rw [List.getElem?_eq_none (by omega), List.getElem?_eq_none (by omega)] at hne
    exact hne rfl
  have hsame : ∀ j, i ≠ j → ys[j]? = xs[j]? :=
    fun j hij => by_contra fun hdiffer => hij (honly j (Ne.symm hdiffer)).symm
  have hset : ys = xs.set i ys[i] := by
    refine List.ext_getElem? fun j => ?_
    rw [List.getElem?_set]
    split_ifs with hij
    · rw [← hij, List.getElem?_eq_getElem]
    · exact hsame j hij
  refine ⟨xs.take i, xs[i], ys[i], xs.drop (i + 1), fun heq => hne ?_, ?_, ?_⟩
  · rw [List.getElem?_eq_getElem hi, heq, ← List.getElem?_eq_getElem]
  · rw [List.getElem_cons_drop, List.take_append_drop]
  · exact hset.trans (by rw [List.set_eq_take_append_cons_drop, if_pos hi])

namespace Key

variable {acc acc' : UInt64} {p q : Key}

/-! ## One step -/

/-- Undoes a multiplication by the odd `separator`. -/
def separatorInverse : UInt64 := 0xd3f20f0a40208825

theorem separator_mul_inverse : separator * separatorInverse = 1 := rfl

theorem mul_separator_inj : acc * separator = acc' * separator ↔ acc = acc' := by
  refine ⟨fun h => ?_, fun h => by rw [h]⟩
  calc acc = acc * separator * separatorInverse := by
        rw [UInt64.mul_assoc, separator_mul_inverse, UInt64.mul_one]
    _ = acc' * separator * separatorInverse := by rw [h]
    _ = acc' := by rw [UInt64.mul_assoc, separator_mul_inverse, UInt64.mul_one]

/-- A step keeps what was mixed before. -/
theorem step_inj_left (x : UInt64) :
    acc * separator + x = acc' * separator + x ↔ acc = acc' := by
  rw [UInt64.add_left_inj, mul_separator_inj]

/-- A step keeps what is mixed in, under any marker. -/
theorem step_inj_right (acc mark : UInt64) :
    acc * separator + (mark ^^^ p.bits) = acc * separator + (mark ^^^ q.bits) ↔ p = q := by
  rw [UInt64.add_right_inj, UInt64.xor_right_inj, Key.mk.injEq]

/-! ## All steps -/

theorem mixFrom_append (i : Nat) (acc : UInt64) (ps qs : List Key) :
    mixFrom i acc (ps ++ qs) = mixFrom (i + ps.length) (mixFrom i acc ps) qs := by
  induction ps generalizing i acc with
  | nil => rfl
  | cons p ps ih =>
    rw [List.cons_append, mixFrom, ih, mixFrom, List.length_cons, Nat.add_comm ps.length,
      Nat.add_assoc]

/-- Mixing the same parameters into different words leaves them different. -/
theorem mixFrom_inj (i : Nat) (ps : List Key) :
    mixFrom i acc ps = mixFrom i acc' ps ↔ acc = acc' := by
  induction ps generalizing i acc acc' with
  | nil => rfl
  | cons p ps ih => rw [mixFrom, mixFrom, ih, step_inj_left]

/-- **A difference at one position is never mixed away.** -/
theorem mix_ne (acc : UInt64) (before after : List Key) (h : p ≠ q) :
    mix acc (before ++ p :: after) ≠ mix acc (before ++ q :: after) := by
  intro heq
  rw [mix, mix, mixFrom_append, mixFrom_append, mixFrom, mixFrom, mixFrom_inj,
    step_inj_right] at heq
  exact h heq

end Key

namespace Callable

variable {a b : Callable} {digest : Digest} {o o' : Key}

theorem computeKey_member (h : a.owner = some o) :
    a.computeKey digest =
      Key.ofMember o a.simpleName (a.paramSignatures digest) a.isConst digest := by
  rw [computeKey, h]

theorem computeKey_free (h : a.owner = none) :
    a.computeKey digest =
      Key.ofFunction a.name.text (a.paramSignatures digest ++ a.constraint.toList) digest := by
  rw [computeKey, h]

/-- The keys made of `digest` tell overloads apart that differ in one place. -/
structure TellsApart (digest : Digest) : Prop where
  /-- Overloads of one name, owner, const and constraint. -/
  param : ∀ a b : Callable, a.name = b.name → a.owner = b.owner → a.isConst = b.isConst →
    a.constraint = b.constraint →
    DifferOnce (a.paramSignatures digest) (b.paramSignatures digest) →
    a.computeKey digest ≠ b.computeKey digest
  /-- Members of one class. -/
  const : ∀ (o : Key) (a b : Callable), a.owner = some o → b.owner = some o →
    a.name = b.name → a.paramSignatures digest = b.paramSignatures digest →
    a.isConst ≠ b.isConst → a.computeKey digest ≠ b.computeKey digest
  /-- Members of two classes. -/
  owner : ∀ (o o' : Key) (a b : Callable), a.owner = some o → b.owner = some o' → o ≠ o' →
    a.name = b.name → a.paramSignatures digest = b.paramSignatures digest →
    a.isConst = b.isConst → a.computeKey digest ≠ b.computeKey digest
  /-- Free functions that carry a constraint each. -/
  constraint : ∀ (k k' : Key) (a b : Callable), a.owner = none → b.owner = none →
    a.name = b.name → a.paramSignatures digest = b.paramSignatures digest →
    a.constraint = some k → b.constraint = some k' → k ≠ k' →
    a.computeKey digest ≠ b.computeKey digest

/-- One parameter of any number, at any position. -/
theorem computeKey_ne_of_param (hname : a.name = b.name) (howner : a.owner = b.owner)
    (hconst : a.isConst = b.isConst) (hconstraint : a.constraint = b.constraint)
    (h : DifferOnce (a.paramSignatures digest) (b.paramSignatures digest)) :
    a.computeKey digest ≠ b.computeKey digest := by
  obtain ⟨before, p, q, after, hne, ha, hb⟩ := h.split
  cases ho : a.owner with
  | some o =>
    rw [computeKey_member ho, computeKey_member (howner ▸ ho), ha, hb, simpleName, simpleName,
      hname, hconst, Key.ofMember, Key.ofMember, Ne, Key.mk.injEq]
    exact Key.mix_ne _ before after hne
  | none =>
    rw [computeKey_free ho, computeKey_free (howner ▸ ho), ha, hb, hname, hconstraint,
      List.append_assoc, List.append_assoc, List.cons_append, List.cons_append, Key.ofFunction,
      Key.ofFunction, Ne, Key.mk.injEq]
    exact Key.mix_ne _ before (after ++ b.constraint.toList) hne

/-- For members of one name and one parameter list, all depends on the word that
    the parameters are mixed into. -/
theorem computeKey_eq_iff_of_members (ha : a.owner = some o) (hb : b.owner = some o')
    (hname : a.name = b.name) (hparams : a.paramSignatures digest = b.paramSignatures digest) :
    a.computeKey digest = b.computeKey digest ↔
      Key.memberMark ^^^ o.bits ^^^ digest (Key.utf8 b.simpleName) ^^^
          (if a.isConst then 1 else 0) =
        Key.memberMark ^^^ o'.bits ^^^ digest (Key.utf8 b.simpleName) ^^^
          if b.isConst then 1 else 0 := by
  rw [computeKey_member ha, computeKey_member hb, hparams, simpleName, hname, ← simpleName,
    Key.ofMember, Key.ofMember, Key.mk.injEq, Key.mix, Key.mix, Key.mixFrom_inj]

/-- **Overloads that differ in one place have different keys**, whatever the
    digest. -/
theorem tellsApart (digest : Digest) : TellsApart digest where
  param _ _ hname howner hconst hconstraint h :=
    computeKey_ne_of_param hname howner hconst hconstraint h
  const o a b ha hb hname hparams hconst := by
    rw [Ne, computeKey_eq_iff_of_members ha hb hname hparams, UInt64.xor_right_inj]
    cases hac : a.isConst <;> cases hbc : b.isConst <;> simp_all
  owner o o' a b ha hb ho hname hparams hconst := by
    rw [Ne, computeKey_eq_iff_of_members ha hb hname hparams, hconst, UInt64.xor_left_inj,
      UInt64.xor_left_inj, UInt64.xor_right_inj]
    exact fun hbits => ho (congrArg Key.mk hbits)
  constraint k k' a b ha hb hname hparams hak hbk hk := by
    rw [computeKey_free ha, computeKey_free hb, hname, hparams, hak, hbk, Key.ofFunction,
      Key.ofFunction, Ne, Key.mk.injEq]
    exact Key.mix_ne _ _ [] hk

end Callable

end MethodResolution
