import Mathlib.Data.Sign.Defs
import Steel.Permission.PermissionSet

/-! # The logic of permission expressions

A denial is less than no answer, and that is less than a permission. With this order conjunctions
are minima and disjunctions are maxima, however their operands are nested.
-/

namespace Steel

namespace PermissionState

/-- An answer as a sign: a denial is negative, a permission is positive. -/
def sign : Option PermissionState → SignType
  | some deny => -1
  | none => 0
  | some allow => 1

theorem sign_injective : Function.Injective sign := by
  rintro (_ | _ | _) (_ | _ | _) h
  all_goals first | rfl | cases h

def conj : Option PermissionState → Option PermissionState → Option PermissionState
  | some deny, _ => some deny
  | _, some deny => some deny
  | some allow, some allow => some allow
  | _, _ => none

def disj : Option PermissionState → Option PermissionState → Option PermissionState
  | some allow, _ => some allow
  | _, some allow => some allow
  | some deny, some deny => some deny
  | _, _ => none

variable (a b : Option PermissionState)

theorem sign_conj : sign (conj a b) = min (sign a) (sign b) := by
  rcases a with _ | _ | _ <;> rcases b with _ | _ | _ <;> rfl

theorem sign_disj : sign (disj a b) = max (sign a) (sign b) := by
  rcases a with _ | _ | _ <;> rcases b with _ | _ | _ <;> rfl

end PermissionState

namespace PermissionExpr

def conjuncts : PermissionExpr → List PermissionExpr
  | all children => children
  | expr => [expr]

def disjuncts : PermissionExpr → List PermissionExpr
  | any children => children
  | expr => [expr]

theorem and_eq (a b : PermissionExpr) : a.and b = all (a.conjuncts ++ b.conjuncts) := by
  cases a <;> cases b <;> rfl

theorem or_eq (a b : PermissionExpr) : a.or b = any (a.disjuncts ++ b.disjuncts) := by
  cases a <;> cases b <;> rfl

end PermissionExpr

namespace PermissionSet

open PermissionState
open SignType (le_one neg_one_le)

variable (set : PermissionSet) (context : PermissionContext)

def signIn (expr : PermissionExpr) : SignType := sign (set.resolveIn context expr)

variable (children : List PermissionExpr)

def meetIn : SignType :=
  (children.map (set.signIn context)).foldr min 1

def joinIn : SignType :=
  (children.map (set.signIn context)).foldr max (-1)

variable (child : PermissionExpr)

theorem meetIn_cons : set.meetIn context (child :: children) =
      min (set.signIn context child) (set.meetIn context children) := rfl

theorem joinIn_cons : set.joinIn context (child :: children) =
      max (set.signIn context child) (set.joinIn context children) := rfl

variable (children children' : List PermissionExpr)

theorem meetIn_append : set.meetIn context (children ++ children') =
      min (set.meetIn context children) (set.meetIn context children') := by
  induction children with
  | nil => exact (min_eq_right (le_one _)).symm
  | cons child children ih => rw [List.cons_append, meetIn_cons, meetIn_cons, ih, min_assoc]

theorem joinIn_append : set.joinIn context (children ++ children') =
      max (set.joinIn context children) (set.joinIn context children') := by
  induction children with
  | nil => exact (max_eq_right (neg_one_le _)).symm
  | cons child children ih => rw [List.cons_append, joinIn_cons, joinIn_cons, ih, max_assoc]

theorem sign_resolveAll (sawUnset : Bool) (children : List PermissionExpr) :
    sign (set.resolveAll context sawUnset children) =
      min (if sawUnset then 0 else 1) (set.meetIn context children) := by
  induction children generalizing sawUnset with
  | nil => cases sawUnset <;> rfl
  | cons child children ih =>
    rw [resolveAll, meetIn_cons, signIn]
    split
    · rename_i hchild
      rw [ih, hchild, sign, min_eq_right (le_one _)]
    · rename_i hchild
      rw [hchild, sign, min_eq_left (neg_one_le _), min_eq_right (neg_one_le _)]
    · rename_i hchild
      rw [ih, hchild, sign, if_pos rfl, ← min_assoc]
      congr 1
      cases sawUnset <;> rfl

theorem sign_resolveAny (sawUnset : Bool) (children : List PermissionExpr) :
    sign (set.resolveAny context sawUnset children) =
      max (if sawUnset then 0 else -1) (set.joinIn context children) := by
  induction children generalizing sawUnset with
  | nil => cases sawUnset <;> rfl
  | cons child children ih =>
    rw [resolveAny, joinIn_cons, signIn]
    split
    · rename_i hchild
      rw [hchild, sign, max_eq_left (le_one _), max_eq_right (le_one _)]
    · rename_i hchild
      rw [ih, hchild, sign, max_eq_right (neg_one_le _)]
    · rename_i hchild
      rw [ih, hchild, sign, if_pos rfl, ← max_assoc]
      congr 1
      cases sawUnset <;> rfl

theorem signIn_all : set.signIn context (.all children) = set.meetIn context children := by
  rw [signIn, resolveIn, sign_resolveAll]
  exact min_eq_right (le_one _)

theorem signIn_any : set.signIn context (.any children) = set.joinIn context children := by
  rw [signIn, resolveIn]
  cases children with
  | nil => rfl
  | cons child children =>
    rw [List.isEmpty_cons, if_neg Bool.false_ne_true, sign_resolveAny]
    exact max_eq_right (neg_one_le _)

variable (expr : PermissionExpr)

theorem meetIn_conjuncts : set.meetIn context expr.conjuncts = set.signIn context expr := by
  cases expr with
  | all children => exact (set.signIn_all context children).symm
  | key key => exact min_eq_left (le_one _)
  | scopedKey parent key => exact min_eq_left (le_one _)
  | any children => exact min_eq_left (le_one _)

theorem joinIn_disjuncts : set.joinIn context expr.disjuncts = set.signIn context expr := by
  cases expr with
  | any children => exact (set.signIn_any context children).symm
  | key key => exact max_eq_left (neg_one_le _)
  | scopedKey parent key => exact max_eq_left (neg_one_le _)
  | all children => exact max_eq_left (neg_one_le _)

theorem signIn_and (a b : PermissionExpr) :
    set.signIn context (a.and b) = min (set.signIn context a) (set.signIn context b) := by
  rw [PermissionExpr.and_eq, signIn_all, meetIn_append, meetIn_conjuncts, meetIn_conjuncts]

theorem signIn_or (a b : PermissionExpr) :
    set.signIn context (a.or b) = max (set.signIn context a) (set.signIn context b) := by
  rw [PermissionExpr.or_eq, signIn_any, joinIn_append, joinIn_disjuncts, joinIn_disjuncts]

theorem resolveIn_eq_of_signIn {a b : PermissionExpr}
    (h : set.signIn context a = set.signIn context b) :
    set.resolveIn context a = set.resolveIn context b := sign_injective h

/-- The operators are strong Kleene connectives, and so commutative, associative and idempotent. -/
theorem resolveIn_kleene (a b c : PermissionExpr) :
    set.resolveIn context (a.and b) = conj (set.resolveIn context a) (set.resolveIn context b) ∧
      set.resolveIn context (a.or b) = disj (set.resolveIn context a) (set.resolveIn context b) ∧
      set.resolveIn context (a.and b) = set.resolveIn context (b.and a) ∧
      set.resolveIn context (a.or b) = set.resolveIn context (b.or a) ∧
      set.resolveIn context ((a.and b).and c) = set.resolveIn context (a.and (b.and c)) ∧
      set.resolveIn context ((a.or b).or c) = set.resolveIn context (a.or (b.or c)) ∧
      set.resolveIn context (a.and a) = set.resolveIn context a ∧
      set.resolveIn context (a.or a) = set.resolveIn context a := by
  refine ⟨sign_injective ?_, sign_injective ?_, set.resolveIn_eq_of_signIn context ?_,
    set.resolveIn_eq_of_signIn context ?_, set.resolveIn_eq_of_signIn context ?_,
    set.resolveIn_eq_of_signIn context ?_, set.resolveIn_eq_of_signIn context ?_,
    set.resolveIn_eq_of_signIn context ?_⟩
  · rw [sign_conj]
    exact set.signIn_and context a b
  · rw [sign_disj]
    exact set.signIn_or context a b
  · rw [signIn_and, signIn_and, min_comm]
  · rw [signIn_or, signIn_or, max_comm]
  · rw [signIn_and, signIn_and, signIn_and, signIn_and, min_assoc]
  · rw [signIn_or, signIn_or, signIn_or, signIn_or, max_assoc]
  · rw [signIn_and, min_self]
  · rw [signIn_or, max_self]

end PermissionSet

end Steel
