import Mathlib.Algebra.BigOperators.Group.List.Basic
import Mathlib.Data.Int.ModEq
import Trampoline.Proofs.Evaluation.Runs

/-!
# Integers

Sums, products and differences of integers are those of exact arithmetic, modulo 2^64. Quotients are
truncated, and the only one that does not fit is that of the least integer and minus one. Only a
divisor of zero makes a division fail.
-/

namespace Trampoline

open Exec

/-! ## Exact arithmetic modulo 2^64 -/

section Exact

/-- The integer that a number wraps around to is the only one congruent to it. -/
theorem modEq_iff_eq_ofInt {n : Int64} {exact : Int} :
    n.toInt ≡ exact [ZMOD 2 ^ 64] ↔ n = Int64.ofInt exact := by
  rw [eq_comm, Int64.ofInt_eq_iff_bmod_eq_toInt]
  constructor
  · intro congruent
    calc exact.bmod (2 ^ 64)
      _ = (exact % 2 ^ 64).bmod (2 ^ 64) := (Int.emod_bmod exact (2 ^ 64)).symm
      _ = (n.toInt % 2 ^ 64).bmod (2 ^ 64) := by rw [congruent]
      _ = n.toInt.bmod (2 ^ 64) := Int.emod_bmod n.toInt (2 ^ 64)
      _ = n.toInt := n.toInt_bmod
  · intro same
    rw [← same]
    exact Int.bmod_emod

/-- A fold whose steps wrap around wraps around the exact fold. -/
theorem foldl_ofInt {step : Int64 -> Int64 -> Int64} {exact : Int -> Int -> Int}
    (wraps : ∀ (x : Int) (n : Int64), step (.ofInt x) n = .ofInt (exact x n.toInt)) (first : Int)
    (ints : List Int64) :
    ints.foldl step (.ofInt first) = .ofInt ((ints.map Int64.toInt).foldl exact first) := by
  rw [List.foldl_map]
  exact List.foldl_hom Int64.ofInt wraps

/-- Adding up with wrapping is wrapping the sum. -/
theorem foldl_add_ofInt (ints : List Int64) :
    ints.foldl (· + ·) 0 = .ofInt (ints.map Int64.toInt).sum := by
  rw [List.sum_eq_foldl]
  refine foldl_ofInt (fun x n => ?_) 0 ints
  rw [Int64.ofInt_add, Int64.ofInt_toInt]

/-- Multiplying with wrapping is wrapping the product. -/
theorem foldl_mul_ofInt (ints : List Int64) :
    ints.foldl (· * ·) 1 = .ofInt (ints.map Int64.toInt).prod := by
  rw [List.prod_eq_foldl]
  refine foldl_ofInt (fun x n => ?_) 1 ints
  rw [Int64.ofInt_mul, Int64.ofInt_toInt]

/-- Subtracting one after another is subtracting the sum. -/
theorem foldl_sub_ofInt (first : Int64) (ints : List Int64) :
    ints.foldl (· - ·) first = .ofInt (first.toInt - (ints.map Int64.toInt).sum) := by
  have exact (ints : List Int) (first : Int) : ints.foldl (· - ·) first = first - ints.sum := by
    induction ints generalizing first with
    | nil => simp
    | cons next rest ih =>
      rw [List.foldl_cons, ih, List.sum_cons]
      omega
  rw [← exact, ← foldl_ofInt (fun x n => ?_), Int64.ofInt_toInt]
  rw [Int64.ofInt_sub, Int64.ofInt_toInt]

theorem quotient_eq_ofInt (a b : Int64) : a / b = .ofInt (a.toInt.tdiv b.toInt) :=
  ((Int64.ofInt_eq_iff_bmod_eq_toInt _ _).mpr (Int64.toInt_div a b).symm).symm

/-- The quotient may wrap around, but then it does so again when it is multiplied. -/
theorem quotient_mul_add_remainder (a b : Int64) : a / b * b + a % b = a := by
  rw [quotient_eq_ofInt]
  calc Int64.ofInt (a.toInt.tdiv b.toInt) * b + a % b
    _ = .ofInt (a.toInt.tdiv b.toInt) * .ofInt b.toInt + .ofInt (a.toInt.tmod b.toInt) := by
      rw [Int64.ofInt_toInt, ← Int64.toInt_mod, Int64.ofInt_toInt]
    _ = .ofInt (a.toInt.tdiv b.toInt * b.toInt + a.toInt.tmod b.toInt) := by
      rw [Int64.ofInt_add, Int64.ofInt_mul]
    _ = a := by rw [Int.tdiv_mul_add_tmod, Int64.ofInt_toInt]

/-- A remainder is zero or has the sign of the dividend. -/
theorem remainder_sign (a b : Int64) :
    (a % b).toInt = 0 ∨ (a % b).toInt.sign = a.toInt.sign := by
  rw [Int64.toInt_mod]
  have sign := Int.sign_tmod a.toInt b.toInt
  split at sign
  · exact .inl (Int.sign_eq_zero_iff_zero.mp sign)
  · exact .inr sign

/-- A remainder is less than the divisor in size. -/
theorem remainder_lt (a : Int64) {b : Int64} (nonzero : b ≠ 0) :
    (a % b).toInt.natAbs < b.toInt.natAbs := by
  rw [Int64.toInt_mod, Int.natAbs_tmod]
  refine Nat.mod_lt _ (Int.natAbs_pos.mpr fun zero => nonzero ?_)
  exact Int64.toInt_inj.mp zero

end Exact

/-! ## Natives on integers -/

namespace Native

/-- What a native comes to when it is applied to arguments. -/
noncomputable def outcome (op : Native) (args : List Value) : Run Value :=
  (Task.apply (.native op) args []).full

/-- A native that only computes comes to what it computes, if the number of arguments fits. -/
theorem outcome_eq {op : Native} {args : List Value} {compute : Run Value}
    (fits : op.arity = none ∨ op.arity = some args.length)
    (computes : op.compute? args = some compute) : op.outcome args = compute := by
  funext m
  rw [outcome, Task.full_eq, Task.plan]
  refine (Plan.run_lift_bind rfl).trans ?_
  rcases fits with fits | fits
  · rw [fits]
    exact congrFun ((Plan.run_sub _ _).trans (full_compute computes)) m
  · simp only [fits, if_true]
    exact congrFun ((Plan.run_sub _ _).trans (full_compute computes)) m

/-- Integers are integers. -/
theorem ints_map (op : Native) (values : List Int64) :
    ints op (values.map .int) = pure values := by
  induction values with
  | nil => rfl
  | cons first rest ih =>
    rw [List.map_cons, ints, ih]
    rfl

/-- A sum comes to the wrapped sum of the integers. -/
theorem add_outcome (ints : List Int64) :
    add.outcome (ints.map .int) = pure (.int (.ofInt (ints.map Int64.toInt).sum)) := by
  rw [outcome_eq (.inl rfl) rfl, ints_map, ← foldl_add_ofInt]
  rfl

/-- A product comes to their wrapped product. -/
theorem mul_outcome (ints : List Int64) :
    mul.outcome (ints.map .int) = pure (.int (.ofInt (ints.map Int64.toInt).prod)) := by
  rw [outcome_eq (.inl rfl) rfl, ints_map, ← foldl_mul_ofInt]
  rfl

/-- The first integer less all others, exactly. -/
theorem sub_outcome (first second : Int64) (rest : List Int64) :
    sub.outcome ((first :: second :: rest).map .int) =
      pure (.int (.ofInt (first.toInt - ((second :: rest).map Int64.toInt).sum))) := by
  rw [outcome_eq (.inl rfl) rfl, ints_map, ← foldl_sub_ofInt]
  rfl

/-- With one argument a difference is its negative. -/
theorem neg_outcome (only : Int64) :
    sub.outcome ([only].map .int) = pure (.int (.ofInt (-only.toInt))) := by
  rw [outcome_eq (.inl rfl) rfl, ints_map, Int64.ofInt_neg, Int64.ofInt_toInt]
  rfl

theorem divideInts_eq (op : Native) (divide : Int64 -> Int64 -> Int64) (a : Int64) {b : Int64}
    (nonzero : b ≠ 0) : divideInts op divide [.int a, .int b] = pure (.int (divide a b)) := by
  simp only [divideInts, two, int, pure_bind, if_neg nonzero]

theorem div_outcome (a : Int64) {b : Int64} (nonzero : b ≠ 0) :
    div.outcome [.int a, .int b] = pure (.int (a / b)) :=
  (outcome_eq (.inr rfl) rfl).trans (divideInts_eq _ _ a nonzero)

theorem rem_outcome (a : Int64) {b : Int64} (nonzero : b ≠ 0) :
    rem.outcome [.int a, .int b] = pure (.int (a % b)) :=
  (outcome_eq (.inr rfl) rfl).trans (divideInts_eq _ _ a nonzero)

/-- Sums and products of integers are the signed 64-bit integers congruent to the exact ones, in any
order of the arguments. A difference is the first argument less the sum of the others, and the
negation of a single argument is its difference from zero. With a divisor other than zero, quotient
and remainder exist, make up the dividend again, and the remainder is zero or has the sign of the
dividend, and is less than the divisor in absolute value. With a divisor of zero both fail, whatever
the dividend is. -/
theorem integers_wrap :
    (∀ ints : List Int64,
      (∃ sum : Int64, add.outcome (ints.map .int) = pure (.int sum) ∧
        ∀ n : Int64, n.toInt ≡ (ints.map Int64.toInt).sum [ZMOD 2 ^ 64] ↔ n = sum) ∧
      (∃ product : Int64, mul.outcome (ints.map .int) = pure (.int product) ∧
        ∀ n : Int64, n.toInt ≡ (ints.map Int64.toInt).prod [ZMOD 2 ^ 64] ↔ n = product) ∧
      ∀ others : List Int64, ints.Perm others ->
        add.outcome (others.map .int) = add.outcome (ints.map .int) ∧
        mul.outcome (others.map .int) = mul.outcome (ints.map .int)) ∧
    (∀ (a b : Int64) (rest : List Int64), ∃ sum difference : Int64,
      add.outcome ((b :: rest).map .int) = pure (.int sum) ∧
      sub.outcome [.int a, .int sum] = pure (.int difference) ∧
      sub.outcome ((a :: b :: rest).map .int) = pure (.int difference)) ∧
    (∀ a : Int64, ∃ negated : Int64, sub.outcome [.int a] = pure (.int negated) ∧
      sub.outcome [.int 0, .int a] = pure (.int negated)) ∧
    (∀ a b : Int64, b ≠ 0 -> ∃ quotient remainder product : Int64,
      div.outcome [.int a, .int b] = pure (.int quotient) ∧
      quotient.toInt ≡ a.toInt.tdiv b.toInt [ZMOD 2 ^ 64] ∧
      rem.outcome [.int a, .int b] = pure (.int remainder) ∧
      mul.outcome [.int quotient, .int b] = pure (.int product) ∧
      add.outcome [.int product, .int remainder] = pure (.int a) ∧
      (remainder = 0 ∨ remainder.toInt.sign = a.toInt.sign) ∧
      remainder.toInt.natAbs < b.toInt.natAbs) ∧
    ∀ a : Value, div.outcome [a, .int 0] = Exec.fail .divisionByZero ∧
      rem.outcome [a, .int 0] = Exec.fail .divisionByZero := by
  refine ⟨fun ints => ⟨?_, ?_, fun others perm => ?_⟩, ?_, ?_, ?_, ?_⟩
  · exact ⟨_, add_outcome ints, fun n => modEq_iff_eq_ofInt⟩
  · exact ⟨_, mul_outcome ints, fun n => modEq_iff_eq_ofInt⟩
  · rw [add_outcome, add_outcome, mul_outcome, mul_outcome, (perm.map Int64.toInt).sum_eq,
      (perm.map Int64.toInt).prod_eq]
    exact ⟨rfl, rfl⟩
  · intro a b rest
    refine ⟨_, _, add_outcome (b :: rest), sub_outcome a _ [], ?_⟩
    rw [sub_outcome]
    simp only [List.map_cons, List.map_nil, List.sum_singleton, Int64.ofInt_sub, Int64.ofInt_toInt]
  · intro a
    refine ⟨_, neg_outcome a, (sub_outcome 0 a []).trans ?_⟩
    simp only [List.map_cons, List.map_nil, List.sum_singleton, Int64.toInt_zero, Int.zero_sub]
  · intro a b nonzero
    refine ⟨a / b, a % b, a / b * b, div_outcome a nonzero,
      modEq_iff_eq_ofInt.mpr (quotient_eq_ofInt a b), rem_outcome a nonzero, ?_, ?_, ?_,
      remainder_lt a nonzero⟩
    · refine (mul_outcome [a / b, b]).trans ?_
      simp only [List.map_cons, List.map_nil, List.prod_pair, Int64.ofInt_mul, Int64.ofInt_toInt]
    · refine (add_outcome [a / b * b, a % b]).trans ?_
      simp only [List.map_cons, List.map_nil, List.sum_pair, Int64.ofInt_add, Int64.ofInt_toInt,
        quotient_mul_add_remainder]
    · exact (remainder_sign a b).imp_left Int64.toInt_inj.mp
  · exact fun a => ⟨outcome_eq (.inr rfl) rfl, outcome_eq (.inr rfl) rfl⟩

/-- The least integer has no negative: products and quotients with it wrap around to it. -/
theorem integers_wrap_least : [Int64.minValue, -1].Perm [-1, .minValue] ∧ (-1 : Int64) ≠ 0 ∧
    mul.outcome [.int (-1), .int .minValue] = mul.outcome [.int .minValue, .int (-1)] ∧
    ∃ quotient remainder product : Int64,
      div.outcome [.int .minValue, .int (-1)] = pure (.int quotient) ∧
      rem.outcome [.int .minValue, .int (-1)] = pure (.int remainder) ∧
      mul.outcome [.int quotient, .int (-1)] = pure (.int product) ∧
      add.outcome [.int product, .int remainder] = pure (.int .minValue) := by
  obtain ⟨folds, -, -, divides, -⟩ := integers_wrap
  obtain ⟨-, -, reorders⟩ := folds [.minValue, -1]
  have swapped : [Int64.minValue, -1].Perm [-1, .minValue] := .swap _ _ _
  have nonzero : (-1 : Int64) ≠ 0 := by decide
  obtain ⟨quotient, remainder, product, div, -, rem, mul, add, -⟩ :=
    divides .minValue (-1) nonzero
  exact ⟨swapped, nonzero, (reorders _ swapped).2, quotient, remainder, product, div, rem, mul, add⟩

end Native

end Trampoline
