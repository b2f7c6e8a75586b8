import Mathlib.Algebra.Ring.Defs
import TinyLisp.Eval.Builtin

/-!
# Arithmetic modulo `2 ^ 64`

The four functions on integers first check their arguments, the second one before the first. Then
the answer is the exact result, reduced to the signed 64-bit range. Only a division by zero has none.

* `wrap_eq_iff`: what is meant by the reduction.
* `wrap_tdiv_mul_add_tmod`: quotient and remainder make up the dividend, for every pair of integers.
* `integerRing`: the commutative ring of integers modulo `2 ^ 64`.
* `arithmetic_exact`: what the functions answer.
-/

namespace TinyLisp

/-! ## Integers -/

/-- The integer that a value is. -/
def Value.integer? : Value → Option Int64
  | .scalar _ (.int n) => some n
  | _ => none

theorem Value.integer?_eq_some_iff {v : Value} {n : Int64} :
    v.integer? = some n ↔ ∃ source, v = .scalar source (.int n) := by
  constructor
  · intro h
    unfold Value.integer? at h
    split at h
    · exact ⟨_, by rw [Option.some.inj h]⟩
    · cases h
  · rintro ⟨source, rfl⟩
    rfl

/-- An integer reduced to the signed 64-bit range. -/
def wrap (n : Int) : Int := n.bmod Int64.size

/-- The reduction is the only integer in the range that differs by a multiple of `2 ^ 64`. -/
theorem wrap_eq_iff {m n : Int} :
    wrap n = m ↔
      Int64.minValue.toInt ≤ m ∧ m ≤ Int64.maxValue.toInt ∧ (Int64.size : Int) ∣ n - m := by
  have hmin : Int64.minValue.toInt = -9223372036854775808 := rfl
  have hmax : Int64.maxValue.toInt = 9223372036854775807 := rfl
  have hsize : (Int64.size : Int) = 18446744073709551616 := rfl
  unfold wrap
  rw [hmin, hmax, Int.bmod_eq_emod, hsize]
  constructor
  · rintro rfl
    refine ⟨?_, ?_, ?_⟩ <;> split <;> omega
  · rintro ⟨hlow, hhigh, hdvd⟩
    split <;> omega

theorem wrap_wrap_mul (m n : Int) : wrap (wrap m * n) = wrap (m * n) := Int.bmod_mul_bmod

theorem tmod_nonpos {m : Int} (n : Int) (h : m ≤ 0) : m.tmod n ≤ 0 := by
  have h := Int.tmod_nonneg n (a := -m) (by omega)
  rw [Int.neg_tmod] at h
  omega

/-- The remainder of a truncated division is zero or has the sign of the dividend. -/
theorem tmod_sign (m n : Int) : m.tmod n = 0 ∨ (m.tmod n).sign = m.sign := by
  rcases Int.lt_trichotomy (m.tmod n) 0 with h | h | h
  · have hm : m < 0 := Int.not_le.1 fun hm => Int.not_le.2 h (Int.tmod_nonneg n hm)
    exact .inr (by rw [Int.sign_eq_neg_one_of_neg h, Int.sign_eq_neg_one_of_neg hm])
  · exact .inl h
  · have hm : 0 < m := Int.not_le.1 fun hm => Int.not_le.2 h (tmod_nonpos n hm)
    exact .inr (by rw [Int.sign_eq_one_of_pos h, Int.sign_eq_one_of_pos hm])

/-- **Quotient and remainder.** The quotient may leave the range, in `-2 ^ 63` by `-1`, and yet its
product with the divisor is the dividend up to the remainder. -/
theorem wrap_tdiv_mul_add_tmod (m n : Int64) :
    wrap (wrap (m.toInt.tdiv n.toInt) * n.toInt) + m.toInt.tmod n.toInt = m.toInt := by
  have hsum : m.toInt.tdiv n.toInt * n.toInt + m.toInt.tmod n.toInt = m.toInt := by
    rw [Int.mul_comm]
    exact Int.mul_tdiv_add_tmod _ _
  -- the product lies between the dividend and zero
  have hproduct : wrap (m.toInt.tdiv n.toInt * n.toInt) = m.toInt.tdiv n.toInt * n.toInt := by
    have hlow := m.minValue_le_toInt
    have hhigh := m.toInt_le
    have hmin : Int64.minValue.toInt ≤ 0 := by decide
    have hmax : 0 ≤ Int64.maxValue.toInt := by decide
    have habs : (m.toInt.tmod n.toInt).natAbs ≤ m.toInt.natAbs := by
      rw [Int.natAbs_tmod]
      exact Nat.mod_le _ _
    refine wrap_eq_iff.2 ⟨?_, ?_, by simp⟩
    all_goals
      rcases Int.le_total 0 m.toInt with hm | hm
      · have hr := Int.tmod_nonneg n.toInt hm
        omega
      · have hr := tmod_nonpos n.toInt hm
        omega
  rw [wrap_wrap_mul, hproduct, hsum]

/-- The commutative ring of integers modulo `2 ^ 64`. -/
instance integerRing : CommRing Int64 where
  add_assoc := Int64.add_assoc
  zero_add := Int64.zero_add
  add_zero := Int64.add_zero
  add_comm := Int64.add_comm
  nsmul := nsmulRec
  zsmul := zsmulRec
  neg_add_cancel := Int64.add_left_neg
  sub_eq_add_neg := Int64.sub_eq_add_neg
  mul_assoc := Int64.mul_assoc
  one_mul := Int64.one_mul
  mul_one := Int64.mul_one
  mul_comm := Int64.mul_comm
  left_distrib _ _ _ := Int64.mul_add
  right_distrib _ _ _ := Int64.add_mul
  zero_mul _ := Int64.zero_mul
  mul_zero _ := Int64.mul_zero

/-! ## Answers -/

namespace Primitive

/-- The answer to two arguments is an integer, in every state, and the state stays as it is. -/
def Yields (p : Primitive) (a b : Value) (n : Int) : Prop :=
  ∃ v : Int64, v.toInt = n ∧ ∀ s, p.builtin.run [a, b] s = (.value (.int v), s)

/-- Two arguments are rejected, in every state, and the state stays as it is. -/
def Rejects (p : Primitive) (a b : Value) (f : Fault) : Prop :=
  ∀ s, p.builtin.run [a, b] s = (.fault f, s)

/-- The fault of a division by zero. -/
def divisionByZero : Fault := .raised "division-by-zero" "/: division by zero"

variable {p : Primitive} {a b : Value} {m n : Int64}

/-- A function that yields a number rejects nothing. -/
theorem Yields.not_rejects {k : Int} {f : Fault} (h : p.Yields a b k) : ¬p.Rejects a b f := by
  intro hf
  obtain ⟨v, -, hv⟩ := h
  cases (hv {}).symm.trans (hf {})

/-- Arguments are rejected for one reason. -/
theorem Rejects.unique {f g : Fault} (hf : p.Rejects a b f) (hg : p.Rejects a b g) : f = g := by
  have h := (hf {}).symm.trans (hg {})
  simpa using h

/-- The second argument is looked at first. -/
theorem integers_second {name : Text} (hb : b.integer? = none) :
    integers name a b = .error (.typeMismatch name 2 .integer b) := by
  unfold integers
  split
  · cases hb
  · cases hb
  · rfl

/-- The first argument is looked at if the second is an integer. -/
theorem integers_first {name : Text} (ha : a.integer? = none) (hb : b.integer? = some n) :
    integers name a b = .error (.typeMismatch name 1 .integer a) := by
  obtain ⟨source, rfl⟩ := Value.integer?_eq_some_iff.1 hb
  unfold integers
  split
  · cases ha
  · rfl
  · rename_i hfirst _
    exact absurd rfl (hfirst source n)

theorem integers_both {name : Text} (ha : a.integer? = some m) (hb : b.integer? = some n) :
    integers name a b = .ok (m, n) := by
  obtain ⟨_, rfl⟩ := Value.integer?_eq_some_iff.1 ha
  obtain ⟨_, rfl⟩ := Value.integer?_eq_some_iff.1 hb
  rfl

/-- The functions on two integers. -/
def onIntegers : List Primitive := [.add, .sub, .mul, .div]

/-- A function on two integers passes the fault of its arguments on. -/
theorem rejects_of_integers {f : Fault} (hp : p ∈ onIntegers)
    (h : integers p.name a b = .error f) : p.Rejects a b f := by
  have harithmetic : ∀ g, arithmetic g p.name a b = .fault f := fun g => by rw [arithmetic, h]
  have hdivide : divide p.name a b = .fault f := by rw [divide, h]
  simp only [onIntegers, List.mem_cons, List.not_mem_nil, or_false] at hp
  intro s
  rcases hp with rfl | rfl | rfl | rfl
  · exact congrArg (·, s) (harithmetic _)
  · exact congrArg (·, s) (harithmetic _)
  · exact congrArg (·, s) (harithmetic _)
  · exact congrArg (·, s) hdivide

/-- Where one of the arguments is no integer, that is the fault. -/
theorem rejects_of_mismatch (hp : p ∈ onIntegers) (h : a.integer? = none ∨ b.integer? = none) :
    ∃ position culprit, p.Rejects a b (.typeMismatch p.name position .integer culprit) := by
  cases hb : b.integer? with
  | none => exact ⟨2, b, rejects_of_integers hp (integers_second hb)⟩
  | some n =>
    have ha : a.integer? = none := h.resolve_right (by rw [hb]; nofun)
    exact ⟨1, a, rejects_of_integers hp (integers_first ha hb)⟩

theorem integers_or_mismatch (a b : Value) :
    (∃ m n, a.integer? = some m ∧ b.integer? = some n) ∨
      (a.integer? = none ∨ b.integer? = none) := by
  cases a.integer? <;> cases b.integer? <;> simp

section Integers

variable (ha : a.integer? = some m) (hb : b.integer? = some n)
include ha hb

theorem arithmetic_eq (f : Int64 → Int64 → Int64) (name : Text) :
    arithmetic f name a b = .value (.int (f m n)) := by
  rw [arithmetic, integers_both ha hb]

theorem add_run (s : State) : add.builtin.run [a, b] s = (.value (.int (m + n)), s) :=
  congrArg (·, s) (arithmetic_eq ha hb _ _)

theorem sub_run (s : State) : sub.builtin.run [a, b] s = (.value (.int (m - n)), s) :=
  congrArg (·, s) (arithmetic_eq ha hb _ _)

theorem mul_run (s : State) : mul.builtin.run [a, b] s = (.value (.int (m * n)), s) :=
  congrArg (·, s) (arithmetic_eq ha hb _ _)

/-- Integers are divided unless the second is zero. -/
theorem div_run (hn : n ≠ 0) (s : State) :
    div.builtin.run [a, b] s = (.value (.int (m / n)), s) := by
  have h : divide div.name a b = .value (.int (m / n)) := by
    rw [divide, integers_both ha hb]
    exact if_neg hn
  exact congrArg (·, s) h

theorem div_rejects (hn : n = 0) : div.Rejects a b divisionByZero := by
  have h : divide div.name a b = .fault divisionByZero := by
    rw [divide, integers_both ha hb]
    exact if_pos hn
  exact fun s => congrArg (·, s) h

/-- Sums, differences and products exist for all integers. -/
theorem yields_of_total (hp : p ∈ [add, sub, mul]) : ∃ k, p.Yields a b k := by
  simp only [List.mem_cons, List.not_mem_nil, or_false] at hp
  rcases hp with rfl | rfl | rfl
  · exact ⟨_, _, rfl, add_run ha hb⟩
  · exact ⟨_, _, rfl, sub_run ha hb⟩
  · exact ⟨_, _, rfl, mul_run ha hb⟩

/-- The truncated quotient, with its remainder. -/
theorem div_yields (hn : n ≠ 0) :
    div.Yields a b (wrap (m.toInt.tdiv n.toInt)) ∧
      ∃ r : Int, m.toInt = wrap (wrap (m.toInt.tdiv n.toInt) * n.toInt) + r ∧
        r.natAbs < n.toInt.natAbs ∧ (r = 0 ∨ r.sign = m.toInt.sign) := by
  refine ⟨⟨_, Int64.toInt_div m n, div_run ha hb hn⟩,
    m.toInt.tmod n.toInt, (wrap_tdiv_mul_add_tmod m n).symm, ?_, tmod_sign _ _⟩
  rw [Int.natAbs_tmod]
  exact Nat.mod_lt _ (Int.natAbs_pos.2 fun h => hn (Int64.toInt_inj.1 h))

/-- The difference undoes the sum. -/
theorem sub_add_cancels :
    ∃ sum : Int64, add.Yields a b sum.toInt ∧ sub.Yields (.int sum) b m.toInt := by
  refine ⟨m + n, ⟨_, rfl, add_run ha hb⟩, _, congrArg _ (Int64.add_sub_cancel m n), ?_⟩
  exact sub_run rfl hb

end Integers

/-- Sum, difference and product fail on other values than integers only. -/
theorem exists_rejects_iff (hp : p ∈ [add, sub, mul]) :
    (∃ f, p.Rejects a b f) ↔ a.integer? = none ∨ b.integer? = none := by
  constructor
  · rintro ⟨f, hf⟩
    refine (integers_or_mismatch a b).resolve_left fun ⟨m, n, ha, hb⟩ => ?_
    obtain ⟨k, hk⟩ := yields_of_total ha hb hp
    exact hk.not_rejects hf
  · intro h
    have hp : p ∈ onIntegers := by
      simp only [onIntegers, List.mem_cons, List.not_mem_nil, or_false] at hp ⊢
      rcases hp with rfl | rfl | rfl <;> simp
    obtain ⟨_, _, hf⟩ := rejects_of_mismatch hp h
    exact ⟨_, hf⟩

/-- A division by zero is rejected as such if both arguments are integers. -/
theorem rejects_divisionByZero_iff :
    div.Rejects a b divisionByZero ↔ a.integer? ≠ none ∧ b.integer? = some 0 := by
  constructor
  · intro hf
    rcases integers_or_mismatch a b with ⟨m, n, ha, hb⟩ | hmismatch
    · refine ⟨by rw [ha]; nofun, ?_⟩
      by_cases hn : n = 0
      · rw [hb, hn]
      · exact absurd hf (div_yields ha hb hn).1.not_rejects
    · obtain ⟨_, _, hg⟩ := rejects_of_mismatch (p := div) (by simp [onIntegers]) hmismatch
      cases hf.unique hg
  · rintro ⟨ha, hb⟩
    obtain ⟨m, ha⟩ := Option.ne_none_iff_exists'.1 ha
    exact div_rejects ha hb rfl

/-- **Arithmetic is exact modulo `2 ^ 64`.** A function on two integers rejects its arguments if one of
them is no integer, and names the second one if that is none; division also rejects the divisor zero.
Otherwise it yields the exact result, reduced to the signed 64-bit range, where a quotient is truncated
toward zero. So sums and products are those of a commutative ring, and the difference undoes the
sum. -/
theorem arithmetic_exact (a b : Value) :
    (∀ p ∈ onIntegers,
      (b.integer? = none → p.Rejects a b (.typeMismatch p.name 2 .integer b)) ∧
      (a.integer? = none → b.integer? ≠ none →
        p.Rejects a b (.typeMismatch p.name 1 .integer a))) ∧
    (∀ p ∈ [add, sub, mul], (∃ f, p.Rejects a b f) ↔ a.integer? = none ∨ b.integer? = none) ∧
    (div.Rejects a b divisionByZero ↔ a.integer? ≠ none ∧ b.integer? = some 0) ∧
    ∀ m n, a.integer? = some m → b.integer? = some n →
      add.Yields a b (wrap (m.toInt + n.toInt)) ∧
      sub.Yields a b (wrap (m.toInt - n.toInt)) ∧
      mul.Yields a b (wrap (m.toInt * n.toInt)) ∧
      (n ≠ 0 → div.Yields a b (wrap (m.toInt.tdiv n.toInt)) ∧
        ∃ r : Int, m.toInt = wrap (wrap (m.toInt.tdiv n.toInt) * n.toInt) + r ∧
          r.natAbs < n.toInt.natAbs ∧ (r = 0 ∨ r.sign = m.toInt.sign)) ∧
      add.Yields a b (integerRing.add m n).toInt ∧
      mul.Yields a b (integerRing.mul m n).toInt ∧
      ∃ sum : Int64, add.Yields a b sum.toInt ∧ sub.Yields (.int sum) b m.toInt := by
  refine ⟨fun p hp => ⟨fun hb => ?_, fun ha hb => ?_⟩, fun p => exists_rejects_iff,
    rejects_divisionByZero_iff, fun m n ha hb => ?_⟩
  · exact rejects_of_integers hp (integers_second hb)
  · obtain ⟨n, hb⟩ := Option.ne_none_iff_exists'.1 hb
    exact rejects_of_integers hp (integers_first ha hb)
  · exact ⟨⟨_, Int64.toInt_add m n, add_run ha hb⟩, ⟨_, Int64.toInt_sub m n, sub_run ha hb⟩,
      ⟨_, Int64.toInt_mul m n, mul_run ha hb⟩, div_yields ha hb, ⟨_, rfl, add_run ha hb⟩,
      ⟨_, rfl, mul_run ha hb⟩, sub_add_cancels ha hb⟩

/-- The one quotient that leaves the range. -/
theorem arithmetic_exact_least :
    div.Yields (.int (-9223372036854775808)) (.int (-1)) (-9223372036854775808) := by
  have h := ((arithmetic_exact (.int (-9223372036854775808)) (.int (-1))).2.2.2 _ _ rfl rfl).2.2.2.1
  exact (h (by decide)).1

end Primitive

end TinyLisp
