import Mathlib

/-!
# Exponential backoff

The delay before a reconnect, with the conversions to `int` that the source makes: a conversion is
undefined where the truncated value does not fit.
-/

namespace AsioAggregator

/-- `static_cast<int>` of a floating-point value. -/
def castInt (x : ℚ) : Option ℤ :=
  let n := if 0 ≤ x then ⌊x⌋ else ⌈x⌉
  if -2 ^ 31 ≤ n ∧ n < 2 ^ 31 then some n else none

def initialBackoffMs : ℤ := 1000

def maxBackoffMs : ℤ := 30000

def backoffMultiplier : ℚ := 2

/-- A value that `dis(gen)` may return. -/
structure Jitter where
  value : ℚ
  lower : 4 / 5 ≤ value
  upper : value ≤ 6 / 5

def Jitter.unit : Jitter := ⟨1, by norm_num, by norm_num⟩

def backoffMs (retryCount : ℕ) : Option ℤ :=
  (castInt (initialBackoffMs * backoffMultiplier ^ (retryCount - 1))).map (min · maxBackoffMs)

def reconnectDelay (retryCount : ℕ) (jitter : Jitter) : Option ℤ := do
  let backoff ← backoffMs retryCount
  castInt (backoff * jitter.value)

theorem castInt_of_nonneg {x : ℚ} (h0 : 0 ≤ x) (hlt : x < 2 ^ 31) : castInt x = some ⌊x⌋ := by
  have hfloor : (0 : ℤ) ≤ ⌊x⌋ := Int.floor_nonneg.mpr h0
  have hbound : ⌊x⌋ < 2 ^ 31 := by
    rw [Int.floor_lt]
    exact_mod_cast hlt
  simp only [castInt, if_pos h0]
  exact if_pos ⟨by omega, hbound⟩

theorem backoffMs_eq {retryCount : ℕ} (h : retryCount ≤ 22) :
    backoffMs retryCount = some (min (1000 * 2 ^ (retryCount - 1)) 30000) := by
  have hpow : (2 : ℤ) ^ (retryCount - 1) ≤ 2 ^ 21 :=
    pow_le_pow_right₀ (by norm_num) (by omega)
  have hcast : (initialBackoffMs : ℚ) * backoffMultiplier ^ (retryCount - 1) =
      ((1000 * 2 ^ (retryCount - 1) : ℤ) : ℚ) := by
    simp [initialBackoffMs, backoffMultiplier]
  have hlt : ((1000 * 2 ^ (retryCount - 1) : ℤ) : ℚ) < 2 ^ 31 := by
    have hint : (1000 * 2 ^ (retryCount - 1) : ℤ) < 2 ^ 31 := by omega
    exact_mod_cast hint
  have hnonneg : (0 : ℚ) ≤ ((1000 * 2 ^ (retryCount - 1) : ℤ) : ℚ) := by positivity
  rw [backoffMs, hcast, castInt_of_nonneg hnonneg hlt, Int.floor_intCast]
  rfl

/-- From the twenty-third attempt on the value before the cap does not fit. -/
theorem backoffMs_eq_none {retryCount : ℕ} (h : 23 ≤ retryCount) : backoffMs retryCount = none := by
  have hpow : (2 : ℤ) ^ 22 ≤ 2 ^ (retryCount - 1) :=
    pow_le_pow_right₀ (by norm_num) (by omega)
  have hcast : (initialBackoffMs : ℚ) * backoffMultiplier ^ (retryCount - 1) =
      ((1000 * 2 ^ (retryCount - 1) : ℤ) : ℚ) := by
    simp [initialBackoffMs, backoffMultiplier]
  have hnonneg : (0 : ℚ) ≤ ((1000 * 2 ^ (retryCount - 1) : ℤ) : ℚ) := by positivity
  have hrange : ¬ (-2 ^ 31 ≤ (1000 * 2 ^ (retryCount - 1) : ℤ) ∧
      (1000 * 2 ^ (retryCount - 1) : ℤ) < 2 ^ 31) := by omega
  simp only [backoffMs, hcast, castInt, if_pos hnonneg, Int.floor_intCast, if_neg hrange,
    Option.map_none]

theorem reconnectDelay_eq_none {retryCount : ℕ} (h : 23 ≤ retryCount) (jitter : Jitter) :
    reconnectDelay retryCount jitter = none := by
  rw [reconnectDelay, backoffMs_eq_none h]
  rfl

def cappedBackoffMs (retryCount : ℕ) : ℤ := min (1000 * 2 ^ (retryCount - 1)) 30000

theorem cappedBackoffMs_bounds (retryCount : ℕ) :
    1000 ≤ cappedBackoffMs retryCount ∧ cappedBackoffMs retryCount ≤ 30000 := by
  have hpow : (1 : ℤ) ≤ 2 ^ (retryCount - 1) := one_le_pow₀ (by norm_num)
  unfold cappedBackoffMs
  omega

theorem jittered_bounds {b : ℤ} (hlow : 1000 ≤ b) (hhigh : b ≤ 30000) (jitter : Jitter) :
    (800 : ℚ) ≤ b * jitter.value ∧ (b : ℚ) * jitter.value ≤ 36000 := by
  have hlow' : (1000 : ℚ) ≤ b := by exact_mod_cast hlow
  have hhigh' : (b : ℚ) ≤ 30000 := by exact_mod_cast hhigh
  constructor
  · calc (800 : ℚ) = 1000 * (4 / 5) := by norm_num
      _ ≤ b * jitter.value :=
        mul_le_mul hlow' jitter.lower (by norm_num) (by linarith)
  · calc (b : ℚ) * jitter.value ≤ 30000 * (6 / 5) :=
        mul_le_mul hhigh' jitter.upper (by linarith [jitter.lower]) (by norm_num)
      _ = 36000 := by norm_num

theorem reconnectDelay_eq {retryCount : ℕ} (h : retryCount ≤ 22) (jitter : Jitter) :
    ∃ d, reconnectDelay retryCount jitter = some d ∧ 800 ≤ d ∧ d ≤ 36000 ∧
      d = ⌊((min (1000 * 2 ^ (retryCount - 1)) 30000 : ℤ) : ℚ) * jitter.value⌋ := by
  obtain ⟨hlow, hhigh⟩ := cappedBackoffMs_bounds retryCount
  obtain ⟨hmin, hmax⟩ := jittered_bounds hlow hhigh jitter
  rw [cappedBackoffMs] at hmin hmax
  rw [reconnectDelay, backoffMs_eq h]
  refine ⟨_, ?_, ?_, ?_, rfl⟩
  · exact castInt_of_nonneg (by linarith) (by linarith)
  · exact Int.le_floor.mpr (by exact_mod_cast hmin)
  · exact Int.floor_le_iff.mpr (by push_cast at hmax ⊢; linarith)

end AsioAggregator
