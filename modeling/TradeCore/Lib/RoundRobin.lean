import Mathlib
/-!
# Round robin

A pointer goes round `n` places. `ahead n next j` is how many places are polled before `j`. Polling stops at some place
and the pointer moves behind it: every place it did not reach has come nearer by that many and one
(`ahead_advance`), so a place that is passed over `n` times does not exist.
-/

namespace RoundRobin

variable {n next i j k : ℕ}

/-- How far `j` lies ahead of the pointer. -/
def ahead (n next j : ℕ) : ℕ := if next ≤ j then j - next else j + n - next

theorem mod_of_lt_two_mul {a : ℕ} (h : a < 2 * n) : a % n = if a < n then a else a - n := by
  split_ifs with hlt
  · exact Nat.mod_eq_of_lt hlt
  · rw [Nat.mod_eq_sub_mod (by omega), Nat.mod_eq_of_lt (by omega)]

theorem ahead_lt (hnext : next < n) (hj : j < n) : ahead n next j < n := by
  unfold ahead
  split_ifs <;> omega

/-- The place that is polled after `ahead n next j` others is `j`. -/
theorem add_ahead_mod (hnext : next < n) (hj : j < n) : (next + ahead n next j) % n = j := by
  have hlt := ahead_lt hnext hj
  rw [mod_of_lt_two_mul (by omega)]
  unfold ahead at hlt ⊢
  split_ifs <;> omega

/-- **The pointer moves on.** Polling passed `k` places and stopped in front of `j`. -/
theorem ahead_advance (hnext : next < n) (hj : j < n) (hk : k < ahead n next j) :
    ahead n (((next + k) % n + 1) % n) j + k + 1 = ahead n next j := by
  have hlt := ahead_lt hnext hj
  have hstop : (next + k) % n < n := Nat.mod_lt _ (by omega)
  rw [mod_of_lt_two_mul (a := (next + k) % n + 1) (by omega), mod_of_lt_two_mul (a := next + k) (by omega)]
  unfold ahead at hk hlt ⊢
  split_ifs at hk hlt ⊢ <;> omega

end RoundRobin
