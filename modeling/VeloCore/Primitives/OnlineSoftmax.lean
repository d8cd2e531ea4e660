import Mathlib.Tactic

open Finset

-- A softmax that is taken of one score after another, and of all of them at once, with values that are weighted by it
namespace OnlineSoftmax

variable {K : Type} [Field K] [LinearOrder K] (exp : K → K) (s v : ℕ → K)

-- The greatest of the scores up to `n`
def runningMax : ℕ → K
  | 0     => s 0
  | n + 1 => max (runningMax n) (s (n + 1))

-- The values up to `n`, each weighted by how far its score is from the greatest one
def weighted (n : ℕ) : K :=
  ∑ t ∈ range (n + 1), exp (s t - runningMax s n) * v t

def total (n : ℕ) : K :=
  ∑ t ∈ range (n + 1), exp (s t - runningMax s n)

variable {exp s v}

-- A greater score takes the weights down by one factor.
theorem weighted_succ (hadd : ∀ x y, exp (x + y) = exp x * exp y) (n : ℕ) : weighted exp s v (n + 1) =
    weighted exp s v n * exp (runningMax s n - runningMax s (n + 1)) +
      exp (s (n + 1) - runningMax s (n + 1)) * v (n + 1) := by
  have hrescale (t : ℕ) : exp (s t - runningMax s n) * v t * exp (runningMax s n - runningMax s (n + 1)) =
      exp (s t - runningMax s (n + 1)) * v t := by
    calc exp (s t - runningMax s n) * v t * exp (runningMax s n - runningMax s (n + 1))
        = exp (s t - runningMax s n) * exp (runningMax s n - runningMax s (n + 1)) * v t := by ring
      _ = exp (s t - runningMax s (n + 1)) * v t := by rw [← hadd, sub_add_sub_cancel]
  rw [weighted, sum_range_succ, weighted, sum_mul]
  simp only [hrescale]

theorem total_eq (n : ℕ) : total exp s n = weighted exp s (fun _ => 1) n := by
  simp [total, weighted]

theorem total_succ (hadd : ∀ x y, exp (x + y) = exp x * exp y) (n : ℕ) : total exp s (n + 1) =
    total exp s n * exp (runningMax s n - runningMax s (n + 1)) + exp (s (n + 1) - runningMax s (n + 1)) := by
  rw [total_eq, weighted_succ hadd, total_eq, mul_one]

-- The division can be left to the end.
theorem weighted_div_total (n : ℕ) : weighted exp s v n / total exp s n =
    ∑ t ∈ range (n + 1), exp (s t - runningMax s n) * (1 / total exp s n) * v t := by
  rw [weighted, sum_div]
  refine sum_congr rfl fun t _ => ?_
  ring

end OnlineSoftmax
