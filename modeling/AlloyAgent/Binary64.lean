import Mathlib.Algebra.Ring.Nat
import Mathlib.Data.Int.Notation
import Mathlib.Data.Nat.Notation

/-!
# Binary64 numbers

The two things programs outside numerics do with `f64`: compare amounts, and take a fraction of an
integer.

* `le`, `scaleTrunc`: the two operations that the models need.
-/

namespace AlloyAgent

structure Binary64 where
  bits : BitVec 64
  deriving DecidableEq

namespace Binary64

/-- Exponent and mantissa as one integer. -/
def magnitude (x : Binary64) : ℕ := x.bits.toNat % 2 ^ 63

def isNegative (x : Binary64) : Bool := decide (2 ^ 63 ≤ x.bits.toNat)

/-- All exponent bits set, and some mantissa bit. -/
def isNaN (x : Binary64) : Bool := decide (0x7FF0000000000000 < x.magnitude)

/-- Signed magnitude: ordered like the numbers, with one zero. -/
def key (x : Binary64) : ℤ := if x.isNegative then -(x.magnitude : ℤ) else x.magnitude

def le (x y : Binary64) : Bool := !x.isNaN && !y.isNaN && decide (x.key ≤ y.key)

theorem le_iff {x y : Binary64} :
    x.le y = true ↔ x.isNaN = false ∧ y.isNaN = false ∧ x.key ≤ y.key := by
  simp [le, and_assoc]

theorem le_trans {x y z : Binary64} (hxy : x.le y = true) (hyz : y.le z = true) :
    x.le z = true := by
  rw [le_iff] at hxy hyz ⊢
  exact ⟨hxy.1, hyz.2.1, Int.le_trans hxy.2.2 hyz.2.2⟩

/-- Round to 53 significant bits, to nearest, ties to even. -/
def round53 (n : ℕ) : ℕ :=
  let k := n.log2 + 1 - 53
  let q := n >>> k
  let r := n % 2 ^ k
  let half := 2 ^ k / 2
  if k = 0 then n
  else if half < r ∨ (r = half ∧ q % 2 = 1) then (q + 1) <<< k
  else q <<< k

/-- `(n as f64 * c) as usize` for the constant `c = m / 2ᵉ`. -/
def scaleTrunc (m e n : ℕ) : ℕ := min (round53 (round53 n * m) / 2 ^ e) (2 ^ 64 - 1)

end Binary64

end AlloyAgent
