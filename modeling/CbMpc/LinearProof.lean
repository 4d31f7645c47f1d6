import Mathlib

/-!
# Proofs of a preimage under a linear map

Whoever knows a preimage of `y` under `φ` commits to `φ r` and answers a challenge `e` with `r + e •
w`. The verifier computes the commitment that a challenge and an answer account for.

A proof may consist of many rows: a commitment, a challenge and a response each. A verifier that
draws a weight for each row tests one combination in place of all the rows.
-/
namespace LinearProof

variable {F W Y : Type*} [Field F] [AddCommGroup W] [Module F W] [AddCommGroup Y] [Module F Y]

/-- The commitment for a challenge and an answer. -/
def recommit (φ : W →ₗ[F] Y) (y : Y) (e : F) (z : W) : Y := φ z - e • y

theorem recommit_answer (φ : W →ₗ[F] Y) (r w : W) (e : F) :
    recommit φ (φ w) e (r + e • w) = φ r := by
  rw [recommit, map_add, map_smul, add_sub_cancel_right]

/-- What two answers to one commitment reveal. -/
def extract (e e' : F) (z z' : W) : W := (e - e')⁻¹ • (z - z')

theorem map_extract {φ : W →ₗ[F] Y} {y : Y} {e e' : F} {z z' : W}
    (h : recommit φ y e z = recommit φ y e' z') (hne : e ≠ e') :
    φ (extract e e' z z') = y := by
  have hdiff : φ (z - z') = (e - e') • y := by
    rw [recommit, recommit, sub_eq_sub_iff_add_eq_add] at h
    rw [map_sub, sub_smul, sub_eq_sub_iff_add_eq_add, h, add_comm]
  rw [extract, map_smul, hdiff, inv_smul_smul₀ (sub_ne_zero.mpr hne)]

end LinearProof

namespace BatchedRows

variable {K V W ι : Type*} [Field K] [AddCommGroup V] [Module K V] [AddCommGroup W] [Module K W]

/-- The equation of one row for the statement `X`. -/
def Row (φ : V →ₗ[K] W) (X A : W) (e : K) (z : V) : Prop := A = φ z - e • X

/-- The combination of all rows with the weights `σ`. -/
def Batch [Fintype ι] (φ : V →ₗ[K] W) (X : W) (A : ι → W) (e : ι → K)
    (z : ι → V) (σ : ι → K) : Prop :=
  ∑ i, σ i • A i = φ (∑ i, σ i • z i) - (∑ i, σ i * e i) • X

variable {φ : V →ₗ[K] W} {X : W}

/-- The response to a challenge, from the randomness behind the commitment and the witness. -/
theorem row_of_witness (r w : V) (e : K) : Row φ (φ w) (φ r) e (r + e • w) := by
  rw [Row, map_add, map_smul, add_sub_cancel_right]

variable [Fintype ι] {A : ι → W} {e : ι → K} {z : ι → V}

/-- By how much the combination fails is the combination of what the rows fail by. -/
theorem batch_iff (σ : ι → K) : Batch φ X A e z σ ↔ ∑ i, σ i • (A i - (φ (z i) - e i • X)) = 0 := by
  have hsum : ∑ i, σ i • (A i - (φ (z i) - e i • X)) = ∑ i,
      σ i • A i - (φ (∑ i, σ i • z i) - (∑ i, σ i * e i) • X) := by
    simp only [smul_sub, smul_smul, Finset.sum_sub_distrib, Finset.sum_smul, map_sum, map_smul]
  rw [hsum, sub_eq_zero, Batch]

theorem batch_of_rows (h : ∀ i, Row φ X (A i) (e i) (z i)) (σ : ι → K) : Batch φ X A e z σ := by
  rw [batch_iff]
  apply Finset.sum_eq_zero
  intro i _
  rw [sub_eq_zero.mpr (h i), smul_zero]

/-- A row that fails leaves at most one weight of its own with which the combination holds. -/
theorem weight_unique [DecidableEq ι] {i : ι}
    (hi : ¬Row φ X (A i) (e i) (z i)) {σ : ι → K} {s s' : K}
    (h : Batch φ X A e z (Function.update σ i s)) (h' : Batch φ X A e z (Function.update σ i s')) :
    s = s' := by
  rw [batch_iff, Fintype.sum_eq_add_sum_compl i, Function.update_self] at h h'
  have hrest : ∀ t : K, ∑ j ∈ {i}ᶜ, Function.update σ i t j • (A j - (φ (z j) - e j • X)) =
      ∑ j ∈ {i}ᶜ, σ j • (A j - (φ (z j) - e j • X)) := by
    intro t
    apply Finset.sum_congr rfl
    intro j hj
    rw [Function.update_of_ne (by simpa using hj)]
  rw [hrest] at h h'
  have hsmul := add_right_cancel (h.trans h'.symm)
  exact smul_left_injective K (sub_ne_zero.mpr hi) hsmul

end BatchedRows
