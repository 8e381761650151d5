import ChainIndex.Bytes.Basic
import Mathlib.Data.List.Induction

/-!
Numbers as octet strings. Every number has one shortest string, and all others put zeros before it.
-/
namespace ChainIndex
namespace Bytes

variable {bytes : Bytes} {n : Nat}

theorem toNat_append_singleton (bytes : Bytes) (b : UInt8) : toNat (bytes ++ [b]) = bytes.toNat * 256 + b.toNat :=
  List.foldl_append

@[simp] theorem digits256_zero : digits256 0 = [] := by
  rw [digits256, if_pos rfl]

theorem digits256_of_pos (h : 0 < n) : digits256 n = digits256 (n / 256) ++ [(n % 256).toUInt8] := by
  rw [digits256, if_neg (Nat.pos_iff_ne_zero.1 h)]

/-- One digit more than those of a number; the number may be zero, the digit then not. -/
theorem digits256_mul_add {b : UInt8} (h : 0 < n * 256 + b.toNat) :
    digits256 (n * 256 + b.toNat) = digits256 n ++ [b] := by
  have hb : b.toNat < 256 := b.toNat_lt
  have hhigh : (n * 256 + b.toNat) / 256 = n := by omega
  have hlow : (n * 256 + b.toNat) % 256 = b.toNat := by omega
  rw [digits256_of_pos h, hhigh, hlow, Nat.toUInt8_eq, UInt8.ofNat_toNat]

theorem toNat_digits256 (n : Nat) : (digits256 n).toNat = n := by
  induction n using Nat.strongRecOn with
  | ind n ih =>
    rcases Nat.eq_zero_or_pos n with rfl | hpos
    · rw [digits256_zero]
      rfl
    · have hlow : ((n % 256).toUInt8).toNat = n % 256 := by simp
      rw [digits256_of_pos hpos, toNat_append_singleton, ih (n / 256) (by omega), hlow]
      omega

theorem toNat_ofNat (n : Nat) : (ofNat n).toNat = n := by
  unfold ofNat
  split
  · next h => exact h.symm
  · exact toNat_digits256 n

theorem ofNat_injective : Function.Injective ofNat := by
  intro n m h
  rw [← toNat_ofNat n, h, toNat_ofNat]

theorem ofNat_ne_nil (n : Nat) : ofNat n ≠ [] := by
  unfold ofNat
  split
  · exact List.cons_ne_nil 0 []
  · next h =>
    rw [digits256_of_pos (Nat.pos_of_ne_zero h)]
    exact List.append_ne_nil_of_right_ne_nil _ (List.cons_ne_nil _ _)

/-- The digits of a number are the octets without the zeros before them. -/
theorem exists_replicate_append_digits256 (bytes : Bytes) :
    ∃ k, bytes = List.replicate k 0 ++ digits256 bytes.toNat := by
  induction bytes using List.reverseRecOn with
  | nil => exact ⟨0, by simp [toNat]⟩
  | append_singleton bytes b ih =>
    obtain ⟨k, hk⟩ := ih
    rw [toNat_append_singleton]
    rcases Nat.eq_zero_or_pos (toNat bytes * 256 + b.toNat) with hzero | hpos
    · -- a zero more behind zeros
      have hbytes : toNat bytes = 0 := by omega
      have hb : b = 0 := UInt8.toNat_inj.1 (by simp; omega)
      refine ⟨k + 1, ?_⟩
      rw [hbytes, digits256_zero, List.append_nil] at hk
      rw [hzero, digits256_zero, List.append_nil, List.replicate_succ', ← hk, hb]
    · refine ⟨k, ?_⟩
      rw [digits256_mul_add hpos, ← List.append_assoc, ← hk]

/-- All octet strings of a number but the shortest one put zeros before it. -/
theorem exists_replicate_append_ofNat (h : bytes ≠ []) : ∃ k, bytes = List.replicate k 0 ++ ofNat bytes.toNat := by
  obtain ⟨k, hk⟩ := exists_replicate_append_digits256 bytes
  unfold ofNat
  split
  · next hzero =>
    rw [hzero, digits256_zero, List.append_nil] at hk
    cases k with
    | zero => exact absurd hk h
    | succ k => exact ⟨k, by rw [hk, List.replicate_succ']⟩
  · exact ⟨k, hk⟩

/-- Of the octet strings of a number the shortest is shorter than any other. -/
theorem length_ofNat_lt (h : bytes ≠ []) (hne : bytes ≠ ofNat bytes.toNat) :
    (ofNat bytes.toNat).length < bytes.length := by
  obtain ⟨k, hk⟩ := exists_replicate_append_ofNat h
  cases k with
  | zero => exact absurd hk hne
  | succ k =>
    have hlength := congrArg List.length hk
    rw [List.length_append, List.length_replicate] at hlength
    omega

end Bytes
end ChainIndex
