import ChainIndex.Amount
import ChainIndex.Proofs.Bytes.Number
import Mathlib.Data.Nat.Digits.Lemmas

/-!
Octets in words. Sixteen octets fill a word of 128 bits, so shifting in no more than that loses no bit, and the octets
that count are no more than sixteen exactly when their number is below `2 ^ 128`. The readers of octets are therefore
told by the number in base 256 alone.
-/
namespace ChainIndex
namespace Bytes

variable {bytes : Bytes} {word : BitVec 128} {b : UInt8}

section Digits

theorem toNat_eq_ofDigits (bytes : Bytes) : bytes.toNat = Nat.ofDigits 256 (bytes.map UInt8.toNat).reverse := by
  induction bytes using List.reverseRecOn with
  | nil => rfl
  | append_singleton bytes b ih =>
    rw [toNat_append_singleton, ih, List.map_append, List.map_singleton, List.reverse_append, List.reverse_singleton,
      List.singleton_append, Nat.ofDigits_cons, Nat.mul_comm, Nat.add_comm]

theorem toNat_lt (bytes : Bytes) : bytes.toNat < 256 ^ bytes.length := by
  have hdigits : ∀ digit ∈ (bytes.map UInt8.toNat).reverse, digit < 256 := by
    intro digit h
    obtain ⟨b, -, rfl⟩ := List.mem_map.1 (List.mem_reverse.1 h)
    exact b.toNat_lt
  have hlt := Nat.ofDigits_lt_base_pow_length (by decide) hdigits
  rwa [List.length_reverse, List.length_map, ← toNat_eq_ofDigits] at hlt

theorem toNat_cons (b : UInt8) (bytes : Bytes) :
    toNat (b :: bytes) = bytes.toNat + 256 ^ bytes.length * b.toNat := by
  rw [toNat_eq_ofDigits, List.map_cons, Nat.ofDigits_reverse_cons, ← toNat_eq_ofDigits, List.length_map]

/-- Leading zeros carry no value. -/
theorem toNat_significant (bytes : Bytes) : bytes.significant.toNat = bytes.toNat := by
  induction bytes with
  | nil => rfl
  | cons b rest ih =>
    by_cases hb : b = 0
    · have hdrop : significant (b :: rest) = significant rest := by simp [significant, hb]
      rw [hdrop, ih, toNat_cons, hb]
      rfl
    · have hkeep : significant (b :: rest) = b :: rest := by simp [significant, hb]
      rw [hkeep]

/-- The first octet that counts is not zero. -/
theorem ne_zero_of_significant_eq_cons {rest : Bytes} (h : bytes.significant = b :: rest) : b ≠ 0 := by
  have hdrop : bytes.dropWhile (· == 0) = b :: rest := h
  have hhead := List.head?_dropWhile_not (· == 0) bytes
  rw [hdrop] at hhead
  simpa using hhead

/-- The octets that count are as many as the number has digits. -/
theorem length_significant_le_iff {n : Nat} : bytes.significant.length ≤ n ↔ bytes.toNat < 256 ^ n := by
  rw [← toNat_significant]
  constructor
  · intro h
    exact Nat.lt_of_lt_of_le (toNat_lt _) (Nat.pow_le_pow_right (by decide) h)
  · intro h
    by_contra hlong
    cases hs : bytes.significant with
    | nil => simp [hs] at hlong
    | cons b rest =>
      rw [hs, List.length_cons] at hlong
      have hpos : 0 < b.toNat := UInt8.pos_iff_ne_zero.2 (ne_zero_of_significant_eq_cons hs)
      have hdigits : 256 ^ n ≤ 256 ^ rest.length := Nat.pow_le_pow_right (by decide) (by omega)
      have hhigh : 256 ^ rest.length ≤ 256 ^ rest.length * b.toNat := Nat.le_mul_of_pos_right _ hpos
      rw [hs, toNat_cons] at h
      omega

end Digits

section Shifts

/-- With its eight highest places free a word is shifted without loss. -/
theorem shiftLeft_shiftRight_eight (h : word.toNat < 2 ^ 120) : word <<< 8 >>> 8 = word := by
  apply BitVec.eq_of_toNat_eq
  rw [BitVec.toNat_ushiftRight, BitVec.toNat_shiftLeft, Nat.shiftLeft_eq, Nat.shiftRight_eq_div_pow,
    Nat.mod_eq_of_lt (by omega), Nat.mul_div_cancel _ (by decide)]

theorem toNat_shiftIn (h : word.toNat < 2 ^ 120) (b : UInt8) : (shiftIn word b).toNat = word.toNat * 256 + b.toNat := by
  have hb : b.toNat < 2 ^ 8 := b.toNat_lt
  rw [shiftIn, BitVec.toNat_or, BitVec.toNat_shiftLeft, BitVec.toNat_setWidth, UInt8.toNat_toBitVec,
    Nat.mod_eq_of_lt (by rw [Nat.shiftLeft_eq]; omega), Nat.mod_eq_of_lt (by omega),
    ← Nat.shiftLeft_add_eq_or_of_lt hb, Nat.shiftLeft_eq]

theorem shifted_append_singleton (bytes : Bytes) (b : UInt8) : shifted (bytes ++ [b]) = shiftIn bytes.shifted b :=
  List.foldl_append

/-- Fifteen octets leave room for one more. -/
theorem toNat_lt_of_length_lt (h : bytes.length < 16) : bytes.toNat < 2 ^ 120 := by
  calc bytes.toNat < 256 ^ bytes.length := toNat_lt bytes
    _ ≤ 256 ^ 15 := Nat.pow_le_pow_right (by decide) (Nat.le_of_lt_succ h)
    _ = 2 ^ 120 := by decide

/-- Up to sixteen octets are shifted in as the number they denote. -/
theorem toNat_shifted (h : bytes.length ≤ 16) : bytes.shifted.toNat = bytes.toNat := by
  induction bytes using List.reverseRecOn with
  | nil => rfl
  | append_singleton bytes b ih =>
    rw [List.length_append, List.length_singleton] at h
    have hread := ih (Nat.le_of_lt h)
    have hfree : (shifted bytes).toNat < 2 ^ 120 := hread ▸ toNat_lt_of_length_lt h
    rw [shifted_append_singleton, toNat_shiftIn hfree, hread, toNat_append_singleton]

end Shifts

section Readers

/-- Octets fit a word if their number does. -/
theorem toWord?_eq (bytes : Bytes) :
    bytes.toWord? = if bytes.toNat < 2 ^ 128 then some (BitVec.ofNat 128 bytes.toNat) else none := by
  have hbound : bytes.significant.length ≤ 16 ↔ bytes.toNat < 2 ^ 128 := length_significant_le_iff
  unfold toWord?
  by_cases h : bytes.toNat < 2 ^ 128
  · have hlength := hbound.2 h
    have hread := (toNat_shifted hlength).trans (toNat_significant bytes)
    rw [if_pos hlength, if_pos h, ← hread, BitVec.ofNat_toNat, BitVec.setWidth_eq]
  · rw [if_neg (mt hbound.1 h), if_neg h]

theorem toNonce?_eq (bytes : Bytes) :
    bytes.toNonce? = if bytes.toNat < UInt64.size then some bytes.toNat.toUInt64 else none := by
  have hsize : UInt64.size < 2 ^ 128 := by decide
  rw [toNonce?, toWord?_eq]
  split
  · next h => rw [Option.bind_some, narrow?, BitVec.toNat_ofNat, Nat.mod_eq_of_lt h]
  · rw [Option.bind_none, if_neg (by omega)]

theorem toUInt64Saturating_eq (bytes : Bytes) :
    bytes.toUInt64Saturating = (min bytes.toNat (UInt64.size - 1)).toUInt64 := by
  have hnonce : bytes.toUInt64Saturating = bytes.toNonce?.getD 0xFFFFFFFFFFFFFFFF := rfl
  rw [hnonce, toNonce?_eq]
  split
  · next h => rw [Option.getD_some, Nat.min_eq_left (by omega)]
  · next h =>
    rw [Option.getD_none, Nat.min_eq_right (by omega)]
    rfl

/-- The nonce of a token, read from octets. -/
theorem toNonce?_eq_some_iff {nonce : UInt64} : bytes.toNonce? = some nonce ↔ bytes.toNat = nonce.toNat := by
  have hlt := nonce.toNat_lt_size
  rw [toNonce?_eq]
  constructor
  · intro h
    split at h
    · next hn =>
      obtain rfl := Option.some.inj h
      simp [Nat.mod_eq_of_lt hn]
    · cases h
  · intro h
    rw [h, if_pos hlt, Nat.toUInt64_eq, UInt64.ofNat_toNat]

end Readers

end Bytes

theorem Amount.map_units_ofNat? (n : Nat) : (ofNat? n).map units = if n < bound then some n else none := by
  unfold ofNat?
  split <;> rfl

theorem Amount.ofBytes?_eq (bytes : Bytes) : ofBytes? bytes = ofNat? bytes.toNat := by
  have hbound : bound = 2 ^ 128 := rfl
  rw [ofBytes?, Bytes.toWord?_eq, ofNat?]
  split
  · next h =>
    rw [dif_pos (hbound ▸ h), Option.map_some]
    simp only [BitVec.toNat_ofNat, Nat.mod_eq_of_lt h]
  · next h => rw [dif_neg (hbound ▸ h), Option.map_none]

/-- A number is read from octets if it fits the word asked for, and stays at the greatest word of 64 bits where that is
asked for; with room for all octets that count none of the shifts loses a bit. -/
theorem octets_read_exactly (bytes : Bytes) :
    let v := Nat.ofDigits 256 (bytes.map UInt8.toNat).reverse
    (Amount.ofBytes? bytes).map Amount.units = (if v < 2 ^ 128 then some v else none) ∧
    bytes.toNonce?.map UInt64.toNat = (if v < 2 ^ 64 then some v else none) ∧
    bytes.toUInt64Saturating.toNat = min v (2 ^ 64 - 1) ∧
    ∀ front b back, bytes.significant = front ++ b :: back → bytes.significant.length ≤ 16 →
      Bytes.shifted front <<< 8 >>> 8 = Bytes.shifted front := by
  intro v
  have hv : bytes.toNat = v := bytes.toNat_eq_ofDigits
  have hword : UInt64.size = 2 ^ 64 := rfl
  refine ⟨?_, ?_, ?_, fun front b back hsplit hlength => ?_⟩
  · rw [Amount.ofBytes?_eq, hv, Amount.map_units_ofNat?]
    rfl
  · rw [Bytes.toNonce?_eq, hv, hword]
    split
    · next h => rw [Option.map_some, Nat.toUInt64_eq, UInt64.toNat_ofNat_of_lt' h]
    · rfl
  · rw [Bytes.toUInt64Saturating_eq, hv, Nat.toUInt64_eq, UInt64.toNat_ofNat_of_lt' (by omega), hword]
  · have hfront : front.length < 16 := by
      rw [hsplit, List.length_append, List.length_cons] at hlength
      omega
    have hread := Bytes.toNat_shifted (Nat.le_of_lt hfront)
    exact Bytes.shiftLeft_shiftRight_eight (hread ▸ Bytes.toNat_lt_of_length_lt hfront)

/-- Two zeros before sixteen octets that fill the word: no nonce, and the last shift moves the highest bit to its place. -/
theorem octets_read_exactly_full_word :
    let front : Bytes := 0x80 :: List.replicate 14 0xFF
    let bytes : Bytes := 0 :: 0 :: front ++ [0xFF]
    (Amount.ofBytes? bytes).map Amount.units = some (2 ^ 127 + 2 ^ 120 - 1) ∧ bytes.toNonce? = none ∧
    bytes.toUInt64Saturating.toNat = 2 ^ 64 - 1 ∧
    bytes.significant = front ++ 0xFF :: [] ∧ bytes.significant.length ≤ 16 ∧
    Bytes.shifted front <<< 8 >>> 8 = Bytes.shifted front := by
  intro front bytes
  have hv : Nat.ofDigits 256 (bytes.map UInt8.toNat).reverse = 2 ^ 127 + 2 ^ 120 - 1 := by decide
  obtain ⟨hamount, hnonce, hword, hshift⟩ := octets_read_exactly bytes
  rw [hv] at hamount hnonce hword
  have hsplit : bytes.significant = front ++ 0xFF :: [] := by decide
  have hlength : bytes.significant.length ≤ 16 := by decide
  exact ⟨hamount, Option.map_eq_none_iff.1 hnonce, hword, hsplit, hlength, hshift front 0xFF [] hsplit hlength⟩

end ChainIndex
