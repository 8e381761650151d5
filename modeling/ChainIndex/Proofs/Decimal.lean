import ChainIndex.Amount

/-!
The decimal text of an amount stands for that amount. What is read as zero has no other digit.
-/
namespace ChainIndex

theorem Decimal.foldl_toDigits (n : Nat) :
    (Nat.toDigits 10 n).foldl (fun acc c => acc * 10 + (c.toNat - 48)) 0 = n := by
  have h : Nat.ofDigitChars 10 (Nat.toDigits 10 n) 0 = n := Nat.ofDigitChars_ten_toDigits
  rw [Nat.ofDigitChars_eq_foldl] at h
  simp only [Nat.mul_comm 10] at h
  exact h

theorem Decimal.digits?_toDigits (n : Nat) : Decimal.digits? (Nat.toDigits 10 n) = some n := by
  have hall : (Nat.toDigits 10 n).all Char.isDigit = true :=
    List.all_eq_true.2 fun c hc => Nat.isDigit_of_mem_toDigits (by decide) (by decide) hc
  have hfold := Decimal.foldl_toDigits n
  cases hd : Nat.toDigits 10 n with
  | nil => exact absurd hd Nat.toDigits_ne_nil
  | cons c cs =>
    rw [hd] at hall hfold
    simp only [Decimal.digits?, hall, ↓reduceIte, hfold]

theorem Decimal.natural?_toString (n : Nat) : Decimal.natural? (toString n) = some n := by
  have hlist : (toString n).toList = Nat.toDigits 10 n := Nat.toList_repr
  unfold Decimal.natural?
  rw [hlist]
  split
  · next rest hd =>
    have hplus : '+' ∈ Nat.toDigits 10 n := by simp [hd]
    exact absurd (Nat.isDigit_of_mem_toDigits (by decide) (by decide) hplus) (by decide)
  · exact Decimal.digits?_toDigits n

/-- Digits are worth nothing if all of them are zero. -/
theorem Decimal.foldl_eq_zero_iff {cs : List Char} (hcs : cs.all Char.isDigit = true) (acc : Nat) :
    cs.foldl (fun acc c => acc * 10 + (c.toNat - 48)) acc = 0 ↔ acc = 0 ∧ ∀ c ∈ cs, c = '0' := by
  induction cs generalizing acc with
  | nil => simp
  | cons c rest ih =>
    rw [List.all_cons, Bool.and_eq_true] at hcs
    obtain ⟨hc, hrest⟩ := hcs
    have hdigit : c.toNat - 48 = 0 ↔ c = '0' := by
      constructor
      · intro h
        have hlow : 48 ≤ c.toNat := (Char.isDigit_iff_toNat.1 hc).1
        have hzero : ('0' : Char).toNat = 48 := rfl
        exact Char.toNat_inj.1 (by omega)
      · rintro rfl
        rfl
    rw [List.foldl_cons, ih hrest, List.forall_mem_cons, ← hdigit, Nat.add_eq_zero_iff, and_assoc]
    exact and_congr_left fun _ => by omega

theorem Decimal.digits?_eq_zero_iff {cs : List Char} : digits? cs = some 0 ↔ cs ≠ [] ∧ ∀ c ∈ cs, c = '0' := by
  cases cs with
  | nil => simp [digits?]
  | cons c rest =>
    by_cases hall : (c :: rest).all Char.isDigit = true
    · simp only [digits?, hall, ↓reduceIte, Option.some.injEq, foldl_eq_zero_iff hall, true_and, ne_eq, reduceCtorEq,
        not_false_eq_true]
    · simp only [digits?, hall, Bool.false_eq_true, ↓reduceIte, reduceCtorEq, false_iff]
      rintro ⟨-, hzeros⟩
      refine hall (List.all_eq_true.2 fun d hd => ?_)
      rw [hzeros d hd]
      rfl

/-- A text is read as zero if it is zeros only, maybe behind a plus sign. -/
theorem Decimal.natural?_eq_zero_iff {text : String} : natural? text = some 0 ↔
    ∃ zeros, zeros ≠ [] ∧ (∀ c ∈ zeros, c = '0') ∧ (text.toList = zeros ∨ text.toList = '+' :: zeros) := by
  unfold natural?
  split
  · next rest hplus =>
    rw [digits?_eq_zero_iff, hplus]
    constructor
    · rintro ⟨hne, hzeros⟩
      exact ⟨rest, hne, hzeros, .inr rfl⟩
    · rintro ⟨zeros, hne, hzeros, rfl | htext⟩
      · exact absurd (hzeros '+' List.mem_cons_self) (by decide)
      · obtain rfl := List.tail_eq_of_cons_eq htext
        exact ⟨hne, hzeros⟩
  · next hplain =>
    rw [digits?_eq_zero_iff]
    constructor
    · rintro ⟨hne, hzeros⟩
      exact ⟨_, hne, hzeros, .inl rfl⟩
    · rintro ⟨zeros, hne, hzeros, rfl | htext⟩
      · exact ⟨hne, hzeros⟩
      · exact absurd htext (hplain zeros)

@[simp] theorem Amount.ofText?_text (a : Amount) : Amount.ofText? a.text = some a := by
  rw [Amount.ofText?, Amount.text, Decimal.natural?_toString]
  simp [Amount.ofNat?, a.units_lt]

@[simp] theorem Amount.sub_units (a b : Amount) : (a - b).units = a.units - b.units := rfl

@[simp] theorem Amount.add_units (a b : Amount) :
    (a + b).units = min (a.units + b.units) (Amount.bound - 1) := rfl

@[ext] theorem Amount.ext {a b : Amount} (h : a.units = b.units) : a = b := by
  cases a
  cases b
  cases h
  rfl

namespace Saturating

@[simp] theorem toNat_add (a b : UInt64) :
    (add a b).toNat = min (a.toNat + b.toNat) (UInt64.size - 1) := by
  refine UInt64.toNat_ofNat_of_lt' ?_
  have : 0 < UInt64.size := by decide
  omega

@[simp] theorem toNat_sub (a b : UInt64) : (sub a b).toNat = a.toNat - b.toNat := by
  refine UInt64.toNat_ofNat_of_lt' ?_
  have := a.toNat_lt
  have : UInt64.size = 18446744073709551616 := rfl
  omega

end Saturating
end ChainIndex
