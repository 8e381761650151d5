import ChainIndex.Address
import ChainIndex.Proofs.Text.Utf8

/-!
What spells an octet string in hexadecimal, with digits of either case, is read as that string. So
different octet strings have different texts; in lowercase, these are all texts of an even length. The
codec of addresses that writes hexadecimal reads back whatever it wrote.
-/
namespace ChainIndex
namespace Hex

def IsDigit (octet : UInt8) (n : Nat) : Prop :=
  octet.toNat = (digit n).toNat ∨ octet.toNat = (digit n).toUpper.toNat

inductive Spells : Bytes → Bytes → Prop
  | nil : Spells [] []
  | cons {high low b : UInt8} {text bytes : Bytes} :
      IsDigit high (b.toNat / 16) → IsDigit low (b.toNat % 16) → Spells text bytes →
      Spells (high :: low :: text) (b :: bytes)

/-- The text stands for the number, most significant octet first. Leading zeros are allowed. -/
def SpellsNumber (text : Bytes) (n : Nat) : Prop := ∃ bytes, Spells text bytes ∧ bytes.toNat = n

variable {octet : UInt8} {n : Nat} {text bytes : Bytes}

theorem digit_toNat (hn : n < 16) :
    digitValue? (digit n).toNat.toUInt8 = some n ∧ digitValue? (digit n).toUpper.toNat.toUInt8 = some n := by
  revert n
  decide

theorem IsDigit.value (h : IsDigit octet n) (hn : n < 16) : digitValue? octet = some n := by
  obtain ⟨hsmall, hcapital⟩ := digit_toNat hn
  have hoctet : octet = octet.toNat.toUInt8 := UInt8.ofNat_toNat.symm
  rcases h with h | h
  · rw [hoctet, h]
    exact hsmall
  · rw [hoctet, h]
    exact hcapital

theorem Spells.even (h : Spells text bytes) : text.length % 2 = 0 := by
  induction h with
  | nil => rfl
  | cons _ _ _ ih =>
    simp only [List.length_cons]
    omega

theorem Spells.decodePairs (h : Spells text bytes) (position : Nat) :
    decodePairs position text = .ok bytes := by
  induction h generalizing position with
  | nil => rfl
  | @cons high low b text bytes hhigh hlow _ ih =>
    have hb : b.toNat < 256 := b.toNat_lt
    rw [Hex.decodePairs, hhigh.value (by omega), hlow.value (by omega)]
    simp only [ih, Except.map, Nat.div_add_mod', Nat.toUInt8_eq, UInt8.ofNat_toNat]

/-- What spells an octet string is read as it. -/
theorem Spells.decode (h : Spells text bytes) : decode text = .ok bytes := by
  rw [Hex.decode, h.even]
  exact h.decodePairs 0

/-- Digits are ASCII, and none of them is an at sign. -/
theorem IsDigit.plain (h : IsDigit octet n) (hn : n < 16) : octet.toNat < 128 ∧ octet ≠ 0x40 := by
  have hdigits : ∀ k < 16, ((digit k).toNat < 128 ∧ (digit k).toNat ≠ 0x40) ∧
      (digit k).toUpper.toNat < 128 ∧ (digit k).toUpper.toNat ≠ 0x40 := by decide
  obtain ⟨⟨hsmall, hsmallAt⟩, hcapital, hcapitalAt⟩ := hdigits n hn
  rcases h with h | h
  · exact ⟨h ▸ hsmall, fun hat => hsmallAt (h ▸ congrArg UInt8.toNat hat)⟩
  · exact ⟨h ▸ hcapital, fun hat => hcapitalAt (h ▸ congrArg UInt8.toNat hat)⟩

theorem Spells.plain (h : Spells text bytes) : ∀ octet ∈ text, octet.toNat < 128 ∧ octet ≠ 0x40 := by
  induction h with
  | nil => exact nofun
  | @cons high low b text bytes hhigh hlow _ ih =>
    have hb : b.toNat < 256 := b.toNat_lt
    intro octet ho
    rcases List.mem_cons.1 ho with rfl | ho
    · exact hhigh.plain (by omega)
    · rcases List.mem_cons.1 ho with rfl | ho
      · exact hlow.plain (by omega)
      · exact ih octet ho

theorem Spells.no_at (h : Spells text bytes) : (0x40 : UInt8) ∉ text := fun hat => (h.plain _ hat).2 rfl

theorem SpellsNumber.no_at (h : SpellsNumber text n) : (0x40 : UInt8) ∉ text := by
  obtain ⟨bytes, hspells, -⟩ := h
  exact hspells.no_at

end Hex

/-- The text of an octet string spells it. -/
theorem Hex.spells_hex (bytes : Bytes) : Spells (Utf8.encode bytes.hex) bytes := by
  have hdigits : ∀ k < 16, String.utf8EncodeChar (digit k) = [(digit k).toNat.toUInt8] ∧
      (digit k).toNat.toUInt8.toNat = (digit k).toNat := by decide
  induction bytes with
  | nil => exact .nil
  | cons b rest ih =>
    have hb : b.toNat < 256 := b.toNat_lt
    obtain ⟨hhigh, hhighDigit⟩ := hdigits (b.toNat / 16) (by omega)
    obtain ⟨hlow, hlowDigit⟩ := hdigits (b.toNat % 16) (by omega)
    have htext : Utf8.encode (Bytes.hex (b :: rest)) =
        (digit (b.toNat / 16)).toNat.toUInt8 :: (digit (b.toNat % 16)).toNat.toUInt8 ::
          Utf8.encode (Bytes.hex rest) := by
      simp only [Bytes.hex, List.flatMap_cons, encodeOctet, List.cons_append, List.nil_append,
        Utf8.encode_cons, hhigh, hlow]
    rw [htext]
    exact .cons (.inl hhighDigit) (.inl hlowDigit) ih

theorem Hex.mem_lowercase_iff {c : Char} : c ∈ "0123456789abcdef".toList ↔ ∃ n < 16, digit n = c := by
  have hdigits : "0123456789abcdef".toList = (List.range 16).map digit := by decide
  simp only [hdigits, List.mem_map, List.mem_range]

/-- An even number of lowercase digits is the text of some octet string. -/
theorem Hex.exists_eq_flatMap : (cs : List Char) → cs.length % 2 = 0 →
    (∀ c ∈ cs, c ∈ "0123456789abcdef".toList) → ∃ bytes : Bytes, cs = bytes.flatMap encodeOctet
  | [], _, _ => ⟨[], rfl⟩
  | [_], heven, _ => absurd heven (by simp)
  | high :: low :: rest, heven, hdigits => by
    obtain ⟨hhigh, hdigits⟩ := List.forall_mem_cons.1 hdigits
    obtain ⟨hlow, hrest⟩ := List.forall_mem_cons.1 hdigits
    obtain ⟨h, hh, rfl⟩ := mem_lowercase_iff.1 hhigh
    obtain ⟨l, hl, rfl⟩ := mem_lowercase_iff.1 hlow
    obtain ⟨bytes, rfl⟩ := exists_eq_flatMap rest (by simp only [List.length_cons] at heven; omega) hrest
    have hoctet : ((h * 16 + l).toUInt8).toNat = h * 16 + l := by simp; omega
    have hhalves : (h * 16 + l) / 16 = h ∧ (h * 16 + l) % 16 = l := by omega
    refine ⟨(h * 16 + l).toUInt8 :: bytes, ?_⟩
    rw [List.flatMap_cons, encodeOctet, hoctet, hhalves.1, hhalves.2]
    rfl

theorem Bytes.length_hex (bytes : Bytes) : bytes.hex.length = 2 * bytes.length := by
  rw [hex, String.length_ofList]
  induction bytes with
  | nil => rfl
  | cons b rest ih =>
    have hoctet : (Hex.encodeOctet b).length = 2 := rfl
    rw [List.flatMap_cons, List.length_append, ih, hoctet, List.length_cons]
    omega

theorem Bytes.hex_injective {a b : Bytes} (h : a.hex = b.hex) : a = b :=
  Except.ok.inj ((Hex.spells_hex a).decode.symm.trans (h ▸ (Hex.spells_hex b).decode))

namespace AddressCodec

variable {codec : AddressCodec} {address : Bytes} {text : String}

/-- What is written is the hexadecimal text of the address, which has the length that is asked for. -/
theorem text_of_encode (h : codec.encode address = .ok text) :
    text = address.hex ∧ ∀ expected, codec.length = some expected → address.length = expected := by
  rw [encode] at h
  cases hexpected : codec.length with
  | none =>
    rw [hexpected] at h
    cases address with
    | nil => cases h
    | cons b rest => exact ⟨(Except.ok.inj h).symm, nofun⟩
  | some expected =>
    rw [hexpected] at h
    dsimp only at h
    split at h
    · next hlength => exact ⟨(Except.ok.inj h).symm, fun _ heq => Option.some.inj heq ▸ hlength⟩
    · cases h

/-- An address is read back from its text. Other formats need not have this. -/
theorem decode_of_encode (h : codec.encode address = .ok text) : codec.decode text = .ok address := by
  obtain ⟨rfl, hlength⟩ := text_of_encode h
  rw [decode, (Hex.spells_hex address).decode]
  cases hexpected : codec.length with
  | none => rfl
  | some expected => simp only [hlength expected hexpected, ↓reduceIte]

end AddressCodec

end ChainIndex
